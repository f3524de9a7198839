import SkipZFP.Query.Run

/-! # What a count query returns

A store holds for every chunk an object of blocks, and a zone map whose records are right about the
blocks. A query of a single-layer array reads and counts the MAYBE blocks; the IN blocks it counts
unread.

* `planQuery_eq`: the plan of a query, the ids of the MAYBE blocks and the reads of their groups.
* `stored_group`: a merged read is inside its object.
* `sum_counts`: counting the MAYBE blocks and all values of the IN blocks counts the array.
* `query_counts`: **every run of a query returns the number of values in its range**. -/

namespace SkipZFP.Query.Count

open SkipZFP.Lib.Grid SkipZFP.Lib.Rows SkipZFP.Lib.Loops SkipZFP.Lib.Double SkipZFP.Lib.Float32
open SkipZFP.Codec.Config SkipZFP.Codec.Pack SkipZFP.Plan.Classify SkipZFP.Plan.Blocks
open SkipZFP.Plan.Shapes SkipZFP.Plan.Records SkipZFP.Read.Merge SkipZFP.Read.Gather
open SkipZFP.Read.Store SkipZFP.Read.ZoneMap SkipZFP.Read.Stream SkipZFP.Query.Run

/-! ### The MAYBE blocks -/

section Maybe
variable (fl : ℚ → ℚ) (zm : List UInt8) (p : PlanArgs) (lo hi : Dbl)

/-- The ids of the MAYBE blocks, in order. -/
def maybeIds : List (ℕ × ℕ) := (listing fl zm p lo hi false).map fun l => (l.chunk, l.block)

variable {fl zm p lo hi}

theorem mem_maybeIds {id : ℕ × ℕ} : id ∈ maybeIds fl zm p lo hi ↔
    id.1 < p.nChunk ∧ id.2 < p.blocksPerChunk ∧ stateAt fl zm p lo hi id.1 id.2 = .MAYBE := by
  simp only [maybeIds, List.mem_map, mem_listing, isListed]
  constructor
  · rintro ⟨l, ⟨h1, h2, h3, -, h5⟩, rfl⟩
    refine ⟨h1, h2, ?_⟩
    rw [← h3]
    simpa using h5
  · rintro ⟨h1, h2, h3⟩
    exact ⟨⟨id.1, id.2, .MAYBE, errorAt fl zm p id.1 id.2⟩, ⟨h1, h2, h3.symm, rfl, by simp⟩, rfl⟩

theorem pairwise_maybeIds : (maybeIds fl zm p lo hi).Pairwise IdLt := by
  unfold maybeIds
  rw [List.pairwise_map]
  exact pairwise_listing false

theorem lt_of_mem_maybeIds (hf : p.fits) : ∀ id ∈ maybeIds fl zm p lo hi, id.2 < 2 ^ 32 := by
  intro id hid
  have h := (mem_maybeIds.mp hid).2.1
  have hb := hf.2.2.1
  unfold uint32Max at hb
  omega

theorem length_maybeIds : (maybeIds fl zm p lo hi).length = countAll fl zm p lo hi .MAYBE := by
  rw [maybeIds, List.length_map, length_listing_false]

theorem maybeIds_eq : maybeIds fl zm p lo hi = (List.range p.nChunk).flatMap fun cid =>
    ((List.range p.blocksPerChunk).filter fun b => stateAt fl zm p lo hi cid b = .MAYBE).map
      fun b => (cid, b) := by
  unfold maybeIds listing chunkListing
  rw [List.map_flatMap]
  refine List.flatMap_congr fun cid _ => ?_
  rw [List.map_map]
  refine congrArg₂ _ rfl (List.filter_congr fun b _ => ?_)
  simp [isListed]

/-- **The blocks that are not read are counted right**: a function of the blocks that is `n` on the IN
blocks and 0 on the OUT blocks, summed over the array. -/
theorem sum_states {n : ℕ} {f : ℕ × ℕ → ℕ}
    (hin : ∀ cid < p.nChunk, ∀ b < p.blocksPerChunk, stateAt fl zm p lo hi cid b = .IN → f (cid, b) = n)
    (hout : ∀ cid < p.nChunk, ∀ b < p.blocksPerChunk,
      stateAt fl zm p lo hi cid b = .OUT → f (cid, b) = 0) :
    ((List.range p.nChunk).map fun cid => ((List.range p.blocksPerChunk).map fun b =>
      f (cid, b)).sum).sum = countAll fl zm p lo hi .IN * n + ((maybeIds fl zm p lo hi).map f).sum := by
  have hchunk : ∀ cid < p.nChunk, ∀ l : List ℕ, (∀ b ∈ l, b < p.blocksPerChunk) →
      (l.map fun b => f (cid, b)).sum = (l.countP fun b => stateAt fl zm p lo hi cid b = .IN) * n +
        ((l.filter fun b => stateAt fl zm p lo hi cid b = .MAYBE).map fun b => f (cid, b)).sum := by
    intro cid hcid l
    induction l with
    | nil => intro _; simp
    | cons b l ih =>
      intro hl
      have ih' := ih fun b' hb' => hl b' (List.mem_cons_of_mem _ hb')
      have hb := hl b List.mem_cons_self
      rw [List.map_cons, List.sum_cons, ih', List.countP_cons, List.filter_cons, Nat.add_mul]
      cases hst : stateAt fl zm p lo hi cid b with
      | IN => simp [hin cid hcid b hb hst]; omega
      | OUT => simp [hout cid hcid b hb hst]
      | MAYBE => simp; omega
  have hall : ∀ l : List ℕ, (∀ cid ∈ l, cid < p.nChunk) →
      (l.map fun cid => ((List.range p.blocksPerChunk).map fun b => f (cid, b)).sum).sum =
        (l.map (countState fl zm p lo hi .IN)).sum * n + ((l.flatMap fun cid =>
          ((List.range p.blocksPerChunk).filter fun b => stateAt fl zm p lo hi cid b = .MAYBE).map
            fun b => (cid, b)).map f).sum := by
    intro l
    induction l with
    | nil => intro _; simp
    | cons cid l ih =>
      intro hl
      have ih' := ih fun c hc => hl c (List.mem_cons_of_mem _ hc)
      have hc := hchunk cid (hl cid List.mem_cons_self) (List.range p.blocksPerChunk)
        fun b hb => List.mem_range.mp hb
      rw [List.map_cons, List.sum_cons, ih', hc, List.map_cons, List.sum_cons, List.flatMap_cons,
        List.map_append, List.sum_append, List.map_map, Nat.add_mul]
      unfold countState
      simp only [Function.comp_def]
      omega
  rw [hall _ fun _ hc => List.mem_range.mp hc, maybeIds_eq]
  rfl

end Maybe

/-! ### The plan -/

section Plan
variable {κ : Type} {a : ZarrArray κ} {lo hi : Dbl}

/-- What a query plans for a zone map `m`: the reads of the groups of its MAYBE blocks, layer by
layer. -/
def plannedOf (E : Env) (a : ZarrArray κ) (lo hi : Dbl) (opts : QueryOptions) (st : Setup)
    (m : List UInt8 × ℕ × ℕ) : Planned κ :=
  let zm := planMeta a.codec st.layer st.lt.unitShape m.1
  let ids := maybeIds E.fl zm st.lt.planArgs lo hi
  { metaBytes := m.2.1
    metaRequests := m.2.2
    ids := ids
    nIn := countAll E.fl zm st.lt.planArgs lo hi .IN
    nOut := countAll E.fl zm st.lt.planArgs lo hi .OUT
    perLayer := (List.range (st.layer + 1)).map fun j =>
      (readsOf (a.keyOf st.lt) (st.layerBytes j) (st.lt.layerStarts.getD j 0) 0
        (groups (opts.mergeGapBlocks % 2 ^ 64) ids), ids.map Prod.snd) }

theorem planQuery_eq [LinearOrder κ] {E : Env} {opts : QueryOptions} {st : Setup}
    (hshape : st.lt.planArgs.shapeOk) (hfits : st.lt.planArgs.fits) (m : List UInt8 × ℕ × ℕ) :
    planQuery E a lo hi opts st m = .ok (plannedOf E a lo hi opts st m) := by
  have hplan : ∀ zm, planChunks E.fl zm st.lt.planArgs lo hi = .ok (maybeIds E.fl zm st.lt.planArgs lo hi,
      countAll E.fl zm st.lt.planArgs lo hi .IN, countAll E.fl zm st.lt.planArgs lo hi .OUT) :=
    fun zm => planChunks_eq hshape hfits
  unfold planQuery
  rw [hplan, checked]
  dsimp only
  rw [mapM_ok fun j _ => by
    rw [mergeRanges_eq (a.keyOf st.lt) pairwise_maybeIds (lt_of_mem_maybeIds hfits), checked]]
  rfl

theorem sortedBlocks_plannedOf (E : Env) (opts : QueryOptions) (st : Setup) (m : List UInt8 × ℕ × ℕ) :
    (plannedOf E a lo hi opts st m).sortedBlocks = (plannedOf E a lo hi opts st m).ids.map Prod.snd := by
  unfold plannedOf Planned.sortedBlocks
  dsimp only
  rw [List.range_succ_eq_map]
  rfl

theorem streamReads_plannedOf (E : Env) (a : ZarrArray κ) (lo hi : Dbl) (opts : QueryOptions)
    {st : Setup} (hstart : st.lt.layerStarts.getD 0 0 = 0) (m : List UInt8 × ℕ × ℕ) :
    (plannedOf E a lo hi opts st m).streamReads =
      (readsOf (a.keyOf st.lt) (st.layerBytes 0) 0 0 (groups (opts.mergeGapBlocks % 2 ^ 64)
        (plannedOf E a lo hi opts st m).ids)).map fun req =>
          (req, (plannedOf E a lo hi opts st m).ids.map Prod.snd) := by
  unfold Planned.streamReads
  rw [sortedBlocks_plannedOf]
  unfold plannedOf
  dsimp only
  rw [List.range_succ_eq_map, List.map_cons, List.headD_cons, hstart]

/-- A merged read is inside its object, if the object holds the blocks that are asked for. -/
theorem stored_group {ids g : List (ℕ × ℕ)} (hs : ids.Pairwise IdLt) {keys : ℕ → κ}
    {gap blockSize base : ℕ} (hg : g ∈ groups gap ids) (hobj : ∀ id ∈ g, ∃ obj,
      a.get (keys id.1) = some obj ∧ base + (id.2 + 1) * blockSize ≤ obj.length) :
    Stored a keys blockSize base g := by
  have hin := joins_group hs hg
  obtain ⟨-, -, hlast⟩ := mem_group hg
  obtain ⟨obj, hget, hlen⟩ := hobj _ hlast
  rw [(hin _ hlast).1] at hget
  exact ⟨hin, (hin _ hlast).2.1, obj, hget, hlen⟩

theorem object_of_planned [LinearOrder κ] {E : Env} {opts : QueryOptions} {st : Setup} {n : ℕ}
    (hobj : ∀ cid < st.lt.planArgs.nChunk, ∃ obj, a.get (a.keyOf st.lt cid) = some obj ∧
      st.lt.planArgs.blocksPerChunk * n ≤ obj.length) (m : List UInt8 × ℕ × ℕ) :
    ∀ id ∈ (plannedOf E a lo hi opts st m).ids, ∃ obj, a.get (a.keyOf st.lt id.1) = some obj ∧
      (id.2 + 1) * n ≤ obj.length := by
  intro id hid
  obtain ⟨hcid, hb, -⟩ := mem_maybeIds.mp hid
  obtain ⟨obj, hget, hlen⟩ := hobj id.1 hcid
  exact ⟨obj, hget, (Nat.mul_le_mul_right _ hb).trans hlen⟩

/-- What is summed up group by group is summed up over all ids. -/
theorem sum_groups (gap : ℕ) (ids : List (ℕ × ℕ)) (f : ℕ × ℕ → ℕ) :
    ((groups gap ids).map fun g => (g.map f).sum).sum = (ids.map f).sum := by
  conv_rhs => rw [← flatten_groups gap ids, List.map_flatten, List.sum_flatten, List.map_map]
  rfl

end Plan

/-! ### What `setup` found out -/

section Setup
variable {κ : Type} {a : ZarrArray κ} {opts : QueryOptions} {st : Setup}

theorem setup_spec (h : setup a opts = .ok st) : getLayout a.codec a.shape a.chunk = .ok st.lt ∧
    st.layer < a.codec.layers.length ∧ metaObjects a st.lt = .ok st.mo := by
  unfold setup at h
  split at h
  · cases h
  · rename_i lt hlt
    obtain ⟨-, size, rfl⟩ := getLayout_ok hlt
    dsimp only at h
    split_ifs at h with h1 h2
    cases hm : metaObjects a (layoutOf a.codec a.shape a.chunk size) with
    | error e => rw [hm] at h; cases h
    | ok mo =>
      rw [hm] at h
      cases h
      refine ⟨hlt, ?_, hm⟩
      obtain ⟨h4, h3⟩ := h1
      show (opts.layer.getD _).toNat < a.codec.layers.length
      have h5 : (layoutOf a.codec a.shape a.chunk size).layers = a.codec.layers := rfl
      rw [h5] at h3 h4
      rw [h5]
      omega

theorem setup_eq {k size : ℕ} {mo : Option MetaObjects} (hc : a.codec.ChunkOk a.chunk)
    (hs : ∀ d, a.shape d % a.chunk d = 0) (hvolume : volume a.chunk < 2 ^ 60)
    (hsize : volume (blocksOf a.chunk) * blockBytes a.codec.rate = size)
    (hk : k < a.codec.layers.length) (hlayer : opts.layer.getD ((a.codec.layers.length : ℤ) - 1) = k)
    (hlimit : k = 0 ∨ opts.maxInflightBytes = none)
    (hmo : metaObjects a (layoutOf a.codec a.shape a.chunk size) = .ok mo) :
    setup a opts = .ok ⟨layoutOf a.codec a.shape a.chunk size, k, mo⟩ := by
  subst hsize
  have hlayers : ∀ size, (layoutOf a.codec a.shape a.chunk size).layers = a.codec.layers := fun _ => rfl
  unfold setup
  rw [getLayout_eq hc hs hvolume]
  dsimp only
  rw [hlayers, hlayer, if_neg (by omega), if_neg, hmo]
  · rfl
  · rintro ⟨hpos, hsome⟩
    rcases hlimit with h0 | hnone
    · omega
    · rw [hnone] at hsome
      cases hsome

variable (hc : a.codec.ChunkOk a.chunk) (h : setup a opts = .ok st)
include h

theorem layoutOf_setup : ∃ size, st.lt = layoutOf a.codec a.shape a.chunk size :=
  (getLayout_ok (setup_spec h).1).2

theorem shape_mod : ∀ d, a.shape d % a.chunk d = 0 := (getLayout_ok (setup_spec h).1).1

theorem rate_ok : 0 < st.rate ∧ Int.fract (8 * st.rate) = 0 := by
  obtain ⟨size, hlt⟩ := layoutOf_setup h
  have hl := (setup_spec h).2.1
  refine a.codec.multiple _ ?_
  unfold Setup.rate
  rw [hlt]
  show a.codec.layers.getD st.layer 0 ∈ a.codec.layers
  rw [List.getD_eq_getElem _ _ hl]
  exact List.getElem_mem hl

theorem blockDim_setup : st.lt.blockDim = blockDim := by
  obtain ⟨size, hlt⟩ := layoutOf_setup h
  rw [hlt]
  rfl

theorem valuesPerBlock_setup : st.lt.valuesPerBlock = 64 := by
  obtain ⟨size, hlt⟩ := layoutOf_setup h
  rw [hlt]
  rfl

/-- The blocks of layer 0 have the bytes of its rate and start at the beginning of the chunk. -/
theorem layer_zero (h0 : st.layer = 0) :
    st.layerBytes 0 = blockBytes st.rate ∧ st.lt.layerStarts.getD 0 0 = 0 := by
  obtain ⟨size, hlt⟩ := layoutOf_setup h
  have hpos := layers_length_pos a.codec
  have hsum := a.codec.sum_take_layerBytes hpos
  rw [sum_take_succ _ (by rw [a.codec.length_layerBytes]; exact hpos), List.take_zero, List.sum_nil,
    Nat.zero_add] at hsum
  unfold Setup.layerBytes Setup.rate
  rw [hlt, h0]
  refine ⟨hsum, ?_⟩
  rw [getD_layerStarts size hpos, List.take_zero, List.sum_nil, Nat.mul_zero]

include hc

theorem shapeOk_setup : st.lt.planArgs.shapeOk := by
  obtain ⟨size, hlt⟩ := layoutOf_setup h
  rw [hlt, planArgs_layoutOf]
  exact shapeOk_planArgs hc

theorem counts_setup : st.nChunk = st.lt.planArgs.nChunk ∧
    st.lt.blocksPerChunk = st.lt.planArgs.blocksPerChunk := by
  obtain ⟨size, hlt⟩ := layoutOf_setup h
  unfold Setup.nChunk
  rw [hlt]
  exact ⟨(congrArg volume (grid_planArgs hc)).symm, hc.volume_blocks⟩

end Setup

/-! ### The count -/

/-- The values in `(lo, hi]` among the decoded values of all blocks. -/
def matching {κ : Type*} (E : Env) (a : ZarrArray κ) (st : Setup) (lo hi : Dbl) : ℕ :=
  ((List.range st.lt.planArgs.nChunk).map fun cid =>
    ((List.range st.lt.planArgs.blocksPerChunk).map fun b => (List.finRange 64).countP fun i =>
      InRange lo hi (E.decode st.rate
        (storedBlock a (a.keyOf st.lt) (blockBytes st.rate) 0 (cid, b)) i).val).sum).sum

/-- **A store and its zone map.** Every chunk has an object of as many blocks as it should have, and for
the query `lo`, `hi` the zone map `zm` gives every block a state that is right for all its decoded
values. -/
structure SoundStore {κ : Type*} (E : Env) (a : ZarrArray κ) (st : Setup) (zm : List UInt8)
    (lo hi : Dbl) : Prop where
  object : ∀ cid < st.lt.planArgs.nChunk, ∃ obj, a.get (a.keyOf st.lt cid) = some obj ∧
    obj.length = st.lt.planArgs.blocksPerChunk * blockBytes st.rate
  sound : ∀ cid < st.lt.planArgs.nChunk, ∀ b < st.lt.planArgs.blocksPerChunk, ∀ i,
    Sound (stateAt E.fl zm st.lt.planArgs lo hi cid b) lo hi (E.decode st.rate
      (storedBlock a (a.keyOf st.lt) (blockBytes st.rate) 0 (cid, b)) i).val

theorem countValues_eq (decode : ℚ → List UInt8 → Values) (rate : ℚ) (lo hi : Dbl)
    (bytes : List UInt8) : countValues decode rate lo hi bytes =
      (List.finRange 64).countP fun i => InRange lo hi (decode rate bytes i).val := by
  unfold countValues
  rw [countInRange_eq, List.ofFn_eq_map, List.countP_map]
  rfl

section Count
variable {κ : Type*} {E : Env} {a : ZarrArray κ} {st : Setup} {zm : List UInt8} {lo hi : Dbl}

/-- **What the query adds up is the number of matching values.** -/
theorem sum_counts (hs : SoundStore E a st zm lo hi) :
    countAll E.fl zm st.lt.planArgs lo hi .IN * 64 +
      ((maybeIds E.fl zm st.lt.planArgs lo hi).map fun id => countValues E.decode st.rate lo hi
        (storedBlock a (a.keyOf st.lt) (blockBytes st.rate) 0 id)).sum = matching E a st lo hi := by
  rw [← sum_states (n := 64)]
  · unfold matching
    simp only [countValues_eq]
  · intro cid hcid b hb hst
    rw [countValues_eq, List.countP_eq_length.mpr, List.length_finRange]
    intro i _
    exact decide_eq_true ((hs.sound cid hcid b hb i).1 hst)
  · intro cid hcid b hb hst
    rw [countValues_eq, List.countP_eq_zero]
    intro i _
    rw [decide_eq_true_eq]
    exact (hs.sound cid hcid b hb i).2 hst

end Count

section Query
variable {κ : Type} [LinearOrder κ] {E : Env} {a : ZarrArray κ} {lo hi : Dbl} {opts : QueryOptions}
  {st : Setup}

omit [LinearOrder κ] in
/-- **A query at layer 0**, where the objects hold the blocks that are planned. -/
theorem returns_streamLayer {Q : QueryResult → Prop} (hst : setup a opts = .ok st) (h0 : st.layer = 0)
    {m : List UInt8 × ℕ × ℕ} (hobj : ∀ id ∈ (plannedOf E a lo hi opts st m).ids, ∃ obj,
      a.get (a.keyOf st.lt id.1) = some obj ∧ (id.2 + 1) * blockBytes st.rate ≤ obj.length)
    (hQ : ∀ peak, Q (streamResult st (plannedOf E a lo hi opts st m)
        ((groups (opts.mergeGapBlocks % 2 ^ 64) (plannedOf E a lo hi opts st m).ids).map fun g =>
          ((g.map fun id => countValues E.decode st.rate lo hi
            (storedBlock a (a.keyOf st.lt) (blockBytes st.rate) 0 id)).sum,
            groupBytes (blockBytes st.rate) g)) peak)) :
    (streamLayer E a lo hi opts st (plannedOf E a lo hi opts st m)).Returns Q := by
  obtain ⟨hbytes, hstart⟩ := layer_zero hst h0
  have hreads := streamReads_plannedOf E a lo hi opts hstart m
  rw [hbytes] at hreads
  have hstored : ∀ g ∈ groups (opts.mergeGapBlocks % 2 ^ 64) (plannedOf E a lo hi opts st m).ids,
      Stored a (a.keyOf st.lt) (blockBytes st.rate) 0 g := fun g hg =>
    stored_group pairwise_maybeIds hg fun id hid => by
      obtain ⟨obj, hget, hlen⟩ := hobj id ((mem_group hg).1 id hid)
      exact ⟨obj, hget, by rwa [Nat.zero_add]⟩
  refine returns_reads ?_ fun peak => returns_done rfl (hQ peak)
  unfold streamTasks
  rw [hbytes, blockDim_setup hst, hreads, mapM_readsOf, List.drop_zero, deal_groups, List.mapM_map]
  exact mapM_ok fun g hg => readGroup_countRead E.decode (rate_ok hst) (hstored g hg) lo hi

variable (lo hi) in
theorem returns_wholeQuery {Q : QueryResult → Prop} (hshape : st.lt.planArgs.shapeOk)
    (hfits : st.lt.planArgs.fits) {m : List UInt8 × ℕ × ℕ}
    (hm : (readMeta E a opts st).Returns (· = m))
    (hQ : (if st.layer = 0 then streamLayer E a lo hi opts st (plannedOf E a lo hi opts st m)
      else readLayers E a lo hi opts st (plannedOf E a lo hi opts st m)).Returns Q) :
    (wholeQuery E a lo hi opts st).Returns Q := by
  refine returns_bind (returns_mono (fun m' hm' => ?_) hm)
  subst hm'
  exact returns_bind (returns_done (planQuery_eq hshape hfits m') hQ)

theorem pipelined_eq_none (h : opts.pipeline = false) : st.pipelined opts = none := by
  unfold Setup.pipelined
  rw [h]
  cases st.mo <;> simp

theorem query_eq_wholeQuery (hst : setup a opts = .ok st) (h : st.pipelined opts = none) :
    queryAsync E a lo hi opts = wholeQuery E a lo hi opts st := by
  unfold queryAsync query
  rw [hst]
  dsimp only
  rw [h]

theorem query_eq_pipelinedQuery {mo : MetaObjects} (hst : setup a opts = .ok st)
    (h : st.pipelined opts = some mo) : queryAsync E a lo hi opts =
      pipelinedQuery E a lo hi opts st mo := by
  unfold queryAsync query
  rw [hst]
  dsimp only
  rw [h]

/-- **Every run of a single-layer query returns the number of values in its range.** For every codec
with one layer, every chunk shape it accepts, every array of whole chunks that the planner can number,
every decoder, every store with a sound zone map, every query and all options: every run ends with the
number of decoded values of the whole array in `(lo, hi]`, every block being counted as IN, OUT or
MAYBE. -/
theorem query_counts {l : List ℕ} (hchunk : a.codec.chunkShape l = .ok a.chunk)
    (hsingle : a.codec.layers.length = 1) (hpipe : opts.pipeline = false)
    (hst : setup a opts = .ok st) (hfits : st.lt.planArgs.fits) {m : List UInt8 × ℕ × ℕ}
    (hm : (readMeta E a opts st).Returns (· = m)) (hs : SoundStore E a st m.1 lo hi) :
    (queryAsync E a lo hi opts).Always fun r => r.count = matching E a st lo hi ∧
      r.inBlocks + r.outBlocks + r.maybeBlocks = r.totalBlocks ∧
      r.totalBlocks = st.lt.planArgs.totalBlocks := by
  have hc := a.codec.chunkOk_of_chunkShape hchunk
  have h0 : st.layer = 0 := by have := (setup_spec hst).2.1; omega
  obtain ⟨hn, hb⟩ := counts_setup hc hst
  have hzm : planMeta a.codec st.layer st.lt.unitShape m.1 = m.1 := if_pos hsingle
  rw [query_eq_wholeQuery hst (pipelined_eq_none hpipe)]
  refine always_of_returns (returns_wholeQuery lo hi (shapeOk_setup hc hst) hfits hm ?_)
  rw [if_pos h0]
  refine returns_streamLayer hst h0 (object_of_planned (fun cid hcid => ?_) m) fun peak => ⟨?_, ?_, ?_⟩
  · obtain ⟨obj, h1, h2⟩ := hs.object cid hcid
    exact ⟨obj, h1, h2.ge⟩
  · have hsum := sum_counts hs
    rw [← sum_groups (opts.mergeGapBlocks % 2 ^ 64)] at hsum
    rw [← hsum]
    show (plannedOf E a lo hi opts st m).nIn * st.lt.valuesPerBlock + _ = _
    rw [valuesPerBlock_setup hst, List.map_map]
    unfold plannedOf
    dsimp only
    rw [hzm]
    rfl
  · have hcount := count_states E.fl m.1 st.lt.planArgs lo hi
    show (plannedOf E a lo hi opts st m).nIn + (plannedOf E a lo hi opts st m).nOut +
      (plannedOf E a lo hi opts st m).sortedBlocks.length = st.nChunk * st.lt.blocksPerChunk
    rw [sortedBlocks_plannedOf, List.length_map, hn, hb]
    unfold plannedOf
    dsimp only
    rw [hzm, length_maybeIds]
    exact hcount
  · show st.nChunk * st.lt.blocksPerChunk = _
    rw [hn, hb]
    rfl

end Query

/-! ### An array of two blocks -/

/-- Two blocks: one of zeros, and one of ones of which the zone map says nothing. -/
def zonesOfTwo : List UInt8 :=
  List.replicate 14 0 ++ List.replicate 8 0 ++ F32.inf.bytes ++ [0, 0]

def arrayOfTwo : ZarrArray ℕ where
  codec := oneLayer
  shape := ![4, 4, 8]
  chunk := ![4, 4, 8]
  get k := if k = 0 then some (List.replicate 8 0 ++ [0, 0, 128, 63, 0, 0, 0, 0]) else some zonesOfTwo
  chunkKey := ravel ![1, 1, 1]
  metaKey := some fun i => i + 1
  source := none
  tChunk := some 1
  packing := none
  metaArray := .error .zstd

def envOfTwo : Env where
  fl := id
  decode _ bytes _ := F32.ofBytes bytes
  zstd := some
  memory _ _ := 0

def optionsOfTwo : QueryOptions := { pipeline := false, mergeGapBlocks := 1, maxInflightBytes := some 1 }

def optionsPipelined : QueryOptions := { optionsOfTwo with pipeline := true }

def setupOfTwo : Setup where
  lt := layoutOf oneLayer ![4, 4, 8] ![4, 4, 8] 16
  layer := 0
  mo := some ⟨1, 28, 1, false, 1⟩

theorem setup_ofTwo : setup arrayOfTwo optionsOfTwo = .ok setupOfTwo :=
  setup_eq (a := arrayOfTwo) (k := 0) (oneLayer.chunkOk_of_chunkShape chunkShape_oneLayer)
    (by decide) (by decide) (by decide +kernel) (by decide) rfl (Or.inl rfl) rfl

theorem soundStore_ofTwo : SoundStore envOfTwo arrayOfTwo setupOfTwo zonesOfTwo (.fin 0) .pinf where
  object := by
    intro cid hcid
    have h1 : setupOfTwo.lt.planArgs.nChunk = 1 := by decide +kernel
    obtain rfl : cid = 0 := by omega
    exact ⟨_, rfl, by decide +kernel⟩
  sound := by decide +kernel

/-- Two blocks, one of them read. -/
theorem query_counts_ofTwo :
    (queryAsync envOfTwo arrayOfTwo (.fin 0) .pinf optionsOfTwo).Always fun r => r.count = 64 := by
  have hm : (readMeta envOfTwo arrayOfTwo optionsOfTwo setupOfTwo).Returns
      (· = (zonesOfTwo, 28, 1)) := by
    unfold readMeta
    exact returns_zones rfl fun _ => returns_done rfl rfl
  have hfits : setupOfTwo.lt.planArgs.fits := by decide +kernel
  have hcount : matching envOfTwo arrayOfTwo setupOfTwo (.fin 0) .pinf = 64 := by decide +kernel
  have h := query_counts chunkShape_oneLayer rfl rfl setup_ofTwo hfits hm soundStore_ofTwo
  exact always_mono (fun r hr => hr.1.trans hcount) h

end SkipZFP.Query.Count
