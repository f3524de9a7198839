import SkipZFP.Query.Slabs

/-! # The pipelined query

`_query_pipelined` plans every zone map object alone and reads its blocks at once. `same_query`: **it
returns what the query with the whole zone map returns**, whatever the order in which the objects and the
reads arrive, where the counts are small enough for the doubles it adds up. -/

namespace SkipZFP.Query.Pipelined

open SkipZFP.Lib.Grid SkipZFP.Lib.Rows SkipZFP.Lib.Loops SkipZFP.Lib.Double SkipZFP.Lib.Float32
open SkipZFP.Codec.Config SkipZFP.Plan.Classify SkipZFP.Plan.Blocks SkipZFP.Plan.Shapes
open SkipZFP.Plan.Records SkipZFP.Plan.Slabs SkipZFP.Read.Merge SkipZFP.Read.Budget
open SkipZFP.Read.Gather SkipZFP.Read.Store SkipZFP.Read.ZoneMap SkipZFP.Read.Stream
open SkipZFP.Read.Slabs SkipZFP.Query.Run SkipZFP.Query.Count SkipZFP.Query.Slabs

/-! ### Sums in double precision -/

/-- A rounding that is exact for the integers a double holds. -/
def FixesIntegers (fl : ℚ → ℚ) : Prop := ∀ n : ℕ, n ≤ 2 ^ 53 → fl n = n

theorem floatSum_eq {fl : ℚ → ℚ} (hfl : FixesIntegers fl) {l : List ℕ} (h : l.sum ≤ 2 ^ 53) :
    floatSum fl l = l.sum := by
  have hfold : ∀ (l : List ℕ) (k : ℕ), k + l.sum ≤ 2 ^ 53 →
      l.foldl (fun acc (x : ℕ) => fl (acc + fl x)) (k : ℚ) = ((k + l.sum : ℕ) : ℚ) := by
    intro l
    induction l with
    | nil => intro k _; simp
    | cons x l ih =>
      intro k hk
      rw [List.sum_cons] at hk ⊢
      have hx : fl (x : ℚ) = x := hfl x (by omega)
      have hkx : fl ((k : ℚ) + x) = ((k + x : ℕ) : ℚ) := by
        rw [← Nat.cast_add]
        exact hfl (k + x) (by omega)
      rw [List.foldl_cons, hx, hkx, ih (k + x) (by omega), Nat.add_assoc]
  unfold floatSum
  have h0 := hfold l 0 (by omega)
  rw [Nat.cast_zero, Nat.zero_add] at h0
  rw [h0, Int.floor_natCast, Int.toNat_natCast]

/-- What a result counts: the values and the blocks of each state. -/
def counts (v : QueryResult) : List ℕ := [v.count, v.inBlocks, v.outBlocks, v.maybeBlocks]

/-- The same counts if they are below `2 ^ 53`, and the same result but for the peak if the payload bytes
and requests are too. -/
def SameSmall (v v' : QueryResult) : Prop := (∀ n ∈ counts v, n < 2 ^ 53) →
  counts v' = counts v ∧ (v.payloadBytesRead < 2 ^ 53 → v.payloadRequests < 2 ^ 53 →
    v' = v.withPeak v'.peakInflightBytes)

section Query
variable {κ : Type} {E : Env} {a : ZarrArray κ} {lo hi : Dbl} {opts : QueryOptions}
  {st : Setup} {mo : MetaObjects}

theorem planObject_eq (h : Slabbed a st mo) (i : ℕ) (hcount : i < mo.count) (data : List UInt8) :
    planObject E a lo hi opts st mo i data = (openObject E.zstd st.lt mo i data).map fun slab =>
      plannedObject a st mo E.fl lo hi false opts.mergeGapBlocks Listed.block
        (i, (slab, data.length)) := by
  unfold planObject
  cases openObject E.zstd st.lt mo i data with
  | error e => rfl
  | ok slab =>
    dsimp only [Except.map]
    have hargs : objectArgs st (min mo.tChunk (st.lt.unitGrid 0 - i * mo.tChunk)) =
        Plan.Slabs.slab st.lt.planArgs mo.tChunk i := rfl
    have hids := h.shift_ids E.fl lo hi false (x := (i, (slab, data.length))) hcount
    rw [hargs, ← objectZones, planChunks_eq (shapeOk_slab h.shapeOk h.whole) (h.fits_object hcount),
      checked]
    dsimp only at hids ⊢
    rw [hids, mergeRanges_eq (a.keyOf st.lt) (Slabbed.pairwise_objectIds E.fl lo hi false _)
      (h.block_lt E.fl lo hi false), checked, List.map_map]
    rfl

/-- What the reads of an object return. -/
def readObject (E : Env) (a : ZarrArray κ) (lo hi : Dbl) (opts : QueryOptions) (st : Setup)
    (mo : MetaObjects) (x : ℕ × (List UInt8 × ℕ)) : Except (QueryError κ) (List (ℕ × ℕ)) :=
  (deal (groups (opts.mergeGapBlocks % 2 ^ 64)
    ((objectListed a st mo E.fl lo hi false x).map idOf))
    ((objectListed a st mo E.fl lo hi false x).map Listed.block)).mapM fun y =>
      readGroup a (a.keyOf st.lt) (st.layerBytes 0) 0
        (countRead E.decode (st.layerBytes 0) (st.lt.layers.getD 0 0) st.lt.blockDim lo hi) y.1 y.2

theorem pipelinedTasks_ok (h : Slabbed a st mo)
    {rows : List (PlannedObject κ ℕ × List (ℕ × ℕ))} :
    (List.range mo.count).mapM (pipelinedTasks E a lo hi opts st mo).evalZone = .ok rows ↔
      ∃ ss bss, (List.range mo.count).mapM (openedObject E.zstd a st.lt mo) = .ok ss ∧
        ((List.range mo.count).zip ss).mapM (readObject E a lo hi opts st mo) = .ok bss ∧
        rows = (((List.range mo.count).zip ss).map (plannedObject a st mo E.fl lo hi false
          opts.mergeGapBlocks Listed.block)).zip bss :=
  evalZones_ok (planObject_eq h) fun _ => rfl

theorem ids_plannedOf (h0 : st.layer = 0) (ss : List (List UInt8 × ℕ)) :
    (plannedOf E a lo hi opts st (joinObjects st.lt mo ss)).ids =
      (listing E.fl (wholeZones a st mo ss) st.lt.planArgs lo hi false).map idOf := by
  unfold plannedOf wholeZones
  rw [h0]
  rfl

/-- **The reads of the whole query** are those of the objects, one object after another. -/
theorem streamTasks_ok (h : Slabbed a st mo) (h0 : st.layer = 0) {ss : List (List UInt8 × ℕ)}
    (hlen : ss.length = mo.count) (hsize : ∀ s ∈ ss, s.1.length = mo.size)
    {parts : List (ℕ × ℕ)} :
    (plannedOf E a lo hi opts st (joinObjects st.lt mo ss)).streamReads.mapM
        (streamTasks E a lo hi opts st).readResult = .ok parts ↔
      ∃ bss, ((List.range mo.count).zip ss).mapM (readObject E a lo hi opts st mo) = .ok bss ∧
        parts = bss.flatten := by
  have hstart : st.lt.layerStarts.getD 0 0 = 0 := h.start_zero
  have hsnd : ((listing E.fl (wholeZones a st mo ss) st.lt.planArgs lo hi false).map idOf).map
      Prod.snd = (listing E.fl (wholeZones a st mo ss) st.lt.planArgs lo hi false).map
        Listed.block := by rw [List.map_map]; rfl
  unfold streamTasks
  rw [streamReads_plannedOf E a lo hi opts hstart, mapM_readsOf, List.drop_zero, ids_plannedOf h0,
    hsnd, h.deal_objects E.fl lo hi false hlen hsize,
    mapM_flatMap_ok]
  unfold readObject Setup.rate
  rw [h0]

variable (E lo hi opts) in
/-- What the objects' plans add up to is the plan of the query. -/
theorem sum_plannedOf (h : Slabbed a st mo) (h0 : st.layer = 0) {ss : List (List UInt8 × ℕ)}
    (hlen : ss.length = mo.count) (hsize : ∀ s ∈ ss, s.1.length = mo.size) :
    let p := plannedOf E a lo hi opts st (joinObjects st.lt mo ss)
    let objects := ((List.range mo.count).zip ss).map (plannedObject a st mo E.fl lo hi false
      opts.mergeGapBlocks Listed.block)
    (objects.map fun o => o.nIn).sum = p.nIn ∧ (objects.map fun o => o.nOut).sum = p.nOut ∧
      (objects.map fun o => o.items.length).sum = p.sortedBlocks.length ∧
      (objects.map fun o => o.merged.length).sum = p.streamReads.length ∧
      (objects.map fun o => o.stored).sum = p.metaBytes := by
  have hzm : planMeta a.codec st.layer st.lt.unitShape (joinObjects st.lt mo ss).1 =
      wholeZones a st mo ss := by
    unfold wholeZones
    rw [h0]
  obtain ⟨hin, hout, hitems, hmerged, hstored⟩ :=
    h.sum_plannedObject E.fl lo hi false hlen hsize opts.mergeGapBlocks Listed.block
  dsimp only
  refine ⟨?_, ?_, ?_, ?_, ?_⟩
  · show _ = countAll E.fl (planMeta a.codec st.layer st.lt.unitShape _) st.lt.planArgs lo hi .IN
    rw [hzm, hin]
  · show _ = countAll E.fl (planMeta a.codec st.layer st.lt.unitShape _) st.lt.planArgs lo hi .OUT
    rw [hzm, hout]
  · rw [hitems, sortedBlocks_plannedOf, List.length_map, ids_plannedOf h0, List.length_map]
  · rw [hmerged, streamReads_plannedOf E a lo hi opts h.start_zero, List.length_map, length_readsOf,
      ids_plannedOf h0]
  · exact hstored

theorem pipelinedResult_eq (h : Slabbed a st mo) (h0 : st.layer = 0) (hfl : FixesIntegers E.fl)
    (hbytes : st.layerBytes 0 = blockBytes st.rate) {ss : List (List UInt8 × ℕ)}
    {bss : List (List (ℕ × ℕ))} (hlen : ss.length = mo.count)
    (hsize : ∀ s ∈ ss, s.1.length = mo.size) (hbss : bss.length = mo.count) (peak peak' : ℕ) :
    SameSmall (streamResult st (plannedOf E a lo hi opts st (joinObjects st.lt mo ss)) bss.flatten peak)
      (pipelinedResult E st mo ((((List.range mo.count).zip ss).map (plannedObject a st mo E.fl lo hi
        false opts.mergeGapBlocks Listed.block)).zip bss) peak') := by
  obtain ⟨hin, hout, hitems, hmerged, hstored⟩ := sum_plannedOf E lo hi opts h h0 hlen hsize
  intro hsmall
  simp only [counts, List.mem_cons, List.not_mem_nil, or_false, forall_eq_or_imp, forall_eq] at hsmall
  obtain ⟨s1, s2, s3, s4⟩ := hsmall
  dsimp only [streamResult, queryResult] at s1 s2 s3 s4
  have hzip : (((List.range mo.count).zip ss).map (plannedObject a st mo E.fl lo hi false
      opts.mergeGapBlocks Listed.block)).length = bss.length := by
    rw [List.length_map, List.length_zip, List.length_range, hlen, hbss, Nat.min_self]
  have hrow := fun f : PlannedObject κ ℕ → ℕ => (map_zip_sides hzip f fun _ => 0).1
  have hpart := fun g : List (ℕ × ℕ) → ℕ => (map_zip_sides hzip (fun _ => 0) g).2
  have hflat : ∀ f : ℕ × ℕ → ℕ, (bss.map fun bs => (bs.map f).sum).sum = (bss.flatten.map f).sum := by
    intro f
    rw [List.map_flatten, List.sum_flatten, List.map_map]
    rfl
  have hsum : ∀ {l : List ℕ} {n : ℕ}, l.sum = n → n < 2 ^ 53 → floatSum E.fl l = n :=
    fun h1 h2 => by rw [floatSum_eq hfl (by omega), h1]
  have hvalues := hsum (hflat Prod.fst) (by omega)
  constructor
  · unfold pipelinedResult streamResult queryResult counts
    dsimp only
    rw [hrow fun o => o.nIn, hrow fun o => o.nOut, hrow fun o => o.items.length,
      hpart fun bs => (bs.map Prod.fst).sum, hsum hin s2, hsum hout s3, hsum hitems s4, hvalues]
  · intro s5 s6
    dsimp only [streamResult, queryResult] at s5 s6
    unfold pipelinedResult streamResult queryResult QueryResult.withPeak
    dsimp only
    rw [hrow fun o => o.nIn, hrow fun o => o.nOut, hrow fun o => o.items.length,
      hrow fun o => o.merged.length, hrow fun o => o.stored,
      hpart fun bs => (bs.map Prod.fst).sum, hpart fun bs => (bs.map Prod.snd).sum,
      hsum hin s2, hsum hout s3, hsum hitems s4, hsum hmerged s6, hvalues,
      hsum (hflat Prod.snd) s5, hstored, hbytes]
    rfl

theorem pipelined_spec (hpipe : st.pipelined opts = some mo) : st.mo = some mo ∧
    opts.metaByKey = true ∧ st.layer = 0 ∧ mo.tChunk % st.lt.unitGridPerChunk 0 = 0 := by
  obtain ⟨h1, h2⟩ := Option.filter_eq_some_iff.mp hpipe
  simp only [decide_eq_true_eq, Bool.decide_and, Bool.and_eq_true] at h2
  obtain ⟨-, h3, h4, h5⟩ := h2
  exact ⟨h1, h3, h4, h5⟩

/-- What the pipelined paths rely on holds for an array of whole chunks. -/
theorem slabbed_of_setup {l : List ℕ} (hchunk : a.codec.chunkShape l = .ok a.chunk)
    (hst : setup a opts = .ok st) (hpipe : st.pipelined opts = some mo)
    (hfits : st.lt.planArgs.fits) : Slabbed a st mo := by
  obtain ⟨hlayout, -, hobjects⟩ := setup_spec hst
  obtain ⟨hmo, -, -, hwhole⟩ := pipelined_spec hpipe
  rw [hmo] at hobjects
  exact ⟨a.codec.chunkOk_of_chunkShape hchunk, hlayout, hobjects, hwhole, hfits⟩

theorem filter_mo (hmo : st.mo = some mo) (hkey : opts.metaByKey = true) :
    (st.mo.filter fun _ => opts.metaByKey) = some mo := by
  rw [hmo, hkey]
  rfl

theorem mayReturn_readMeta (hmo : st.mo = some mo) (hkey : opts.metaByKey = true)
    {m : List UInt8 × ℕ × ℕ} (h : (readMeta E a opts st).MayReturn m) :
    ∃ ss, (List.range mo.count).mapM (openedObject E.zstd a st.lt mo) = .ok ss ∧
      m = joinObjects st.lt mo ss := by
  unfold readMeta at h
  rw [filter_mo hmo hkey] at h
  obtain ⟨rows, -, hrows, hm⟩ := mayReturn_zones h
  obtain ⟨ss, hss, rfl⟩ := evalMeta_ok.mp hrows
  refine ⟨ss, hss, ?_⟩
  have hm' : joinObjects st.lt mo ((ss.map fun s => (s, ([] : List Unit))).map Prod.fst) = m :=
    Except.ok.inj hm
  rw [← hm', List.map_map]
  exact congrArg (joinObjects st.lt mo) (List.map_id' ss)

theorem returns_readMeta (hmo : st.mo = some mo) (hkey : opts.metaByKey = true)
    {ss : List (List UInt8 × ℕ)}
    (hss : (List.range mo.count).mapM (openedObject E.zstd a st.lt mo) = .ok ss) :
    (readMeta E a opts st).Returns (· = joinObjects st.lt mo ss) := by
  unfold readMeta
  rw [filter_mo hmo hkey]
  refine returns_zones (evalMeta_ok.mpr ⟨ss, hss, rfl⟩) fun _ => returns_done rfl ?_
  rw [List.map_map]
  exact congrArg (joinObjects st.lt mo) (List.map_id' ss)

variable [LinearOrder κ]

/-- **The pipelined query returns what the query with the whole zone map returns.** -/
theorem same_query (h : Slabbed a st mo) (hpipe : st.pipelined opts = some mo)
    (hfl : FixesIntegers E.fl) (hbytes : st.layerBytes 0 = blockBytes st.rate) :
    (wholeQuery E a lo hi opts st).SameUpTo SameSmall (pipelinedQuery E a lo hi opts st mo) := by
  obtain ⟨hmo, hkey, h0, -⟩ := pipelined_spec hpipe
  refine sameUpTo_of_returns (fun v hv => ?_) fun v' hv' => ?_
  · obtain ⟨m, hm, hv⟩ := mayReturn_bind hv
    obtain ⟨ss, hss, rfl⟩ := mayReturn_readMeta hmo hkey hm
    obtain ⟨hlen, hsize⟩ := opened_sizes hss
    obtain ⟨p, hp, hv⟩ := mayReturn_bind hv
    obtain rfl : plannedOf E a lo hi opts st (joinObjects st.lt mo ss) = p :=
      Except.ok.inj ((planQuery_eq h.shapeOk h.fits _).symm.trans hp)
    rw [if_pos h0] at hv
    obtain ⟨parts, peak, hparts, hv⟩ := mayReturn_reads hv
    obtain ⟨bss, hbss, rfl⟩ := (streamTasks_ok h h0 hlen hsize).mp hparts
    obtain rfl := Except.ok.inj hv
    refine returns_zones ((pipelinedTasks_ok h).mpr ⟨ss, bss, hss, hbss, rfl⟩) fun peak' => ?_
    refine returns_done rfl (pipelinedResult_eq h h0 hfl hbytes hlen hsize ?_ peak peak')
    rw [(getElem?_mapM_ok hbss).1, List.length_zip, List.length_range, hlen, Nat.min_self]
  · obtain ⟨rows, peak', hrows, hv⟩ := mayReturn_zones hv'
    obtain ⟨ss, bss, hss, hbss, rfl⟩ := (pipelinedTasks_ok h).mp hrows
    obtain rfl := Except.ok.inj hv
    obtain ⟨hlen, hsize⟩ := opened_sizes hss
    refine returns_wholeQuery lo hi h.shapeOk h.fits (returns_readMeta hmo hkey hss) ?_
    rw [if_pos h0]
    refine returns_reads ((streamTasks_ok h h0 hlen hsize).mpr ⟨bss, hbss, rfl⟩) fun peak => ?_
    refine returns_done rfl (pipelinedResult_eq h h0 hfl hbytes hlen hsize ?_ peak peak')
    rw [(getElem?_mapM_ok hbss).1, List.length_zip, List.length_range, hlen, Nat.min_self]

end Query

end SkipZFP.Query.Pipelined
