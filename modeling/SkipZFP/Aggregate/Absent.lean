import SkipZFP.Aggregate.Damaged
import SkipZFP.Aggregate.Exact
import SkipZFP.Aggregate.Pipelined
import SkipZFP.Query.Absent

/-! # Aggregates of arrays with chunks that are not stored

An aggregate reads the chunks that have an IN or a MAYBE block. When all of them are stored, its totals
are those of the values that reading the array returns; when one is not, it raises `FileNotFoundError`.

* `listing_eq`: the listed blocks, as those of all blocks that have to be read.
* `readGroup_listed`: the read of a group of a chunk that is stored.
* `perm_matching`: the values of the blocks that are not read are not in the range. -/

namespace SkipZFP.Aggregate.Absent

open SkipZFP.Lib.Grid SkipZFP.Lib.Rows SkipZFP.Lib.Loops SkipZFP.Lib.Double SkipZFP.Lib.Float32
open SkipZFP.Codec.Config SkipZFP.Codec.Pack SkipZFP.Codec.Meta SkipZFP.Plan.Classify SkipZFP.Plan.Blocks
open SkipZFP.Plan.Shapes SkipZFP.Plan.Records SkipZFP.Plan.Layers SkipZFP.Plan.Slabs SkipZFP.Plan.Right
open SkipZFP.Read.Merge SkipZFP.Read.Budget SkipZFP.Read.Gather SkipZFP.Read.Raise SkipZFP.Read.Missing
open SkipZFP.Read.Store SkipZFP.Read.ZoneMap SkipZFP.Read.Stream SkipZFP.Read.Slabs SkipZFP.Query.Run
open SkipZFP.Query.Slabs SkipZFP.Query.Pipelined SkipZFP.Query.Layers SkipZFP.Query.Reading
open SkipZFP.Query.Absent SkipZFP.Aggregate.Block SkipZFP.Aggregate.Combine SkipZFP.Aggregate.Run
open SkipZFP.Aggregate.Pipelined SkipZFP.Aggregate.Damaged SkipZFP.Aggregate.Exact
open SkipZFP.Query.Count (layer_zero rate_ok blockDim_setup shapeOk_setup shape_mod layoutOf_setup)
open SkipZFP.Aggregate.Sound (matching matching_append)

/-! ### The listed blocks -/

section Listed
variable {κ : Type} (E : Env) (a : ZarrArray κ) (st : Setup) (zm : List UInt8) (lo hi : Dbl)

/-- What the planner says of a block. -/
def entryOf (id : ℕ × ℕ) : Listed where
  chunk := id.1
  block := id.2
  state := blockState E a st zm lo hi id.1 id.2
  eps := errorAt E.fl (planMeta a.codec st.layer st.lt.unitShape zm) st.lt.planArgs id.1 id.2

/-- The ids of the blocks that an aggregate reads. -/
def listedIds : List (ℕ × ℕ) :=
  (blockIds st.lt.planArgs.nChunk st.lt.planArgs.blocksPerChunk).filter fun id =>
    isListed true (blockState E a st zm lo hi id.1 id.2)

theorem listing_eq : listing E.fl (planMeta a.codec st.layer st.lt.unitShape zm) st.lt.planArgs lo hi true =
    (listedIds E a st zm lo hi).map (entryOf E a st zm lo hi) := by
  unfold listing chunkListing listedIds blockIds
  show _ = (((List.range _).flatMap fun cid => (List.range _).map (Prod.mk cid)).filter _).map _
  rw [List.filter_flatMap, List.map_flatMap]
  refine List.flatMap_congr fun cid _ => ?_
  rw [List.filter_map, List.map_map]
  rfl

variable {E a st zm lo hi}

theorem mem_listedIds {id : ℕ × ℕ} : id ∈ listedIds E a st zm lo hi ↔ id.1 < st.lt.planArgs.nChunk ∧
    id.2 < st.lt.planArgs.blocksPerChunk ∧ isListed true (blockState E a st zm lo hi id.1 id.2) := by
  rw [listedIds, List.mem_filter, mem_blockIds, and_assoc]

theorem map_idOf : (listing E.fl (planMeta a.codec st.layer st.lt.unitShape zm) st.lt.planArgs lo hi
    true).map idOf = listedIds E a st zm lo hi := by
  rw [listing_eq, List.map_map]
  exact List.map_id _

theorem pairwise_listedIds : (listedIds E a st zm lo hi).Pairwise IdLt := by
  rw [← map_idOf, List.pairwise_map]
  exact pairwise_listing true

theorem listed_of_missing {cid : ℕ} (h : Missing E a st zm lo hi true cid) :
    ∃ id ∈ listedIds E a st zm lo hi, id.1 = cid := by
  obtain ⟨b, hb, hlisted⟩ := h.needed
  exact ⟨(cid, b), mem_listedIds.mpr ⟨h.lt, hb, hlisted⟩, rfl⟩

theorem missing_of_listed {id : ℕ × ℕ} (hid : id ∈ listedIds E a st zm lo hi)
    (h : a.get (a.keyOf st.lt id.1) = none) : Missing E a st zm lo hi true id.1 := by
  obtain ⟨hcid, hb, hlisted⟩ := mem_listedIds.mp hid
  exact ⟨hcid, h, id.2, hb, hlisted⟩

end Listed

/-! ### Values -/

theorem matching_filter {ι : Type*} {lo hi : Dbl} {p : ι → Bool} {values : ι → List F32} : ∀ {l : List ι},
    (∀ x ∈ l, p x = false → matching lo hi (values x) = []) →
      matching lo hi ((l.filter p).flatMap values) = matching lo hi (l.flatMap values)
  | [], _ => rfl
  | x :: l, h => by
    have ih := matching_filter fun y hy => h y (List.mem_cons_of_mem x hy)
    rw [List.flatMap_cons, matching_append]
    by_cases hx : p x = true
    · rw [List.filter_cons_of_pos hx, List.flatMap_cons, matching_append, ih]
    · rw [List.filter_cons_of_neg hx, ih, h x List.mem_cons_self (by simpa using hx), List.nil_append]

section Values
variable {κ : Type} {E : Env} {nat : Native F32} {a : ZarrArray κ} {st : Setup} {data : Tri → F32}
  {fill : F32} {zm : List UInt8} {lo hi : Dbl} {opts : QueryOptions}

/-- The values of a block, as reading the array returns them. -/
def valuesOf (nat : Native F32) (a : ZarrArray κ) (st : Setup) (data : Tri → F32) (fill : F32)
    (id : ℕ × ℕ) : List F32 := (cellsOf a id).map (readAt nat a data fill st.layer)

variable (hc : a.codec.ChunkOk a.chunk) (hst : Query.Run.setup a opts = .ok st)
include hc hst

/-- **The values of the blocks that are not read are not in the range**, where the states are right. -/
theorem perm_matching (hright : RightStates E nat a st data fill zm lo hi) :
    (matching lo hi ((listedIds E a st zm lo hi).flatMap (valuesOf nat a st data fill))).Perm
      (matching lo hi ((indices a.shape).map (readAt nat a data fill st.layer))) := by
  obtain ⟨-, hn, hblocks⟩ := sizes_setup hc hst
  have hcells := (perm_cells hc (shape_mod hst)).map (readAt nat a data fill st.layer)
  rw [List.map_flatMap, ← hn, ← hblocks] at hcells
  unfold listedIds
  rw [matching_filter fun id hid hout => ?_]
  · exact (hcells.filter _).map _
  · obtain ⟨hcid, hb⟩ := mem_blockIds.mp hid
    have hstate : blockState E a st zm lo hi id.1 id.2 = .OUT := by
      unfold isListed at hout
      cases hs : blockState E a st zm lo hi id.1 id.2 <;> rw [hs] at hout <;> simp_all
    unfold matching valuesOf
    rw [List.filter_eq_nil_iff.mpr, List.map_nil]
    intro v hv
    obtain ⟨i, hi, rfl⟩ := List.mem_map.mp hv
    simpa using (hright id.1 hcid id.2 hb i hi).2 hstate

end Values

/-! ### Aggregates -/

section Runs
variable {κ : Type} [LinearOrder κ] {E : Env} {nat : Native F32} {a : ZarrArray κ} {st : Setup}
  {data : Tri → F32} {fill : F32} {lo hi : Dbl} {opts : QueryOptions} {m : List UInt8 × ℕ × ℕ}
  (hc : a.codec.ChunkOk a.chunk) (hst : Query.Run.setup a opts = .ok st) (h0 : st.layer = 0)
  (hW : Written nat a st.lt data fill) (hdec : Blockwise nat E.decode st.rate)
  (hpre : Prefixed nat a.codec st.layer) (hlo : lo ≠ .nan) (hhi : hi ≠ .nan)
  (hsum : Summable E nat a st data fill m.1 lo hi)

include hc hst h0 hW hdec hpre hlo hhi hsum in
/-- **The read of a group** of a chunk that is stored. -/
theorem readGroup_listed (A : Arith) {ids g : List (ℕ × ℕ)} {gap : ℕ} (hs : ids.Pairwise IdLt)
    (hids : ∀ id ∈ ids, id ∈ listedIds E a st m.1 lo hi) (hg : g ∈ groups gap ids)
    (h : (a.get (a.keyOf st.lt (g.headD (0, 0)).1)).isSome) :
    ∃ acc, readGroup a (a.keyOf st.lt) (st.layerBytes 0) 0 (aggRead E A lo hi st) g
        (g.map (entryOf E a st m.1 lo hi)) = .ok ((acc, g.length), groupBytes (blockBytes st.rate) g) ∧
      (RightStates E nat a st data fill m.1 lo hi →
        Totals A lo hi (g.flatMap (valuesOf nat a st data fill)) acc) := by
  have hmem := fun id hid => mem_listedIds.mp (hids id hid)
  have hmem' := fun id hid => hmem id ((mem_group hg).1 id hid)
  have hrate : st.lt.layers.getD 0 0 = st.rate := by
    unfold Setup.rate
    rw [h0]
  obtain ⟨hstored, hblock⟩ := stored_planned hc hst hW h0 hs
    (fun id hid => ⟨(hmem id hid).1, (hmem id hid).2.1⟩) hg h
  have hvalues : ∀ id ∈ g, List.ofFn (E.decode st.rate (storedBlock a (a.keyOf st.lt)
      (blockBytes st.rate) 0 id)) = valuesOf nat a st data fill id := fun id hid => by
    rw [hblock id hid]
    exact decode_stored hc hst hW hdec hpre (hmem' id hid).1 (hmem' id hid).2.1
      (by rwa [(joins_group hs hg id hid).1])
  have heps : ∀ id ∈ g, ∃ e, (entryOf E a st m.1 lo hi id).eps.val = .fin e ∧ 0 ≤ e := fun id hid =>
    (hsum id.1 (hmem' id hid).1 id.2 (hmem' id hid).2.1 (hmem' id hid).2.2).1
  obtain ⟨acc, hread, htotals⟩ := readGroup_aggRead (A := A) hlo hhi (rate_ok hst) (layer_zero hst h0).1
    hrate (blockDim_setup hst) hstored (fun id => rfl) hvalues heps
  refine ⟨acc, hread, fun hright => htotals fun id hid v hv => ?_⟩
  obtain ⟨i, hi, rfl⟩ := List.mem_map.mp hv
  obtain ⟨hcid, hb, hlisted⟩ := hmem' id hid
  obtain ⟨q, hq⟩ := (hsum id.1 hcid id.2 hb hlisted).2 i hi
  refine ⟨q, hq, fun hin => ?_⟩
  rw [← hq]
  exact (hright id.1 hcid id.2 hb i hi).1 (of_decide_eq_true hin)

/-- When all groups are read, the values of all listed blocks are added up. -/
theorem flatten_values (values : ℕ × ℕ → List F32) (gap : ℕ) (ids : List (ℕ × ℕ)) :
    ((groups gap ids).map fun g => g.flatMap values).flatten = ids.flatMap values := by
  conv_rhs => rw [← flatten_groups gap ids]
  rw [List.flatMap_def, List.map_flatten, List.flatten_flatten, List.map_map]
  rfl

include h0 in
omit [LinearOrder κ] in
theorem planAggregate_listed (hshape : st.lt.planArgs.shapeOk) (hfits : st.lt.planArgs.fits)
    (E : Env) (a : ZarrArray κ) (lo hi : Dbl) (opts : QueryOptions) (m : List UInt8 × ℕ × ℕ) :
    ∃ nIn nOut, planAggregate E a lo hi opts st m = .ok ((listedIds E a st m.1 lo hi).map
      (entryOf E a st m.1 lo hi), nIn, nOut, readsOf (a.keyOf st.lt) (st.layerBytes 0) 0 0
        (groups (opts.mergeGapBlocks % 2 ^ 64) (listedIds E a st m.1 lo hi))) := by
  have hzm : planMeta a.codec 0 st.lt.unitShape m.1 = planMeta a.codec st.layer st.lt.unitShape m.1 := by
    rw [h0]
  have hplan : planAggregate E a lo hi opts st m = _ := planAggregate_eq hshape hfits m
  rw [hzm, map_idOf, listing_eq] at hplan
  exact ⟨_, _, hplan⟩

section Whole
variable (hfits : st.lt.planArgs.fits) (hm : (readMeta E a opts st).Returns (· = m)) (A : Arith)
  (returnBlocks : Bool)
include hc hst h0 hfits hm

include hW hdec hpre hlo hhi hsum in
theorem returns_whole (hright : RightStates E nat a st data fill m.1 lo hi)
    (hall : ∀ id ∈ listedIds E a st m.1 lo hi, (a.get (a.keyOf st.lt id.1)).isSome) :
    (wholeAggregate E A a lo hi opts returnBlocks st).Returns fun r => Reports A
      (matching lo hi ((indices a.shape).map (readAt nat a data fill st.layer))) r.combined := by
  set ids := listedIds E a st m.1 lo hi with hids
  set gs := groups (opts.mergeGapBlocks % 2 ^ 64) ids with hgs
  have hread : ∀ g ∈ gs, ∃ acc, readGroup a (a.keyOf st.lt) (st.layerBytes 0) 0
      (aggRead E A lo hi st) g (g.map (entryOf E a st m.1 lo hi)) =
        .ok ((acc, g.length), groupBytes (blockBytes st.rate) g) ∧
      Totals A lo hi (g.flatMap (valuesOf nat a st data fill)) acc := fun g hg => by
    obtain ⟨acc, hread, htotals⟩ := readGroup_listed hc hst h0 hW hdec hpre hlo hhi hsum A
      pairwise_listedIds (fun id hid => hid) hg (hall _ ((mem_group hg).1 _ (mem_group hg).2.1))
    exact ⟨acc, hread, htotals hright⟩
  have : Nonempty SzAggregate := ⟨.init⟩
  choose! acc hacc htotals using hread
  have hparts : AllTotals A lo hi ((gs.map fun g => ((acc g, g.length),
      groupBytes (blockBytes st.rate) g)).map Prod.fst)
        (gs.map fun g => g.flatMap (valuesOf nat a st data fill)) := by
    rw [List.map_map]
    exact List.forall₂_map_left_iff.mpr (List.forall₂_map_right_iff.mpr
      (List.forall₂_same.mpr fun g hg => htotals g hg))
  obtain ⟨c, hc', hreports⟩ := combine_totals st.lt.valuesPerBlock hparts
  rw [flatten_values] at hreports
  obtain ⟨nIn, nOut, hplan⟩ := planAggregate_listed h0 (shapeOk_setup hc hst) hfits E a lo hi opts m
  refine returns_bind (returns_mono (fun m' hm' => ?_) hm)
  subst hm'
  refine returns_bind (returns_done hplan ?_)
  have hreads : ((readsOf (a.keyOf st.lt) (st.layerBytes 0) 0 0 gs).map fun req =>
      (req, ids.map (entryOf E a st m'.1 lo hi))).mapM (aggregateTasks E A a lo hi opts st).readResult =
        .ok (gs.map fun g => ((acc g, g.length), groupBytes (blockBytes st.rate) g)) := by
    unfold aggregateTasks
    rw [mapM_readsOf, List.drop_zero, deal_groups, List.mapM_map]
    exact mapM_ok hacc
  refine returns_reads hreads fun peak => ?_
  have hresult := hreports.perm (perm_matching hc hst hright)
  refine returns_done (v := aggregateResult returnBlocks st c nIn nOut (ids.map
    (entryOf E a st m'.1 lo hi)).length m'.2.1 m'.2.2 (readsOf (a.keyOf st.lt) (st.layerBytes 0) 0 0
      gs).length ((gs.map fun g => ((acc g, g.length), groupBytes (blockBytes st.rate) g)).map
        Prod.snd).sum ((ids.map (entryOf E a st m'.1 lo hi)).map idOf) peak) ?_ hresult
  unfold wholeResult combined
  rw [hc']
  rfl

omit [LinearOrder κ] in
theorem not_mayReturn_whole {cid : ℕ} (hmiss : Missing E a st m.1 lo hi true cid) (v : AggregateResult) :
    ¬ (wholeAggregate E A a lo hi opts returnBlocks st).MayReturn v := by
  intro hv
  obtain ⟨id, hid, hcid⟩ := listed_of_missing hmiss
  have hnone := hmiss.absent
  rw [← hcid] at hnone
  obtain ⟨nIn, nOut, hplan⟩ := planAggregate_listed h0 (shapeOk_setup hc hst) hfits E a lo hi opts m
  have hv := mayReturn_of_bind (returns_done hplan rfl) (mayReturn_of_bind hm hv)
  obtain ⟨parts, peak, hparts, -⟩ := mayReturn_reads hv
  exact not_ok_of_missing pairwise_listedIds hid hnone _ hparts

include hW hdec hpre hlo hhi hsum in
theorem mayRaise_whole {cid : ℕ} (hmiss : Missing E a st m.1 lo hi true cid) {e : QueryError κ}
    (he : MayRaise e (wholeAggregate E A a lo hi opts returnBlocks st)) :
    ∃ cid, Missing E a st m.1 lo hi true cid ∧ e = .FileNotFoundError (a.keyOf st.lt cid) := by
  obtain ⟨id, hid, hcid⟩ := listed_of_missing hmiss
  have hnone := hmiss.absent
  rw [← hcid] at hnone
  obtain ⟨nIn, nOut, hplan⟩ := planAggregate_listed h0 (shapeOk_setup hc hst) hfits E a lo hi opts m
  have he := mayRaise_of_bind (returns_done hplan rfl) (mayRaise_of_bind hm he)
  rcases mayRaise_reads he with ⟨r, hr, hread⟩ | ⟨parts, peak, hparts, -⟩
  · obtain ⟨id, hid, hnone, rfl⟩ := error_of_reads (fun g hg hsome => by
      obtain ⟨acc, hacc, -⟩ := readGroup_listed hc hst h0 hW hdec hpre hlo hhi hsum A
        pairwise_listedIds (fun id hid => hid) hg hsome
      exact ⟨_, hacc⟩) hr hread
    exact ⟨id.1, missing_of_listed hid hnone, rfl⟩
  · exact absurd hparts (not_ok_of_missing pairwise_listedIds hid hnone _)

/-! ### Pipelined -/

section Pipelined
variable {mo : MetaObjects} {l : List ℕ} (hchunk : a.codec.chunkShape l = .ok a.chunk)
  (hpipe : st.pipelined opts = some mo)
include hchunk hpipe

omit hc hm [LinearOrder κ] in
/-- The objects do not all succeed if a chunk is missing that is needed. -/
theorem not_rows_of_missing {ss : List (List UInt8 × ℕ)} {cid : ℕ}
    (hss : (List.range mo.count).mapM (openedObject E.zstd a st.lt mo) = .ok ss)
    (hmiss : Missing E a st (joinObjects st.lt mo ss).1 lo hi true cid)
    (rows : List (PlannedObject κ Listed × List ((SzAggregate × ℕ) × ℕ))) :
    (List.range mo.count).mapM (slabTasks E A a lo hi opts st mo).evalZone ≠ .ok rows := by
  intro hrows
  have h := slabbed_of_setup hchunk hst hpipe hfits
  obtain ⟨id, hid, hcid⟩ := listed_of_missing hmiss
  have hnone := hmiss.absent
  rw [← hcid] at hnone
  obtain ⟨hlen, hsize⟩ := opened_sizes hss
  obtain ⟨ss', bss, hss', hbss, -⟩ := (slabTasks_ok h).mp hrows
  obtain rfl : ss = ss' := Except.ok.inj (hss.symm.trans hss')
  have hparts := (aggregateTasks_ok h hlen hsize).mpr ⟨bss, hbss, rfl⟩
  have hlisted : listedOf E a lo hi st mo ss = (listedIds E a st (joinObjects st.lt mo ss).1 lo hi).map
      (entryOf E a st (joinObjects st.lt mo ss).1 lo hi) := by
    rw [← listing_eq, h0]
    rfl
  have hids : (listedOf E a lo hi st mo ss).map idOf =
      listedIds E a st (joinObjects st.lt mo ss).1 lo hi := by
    rw [hlisted, List.map_map]
    exact List.map_id _
  rw [hids, hlisted] at hparts
  exact not_ok_of_missing pairwise_listedIds hid hnone _ hparts

omit hc [LinearOrder κ] in
theorem not_mayReturn_pipelined {cid : ℕ} (hmiss : Missing E a st m.1 lo hi true cid)
    (v : AggregateResult) : ¬ (pipelinedAggregate E A a lo hi opts returnBlocks st mo).MayReturn v := by
  intro hv
  obtain ⟨ss, hss, rfl⟩ := eq_joinObjects hpipe hm
  obtain ⟨rows, peak, hrows, -⟩ := mayReturn_zones hv
  exact not_rows_of_missing hst h0 hfits A hchunk hpipe hss hmiss rows hrows

include hW hdec hpre hlo hhi hsum in
theorem mayRaise_pipelined {cid : ℕ} (hmiss : Missing E a st m.1 lo hi true cid) {e : QueryError κ}
    (he : MayRaise e (pipelinedAggregate E A a lo hi opts returnBlocks st mo)) :
    ∃ cid, Missing E a st m.1 lo hi true cid ∧ e = .FileNotFoundError (a.keyOf st.lt cid) := by
  have h := slabbed_of_setup hchunk hst hpipe hfits
  obtain ⟨ss, hss, rfl⟩ := eq_joinObjects hpipe hm
  have hzones : wholeZones a st mo ss =
      planMeta a.codec st.layer st.lt.unitShape (joinObjects st.lt mo ss).1 := by
    rw [h0]
    rfl
  have hids : (listing E.fl (wholeZones a st mo ss) st.lt.planArgs lo hi true).map idOf =
      listedIds E a st (joinObjects st.lt mo ss).1 lo hi := by rw [hzones, map_idOf]
  have hitem : ∀ x ∈ listing E.fl (wholeZones a st mo ss) st.lt.planArgs lo hi true,
      id x = entryOf E a st (joinObjects st.lt mo ss).1 lo hi (idOf x) := fun x hx => by
    rw [hzones, listing_eq] at hx
    obtain ⟨id, -, rfl⟩ := List.mem_map.mp hx
    rfl
  rcases mayRaise_slabs h (planSlab_eq h) hss hitem (fun ids hs hin g hg hsome => by
      rw [hids] at hin
      obtain ⟨acc, hacc, -⟩ := readGroup_listed hc hst h0 hW hdec hpre hlo hhi hsum A hs hin hg hsome
      exact ⟨_, hacc⟩) he with ⟨id, hid, hnone, rfl⟩ | ⟨rows, peak, hrows, -⟩
  · rw [hids] at hid
    exact ⟨id.1, missing_of_listed hid hnone, rfl⟩
  · exact absurd hrows (not_rows_of_missing hst h0 hfits A hchunk hpipe hss hmiss rows)

end Pipelined

/-! ### All aggregates -/

section All
variable {l : List ℕ} (hchunk : a.codec.chunkShape l = .ok a.chunk)
include hchunk hW hdec hpre hlo hhi hsum

omit hc in
/-- **A chunk that is needed and missing is noticed** in every run, and nothing else is raised. -/
theorem raises_aggregate (hmiss : ∃ cid, Missing E a st m.1 lo hi true cid) :
    Raises (fun e => ∃ cid, Missing E a st m.1 lo hi true cid ∧
      e = .FileNotFoundError (a.keyOf st.lt cid)) (aggregateAsync E A a lo hi opts returnBlocks) := by
  have hc := a.codec.chunkOk_of_chunkShape hchunk
  obtain ⟨cid, hmiss⟩ := hmiss
  unfold aggregateAsync aggregate
  rw [setup_of_query hst h0]
  dsimp only
  cases hpipe : st.pipelined opts with
  | none =>
    exact raises_of_mayRaise (not_mayReturn_whole hc hst h0 hfits hm A returnBlocks hmiss)
      fun e he => mayRaise_whole hc hst h0 hW hdec hpre hlo hhi hsum hfits hm A returnBlocks hmiss he
  | some mo =>
    exact raises_of_mayRaise (not_mayReturn_pipelined hst h0 hfits hm A returnBlocks hchunk hpipe hmiss)
      fun e he => mayRaise_pipelined hc hst h0 hW hdec hpre hlo hhi hsum hfits hm A returnBlocks hchunk
        hpipe hmiss he

omit hc in
/-- **An aggregate of which no chunk is missing has the totals of the values that are read**, where the
states are right. -/
theorem always_aggregate (hall : ¬ ∃ cid, Missing E a st m.1 lo hi true cid)
    (hright : RightStates E nat a st data fill m.1 lo hi) :
    (aggregateAsync E A a lo hi opts returnBlocks).Always fun r => Reports A
      (matching lo hi ((indices a.shape).map (readAt nat a data fill st.layer))) r.combined := by
  have hc := a.codec.chunkOk_of_chunkShape hchunk
  have hstored : ∀ id ∈ listedIds E a st m.1 lo hi, (a.get (a.keyOf st.lt id.1)).isSome := by
    intro id hid
    by_contra hnone
    exact hall ⟨id.1, missing_of_listed hid (by simpa using hnone)⟩
  have hwhole := returns_whole hc hst h0 hW hdec hpre hlo hhi hsum hfits hm A returnBlocks hright hstored
  unfold aggregateAsync aggregate
  rw [setup_of_query hst h0]
  dsimp only
  cases hpipe : st.pipelined opts with
  | none => exact always_of_returns hwhole
  | some mo =>
    obtain ⟨v, hv, hreports⟩ := exists_of_always (always_of_returns hwhole)
    have hsame : (wholeAggregate E A a lo hi opts returnBlocks st).SameUpTo _ _ :=
      same_aggregate (slabbed_of_setup hchunk hst hpipe hfits) hpipe
    refine always_mono (fun v' hv' => ?_) (hsame.1 v hv)
    rw [hv']
    exact hreports

end All

end Whole

end Runs

end SkipZFP.Aggregate.Absent
