import SkipZFP.Query.Reading
import SkipZFP.Read.Missing

/-! # Queries of arrays with chunks that are not stored

A query reads the chunks that have a MAYBE block. When all of them are stored, what it counts are values
that reading the array returns, whatever else is missing; when one is not, it raises `FileNotFoundError`.

* `returns_whole`: the counts of a query whose chunks are stored.
* `count_eq`: they count the values that are read, where the states are right.
* `mayRaise_slabs`: what a pipelined query or aggregate can raise.
* `raises_query`, `always_query`: **a chunk that is needed and missing is noticed in every run, and
  without one the values that are read are counted.** -/

namespace SkipZFP.Query.Absent

open SkipZFP.Lib.Grid SkipZFP.Lib.Rows SkipZFP.Lib.Loops SkipZFP.Lib.Double SkipZFP.Lib.Float32
open SkipZFP.Codec.Config SkipZFP.Codec.Pack SkipZFP.Plan.Classify SkipZFP.Plan.Blocks
open SkipZFP.Plan.Shapes SkipZFP.Plan.Records SkipZFP.Plan.Layers SkipZFP.Plan.Slabs SkipZFP.Read.Merge
open SkipZFP.Read.Budget SkipZFP.Read.Gather SkipZFP.Read.Raise SkipZFP.Read.Missing
open SkipZFP.Read.Store SkipZFP.Read.ZoneMap SkipZFP.Read.Stream SkipZFP.Read.Slabs
open SkipZFP.Query.Run SkipZFP.Query.Count
open SkipZFP.Query.Slabs SkipZFP.Query.Pipelined SkipZFP.Query.Fill SkipZFP.Query.Layers
open SkipZFP.Query.Reading

section Batches
variable {κ : Type} {a : ZarrArray κ} {opts : QueryOptions}

theorem mayReturn_readBatches {v : List (List UInt8)} : ∀ {todo : List (List (Range κ))}
    {parts : List (List UInt8)}, (readBatches a opts todo parts).MayReturn v →
      ∀ q ∈ todo.flatten, ∃ x, readOne a q = .ok x
  | [], _, _, q, hq => by cases hq
  | b :: todo, parts, h, q, hq => by
    obtain ⟨now, peak, hnow, hnext⟩ := mayReturn_reads h
    rcases List.mem_append.mp hq with hq | hq
    · obtain ⟨k, hk, rfl⟩ := List.getElem_of_mem hq
      obtain ⟨x, -, hx⟩ := (getElem?_mapM_ok hnow).2 k _ (List.getElem?_eq_getElem hk)
      have hread : (readOne a b[k]).bind (fun data => .ok data) = .ok x := hx
      cases hone : readOne a b[k] with
      | ok y => exact ⟨y, rfl⟩
      | error e => rw [hone] at hread; cases hread
    · exact mayReturn_readBatches hnext q hq

theorem mayRaise_readBatches {e : QueryError κ} : ∀ {todo : List (List (Range κ))}
    {parts : List (List UInt8)}, MayRaise e (readBatches a opts todo parts) →
      ∃ q ∈ todo.flatten, readOne a q = .error e
  | [], _, h => by cases h
  | b :: todo, parts, h => by
    rcases mayRaise_reads h with ⟨q, hq, hread⟩ | ⟨now, peak, -, hnext⟩
    · refine ⟨q, List.mem_append_left _ hq, ?_⟩
      have hread : (readOne a q).bind (fun data => .ok data) = .error e := hread
      cases hone : readOne a q with
      | ok y => rw [hone] at hread; cases hread
      | error e' => rw [hone] at hread; cases hread; rfl
    · obtain ⟨q, hq, hread⟩ := mayRaise_readBatches hnext
      exact ⟨q, List.mem_append_right _ hq, hread⟩

end Batches

section Objects
variable {κ α β R : Type} {E : Env} {a : ZarrArray κ} {st : Setup} {mo : MetaObjects} {lo hi : Dbl}
  {keepIn : Bool} {gap : ℕ} {item : Listed → α} {f : ℕ × ℕ → α}
  {plan : ℕ → List UInt8 → Except (QueryError κ) (PlannedObject κ α)}
  {use : ℕ → List α → List UInt8 → Except (QueryError κ) β} {limit : Option ℕ} {permits : ℕ}
  {hp : 0 < permits} {next : List (PlannedObject κ α × List (β × ℕ)) → ℕ → Program (QueryError κ) R}

/-- **What zone map objects raise** that can all be opened: that a chunk is missing that has a listed
block, if the reads of the stored chunks succeed. -/
theorem mayRaise_slabs (h : Slabbed a st mo)
    (hplan : ∀ i < mo.count, ∀ data, plan i data = (openObject E.zstd st.lt mo i data).map fun slab =>
      plannedObject a st mo E.fl lo hi keepIn gap item (i, (slab, data.length)))
    {ss : List (List UInt8 × ℕ)}
    (hss : (List.range mo.count).mapM (openedObject E.zstd a st.lt mo) = .ok ss)
    (hitem : ∀ l ∈ listing E.fl (wholeZones a st mo ss) st.lt.planArgs lo hi keepIn, item l = f (idOf l))
    (hok : ∀ ids : List (ℕ × ℕ), ids.Pairwise IdLt → (∀ id ∈ ids,
        id ∈ (listing E.fl (wholeZones a st mo ss) st.lt.planArgs lo hi keepIn).map idOf) →
      ∀ g ∈ groups (gap % 2 ^ 64) ids, (a.get (a.keyOf st.lt (g.headD (0, 0)).1)).isSome →
        ∃ x, readGroup a (a.keyOf st.lt) (st.layerBytes 0) 0 use g (g.map f) = .ok x)
    {e : QueryError κ} (he : MayRaise e (zones (slabWork a plan use limit) hp (List.range mo.count) next)) :
    (∃ id ∈ (listing E.fl (wholeZones a st mo ss) st.lt.planArgs lo hi keepIn).map idOf,
        a.get (a.keyOf st.lt id.1) = none ∧ e = .FileNotFoundError (a.keyOf st.lt id.1)) ∨
      ∃ rows peak, (List.range mo.count).mapM (slabWork a plan use limit).evalZone = .ok rows ∧
        MayRaise e (next rows peak) := by
  rcases mayRaise_zones he with ⟨z, hz, hzone⟩ | hnext
  · left
    obtain ⟨hlen, hsize⟩ := opened_sizes hss
    have hcount := List.mem_range.mp hz
    obtain ⟨s, hs, hopen⟩ := (getElem?_mapM_ok hss).2 z z (List.getElem?_range hcount)
    have hmem : (z, s) ∈ (List.range mo.count).zip ss := List.mem_of_getElem?
      (List.getElem?_zip_eq_some.mpr ⟨List.getElem?_range hcount, hs⟩)
    rw [zoneResult_slabWork use limit hplan hcount, hopen] at hzone
    rcases hzone with hzone | ⟨p, hzone, r, hr, hread⟩
    · cases hzone
    obtain rfl := Except.ok.inj hzone
    -- the ids of the object are among those of the array
    have hsub : ∀ l ∈ objectListed a st mo E.fl lo hi keepIn (z, s),
        l ∈ listing E.fl (wholeZones a st mo ss) st.lt.planArgs lo hi keepIn := fun l hl => by
      rw [h.listing_objects hlen hsize E.fl lo hi keepIn]
      exact List.mem_flatMap.mpr ⟨_, hmem, hl⟩
    have hids : ∀ id ∈ (objectListed a st mo E.fl lo hi keepIn (z, s)).map idOf,
        id ∈ (listing E.fl (wholeZones a st mo ss) st.lt.planArgs lo hi keepIn).map idOf :=
      fun id hid => List.map_subset idOf hsub hid
    have hitems : (objectListed a st mo E.fl lo hi keepIn (z, s)).map item =
        ((objectListed a st mo E.fl lo hi keepIn (z, s)).map idOf).map f := by
      rw [List.map_map]
      exact List.map_congr_left fun l hl => hitem l (hsub l hl)
    have hreads : (slabWork a plan use limit).reads
        (plannedObject a st mo E.fl lo hi keepIn gap item (z, s)) =
          (readsOf (a.keyOf st.lt) (st.layerBytes 0) 0 0 (groups (gap % 2 ^ 64)
            ((objectListed a st mo E.fl lo hi keepIn (z, s)).map idOf))).map fun req =>
              (req, ((objectListed a st mo E.fl lo hi keepIn (z, s)).map idOf).map f) := by
      rw [← hitems]
      rfl
    rw [hreads] at hr
    have hread : (streamWork a use limit).readResult r = .error e := hread
    obtain ⟨id, hid, hnone, rfl⟩ := error_of_reads (hok _ (Slabbed.pairwise_objectIds E.fl lo hi keepIn _)
      hids) hr hread
    exact ⟨id, hids id hid, hnone, rfl⟩
  · exact Or.inr hnext

end Objects

section Query
variable {κ : Type} [LinearOrder κ] {E : Env} {nat : Native F32} {a : ZarrArray κ} {st : Setup}
  {data : Tri → F32} {fill : F32} {lo hi : Dbl} {opts : QueryOptions} {m : List UInt8 × ℕ × ℕ}
  (hc : a.codec.ChunkOk a.chunk) (hst : setup a opts = .ok st) (hW : Written nat a st.lt data fill)

/-! ### The planned blocks -/

omit [LinearOrder κ] in
theorem mem_planned {id : ℕ × ℕ} : id ∈ (plannedOf E a lo hi opts st m).ids ↔
    id.1 < st.lt.planArgs.nChunk ∧ id.2 < st.lt.planArgs.blocksPerChunk ∧
      isListed false (blockState E a st m.1 lo hi id.1 id.2) := by
  refine mem_maybeIds.trans ?_
  unfold isListed blockState
  simp

omit [LinearOrder κ] in
theorem missing_of_planned {id : ℕ × ℕ} (hid : id ∈ (plannedOf E a lo hi opts st m).ids)
    (h : a.get (a.keyOf st.lt id.1) = none) : Missing E a st m.1 lo hi false id.1 := by
  obtain ⟨hcid, hb, hlisted⟩ := mem_planned.mp hid
  exact ⟨hcid, h, id.2, hb, hlisted⟩

omit [LinearOrder κ] in
theorem planned_of_missing {cid : ℕ} (h : Missing E a st m.1 lo hi false cid) :
    ∃ id ∈ (plannedOf E a lo hi opts st m).ids, id.1 = cid := by
  obtain ⟨b, hb, hlisted⟩ := h.needed
  exact ⟨(cid, b), mem_planned.mpr ⟨h.lt, hb, hlisted⟩, rfl⟩

include hc hst hW

/-- What is stored of a chunk are the rows of its blocks. -/
theorem holds_filled : Holds (filled nat a st data) st (blockRow nat a st data) :=
  holds_of_packed (a := filled nat a st data) hc hst (packed_filled hW)

theorem block_stored (h0 : st.layer = 0) {id : ℕ × ℕ} (hcid : id.1 < st.lt.planArgs.nChunk)
    (hb : id.2 < st.lt.planArgs.blocksPerChunk) (h : (a.get (a.keyOf st.lt id.1)).isSome) :
    (∃ obj, a.get (a.keyOf st.lt id.1) = some obj ∧ (id.2 + 1) * blockBytes st.rate ≤ obj.length) ∧
      storedBlock a (a.keyOf st.lt) (blockBytes st.rate) 0 id =
        (blockRow nat a st data id).take (blockBytes st.rate) := by
  obtain ⟨hn, hblocks⟩ := counts_setup hc hst
  have hkey : (filled nat a st data).keyOf st.lt = a.keyOf st.lt := rfl
  have hholds := holds_filled hc hst hW
  constructor
  · obtain ⟨obj, hget, hlen⟩ := block_of_packed (a := filled nat a st data) hc hst
        (packed_filled hW) hcid hb
    rw [hkey, get_filled h] at hget
    exact ⟨obj, hget, hlen⟩
  · have hrow : storedBlock (filled nat a st data) ((filled nat a st data).keyOf st.lt)
        (blockBytes st.rate) 0 id = _ :=
      storedBlock_holds (a := filled nat a st data) hst h0 hholds (by rwa [hn]) (by rwa [hblocks])
    unfold storedBlock at hrow ⊢
    rwa [hkey, get_filled h] at hrow

theorem stored_planned (h0 : st.layer = 0) {ids g : List (ℕ × ℕ)} {gap : ℕ} (hs : ids.Pairwise IdLt)
    (hin : ∀ id ∈ ids, id.1 < st.lt.planArgs.nChunk ∧ id.2 < st.lt.planArgs.blocksPerChunk)
    (hg : g ∈ groups gap ids) (h : (a.get (a.keyOf st.lt (g.headD (0, 0)).1)).isSome) :
    Stored a (a.keyOf st.lt) (blockBytes st.rate) 0 g ∧ ∀ id ∈ g,
      storedBlock a (a.keyOf st.lt) (blockBytes st.rate) 0 id =
        (blockRow nat a st data id).take (blockBytes st.rate) := by
  have hblock := fun id (hid : id ∈ g) => block_stored hc hst hW h0
    (hin id ((mem_group hg).1 id hid)).1 (hin id ((mem_group hg).1 id hid)).2
      (by rwa [(joins_group hs hg id hid).1])
  refine ⟨stored_group hs hg fun id hid => ?_, fun id hid => (hblock id hid).2⟩
  obtain ⟨obj, hget, hlen⟩ := (hblock id hid).1
  exact ⟨obj, hget, by rwa [Nat.zero_add]⟩

theorem readGroup_stored (h0 : st.layer = 0) {ids g : List (ℕ × ℕ)} {gap : ℕ} (hs : ids.Pairwise IdLt)
    (hin : ∀ id ∈ ids, id.1 < st.lt.planArgs.nChunk ∧ id.2 < st.lt.planArgs.blocksPerChunk)
    (hg : g ∈ groups gap ids) (h : (a.get (a.keyOf st.lt (g.headD (0, 0)).1)).isSome) (E : Env)
    (lo hi : Dbl) : ∃ x, readGroup a (a.keyOf st.lt) (st.layerBytes 0) 0
      (countRead E.decode (st.layerBytes 0) st.rate st.lt.blockDim lo hi) g (g.map Prod.snd) = .ok x := by
  obtain ⟨hstored, -⟩ := stored_planned hc hst hW h0 hs hin hg h
  rw [(layer_zero hst h0).1, blockDim_setup hst]
  exact ⟨_, readGroup_countRead E.decode (rate_ok hst) hstored lo hi⟩

/-! ### Queries whose chunks are stored -/

theorem readOne_stored {q : Range κ × Fill κ}
    (hq : q ∈ payloadReqs opts st (plannedOf E a lo hi opts st m)) (h : (a.get q.1.key).isSome) :
    readOne a q.1 = .ok (bytesOf (filled nat a st data) q.1) := by
  have hread := readOne_payload (a := filled nat a st data) (holds_filled hc hst hW)
    (regular_plannedOf (a := filled nat a st data) hc hst E lo hi m) opts q hq
  unfold readOne at hread ⊢
  rwa [get_filled h] at hread

theorem returns_whole (hfits : st.lt.planArgs.fits) (hm : (readMeta E a opts st).Returns (· = m))
    (hall : ∀ id ∈ (plannedOf E a lo hi opts st m).ids, (a.get (a.keyOf st.lt id.1)).isSome) :
    (wholeQuery E a lo hi opts st).Returns fun r =>
      counts r = layerCounts nat a st data opts E lo hi m := by
  by_cases h0 : st.layer = 0
  · have hblock := fun id (hid : id ∈ (plannedOf E a lo hi opts st m).ids) =>
      block_stored hc hst hW h0 (mem_planned.mp hid).1 (mem_planned.mp hid).2.1 (hall id hid)
    exact returns_layerZero hc hst h0 hfits hm (fun id hid => (hblock id hid).1)
      fun id hid => (hblock id hid).2
  · have hp := regular_plannedOf (a := filled nat a st data) hc hst E lo hi m
    have hread : ((payloadReqs opts st (plannedOf E a lo hi opts st m)).map Prod.fst).mapM
        (batchTasks a).readResult = .ok (payloadParts (filled nat a st data) opts st
          (plannedOf E a lo hi opts st m)) := by
      rw [List.mapM_map]
      refine mapM_ok fun q hq => ?_
      show (readOne a q.1).bind _ = _
      obtain ⟨id, hid, hkey⟩ := (regular_plannedOf hc hst E lo hi m).key_payload opts q hq
      rw [readOne_stored hc hst hW hq (by rw [hkey]; exact hall id hid)]
      rfl
    refine returns_wholeQuery lo hi (shapeOk_setup hc hst) hfits hm ?_
    rw [if_neg h0]
    refine returns_bind (returns_readBatches (by rwa [flatten_batched batchSize_pos]) ?_)
    rw [List.nil_append]
    refine returns_done (layersResult_eq (a := filled nat a st data) (rate_ok hst) (getLastD_cols hst).2
      (blockDim_setup hst) (holds_filled hc hst hW) hp) ?_
    unfold counts layerCounts queryResult
    dsimp only
    rw [valuesPerBlock_setup hst, sortedBlocks_plannedOf, List.length_map]

section Values
variable (hdec : Blockwise nat E.decode st.rate) (hpre : Prefixed nat a.codec st.layer)
include hdec hpre

omit [LinearOrder κ] in
/-- **The stored bytes of a block decode to the values that are read.** -/
theorem decode_stored {id : ℕ × ℕ} (hcid : id.1 < st.lt.planArgs.nChunk)
    (hb : id.2 < st.lt.planArgs.blocksPerChunk) (h : (a.get (a.keyOf st.lt id.1)).isSome) :
    List.ofFn (E.decode st.rate ((blockRow nat a st data id).take (blockBytes st.rate))) =
      (cellsOf a id).map (readAt nat a data fill st.layer) := by
  obtain ⟨size, hlt⟩ := layoutOf_setup hst
  have hrate : st.rate = a.codec.layers.getD st.layer 0 := by
    unfold Setup.rate
    rw [hlt]
    rfl
  rw [decode_blockRow hc hst hdec hpre hb]
  refine List.map_congr_left fun i hi => ?_
  rcases readAt_cell hc hst hW hcid hb hi with ⟨hnone, -, -⟩ | ⟨-, hread⟩
  · rw [hnone] at h
    cases h
  · rw [hread, hrate]

omit [LinearOrder κ] in
/-- **What is counted are the values that are read**, where the states are right. -/
theorem count_eq (hright : RightStates E nat a st data fill m.1 lo hi)
    (hall : ∀ id ∈ (plannedOf E a lo hi opts st m).ids, (a.get (a.keyOf st.lt id.1)).isSome) :
    (plannedOf E a lo hi opts st m).nIn * 64 +
      ((plannedOf E a lo hi opts st m).ids.map fun id => countValues E.decode st.rate lo hi
        ((blockRow nat a st data id).take (blockBytes st.rate))).sum =
      (indices a.shape).countP fun i => InRange lo hi (readAt nat a data fill st.layer i).val := by
  obtain ⟨-, hn, hblocks⟩ := sizes_setup hc hst
  have hmaybe : ∀ id ∈ (plannedOf E a lo hi opts st m).ids, countValues E.decode st.rate lo hi
      ((blockRow nat a st data id).take (blockBytes st.rate)) = (cellsOf a id).countP fun i =>
        InRange lo hi (readAt nat a data fill st.layer i).val := by
    intro id hid
    obtain ⟨hcid, hb, -⟩ := mem_planned.mp hid
    unfold countValues
    rw [countInRange_eq, decode_stored hc hst hW hdec hpre hcid hb (hall id hid), List.countP_map]
    rfl
  have hcells := countP_cells hc (shape_mod hst)
    fun i => InRange lo hi (readAt nat a data fill st.layer i).val
  rw [← hn, ← hblocks, ← sum_blockIds] at hcells
  rw [List.map_congr_left hmaybe, hcells]
  refine (sum_states (n := 64) (f := fun id => (cellsOf a id).countP fun i =>
    InRange lo hi (readAt nat a data fill st.layer i).val) (fun cid hcid b hb hin => ?_)
      fun cid hcid b hb hout => ?_).symm
  · rw [List.countP_eq_length.mpr fun i hi => decide_eq_true ((hright cid hcid b hb i hi).1 hin)]
    exact length_cellsOf _
  · rw [List.countP_eq_zero]
    intro i hi
    rw [decide_eq_true_eq]
    exact (hright cid hcid b hb i hi).2 hout

end Values

/-! ### Queries with missing chunks -/

omit hW in
/-- When all payload reads have succeeded, no chunk is missing that is needed. -/
theorem isSome_of_batches {parts : List (List UInt8)}
    (h : (readBatches a opts (batched opts.batchSize
      ((payloadReqs opts st (plannedOf E a lo hi opts st m)).map Prod.fst)) []).MayReturn parts) :
    ∀ id ∈ (plannedOf E a lo hi opts st m).ids, (a.get (a.keyOf st.lt id.1)).isSome := by
  intro id hid
  obtain ⟨q, hq, hkey⟩ := (regular_plannedOf hc hst E lo hi m).exists_payload opts hid
  obtain ⟨x, hx⟩ := mayReturn_readBatches h q.1
    (by rw [flatten_batched batchSize_pos]; exact List.mem_map_of_mem hq)
  rw [← hkey]
  exact isSome_of_readOne hx

omit hW in
theorem not_mayReturn_whole (hfits : st.lt.planArgs.fits) (hm : (readMeta E a opts st).Returns (· = m))
    {cid : ℕ} (hmiss : Missing E a st m.1 lo hi false cid) (v : QueryResult) :
    ¬ (wholeQuery E a lo hi opts st).MayReturn v := by
  intro hv
  obtain ⟨id, hid, hchunk⟩ := planned_of_missing hmiss
  have hnone := hmiss.absent
  rw [← hchunk] at hnone
  have hplan : planQuery E a lo hi opts st m = .ok (plannedOf E a lo hi opts st m) :=
    planQuery_eq (shapeOk_setup hc hst) hfits m
  have hv := mayReturn_of_bind (returns_done hplan rfl) (mayReturn_of_bind hm hv)
  by_cases h0 : st.layer = 0
  · rw [if_pos h0] at hv
    obtain ⟨parts, peak, hparts, -⟩ := mayReturn_reads hv
    rw [streamReads_plannedOf E a lo hi opts (layer_zero hst h0).2] at hparts
    exact not_ok_of_missing pairwise_maybeIds hid hnone _ hparts
  · rw [if_neg h0] at hv
    obtain ⟨parts, hparts, -⟩ := mayReturn_bind hv
    have hsome := isSome_of_batches hc hst hparts id hid
    rw [hnone] at hsome
    cases hsome

theorem mayRaise_whole (hfits : st.lt.planArgs.fits) (hm : (readMeta E a opts st).Returns (· = m))
    {e : QueryError κ} (he : MayRaise e (wholeQuery E a lo hi opts st)) :
    ∃ cid, Missing E a st m.1 lo hi false cid ∧ e = .FileNotFoundError (a.keyOf st.lt cid) := by
  have hp := regular_plannedOf hc hst E lo hi m
  by_cases hall : ∀ id ∈ (plannedOf E a lo hi opts st m).ids, (a.get (a.keyOf st.lt id.1)).isSome
  · exact absurd he (not_mayRaise_of_returns (returns_whole hc hst hW hfits hm hall))
  have hplan : planQuery E a lo hi opts st m = .ok (plannedOf E a lo hi opts st m) :=
    planQuery_eq (shapeOk_setup hc hst) hfits m
  have he := mayRaise_of_bind (returns_done hplan rfl) (mayRaise_of_bind hm he)
  suffices hmiss : ∃ id ∈ (plannedOf E a lo hi opts st m).ids, a.get (a.keyOf st.lt id.1) = none ∧
      e = .FileNotFoundError (a.keyOf st.lt id.1) by
    obtain ⟨id, hid, hnone, rfl⟩ := hmiss
    exact ⟨id.1, missing_of_planned hid hnone, rfl⟩
  by_cases h0 : st.layer = 0
  · rw [if_pos h0] at he
    rcases mayRaise_reads he with ⟨r, hr, hread⟩ | ⟨parts, peak, -, hdone⟩
    · rw [streamReads_plannedOf E a lo hi opts (layer_zero hst h0).2] at hr
      exact error_of_reads (fun g hg hsome => readGroup_stored hc hst hW h0 pairwise_maybeIds
        (fun id hid => ⟨(mem_maybeIds.mp hid).1, (mem_maybeIds.mp hid).2.1⟩) hg hsome E lo hi) hr hread
    · cases hdone
  · rw [if_neg h0] at he
    rcases mayRaise_bind he with he | ⟨parts, hparts, -⟩
    · obtain ⟨r, hr, hread⟩ := mayRaise_readBatches he
      rw [flatten_batched batchSize_pos] at hr
      obtain ⟨q, hq, rfl⟩ := List.mem_map.mp hr
      obtain ⟨id, hid, hkey⟩ := hp.key_payload opts q hq
      refine ⟨id, hid, ?_⟩
      cases hget : a.get (a.keyOf st.lt id.1) with
      | none =>
        rw [readOne_missing (by rw [hkey]; exact hget), hkey] at hread
        exact ⟨rfl, (Except.error.inj hread).symm⟩
      | some obj =>
        rw [readOne_stored hc hst hW hq (by rw [hkey, hget]; rfl)] at hread
        cases hread
    · -- all reads have succeeded, so that no chunk is missing
      exact absurd (isSome_of_batches hc hst hparts) hall

/-! ### Pipelined -/

section Pipelined
variable {mo : MetaObjects} {l : List ℕ} (hchunk : a.codec.chunkShape l = .ok a.chunk)
  (hpipe : st.pipelined opts = some mo) (hfits : st.lt.planArgs.fits)
  (hm : (readMeta E a opts st).Returns (· = m))
include hchunk hpipe hfits hm

omit [LinearOrder κ] hc hst hW hchunk hfits in
theorem eq_joinObjects : ∃ ss, (List.range mo.count).mapM (openedObject E.zstd a st.lt mo) = .ok ss ∧
    m = joinObjects st.lt mo ss := by
  obtain ⟨hmo, hkey, -, -⟩ := pipelined_spec hpipe
  obtain ⟨m', hm', rfl⟩ := exists_of_returns hm
  exact mayReturn_readMeta hmo hkey hm'

omit [LinearOrder κ] hc hW in
theorem not_mayReturn_pipelined {cid : ℕ} (hmiss : Missing E a st m.1 lo hi false cid) (v : QueryResult) :
    ¬ (pipelinedQuery E a lo hi opts st mo).MayReturn v := by
  intro hv
  have h := slabbed_of_setup hchunk hst hpipe hfits
  obtain ⟨-, -, h0, -⟩ := pipelined_spec hpipe
  obtain ⟨ss, hss, rfl⟩ := eq_joinObjects hpipe hm
  obtain ⟨id, hid, hcid⟩ : ∃ id ∈ (plannedOf E a lo hi opts st (joinObjects st.lt mo ss)).ids,
      id.1 = cid := planned_of_missing hmiss
  have hnone := hmiss.absent
  rw [← hcid] at hnone
  obtain ⟨hlen, hsize⟩ := opened_sizes hss
  obtain ⟨rows, peak, hrows, -⟩ := mayReturn_zones hv
  obtain ⟨ss', bss, hss', hbss, -⟩ := (pipelinedTasks_ok h).mp hrows
  obtain rfl : ss = ss' := Except.ok.inj (hss.symm.trans hss')
  have hparts := (streamTasks_ok h h0 hlen hsize).mpr ⟨bss, hbss, rfl⟩
  rw [streamReads_plannedOf E a lo hi opts h.start_zero] at hparts
  exact not_ok_of_missing pairwise_maybeIds hid hnone _ hparts

theorem mayRaise_pipelined {e : QueryError κ} (he : MayRaise e (pipelinedQuery E a lo hi opts st mo)) :
    ∃ cid, Missing E a st m.1 lo hi false cid ∧ e = .FileNotFoundError (a.keyOf st.lt cid) := by
  have h := slabbed_of_setup hchunk hst hpipe hfits
  obtain ⟨-, -, h0, -⟩ := pipelined_spec hpipe
  obtain ⟨ss, hss, rfl⟩ := eq_joinObjects hpipe hm
  have hrate : st.lt.layers.getD 0 0 = st.rate := by
    unfold Setup.rate
    rw [h0]
  unfold pipelinedQuery pipelinedTasks at he
  rw [hrate] at he
  have hin : ∀ id ∈ (listing E.fl (wholeZones a st mo ss) st.lt.planArgs lo hi false).map idOf,
      id.1 < st.lt.planArgs.nChunk ∧ id.2 < st.lt.planArgs.blocksPerChunk := by
    intro id hid
    obtain ⟨x, hx, rfl⟩ := List.mem_map.mp hid
    exact ⟨(mem_listing.mp hx).1, (mem_listing.mp hx).2.1⟩
  rcases mayRaise_slabs (f := Prod.snd) h (planObject_eq h) hss (fun _ _ => rfl)
    (fun ids hs hids g hg hsome => readGroup_stored hc hst hW h0 hs
      (fun id hid => hin id (hids id hid)) hg hsome E lo hi) he with
    ⟨id, hid, hnone, rfl⟩ | ⟨rows, peak, -, hdone⟩
  · have hids : (plannedOf E a lo hi opts st (joinObjects st.lt mo ss)).ids = _ := ids_plannedOf h0 ss
    rw [← hids] at hid
    exact ⟨id.1, missing_of_planned hid hnone, rfl⟩
  · cases hdone

end Pipelined

/-! ### All queries -/

section All
variable {l : List ℕ} (hchunk : a.codec.chunkShape l = .ok a.chunk) (hfits : st.lt.planArgs.fits)
  (hm : (readMeta E a opts st).Returns (· = m))
include hchunk hfits hm

omit hc in
/-- **A chunk that is needed and missing is noticed** in every run, and nothing else is raised. -/
theorem raises_query (hmiss : ∃ cid, Missing E a st m.1 lo hi false cid) :
    Raises (fun e => ∃ cid, Missing E a st m.1 lo hi false cid ∧
      e = .FileNotFoundError (a.keyOf st.lt cid)) (queryAsync E a lo hi opts) := by
  have hc := a.codec.chunkOk_of_chunkShape hchunk
  obtain ⟨cid, hmiss⟩ := hmiss
  cases hpipe : st.pipelined opts with
  | none =>
    rw [query_eq_wholeQuery hst hpipe]
    exact raises_of_mayRaise (not_mayReturn_whole hc hst hfits hm hmiss)
      fun e he => mayRaise_whole hc hst hW hfits hm he
  | some mo =>
    rw [query_eq_pipelinedQuery hst hpipe]
    exact raises_of_mayRaise (not_mayReturn_pipelined hst hchunk hpipe hfits hm hmiss)
      fun e he => mayRaise_pipelined hc hst hW hchunk hpipe hfits hm he

omit hc in
/-- **A query of which no chunk is missing counts the values that are read**, where the states are right,
and pipelined where the counts are small. -/
theorem always_query (hall : ¬ ∃ cid, Missing E a st m.1 lo hi false cid)
    (hdec : Blockwise nat E.decode st.rate) (hpre : Prefixed nat a.codec st.layer)
    (hpipe : ∀ mo, st.pipelined opts = some mo →
      FixesIntegers E.fl ∧ 64 * st.lt.planArgs.totalBlocks < 2 ^ 53)
    (hright : RightStates E nat a st data fill m.1 lo hi) :
    (queryAsync E a lo hi opts).Always fun r => r.count =
      (indices a.shape).countP fun i => InRange lo hi (readAt nat a data fill st.layer i).val := by
  have hc := a.codec.chunkOk_of_chunkShape hchunk
  have hstored : ∀ id ∈ (plannedOf E a lo hi opts st m).ids, (a.get (a.keyOf st.lt id.1)).isSome := by
    intro id hid
    by_contra hnone
    exact hall ⟨id.1, missing_of_planned hid (by simpa using hnone)⟩
  refine always_mono (fun r hr => ?_) (always_of_wholeQuery hchunk hst hfits (fun mo hmo => ?_)
    (returns_whole hc hst hW hfits hm hstored))
  · rw [← count_eq hc hst hW hdec hpre hright hstored]
    exact (List.cons.inj hr).1
  · obtain ⟨hfl, hlt⟩ := hpipe mo hmo
    exact ⟨hfl, fun n hn => (le_layerCounts n hn).trans_lt hlt⟩

end All

end Query

end SkipZFP.Query.Absent
