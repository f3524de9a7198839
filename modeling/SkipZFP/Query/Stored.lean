import SkipZFP.Query.Absent

/-! # Queries of any store

A store may have short, stale or damaged objects, and a zone map of anything. What a query returns is then
known all the same: nothing, unless every read is wholly inside its object. The argument is about
`padded`, the same store with zeros behind what it has, which holds the rows of all blocks.

* `readOne_inside`: `read_one` returns the bytes it asked for, or raises.
* `mayReturn_whole`, `counts_returned`: what a query returns are the counts of stored bytes.
* `answered_or_raises`: **a query of any store is answered from the bytes that are stored, or raises.**
* `stateAt_mono`, `count_mono`: **a wider range is counted at least as high**, whatever the store and the
  zone map hold. -/

namespace SkipZFP.Query.Stored

open SkipZFP.Lib.Grid SkipZFP.Lib.Rows SkipZFP.Lib.Loops SkipZFP.Lib.Double SkipZFP.Lib.Float32
open SkipZFP.Codec.Config SkipZFP.Codec.Pack SkipZFP.Codec.Meta SkipZFP.Plan.Classify
open SkipZFP.Plan.Blocks SkipZFP.Plan.Shapes
open SkipZFP.Plan.Records SkipZFP.Read.Merge SkipZFP.Read.Budget SkipZFP.Read.Gather SkipZFP.Read.Raise
open SkipZFP.Read.Missing SkipZFP.Read.Store SkipZFP.Read.ZoneMap SkipZFP.Read.Stream
open SkipZFP.Query.Run SkipZFP.Query.Count SkipZFP.Query.Slabs SkipZFP.Query.Pipelined SkipZFP.Query.Fill
open SkipZFP.Query.Layers SkipZFP.Query.Absent

section Store
variable {κ : Type} (a : ZarrArray κ) (st : Setup)

/-- The bytes of layer `j` of a block, as far as the store has them. -/
def layerBlock (id : ℕ × ℕ) (j : ℕ) : List UInt8 :=
  slice ((a.get (a.keyOf st.lt id.1)).getD []) (st.lt.layerStarts.getD j 0 + id.2 * st.layerBytes j)
    (st.lt.layerStarts.getD j 0 + id.2 * st.layerBytes j + st.layerBytes j)

/-- The object of a block has all its bytes of layer `j`. -/
def LayerIn (id : ℕ × ℕ) (j : ℕ) : Prop :=
  ∃ obj, a.get (a.keyOf st.lt id.1) = some obj ∧
    st.lt.layerStarts.getD j 0 + (id.2 + 1) * st.layerBytes j ≤ obj.length

/-- The bytes of a block, layer after layer. -/
def storedRow (id : ℕ × ℕ) : List UInt8 := (List.range (st.layer + 1)).flatMap (layerBlock a st id)

/-- The chunks have distinct keys. -/
def DistinctKeys : Prop :=
  ∀ cid < st.nChunk, ∀ cid' < st.nChunk, a.keyOf st.lt cid = a.keyOf st.lt cid' → cid = cid'

/-- The same array with another store. -/
def onStore (get : κ → Option (List UInt8)) : ZarrArray κ := { a with get := get }

/-- The same array, with zeros behind what its store has of an object. -/
def padded : ZarrArray κ := onStore a fun k =>
  some ((a.get k).getD [] ++ List.replicate (st.cols.getLastD 0 * st.lt.blocksPerChunk) 0)

variable {a st}

/-- **What `read_one` returns** is all of the byte range, from an object that reaches to its end. -/
theorem readOne_inside {q : Range κ} {data : List UInt8} (h : readOne a q = .ok data) :
    data = bytesOf a q ∧ (q.start < q.stop → ∃ obj, a.get q.key = some obj ∧ q.stop ≤ obj.length) := by
  unfold readOne at h
  unfold bytesOf
  cases hget : a.get q.key with
  | none => rw [hget] at h; cases h
  | some obj =>
    rw [hget] at h
    dsimp only at h
    split_ifs at h with hlen
    rw [not_not] at hlen
    refine ⟨(Except.ok.inj h).symm, fun hq => ⟨obj, rfl, ?_⟩⟩
    unfold slice at hlen
    rw [List.length_take, List.length_drop] at hlen
    omega

theorem length_of_readOne {q : Range κ} {data : List UInt8} (h : readOne a q = .ok data) :
    data.length = q.stop - q.start := by
  obtain ⟨hdata, hin⟩ := readOne_inside h
  have hle : data.length ≤ q.stop - q.start := by
    rw [hdata]
    exact List.length_take_le _ _
  by_cases hq : q.start < q.stop
  · obtain ⟨obj, hget, hlen⟩ := hin hq
    rw [hdata, bytesOf, hget, Option.getD_some, slice, List.length_take, List.length_drop]
    omega
  · omega

theorem layerBlock_padded {id : ℕ × ℕ} {j : ℕ} (h : LayerIn a st id j) :
    layerBlock (padded a st) st id j = layerBlock a st id j := by
  obtain ⟨obj, hget, hlen⟩ := h
  rw [Nat.succ_mul, ← Nat.add_assoc] at hlen
  have hpad : (padded a st).get (a.keyOf st.lt id.1) =
      some (obj ++ List.replicate (st.cols.getLastD 0 * st.lt.blocksPerChunk) 0) := by
    unfold padded onStore
    dsimp only
    rw [hget, Option.getD_some]
  have hkey : (padded a st).keyOf st.lt = a.keyOf st.lt := rfl
  unfold layerBlock
  rw [hkey, hpad, hget, Option.getD_some, Option.getD_some, slice_append_left hlen]

theorem storedRow_padded {id : ℕ × ℕ} (h : ∀ j ≤ st.layer, LayerIn a st id j) :
    storedRow (padded a st) st id = storedRow a st id := by
  unfold storedRow
  refine List.flatMap_congr fun j hj => layerBlock_padded (h j ?_)
  exact Nat.lt_succ_iff.mp (List.mem_range.mp hj)

end Store

/-! ### The padded store -/

section Padded
variable {κ : Type} {a : ZarrArray κ} {st : Setup} {opts : QueryOptions}

theorem exists_holds (hc : a.codec.ChunkOk a.chunk) (hst : setup a opts = .ok st)
    (hkeys : DistinctKeys a st) : ∃ get row, Holds (onStore a get) st row := by
  set nat := firstValue F32.bytes F32.ofBytes
  set get : κ → Option (List UInt8) := fun _ => some (pack nat a.codec a.chunk fun _ => F32.inf)
  have h : Packed nat (onStore a get) st fun _ => F32.inf := ⟨fun cid _ => rfl, hkeys⟩
  exact ⟨get, _, holds_of_packed (a := onStore a get) hc hst h⟩

theorem sum_layerBytes {row : ℕ × ℕ → List UInt8} (h : Holds a st row) : ∀ {j : ℕ}, j ≤ st.layer + 1 →
    ((List.range j).map st.layerBytes).sum = st.cols.getD j 0
  | 0, _ => h.first.symm
  | j + 1, hj => by
    rw [List.range_succ, List.map_append, List.sum_append, sum_layerBytes h (by omega),
      (h.columns j (by omega)).1]
    simp

/-- **The padded store holds its blocks**, layer by layer. -/
theorem holds_padded (hc : a.codec.ChunkOk a.chunk) (hst : setup a opts = .ok st)
    (hkeys : DistinctKeys a st) : Holds (padded a st) st (storedRow (padded a st) st) := by
  obtain ⟨get, row, h⟩ := exists_holds hc hst hkeys
  have hobj : ∀ cid, ∃ obj, (padded a st).get (a.keyOf st.lt cid) = some obj ∧
      st.cols.getLastD 0 * st.lt.blocksPerChunk ≤ obj.length := fun cid => by
    refine ⟨_, rfl, ?_⟩
    rw [List.length_append, List.length_replicate]
    exact Nat.le_add_left _ _
  have hlen : ∀ cid, ∀ b < st.lt.blocksPerChunk, ∀ j ≤ st.layer,
      (layerBlock (padded a st) st (cid, b) j).length = st.layerBytes j := by
    intro cid b hb j hj
    obtain ⟨obj, hget, hall⟩ := hobj cid
    obtain ⟨hend, hend'⟩ := h.end_le hj hb
    rw [Nat.succ_mul] at hend
    have hkey : (padded a st).keyOf st.lt = a.keyOf st.lt := rfl
    unfold layerBlock
    dsimp only
    rw [hkey, hget, Option.getD_some, length_slice (by omega)]
    omega
  -- the layers of a row are cut where the columns are
  have hcut : ∀ cid, ∀ b < st.lt.blocksPerChunk, ∀ j ≤ st.layer + 1,
      (((List.range j).map (layerBlock (padded a st) st (cid, b))).map List.length).sum =
        st.cols.getD j 0 := by
    intro cid b hb j hj
    rw [← sum_layerBytes h hj, List.map_map]
    refine congrArg List.sum (List.map_congr_left fun i hi => hlen cid b hb i ?_)
    have := List.mem_range.mp hi
    omega
  refine ⟨fun cid _ => ?_, hkeys, fun cid _ b hb => ?_, h.starts, h.columns, h.first, h.last⟩
  · obtain ⟨obj, hget, hall⟩ := hobj cid
    refine ⟨obj, hget, hall, fun b hb j hj => ?_⟩
    have hrow := slice_flatten ((List.range (st.layer + 1)).map (layerBlock (padded a st) st (cid, b))) j
      (by simpa using Nat.lt_succ_iff.mpr hj)
    rw [← List.map_take, List.take_range, Nat.min_eq_left (by omega), hcut cid b hb j (by omega)] at hrow
    simp only [List.getElem_map, List.getElem_range] at hrow
    rw [hlen cid b hb j hj, ← (h.columns j hj).1] at hrow
    unfold storedRow
    rw [List.flatMap_def, hrow]
    unfold layerBlock
    have hkey : (padded a st).keyOf st.lt = a.keyOf st.lt := rfl
    dsimp only
    rw [hkey, hget, Option.getD_some]
  · unfold storedRow
    rw [h.last, List.flatMap_def, List.length_flatten, hcut cid b hb _ le_rfl]

theorem length_storedRow_le (hst : setup a opts = .ok st) {b : ZarrArray κ}
    {row : ℕ × ℕ → List UInt8} (h : Holds b st row) (id : ℕ × ℕ) :
    (storedRow a st id).length ≤ blockBytes st.rate := by
  rw [← (getLastD_cols hst).2, h.last, ← sum_layerBytes h le_rfl]
  unfold storedRow
  rw [List.length_flatMap]
  refine List.sum_le_sum fun j _ => ?_
  unfold layerBlock slice
  rw [List.length_take]
  omega

/-- A read that succeeds has read no zeros that are not in the store. -/
theorem bytesOf_padded {q : Range κ} {x : List UInt8} (h : readOne a q = .ok x) :
    bytesOf (padded a st) q = bytesOf a q := by
  by_cases hq : q.start < q.stop
  · obtain ⟨obj, hget, hlen⟩ := (readOne_inside h).2 hq
    show slice ((a.get q.key).getD [] ++ _) _ _ = _
    unfold bytesOf
    rw [hget, Option.getD_some, slice_append_left hlen]
  · unfold bytesOf slice
    rw [Nat.sub_eq_zero_of_le (by omega), List.take_zero, List.take_zero]

end Padded

/-! ### Queries with the whole zone map -/

theorem countValues_le (decode : ℚ → List UInt8 → Values) (rate : ℚ) (lo hi : Dbl) (bytes : List UInt8) :
    countValues decode rate lo hi bytes ≤ 64 := by
  rw [countValues_eq]
  exact List.countP_le_length.trans (List.length_finRange).le

section Whole
variable {κ : Type} [LinearOrder κ] {E : Env} {a : ZarrArray κ} {st : Setup} {lo hi : Dbl}
  {opts : QueryOptions} {m : List UInt8 × ℕ × ℕ} (hc : a.codec.ChunkOk a.chunk)
  (hst : setup a opts = .ok st)

variable (E a st lo hi opts m) in
/-- What a query counts: the values of the IN blocks, and those of the stored rows of the MAYBE blocks. -/
def storedCounts : List ℕ :=
  let p := plannedOf E a lo hi opts st m
  [p.nIn * 64 + (p.ids.map fun id => countValues E.decode st.rate lo hi (storedRow a st id)).sum,
    p.nIn, p.nOut, p.ids.length]

variable (E a st lo hi opts m) in
/-- The store has all bytes of the MAYBE blocks, in all layers up to that of the query. -/
def AllIn : Prop := ∀ id ∈ (plannedOf E a lo hi opts st m).ids, ∀ j ≤ st.layer, LayerIn a st id j

include hst in
omit [LinearOrder κ] in
/-- At layer 0 the row of a block is what is read of it. -/
theorem storedRow_zero (h0 : st.layer = 0) (id : ℕ × ℕ) :
    storedRow a st id = storedBlock a (a.keyOf st.lt) (blockBytes st.rate) 0 id := by
  obtain ⟨hbytes, hstart⟩ := layer_zero hst h0
  unfold storedRow storedBlock
  rw [h0, List.range_one, List.flatMap_singleton]
  unfold layerBlock
  rw [hbytes, hstart]

omit [LinearOrder κ] in
theorem end_le_of_readGroup {keys : ℕ → κ} {w base gap n : ℕ} (hw : 0 < w) {ids g : List (ℕ × ℕ)}
    (hs : ids.Pairwise IdLt) (hg : g ∈ groups gap ids) {x : List UInt8}
    (h : readOne a (rangeOf (groupRead keys w base n g)) = .ok x) {id : ℕ × ℕ} (hid : id ∈ g) :
    ∃ obj, a.get (keys id.1) = some obj ∧ base + (id.2 + 1) * w ≤ obj.length := by
  obtain ⟨hchunk, hfirst, hlast⟩ := joins_group hs hg id hid
  have hlt : (g.headD (0, 0)).2 * w < ((g.getLastD (0, 0)).2 + 1) * w :=
    Nat.mul_lt_mul_of_pos_right (by omega) hw
  have hle : (id.2 + 1) * w ≤ ((g.getLastD (0, 0)).2 + 1) * w := Nat.mul_le_mul_right w (by omega)
  have hpos : (rangeOf (groupRead keys w base n g)).start < (rangeOf (groupRead keys w base n g)).stop :=
    Nat.add_lt_add_left hlt base
  obtain ⟨obj, hget, hstop⟩ := (readOne_inside h).2 hpos
  refine ⟨obj, ?_, (Nat.add_le_add_left hle base).trans hstop⟩
  rw [hchunk]
  exact hget

include hc hst

/-- **Payload reads that all succeed** have read every byte of every MAYBE block. -/
theorem allIn_of_payload (hkeys : DistinctKeys a st)
    (h : ∀ q ∈ payloadReqs opts st (plannedOf E a lo hi opts st m), ∃ x, readOne a q.1 = .ok x) :
    AllIn E a st lo hi opts m := by
  intro id hid j hj
  have hp := regular_plannedOf hc hst E lo hi m
  have hold := holds_padded hc hst hkeys
  have hpos := (hold.columns j hj).2
  rw [hp.payloadReqs_eq] at h
  by_cases hdense : a.keyOf st.lt id.1 ∈ (plannedOf E a lo hi opts st m).dense opts.maxChunkRequests
  · -- the whole chunk is read
    obtain ⟨x, hx⟩ := h _ (List.mem_append_right _ (List.mem_map_of_mem hdense))
    obtain ⟨hend, hend'⟩ := hold.end_le hj (hp.inside id hid).2
    have hstop : st.layerBytes j ≤ (id.2 + 1) * st.layerBytes j :=
      Nat.le_mul_of_pos_left (st.layerBytes j) (Nat.succ_pos id.2)
    have hpos : (denseRange st (a.keyOf st.lt id.1)).start < (denseRange st (a.keyOf st.lt id.1)).stop :=
      show 0 < st.cols.getLastD 0 * st.lt.blocksPerChunk by omega
    obtain ⟨obj, hget, hlen⟩ := (readOne_inside hx).2 hpos
    exact ⟨obj, hget, hend.trans (hend'.trans hlen)⟩
  · obtain ⟨g, hg, hmem, hchunk⟩ := exists_group (opts.mergeGapBlocks % 2 ^ 64) hp.sorted hid
    obtain ⟨n, hr⟩ := exists_readsOf (a.keyOf st.lt) (st.layerBytes j) (st.lt.layerStarts.getD j 0) 0 hg
    have hsparse : groupRead (a.keyOf st.lt) (st.layerBytes j) (st.lt.layerStarts.getD j 0) n g ∈
        sparseReads a st (plannedOf E a lo hi opts st m) (opts.mergeGapBlocks % 2 ^ 64)
          opts.maxChunkRequests j := by
      refine List.mem_filter.mpr ⟨hr, decide_eq_true ?_⟩
      show a.keyOf st.lt (g.headD (0, 0)).1 ∉ _
      rwa [hchunk]
    obtain ⟨x, hx⟩ := h _ (List.mem_append_left _ (List.mem_flatMap.mpr
      ⟨j, List.mem_range.mpr (Nat.lt_succ_of_le hj), List.mem_map_of_mem hsparse⟩))
    exact end_le_of_readGroup hpos hp.sorted hg hx hmem

omit [LinearOrder κ] in
/-- **The reads of layer 0 that all succeed** have read every byte of every MAYBE block. -/
theorem allIn_of_stream (h0 : st.layer = 0) (h : ∀ r ∈ (plannedOf E a lo hi opts st m).streamReads,
    ∃ x, readOne a (rangeOf r.1) = .ok x) : AllIn E a st lo hi opts m := by
  intro id hid j hj
  obtain rfl : j = 0 := by omega
  have hp := regular_plannedOf hc hst E lo hi m
  obtain ⟨hbytes, hstart⟩ := layer_zero hst h0
  have hpos : 0 < st.layerBytes 0 := by
    rw [hbytes]
    exact blockBytes_pos (rate_ok hst)
  rw [streamReads_plannedOf E a lo hi opts hstart] at h
  obtain ⟨g, hg, hmem, -⟩ := exists_group (opts.mergeGapBlocks % 2 ^ 64) hp.sorted hid
  obtain ⟨n, hr⟩ := exists_readsOf (a.keyOf st.lt) (st.layerBytes 0) 0 0 hg
  obtain ⟨x, hx⟩ := h _ (List.mem_map_of_mem hr)
  unfold LayerIn
  rw [hstart]
  exact end_le_of_readGroup hpos hp.sorted hg hx hmem

omit [LinearOrder κ] hc in
theorem returns_streamStored (h0 : st.layer = 0) (hin : AllIn E a st lo hi opts m) :
    (streamLayer E a lo hi opts st (plannedOf E a lo hi opts st m)).Returns fun r =>
      counts r = storedCounts E a st lo hi opts m := by
  obtain ⟨hbytes, hstart⟩ := layer_zero hst h0
  refine returns_streamLayer hst h0 (fun id hid => ?_) fun peak => ?_
  · obtain ⟨obj, hget, hlen⟩ := hin id hid 0 (Nat.zero_le _)
    rw [hstart, hbytes, Nat.zero_add] at hlen
    exact ⟨obj, hget, hlen⟩
  have hsum := sum_groups (opts.mergeGapBlocks % 2 ^ 64) (plannedOf E a lo hi opts st m).ids
    fun id => countValues E.decode st.rate lo hi (storedRow a st id)
  unfold counts storedCounts streamResult queryResult
  dsimp only
  rw [← hsum, valuesPerBlock_setup hst, sortedBlocks_plannedOf, List.length_map, List.map_map]
  simp only [Function.comp_def, storedRow_zero hst h0]

theorem returns_layersRead (hkeys : DistinctKeys a st)
    (hread : ∀ q ∈ payloadReqs opts st (plannedOf E a lo hi opts st m), ∃ x, readOne a q.1 = .ok x) :
    (readLayers E a lo hi opts st (plannedOf E a lo hi opts st m)).Returns fun r =>
      let p := plannedOf E a lo hi opts st m
      let payload := ((payloadReqs opts st p).map fun q => q.1.stop - q.1.start).sum
      r = queryResult st p (p.ids.map fun id => countValues E.decode st.rate lo hi (storedRow a st id)).sum
        payload (payloadReqs opts st p).length payload := by
  have hin := allIn_of_payload hc hst hkeys hread
  have hp := regular_plannedOf (a := padded a st) hc hst E lo hi m
  have hold := holds_padded hc hst hkeys
  have hone : ∀ q ∈ payloadReqs opts st (plannedOf E a lo hi opts st m),
      readOne a q.1 = .ok (bytesOf (padded a st) q.1) := by
    intro q hq
    obtain ⟨x, hx⟩ := hread q hq
    rw [bytesOf_padded hx, ← (readOne_inside hx).1]
    exact hx
  have hmap : ((payloadReqs opts st (plannedOf E a lo hi opts st m)).map Prod.fst).mapM
      (batchTasks a).readResult =
        .ok (payloadParts (padded a st) opts st (plannedOf E a lo hi opts st m)) := by
    rw [List.mapM_map]
    refine mapM_ok fun q hq => ?_
    show (readOne a q.1).bind _ = _
    rw [hone q hq]
    rfl
  have hrows : (plannedOf E a lo hi opts st m).ids.map (fun id => countValues E.decode st.rate lo hi
      ((storedRow (padded a st) st id).take (blockBytes st.rate))) =
        (plannedOf E a lo hi opts st m).ids.map fun id =>
          countValues E.decode st.rate lo hi (storedRow a st id) := by
    refine List.map_congr_left fun id hid => ?_
    rw [storedRow_padded (hin id hid), List.take_of_length_le (length_storedRow_le hst hold id)]
  have hlen : (payloadParts (padded a st) opts st (plannedOf E a lo hi opts st m)).map List.length =
      (payloadReqs opts st (plannedOf E a lo hi opts st m)).map fun q => q.1.stop - q.1.start := by
    unfold payloadParts
    rw [List.map_map]
    exact List.map_congr_left fun q hq => length_of_readOne (hone q hq)
  refine returns_bind (returns_readBatches (by rwa [flatten_batched batchSize_pos]) ?_)
  rw [List.nil_append]
  refine returns_done (layersResult_eq (a := padded a st) (rate_ok hst) (getLastD_cols hst).2
    (blockDim_setup hst) hold hp) ?_
  rw [hrows, hlen]

/-- At a higher layer, a query whose payload reads succeed counts the blocks that are stored. -/
theorem returns_layersStored (hkeys : DistinctKeys a st)
    (hread : ∀ q ∈ payloadReqs opts st (plannedOf E a lo hi opts st m), ∃ x, readOne a q.1 = .ok x) :
    (readLayers E a lo hi opts st (plannedOf E a lo hi opts st m)).Returns fun r =>
      counts r = storedCounts E a st lo hi opts m := by
  refine returns_mono (fun r hr => ?_) (returns_layersRead hc hst hkeys hread)
  subst hr
  unfold counts storedCounts queryResult
  dsimp only
  rw [valuesPerBlock_setup hst, sortedBlocks_plannedOf, List.length_map]

/-- **What a query with the whole zone map returns** on any store: it has read every byte of every MAYBE
block, and counts these. -/
theorem mayReturn_whole (hkeys : DistinctKeys a st) (hfits : st.lt.planArgs.fits)
    (hm : (readMeta E a opts st).Returns (· = m)) {r : QueryResult}
    (h : (wholeQuery E a lo hi opts st).MayReturn r) :
    AllIn E a st lo hi opts m ∧ counts r = storedCounts E a st lo hi opts m := by
  have hplan : planQuery E a lo hi opts st m = .ok (plannedOf E a lo hi opts st m) :=
    planQuery_eq (shapeOk_setup hc hst) hfits m
  have h := mayReturn_of_bind (returns_done hplan rfl) (mayReturn_of_bind hm h)
  by_cases h0 : st.layer = 0
  · rw [if_pos h0] at h
    obtain ⟨parts, peak, hparts, -⟩ := mayReturn_reads h
    have hin : AllIn E a st lo hi opts m := by
      refine allIn_of_stream hc hst h0 fun q hq => ?_
      obtain ⟨k, hk, rfl⟩ := List.getElem_of_mem hq
      obtain ⟨x, -, hx⟩ := (getElem?_mapM_ok hparts).2 k _ (List.getElem?_eq_getElem hk)
      obtain ⟨data, hdata, -⟩ := bind_ok.mp hx
      exact ⟨data, hdata⟩
    exact ⟨hin, mayReturn_unique (Q := fun r => counts r = _) (returns_streamStored hst h0 hin) h⟩
  · rw [if_neg h0] at h
    obtain ⟨parts, hparts, -⟩ := mayReturn_bind h
    have hread : ∀ q ∈ payloadReqs opts st (plannedOf E a lo hi opts st m), ∃ x, readOne a q.1 = .ok x :=
      fun q hq => mayReturn_readBatches hparts q.1
        (by rw [flatten_batched batchSize_pos]; exact List.mem_map_of_mem hq)
    exact ⟨allIn_of_payload hc hst hkeys hread,
      mayReturn_unique (Q := fun r => counts r = _) (returns_layersStored hc hst hkeys hread) h⟩

omit [LinearOrder κ] hc hst in
/-- What a query counts are values of the array. -/
theorem le_storedCounts : ∀ n ∈ storedCounts E a st lo hi opts m, n ≤ 64 * st.lt.planArgs.totalBlocks := by
  have hstates := count_states E.fl (planMeta a.codec st.layer st.lt.unitShape m.1) st.lt.planArgs lo hi
  have hids : (plannedOf E a lo hi opts st m).ids.length = countAll E.fl
      (planMeta a.codec st.layer st.lt.unitShape m.1) st.lt.planArgs lo hi .MAYBE := length_maybeIds
  have hvalues : ((plannedOf E a lo hi opts st m).ids.map fun id =>
      countValues E.decode st.rate lo hi (storedRow a st id)).sum ≤
        (plannedOf E a lo hi opts st m).ids.length * 64 := by
    refine (List.sum_le_card_nsmul _ 64 fun n hn => ?_).trans (by rw [List.length_map, smul_eq_mul])
    obtain ⟨id, -, rfl⟩ := List.mem_map.mp hn
    exact countValues_le _ _ _ _ _
  have hin : (plannedOf E a lo hi opts st m).nIn = countAll E.fl
      (planMeta a.codec st.layer st.lt.unitShape m.1) st.lt.planArgs lo hi .IN := rfl
  have hout : (plannedOf E a lo hi opts st m).nOut = countAll E.fl
      (planMeta a.codec st.layer st.lt.unitShape m.1) st.lt.planArgs lo hi .OUT := rfl
  intro n hn
  unfold storedCounts at hn
  simp only [List.mem_cons, List.not_mem_nil, or_false] at hn
  rcases hn with rfl | rfl | rfl | rfl <;> omega

theorem stop_payload (hkeys : DistinctKeys a st) :
    ∀ q ∈ payloadReqs opts st (plannedOf E a lo hi opts st m),
      q.1.stop ≤ st.cols.getLastD 0 * st.lt.blocksPerChunk := by
  intro q hq
  have hp := regular_plannedOf hc hst E lo hi m
  have hold := holds_padded hc hst hkeys
  rw [hp.payloadReqs_eq] at hq
  rcases List.mem_append.mp hq with hq | hq
  · obtain ⟨j, hj, hq⟩ := List.mem_flatMap.mp hq
    obtain ⟨r, hr, rfl⟩ := List.mem_map.mp hq
    have hj : j ≤ st.layer := Nat.lt_succ_iff.mp (List.mem_range.mp hj)
    obtain ⟨g, hg, n, rfl, -⟩ := mem_readsOf _ _ _ _ _ (List.mem_of_mem_filter hr)
    obtain ⟨hmem, -, hlast⟩ := mem_group hg
    obtain ⟨hend, hend'⟩ := hold.end_le hj (hp.inside _ (hmem _ hlast)).2
    exact hend.trans hend'
  · obtain ⟨k, -, rfl⟩ := List.mem_map.mp hq
    exact le_rfl

end Whole

/-! ### Every run of every query -/

section All
variable {κ : Type} [LinearOrder κ] {E : Env} {a : ZarrArray κ} {st : Setup} {lo hi : Dbl}
  {opts : QueryOptions} {m : List UInt8 × ℕ × ℕ}

/-- A program that has returned nothing in any run raises. -/
theorem raises_of_not_returned {ε R : Type} {p : Program ε R}
    (h : ∀ v, ¬ p.Reachable (.returned (.ok v))) : Raises (fun _ => True) p := by
  refine ⟨acc_enter p, fun q hq => ?_⟩
  rcases live_progress (live_of_reachable hq) with hstep | ⟨x, rfl⟩
  · exact Or.inl hstep
  · cases x with
    | ok v => exact absurd hq (h v)
    | error e => exact Or.inr ⟨e, rfl, trivial⟩

section Queries
variable {l : List ℕ} (hchunk : a.codec.chunkShape l = .ok a.chunk) (hst : setup a opts = .ok st)
  (hkeys : DistinctKeys a st) (hfits : st.lt.planArgs.fits)
  (hm : (readMeta E a opts st).Returns (· = m))
  (hpipe : ∀ mo, st.pipelined opts = some mo →
    FixesIntegers E.fl ∧ 64 * st.lt.planArgs.totalBlocks < 2 ^ 53)
include hchunk hst hkeys hfits hm hpipe

/-- **What any run of any query has returned** are the counts of stored bytes. -/
theorem counts_returned {r : QueryResult}
    (h : (queryAsync E a lo hi opts).Reachable (.returned (.ok r))) :
    AllIn E a st lo hi opts m ∧ counts r = storedCounts E a st lo hi opts m := by
  have hc := a.codec.chunkOk_of_chunkShape hchunk
  cases hmo : st.pipelined opts with
  | none =>
    rw [query_eq_wholeQuery hst hmo] at h
    exact mayReturn_whole hc hst hkeys hfits hm (mayReturn_of_reachable h)
  | some mo =>
    obtain ⟨hfl, hlt⟩ := hpipe mo hmo
    obtain ⟨-, -, h0, -⟩ := pipelined_spec hmo
    rw [query_eq_pipelinedQuery hst hmo] at h
    -- the query with the whole zone map returns the same
    have hsame : (wholeQuery E a lo hi opts st).SameUpTo SameSmall _ :=
      same_query (slabbed_of_setup hchunk hst hmo hfits) hmo hfl (layer_zero hst h0).1
    obtain ⟨v, hv, hsmall⟩ := exists_of_always (hsame.2 r h)
    obtain ⟨hin, hcounts⟩ := mayReturn_whole hc hst hkeys hfits hm (mayReturn_of_reachable hv)
    refine ⟨hin, ?_⟩
    rw [(hsmall fun n hn => ?_).1, hcounts]
    rw [hcounts] at hn
    exact (le_storedCounts n hn).trans_lt hlt

/-- A query of which all MAYBE blocks are stored, at a higher layer in whole objects, counts them. -/
theorem always_stored (hin : AllIn E a st lo hi opts m)
    (hwhole : 0 < st.layer → ∀ id ∈ (plannedOf E a lo hi opts st m).ids,
      ∃ obj, a.get (a.keyOf st.lt id.1) = some obj ∧
        blockBytes st.rate * st.lt.blocksPerChunk ≤ obj.length) :
    (queryAsync E a lo hi opts).Always (counts · = storedCounts E a st lo hi opts m) := by
  have hc := a.codec.chunkOk_of_chunkShape hchunk
  refine always_of_wholeQuery hchunk hst hfits (fun mo hmo => ?_)
    (returns_wholeQuery lo hi (shapeOk_setup hc hst) hfits hm ?_)
  · obtain ⟨hfl, hlt⟩ := hpipe mo hmo
    exact ⟨hfl, fun n hn => (le_storedCounts n hn).trans_lt hlt⟩
  by_cases h0 : st.layer = 0
  · rw [if_pos h0]
    exact returns_streamStored hst h0 hin
  · rw [if_neg h0]
    refine returns_layersStored hc hst hkeys fun q hq => ?_
    obtain ⟨id, hid, hkey⟩ := (regular_plannedOf hc hst E lo hi m).key_payload opts q hq
    obtain ⟨obj, hget, hlen⟩ := hwhole (Nat.pos_of_ne_zero h0) id hid
    rw [← (getLastD_cols hst).2] at hlen
    exact ⟨_, readOne_eq (by rw [hkey]; exact hget) ((stop_payload hc hst hkeys q hq).trans hlen)⟩

omit hm hkeys in
theorem exists_readMeta_of_reachable {r : QueryResult}
    (h : (queryAsync E a lo hi opts).Reachable (.returned (.ok r))) :
    ∃ m, (readMeta E a opts st).Returns (· = m) := by
  have hwhole : ∃ v, (wholeQuery E a lo hi opts st).MayReturn v := by
    cases hmo : st.pipelined opts with
    | none =>
      rw [query_eq_wholeQuery hst hmo] at h
      exact ⟨r, mayReturn_of_reachable h⟩
    | some mo =>
      have h0 := (pipelined_spec hmo).2.2.1
      rw [query_eq_pipelinedQuery hst hmo] at h
      have hsame : (wholeQuery E a lo hi opts st).SameUpTo SameSmall _ :=
        same_query (slabbed_of_setup hchunk hst hmo hfits) hmo (hpipe mo hmo).1 (layer_zero hst h0).1
      obtain ⟨v, hv, -⟩ := exists_of_always (hsame.2 r h)
      exact ⟨v, mayReturn_of_reachable hv⟩
  obtain ⟨v, hv⟩ := hwhole
  obtain ⟨m, hm, -⟩ := mayReturn_bind hv
  cases hmo : st.mo.filter fun _ => opts.metaByKey with
  | none =>
    unfold readMeta at hm ⊢
    rw [hmo] at hm ⊢
    exact ⟨m, returns_done hm rfl⟩
  | some mo =>
    obtain ⟨hst', hkey⟩ := Option.filter_eq_some_iff.mp hmo
    obtain ⟨ss, hss, -⟩ := mayReturn_readMeta hst' hkey hm
    exact ⟨_, returns_readMeta hst' hkey hss⟩

/-- **A query of any store is answered from the bytes that are stored, or raises.** For every array, every
store, whatever its objects and its zone map hold, and all options:

* what a run returns are the counts of the stored bytes of the MAYBE blocks, all of which are inside their
  objects;
* when one of these bytes is not, every run raises;
* when all are and, at a higher layer, these objects are whole, every run returns these counts. -/
theorem answered_or_raises :
    (∀ r, (queryAsync E a lo hi opts).Reachable (.returned (.ok r)) →
      AllIn E a st lo hi opts m ∧ counts r = storedCounts E a st lo hi opts m) ∧
    (¬ AllIn E a st lo hi opts m → Raises (fun _ => True) (queryAsync E a lo hi opts)) ∧
    (AllIn E a st lo hi opts m → (0 < st.layer → ∀ id ∈ (plannedOf E a lo hi opts st m).ids,
        ∃ obj, a.get (a.keyOf st.lt id.1) = some obj ∧
          blockBytes st.rate * st.lt.blocksPerChunk ≤ obj.length) →
      (queryAsync E a lo hi opts).Always (counts · = storedCounts E a st lo hi opts m)) := by
  have hret : ∀ r, (queryAsync E a lo hi opts).Reachable (.returned (.ok r)) →
      AllIn E a st lo hi opts m ∧ counts r = storedCounts E a st lo hi opts m :=
    fun r => counts_returned hchunk hst hkeys hfits hm hpipe
  exact ⟨hret, fun hnot => raises_of_not_returned fun r hr => hnot (hret r hr).1,
    always_stored hchunk hst hkeys hfits hm hpipe⟩

end Queries

/-! ### Wider ranges -/

/-- `(lo', hi']` is at least as wide as `(lo, hi]`. -/
def Wider (lo hi lo' hi' : Dbl) : Prop := lo' ≤ lo ∧ hi ≤ hi'

section Wider
variable {lo' hi' : Dbl} (hwide : Wider lo hi lo' hi')
include hwide

theorem inRange_mono {x : Dbl} (h : InRange lo hi x) : InRange lo' hi' x :=
  ⟨Dbl.lt_of_le_of_lt hwide.1 h.1, Dbl.le_trans h.2 hwide.2⟩

/-- **A wider range** is not OUT of a block unless the other is, and IN wherever the other is. -/
theorem stateOf_mono (fl : ℚ → ℚ) (bmin bmax e : Dbl) :
    (stateOf fl bmin bmax e lo hi = .IN → stateOf fl bmin bmax e lo' hi' = .IN) ∧
      (stateOf fl bmin bmax e lo' hi' = .OUT → stateOf fl bmin bmax e lo hi = .OUT) := by
  obtain ⟨hlo, hhi⟩ := hwide
  have hin : lo < Dbl.sub fl bmin e ∧ Dbl.add fl bmax e ≤ hi →
      lo' < Dbl.sub fl bmin e ∧ Dbl.add fl bmax e ≤ hi' :=
    fun h => ⟨Dbl.lt_of_le_of_lt hlo h.1, Dbl.le_trans h.2 hhi⟩
  have hout : Dbl.add fl bmax e ≤ lo' ∨ hi' < Dbl.sub fl bmin e →
      Dbl.add fl bmax e ≤ lo ∨ hi < Dbl.sub fl bmin e :=
    Or.imp (fun h => Dbl.le_trans h hlo) fun h => Dbl.lt_of_le_of_lt hhi h
  unfold stateOf
  constructor
  · intro h
    split_ifs at h with h1 h2
    exact if_pos (hin h1)
  · intro h
    split_ifs at h with h1 h2
    rw [if_neg (mt hin h1), if_pos (hout h2)]

theorem stateAt_mono (fl : ℚ → ℚ) (zm : List UInt8) (p : PlanArgs) (cid b : ℕ) :
    (stateAt fl zm p lo hi cid b = .IN → stateAt fl zm p lo' hi' cid b = .IN) ∧
      (stateAt fl zm p lo' hi' cid b = .OUT → stateAt fl zm p lo hi cid b = .OUT) :=
  stateOf_mono hwide fl _ _ _

theorem countValues_mono (decode : ℚ → List UInt8 → Values) (rate : ℚ) (bytes : List UInt8) :
    countValues decode rate lo hi bytes ≤ countValues decode rate lo' hi' bytes := by
  rw [countValues_eq, countValues_eq]
  refine List.countP_mono_left fun i _ h => ?_
  exact decide_eq_true (inRange_mono hwide (of_decide_eq_true h))

end Wider

def blockCount (state : BlockState) (maybe : ℕ) : ℕ :=
  match state with
  | .IN => 64
  | .OUT => 0
  | .MAYBE => maybe

omit [LinearOrder κ] in
variable (E a st lo hi opts m) in
theorem storedCounts_eq : storedCounts E a st lo hi opts m =
    let zm := planMeta a.codec st.layer st.lt.unitShape m.1
    [((List.range st.lt.planArgs.nChunk).map fun cid => ((List.range st.lt.planArgs.blocksPerChunk).map
        fun b => blockCount (stateAt E.fl zm st.lt.planArgs lo hi cid b)
          (countValues E.decode st.rate lo hi (storedRow a st (cid, b)))).sum).sum,
      countAll E.fl zm st.lt.planArgs lo hi .IN, countAll E.fl zm st.lt.planArgs lo hi .OUT,
      countAll E.fl zm st.lt.planArgs lo hi .MAYBE] := by
  set zm := planMeta a.codec st.layer st.lt.unitShape m.1
  have hsum := sum_states (n := 64) (p := st.lt.planArgs)
    (f := fun id => blockCount (stateAt E.fl zm st.lt.planArgs lo hi id.1 id.2)
      (countValues E.decode st.rate lo hi (storedRow a st id)))
    (fun cid _ b _ h => by dsimp only; rw [h]; rfl) fun cid _ b _ h => by dsimp only; rw [h]; rfl
  dsimp only at hsum ⊢
  rw [hsum, ← length_maybeIds]
  have hmaybe : (maybeIds E.fl zm st.lt.planArgs lo hi).map (fun id =>
      blockCount (stateAt E.fl zm st.lt.planArgs lo hi id.1 id.2)
        (countValues E.decode st.rate lo hi (storedRow a st id))) =
      (maybeIds E.fl zm st.lt.planArgs lo hi).map fun id =>
        countValues E.decode st.rate lo hi (storedRow a st id) := by
    refine List.map_congr_left fun id hid => ?_
    rw [(mem_maybeIds.mp hid).2.2]
    rfl
  rw [hmaybe]
  rfl

theorem countAll_le {fl : ℚ → ℚ} {zm : List UInt8} {p : PlanArgs} {lo' hi' : Dbl} {state : BlockState}
    (h : ∀ cid b, stateAt fl zm p lo hi cid b = state → stateAt fl zm p lo' hi' cid b = state) :
    countAll fl zm p lo hi state ≤ countAll fl zm p lo' hi' state := by
  unfold countAll countState
  refine List.sum_le_sum fun cid _ => List.countP_mono_left fun b _ hb => ?_
  exact decide_eq_true (h cid b (of_decide_eq_true hb))

/-- What a wider range counts of a block is at least as much. -/
theorem blockCount_mono {state state' : BlockState} {n n' : ℕ} (hin : state = .IN → state' = .IN)
    (hout : state' = .OUT → state = .OUT) (hn : n ≤ n') (hle : n ≤ 64) :
    blockCount state n ≤ blockCount state' n' := by
  cases state with
  | IN =>
    rw [hin rfl]
    exact le_refl 64
  | OUT => exact Nat.zero_le _
  | MAYBE =>
    cases state' with
    | IN => exact hle
    | OUT => cases hout rfl
    | MAYBE => exact hn

/-- **A wider range is counted at least as high.** For every array, whatever its store and its zone map
hold: what any run of a query has returned for a range and what any run of a query of the same layer has
returned for a wider range agree in that the second counts at least as many values, has at least as many
IN blocks and at most as many OUT blocks, whatever the options of both. -/
theorem count_mono {l : List ℕ} {lo' hi' : Dbl} {opts' : QueryOptions} {m' : List UInt8 × ℕ × ℕ}
    (hchunk : a.codec.chunkShape l = .ok a.chunk) (hkeys : DistinctKeys a st)
    (hfits : st.lt.planArgs.fits) (hst : setup a opts = .ok st) (hst' : setup a opts' = .ok st)
    (hm : (readMeta E a opts st).Returns (· = m)) (hm' : (readMeta E a opts' st).Returns (· = m'))
    (hzm : m'.1 = m.1) (hpipe : ∀ mo, st.pipelined opts = some mo ∨ st.pipelined opts' = some mo →
      FixesIntegers E.fl ∧ 64 * st.lt.planArgs.totalBlocks < 2 ^ 53)
    (hwide : Wider lo hi lo' hi') {r r' : QueryResult}
    (h : (queryAsync E a lo hi opts).Reachable (.returned (.ok r)))
    (h' : (queryAsync E a lo' hi' opts').Reachable (.returned (.ok r'))) :
    r.count ≤ r'.count ∧ r.inBlocks ≤ r'.inBlocks ∧ r'.outBlocks ≤ r.outBlocks := by
  obtain ⟨-, hc⟩ := counts_returned hchunk hst hkeys hfits hm (fun mo hmo => hpipe mo (Or.inl hmo)) h
  obtain ⟨-, hc'⟩ := counts_returned hchunk hst' hkeys hfits hm' (fun mo hmo => hpipe mo (Or.inr hmo)) h'
  rw [storedCounts_eq] at hc hc'
  unfold counts at hc hc'
  dsimp only at hc hc'
  rw [hzm] at hc'
  simp only [List.cons.injEq, and_true] at hc hc'
  obtain ⟨hcount, hin, hout, -⟩ := hc
  obtain ⟨hcount', hin', hout', -⟩ := hc'
  have hstate := stateAt_mono hwide E.fl (planMeta a.codec st.layer st.lt.unitShape m.1) st.lt.planArgs
  rw [hcount, hcount', hin, hin', hout, hout']
  refine ⟨?_, countAll_le fun cid b => (hstate cid b).1, countAll_le fun cid b => (hstate cid b).2⟩
  refine List.sum_le_sum fun cid _ => List.sum_le_sum fun b _ => ?_
  exact blockCount_mono (hstate cid b).1 (hstate cid b).2 (countValues_mono hwide _ _ _)
    (countValues_le _ _ _ _ _)

end All

/-! ### Two blocks, and one of them cut off -/

/-- The second block is not in its object. -/
def arrayCut : ZarrArray ℕ := onStore arrayOfTwo fun k =>
  if k = 0 then some (List.replicate 8 0) else some zonesOfTwo

theorem setup_pipelined : setup arrayOfTwo optionsPipelined = .ok setupOfTwo := setup_ofTwo

theorem setup_cut : setup arrayCut optionsPipelined = .ok setupOfTwo := setup_ofTwo

theorem distinct_two : DistinctKeys arrayOfTwo setupOfTwo := by
  unfold DistinctKeys
  decide +kernel

theorem readMeta_two : (readMeta envOfTwo arrayOfTwo optionsPipelined setupOfTwo).Returns
    (· = (zonesOfTwo, 28, 1)) := by
  unfold readMeta
  exact returns_zones rfl fun _ => returns_done rfl rfl

theorem readMeta_cut : (readMeta envOfTwo arrayCut optionsPipelined setupOfTwo).Returns
    (· = (zonesOfTwo, 28, 1)) := by
  unfold readMeta
  exact returns_zones rfl fun _ => returns_done rfl rfl

theorem allIn_two (lo hi : Dbl) :
    AllIn envOfTwo arrayOfTwo setupOfTwo lo hi optionsPipelined (zonesOfTwo, 28, 1) := by
  intro id hid j hj
  obtain ⟨hcid, hb, -⟩ := mem_planned.mp hid
  have hn : setupOfTwo.lt.planArgs.nChunk = 1 ∧ setupOfTwo.lt.planArgs.blocksPerChunk = 2 := by
    decide +kernel
  have hbytes : setupOfTwo.layerBytes 0 = 8 ∧ setupOfTwo.lt.layerStarts.getD 0 0 = 0 := by
    decide +kernel
  obtain rfl : j = 0 := Nat.le_zero.mp hj
  have hkey : arrayOfTwo.keyOf setupOfTwo.lt id.1 = 0 := by
    have h1 : id.1 = 0 := by omega
    rw [h1]
    decide +kernel
  unfold LayerIn
  rw [hkey, hbytes.1, hbytes.2]
  refine ⟨_, rfl, ?_⟩
  simp
  omega

/-- A query of the array that is cut off raises in every run, one of the whole array counts what is
stored. -/
theorem answered_or_raises_cut :
    Raises (fun _ => True) (queryAsync envOfTwo arrayCut (.fin 0) .pinf optionsPipelined) ∧
    (queryAsync envOfTwo arrayOfTwo (.fin 0) .pinf optionsPipelined).Always (counts · =
      storedCounts envOfTwo arrayOfTwo setupOfTwo (.fin 0) .pinf optionsPipelined (zonesOfTwo, 28, 1)) := by
  refine ⟨(answered_or_raises chunkShape_oneLayer setup_cut distinct_two (by decide +kernel) readMeta_cut
    fun _ _ => ⟨fun n _ => rfl, by decide +kernel⟩).2.1 fun hin => ?_,
    (answered_or_raises chunkShape_oneLayer setup_pipelined distinct_two (by decide +kernel) readMeta_two
      fun _ _ => ⟨fun n _ => rfl, by decide +kernel⟩).2.2 (allIn_two _ _) fun h => absurd h (by decide)⟩
  obtain ⟨obj, hget, hlen⟩ := hin (0, 1) (by decide +kernel) 0 le_rfl
  have hobj : obj = List.replicate 8 0 := (Option.some.inj hget).symm
  rw [hobj] at hlen
  exact absurd hlen (by decide +kernel)

theorem exists_returned (lo hi : Dbl) : ∃ r,
    (queryAsync envOfTwo arrayOfTwo lo hi optionsPipelined).Reachable (.returned (.ok r)) := by
  obtain ⟨r, hr, -⟩ := exists_of_always (always_stored chunkShape_oneLayer setup_pipelined distinct_two
    (by decide +kernel) readMeta_two (fun _ _ => ⟨fun n _ => rfl, by decide +kernel⟩) (allIn_two lo hi)
    fun h => absurd h (lt_irrefl 0))
  exact ⟨r, hr⟩

/-- The values above zero, and those above minus one. -/
theorem count_mono_two : ∃ r r',
    (queryAsync envOfTwo arrayOfTwo (.fin 0) .pinf optionsPipelined).Reachable (.returned (.ok r)) ∧
      (queryAsync envOfTwo arrayOfTwo (.fin (-1)) .pinf optionsPipelined).Reachable (.returned (.ok r')) ∧
      r.count ≤ r'.count := by
  obtain ⟨r, hr⟩ := exists_returned (.fin 0) .pinf
  obtain ⟨r', hr'⟩ := exists_returned (.fin (-1)) .pinf
  exact ⟨r, r', hr, hr', (count_mono chunkShape_oneLayer distinct_two (by decide +kernel)
    setup_pipelined setup_pipelined readMeta_two readMeta_two rfl
    (fun _ _ => ⟨fun n _ => rfl, by decide +kernel⟩) ⟨by decide, by decide⟩ hr hr').1⟩

end SkipZFP.Query.Stored
