import SkipZFP.Plan.Layers
import SkipZFP.Query.Fill
import SkipZFP.Query.Pipelined

/-! # A query at a layer of a layered array

`Packed` says that a store holds the chunks of some data as its codec packs them. `layer_query_eq`: **a
query at layer `k` of a layered array returns what a query of the single-layer array of rate `layers[k]`
returns**, where the first bits of a block encoded at the full rate are its encoding at the rate of the
layer.

* `holds_of_packed`: a packed store holds the rows of its blocks, layer by layer.
* `take_blockRow`: the first bytes of a row are the row of the single-layer array.
* `plannedOf_single`: both queries plan the same blocks. -/

namespace SkipZFP.Query.Layers

open SkipZFP.Lib.Grid SkipZFP.Lib.Rows SkipZFP.Lib.Loops SkipZFP.Lib.Table SkipZFP.Lib.Double
open SkipZFP.Lib.Float32 SkipZFP.Codec.Config SkipZFP.Codec.Pack SkipZFP.Codec.Meta
open SkipZFP.Plan.Classify SkipZFP.Plan.Blocks SkipZFP.Plan.Shapes SkipZFP.Plan.Records
open SkipZFP.Plan.Layers SkipZFP.Read.Merge SkipZFP.Read.Budget SkipZFP.Read.Gather
open SkipZFP.Read.Store SkipZFP.Read.ZoneMap SkipZFP.Read.Stream SkipZFP.Query.Run
open SkipZFP.Query.Count SkipZFP.Query.Slabs SkipZFP.Query.Pipelined SkipZFP.Query.Fill

/-! ### A packed store -/

section Packed
variable {κ : Type} (nat : Native F32) (a : ZarrArray κ) (st : Setup) (data : Tri → F32)

/-- The values of chunk `cid`. -/
def chunkView (cid : ℕ) : Tri → F32 := (tileBox a.chunk (unravel st.lt.gridShape cid)).view data

/-- The encoding of a block at the full rate. Blocks are numbered as they are stored. -/
def blockRow (id : ℕ × ℕ) : List UInt8 :=
  (packRows nat a.codec a.chunk (chunkView a st data id.1)).getD id.2 []

/-- **A store that holds the chunks of some data**, as the codec packs them, under distinct keys. -/
structure Packed : Prop where
  object : ∀ cid < st.nChunk,
    a.get (a.keyOf st.lt cid) = some (pack nat a.codec a.chunk (chunkView a st data cid))
  distinct : ∀ cid < st.nChunk, ∀ cid' < st.nChunk,
    a.keyOf st.lt cid = a.keyOf st.lt cid' → cid = cid'

variable {nat a st data} {opts : QueryOptions}

/-- The columns of a row are cut where the layers' bytes add up. -/
theorem getD_cols (hst : setup a opts = .ok st) {j : ℕ} (hj : j ≤ st.layer + 1) :
    st.cols.getD j 0 = (a.codec.layerBytes.take j).sum := by
  obtain ⟨size, hlt⟩ := layoutOf_setup hst
  have hl := (setup_spec hst).2.1
  have hbytes : st.lt.layerBytes = a.codec.layerBytes := by rw [hlt]; rfl
  unfold Setup.cols
  rw [hbytes, getD_cumsum_zero_cons _ (by
    rw [List.length_take, a.codec.length_layerBytes]; omega), List.take_take, Nat.min_eq_left hj]

/-- A row has the bytes of the rate of the layer. -/
theorem getLastD_cols (hst : setup a opts = .ok st) :
    st.cols.getLastD 0 = st.cols.getD (st.layer + 1) 0 ∧ st.cols.getLastD 0 = blockBytes st.rate := by
  obtain ⟨size, hlt⟩ := layoutOf_setup hst
  have hl := (setup_spec hst).2.1
  have hlen : st.cols.length = st.layer + 2 := by
    unfold Setup.cols
    rw [length_cumsum, List.length_cons, List.length_take, hlt]
    show min (st.layer + 1) a.codec.layerBytes.length + 1 = _
    rw [a.codec.length_layerBytes]
    omega
  have hlast : st.cols.getLastD 0 = st.cols.getD (st.layer + 1) 0 := by
    rw [List.getLastD_eq_getLast?, List.getLast?_eq_getElem?, hlen, List.getD_eq_getElem?_getD]
    rfl
  refine ⟨hlast, ?_⟩
  rw [hlast, getD_cols hst le_rfl, a.codec.sum_take_layerBytes hl]
  unfold Setup.rate
  rw [hlt]
  rfl

/-- **A packed store holds the rows of its blocks**, layer by layer. -/
theorem holds_of_packed (hc : a.codec.ChunkOk a.chunk) (hst : setup a opts = .ok st)
    (h : Packed nat a st data) : Holds a st (blockRow nat a st data) := by
  obtain ⟨size, hlt⟩ := layoutOf_setup hst
  have hl := (setup_spec hst).2.1
  have hblocks : st.lt.blocksPerChunk = volume (blocksOf a.chunk) := by rw [hlt]; rfl
  have hbytes : ∀ j, st.layerBytes j = a.codec.layerBytes.getD j 0 := fun j => by
    unfold Setup.layerBytes
    rw [hlt]
    rfl
  have hstarts : ∀ j ≤ st.layer, st.lt.layerStarts.getD j 0 =
      volume (blocksOf a.chunk) * (a.codec.layerBytes.take j).sum := fun j hj => by
    rw [hlt]
    exact getD_layerStarts size (by omega)
  have hlen := a.codec.length_layerBytes
  obtain ⟨hlast, -⟩ := getLastD_cols hst
  refine ⟨fun cid hcid => ⟨_, h.object cid hcid, ?_, fun b hb j hj => ?_⟩, h.distinct,
    fun cid _ b hb => ?_, fun j hj => ?_, fun j hj => ⟨?_, ?_⟩, ?_, hlast⟩
  · -- the layers up to `layer` are in the object
    rw [hlast, getD_cols hst le_rfl, hblocks, length_pack nat a.codec hc, Nat.mul_comm]
    exact Nat.mul_le_mul_left _ (sum_take_le _ _)
  · rw [hstarts j hj, hbytes, getD_cols hst (by omega), getD_cols hst (by omega)]
    exact slice_pack nat a.codec hc _ (by omega) (by omega)
  · rw [hblocks, ← length_packRows nat a.codec hc (chunkView a st data cid)] at hb
    unfold blockRow
    rw [List.getD_eq_getElem _ _ hb, length_of_mem_packRows nat a.codec hc _ (List.getElem_mem hb),
      hlast, getD_cols hst le_rfl]
    exact sum_take_le _ _
  · rw [hstarts j hj, getD_cols hst (by omega), hblocks]
  · rw [getD_cols hst (by omega), getD_cols hst (by omega), sum_take_succ _ (by omega), hbytes]
  · have hj' : j < a.codec.layerBytes.length := by omega
    rw [hbytes, List.getD_eq_getElem _ _ hj']
    exact a.codec.layerBytes_pos (List.getElem_mem hj')
  · rw [getD_cols hst (Nat.zero_le _), List.take_zero, List.sum_nil]

theorem regular_plannedOf (hc : a.codec.ChunkOk a.chunk) (hst : setup a opts = .ok st) (E : Env)
    (lo hi : Dbl) (m : List UInt8 × ℕ × ℕ) :
    Regular a st (plannedOf E a lo hi opts st m) (opts.mergeGapBlocks % 2 ^ 64) := by
  obtain ⟨hn, hb⟩ := counts_setup hc hst
  refine ⟨rfl, pairwise_maybeIds, fun id hid => ?_⟩
  obtain ⟨h1, h2, -⟩ := mem_maybeIds.mp hid
  exact ⟨by rwa [hn], by rwa [hb]⟩

/-- The block of a query of layer 0 is the beginning of its row. -/
theorem storedBlock_holds {row : ℕ × ℕ → List UInt8} (hst : setup a opts = .ok st) (h0 : st.layer = 0)
    (h : Holds a st row) {id : ℕ × ℕ} (hcid : id.1 < st.nChunk) (hb : id.2 < st.lt.blocksPerChunk) :
    storedBlock a (a.keyOf st.lt) (blockBytes st.rate) 0 id = (row id).take (blockBytes st.rate) := by
  obtain ⟨hbytes, hstart⟩ := layer_zero hst h0
  obtain ⟨obj, hget, -, hslice⟩ := h.object _ hcid
  have hone : st.cols.getD (0 + 1) 0 = blockBytes st.rate := by
    rw [← (getLastD_cols hst).2, (getLastD_cols hst).1, h0]
  have hrow := hslice id.2 hb 0 (Nat.zero_le _)
  rw [hstart, hbytes, h.first, hone, ← take_eq_slice] at hrow
  unfold storedBlock
  rw [hget, Option.getD_some, hrow]

end Packed

/-! ### The payload reads -/

section Reads
variable {κ : Type} [LinearOrder κ] {a : ZarrArray κ} {st : Setup} {row : ℕ × ℕ → List UInt8}
  {p : Planned κ} {gap : ℕ}

theorem readOne_payload (h : Holds a st row) (hp : Regular a st p gap) (opts : QueryOptions) :
    ∀ q ∈ payloadReqs opts st p, readOne a q.1 = .ok (bytesOf a q.1) := by
  intro q hq
  suffices hin : ∃ obj, a.get q.1.key = some obj ∧ q.1.stop ≤ obj.length by
    obtain ⟨obj, hget, hstop⟩ := hin
    rw [readOne_eq hget hstop, bytesOf, hget, Option.getD_some]
  rw [hp.payloadReqs_eq] at hq
  rcases List.mem_append.mp hq with hq | hq
  · obtain ⟨j, hj, hq⟩ := List.mem_flatMap.mp hq
    obtain ⟨r, hr, rfl⟩ := List.mem_map.mp hq
    have hj : j ≤ st.layer := Nat.lt_succ_iff.mp (List.mem_range.mp hj)
    obtain ⟨g, hg, n, rfl, -⟩ := mem_readsOf _ _ _ _ _ (List.mem_of_mem_filter hr)
    obtain ⟨hmem, hhead, hlast⟩ := mem_group hg
    obtain ⟨obj, hget, hlen, -⟩ := h.object _ (hp.inside _ (hmem _ hhead)).1
    obtain ⟨hend, hend'⟩ := h.end_le hj (hp.inside _ (hmem _ hlast)).2
    exact ⟨obj, hget, hend.trans (hend'.trans hlen)⟩
  · obtain ⟨k, hk, rfl⟩ := List.mem_map.mp hq
    obtain ⟨id, hid, rfl⟩ := hp.mem_dense hk
    obtain ⟨obj, hget, hlen, -⟩ := h.object _ (hp.inside id hid).1
    exact ⟨obj, hget, hlen⟩

section Count
variable {E : Env} {lo hi : Dbl} {opts : QueryOptions} (hrate : 0 < st.rate ∧ Int.fract (8 * st.rate) = 0)
  (hwidth : st.cols.getLastD 0 = blockBytes st.rate) (hdim : st.lt.blockDim = blockDim)
include hrate hwidth hdim

/-- **What a query at a higher layer returns** for what it has read: it counts the blocks of its
matrix. -/
theorem layersResult_eq (h : Holds a st row) (hp : Regular a st p gap) :
    layersResult E a lo hi opts st p (payloadParts a opts st p) = .ok (queryResult st p
      (p.ids.map fun id => countValues E.decode st.rate lo hi ((row id).take (blockBytes st.rate))).sum
      ((payloadParts a opts st p).map List.length).sum (payloadReqs opts st p).length
      ((payloadParts a opts st p).map List.length).sum) := by
  have hrows : ∀ r ∈ p.ids.map fun id => (row id).take (blockBytes st.rate),
      r.length = blockBytes st.rate := by
    intro r hr
    obtain ⟨id, hid, rfl⟩ := List.mem_map.mp hr
    have := h.row id.1 (hp.inside id hid).1 id.2 (hp.inside id hid).2
    rw [List.length_take, Nat.min_eq_left (by rwa [← hwidth])]
  have hcount : nativeCount E.decode (assemble E a opts st p (payloadParts a opts st p)).flatten
      p.sortedBlocks.length (blockBytes st.rate) st.rate st.lt.blockDim lo hi =
      .ok (p.ids.map fun id => countValues E.decode st.rate lo hi
        ((row id).take (blockBytes st.rate))).sum := by
    have hreshape := congrArg (fun L => (L.map (countValues E.decode st.rate lo hi)).sum)
      (reshape_flatten hrows)
    rw [reshape, List.map_map, List.map_map, List.length_map] at hreshape
    rw [assemble_eq h hp, hdim, nativeCount_eq E.decode hrate, hwidth, hp.sortedBlocks_eq, List.length_map]
    exact congrArg Except.ok hreshape
  unfold layersResult
  dsimp only
  rw [hcount]
  rfl

/-- **A query at a higher layer** counts the blocks of its matrix. -/
theorem returns_readLayers {Q : QueryResult → Prop} (h : Holds a st row) (hp : Regular a st p gap)
    (hQ : Q (queryResult st p
      (p.ids.map fun id => countValues E.decode st.rate lo hi ((row id).take (blockBytes st.rate))).sum
      ((payloadParts a opts st p).map List.length).sum (payloadReqs opts st p).length
      ((payloadParts a opts st p).map List.length).sum)) :
    (readLayers E a lo hi opts st p).Returns Q := by
  have hread : ((payloadReqs opts st p).map Prod.fst).mapM (batchTasks a).readResult =
      .ok (payloadParts a opts st p) := by
    rw [List.mapM_map]
    refine mapM_ok fun q hq => ?_
    show (readOne a q.1).bind _ = _
    rw [readOne_payload h hp opts q hq]
    rfl
  refine returns_bind (returns_readBatches (by rwa [flatten_batched batchSize_pos]) ?_)
  refine returns_done ?_ hQ
  rw [List.nil_append]
  exact layersResult_eq hrate hwidth hdim h hp

end Count

end Reads

/-! ### The single-layer array -/

section Single
variable {κ κ' : Type} {nat : Native F32} {a : ZarrArray κ} {b : ZarrArray κ'} {st st' : Setup}
  {data : Tri → F32} {opts opts' : QueryOptions}

/-- **The array of layer `k` alone**, of the same shape in the same chunks. -/
structure IsSingle (a : ZarrArray κ) (k : ℕ) (b : ZarrArray κ') : Prop where
  lt : k < a.codec.layers.length
  codec : b.codec = single a.codec k lt
  shape : b.shape = a.shape
  chunk : b.chunk = a.chunk

variable (hc : a.codec.ChunkOk a.chunk) (hst : setup a opts = .ok st) (hb : IsSingle a st.layer b)
  (hst' : setup b opts' = .ok st')
include hst hb hst'

theorem setup_single (h1 : 1 < a.codec.layers.length) : st'.layer = 0 ∧ st'.rate = st.rate ∧
    st'.lt.planArgs = st.lt.planArgs ∧ st'.lt.gridShape = st.lt.gridShape := by
  obtain ⟨size, hlt⟩ := layoutOf_setup hst
  obtain ⟨size', hlt'⟩ := layoutOf_setup hst'
  have hl' := (setup_spec hst').2.1
  have h0 : st'.layer = 0 := by
    rw [hb.codec] at hl'
    exact Nat.lt_one_iff.mp hl'
  refine ⟨h0, ?_, ?_, ?_⟩
  · unfold Setup.rate
    rw [hlt, hlt', h0, hb.codec]
    rfl
  · rw [hlt, hlt', planArgs_layoutOf, planArgs_layoutOf, hb.codec, hb.shape, hb.chunk,
      planArgs_single hb.lt (bits_eq_zero h1)]
  · rw [hlt, hlt', hb.shape, hb.chunk]
    rfl

include hc in
/-- **The first bytes of a row are the row of the single-layer array.** -/
theorem take_blockRow (h1 : 1 < a.codec.layers.length) (hpre : Prefixed nat a.codec st.layer)
    {id : ℕ × ℕ} (hid : id.2 < volume (blocksOf a.chunk)) :
    (blockRow nat a st data id).take (blockBytes st.rate) = blockRow nat b st' data id := by
  obtain ⟨size, hlt⟩ := layoutOf_setup hst
  obtain ⟨-, -, -, hgrid⟩ := setup_single hst hb hst' h1
  have hview : chunkView b st' data id.1 = chunkView a st data id.1 := by
    unfold chunkView
    rw [hgrid, hb.chunk]
  have hrate : st.rate = a.codec.layers.getD st.layer 0 := by
    unfold Setup.rate
    rw [hlt]
    rfl
  unfold blockRow
  rw [hview, hb.codec, hb.chunk, List.getD_eq_getElem?_getD, List.getD_eq_getElem?_getD,
    packRows_getElem?_of_lt nat a.codec hc _ hid,
    packRows_getElem?_of_lt nat (single a.codec st.layer hb.lt) (chunkOk_single hb.lt hc) _ hid,
    Option.getD_some, Option.getD_some, hrate]
  refine hpre _ _ _ (ravel_lt (inside_unrank a.codec.order (Nat.mod_lt _ ?_)))
  exact volume_unit_pos a.codec hc

variable {E : Env} {lo hi : Dbl} {m m' : List UInt8 × ℕ × ℕ}

variable (E lo hi) in
/-- **Both queries plan the same blocks**, where `plan_meta` makes one zone map of the other. -/
theorem plannedOf_single (h1 : 1 < a.codec.layers.length)
    (hm : m'.1 = planMeta a.codec st.layer st.lt.unitShape m.1) :
    (plannedOf E b lo hi opts' st' m').ids = (plannedOf E a lo hi opts st m).ids ∧
      (plannedOf E b lo hi opts' st' m').nIn = (plannedOf E a lo hi opts st m).nIn ∧
      (plannedOf E b lo hi opts' st' m').nOut = (plannedOf E a lo hi opts st m).nOut := by
  obtain ⟨-, -, hargs, -⟩ := setup_single hst hb hst' h1
  have hzm : planMeta b.codec st'.layer st'.lt.unitShape m'.1 = m'.1 :=
    if_pos (by rw [hb.codec]; rfl)
  unfold plannedOf
  dsimp only
  rw [hzm, hargs, hm]
  exact ⟨rfl, rfl, rfl⟩

end Single

/-! ### Both queries -/

section Query
variable {κ κ' : Type} {nat : Native F32} {a : ZarrArray κ} {b : ZarrArray κ'} {st st' : Setup}
  {data : Tri → F32} {opts opts' : QueryOptions} {E : Env} {lo hi : Dbl} {m m' : List UInt8 × ℕ × ℕ}

variable (nat a st data opts E lo hi m) in
/-- What both queries count. -/
def layerCounts : List ℕ :=
  let p := plannedOf E a lo hi opts st m
  [p.nIn * 64 + (p.ids.map fun id => countValues E.decode st.rate lo hi
    ((blockRow nat a st data id).take (blockBytes st.rate))).sum, p.nIn, p.nOut, p.ids.length]

/-- The counts are those of values of the array. -/
theorem le_layerCounts : ∀ n ∈ layerCounts nat a st data opts E lo hi m,
    n ≤ 64 * st.lt.planArgs.totalBlocks := by
  have hstates := count_states E.fl (planMeta a.codec st.layer st.lt.unitShape m.1) st.lt.planArgs lo hi
  have hids : (plannedOf E a lo hi opts st m).ids.length = countAll E.fl
      (planMeta a.codec st.layer st.lt.unitShape m.1) st.lt.planArgs lo hi .MAYBE := length_maybeIds
  have hvalues : ((plannedOf E a lo hi opts st m).ids.map fun id => countValues E.decode st.rate lo hi
      ((blockRow nat a st data id).take (blockBytes st.rate))).sum ≤
        (plannedOf E a lo hi opts st m).ids.length * 64 := by
    refine (List.sum_le_card_nsmul _ 64 fun n hn => ?_).trans (by rw [List.length_map, smul_eq_mul])
    obtain ⟨id, -, rfl⟩ := List.mem_map.mp hn
    rw [countValues_eq]
    exact List.countP_le_length.trans (List.length_finRange).le
  have hin : (plannedOf E a lo hi opts st m).nIn = countAll E.fl
      (planMeta a.codec st.layer st.lt.unitShape m.1) st.lt.planArgs lo hi .IN := rfl
  have hout : (plannedOf E a lo hi opts st m).nOut = countAll E.fl
      (planMeta a.codec st.layer st.lt.unitShape m.1) st.lt.planArgs lo hi .OUT := rfl
  intro n hn
  unfold layerCounts at hn
  simp only [List.mem_cons, List.not_mem_nil, or_false] at hn
  rcases hn with rfl | rfl | rfl | rfl <;> omega

theorem returns_layer [LinearOrder κ] (hc : a.codec.ChunkOk a.chunk) (hst : setup a opts = .ok st)
    (hlayer : st.layer ≠ 0) (hfits : st.lt.planArgs.fits)
    (hm : (readMeta E a opts st).Returns (· = m)) (hA : Packed nat a st data) :
    (queryAsync E a lo hi opts).Returns fun r =>
      counts r = layerCounts nat a st data opts E lo hi m := by
  have hnone : st.pipelined opts = none := by
    unfold Setup.pipelined
    cases st.mo <;> simp [hlayer]
  rw [query_eq_wholeQuery hst hnone]
  refine returns_wholeQuery lo hi (shapeOk_setup hc hst) hfits hm ?_
  rw [if_neg hlayer]
  have hp := regular_plannedOf hc hst E lo hi m
  refine returns_readLayers (rate_ok hst) (getLastD_cols hst).2 (blockDim_setup hst)
    (holds_of_packed hc hst hA) hp ?_
  unfold counts layerCounts queryResult
  dsimp only
  rw [valuesPerBlock_setup hst, hp.sortedBlocks_eq, List.length_map]

theorem returns_layerZero [LinearOrder κ] (hc : a.codec.ChunkOk a.chunk) (hst : setup a opts = .ok st)
    (h0 : st.layer = 0) (hfits : st.lt.planArgs.fits) (hm : (readMeta E a opts st).Returns (· = m))
    (hobj : ∀ id ∈ (plannedOf E a lo hi opts st m).ids, ∃ obj, a.get (a.keyOf st.lt id.1) = some obj ∧
      (id.2 + 1) * blockBytes st.rate ≤ obj.length)
    (hblock : ∀ id ∈ (plannedOf E a lo hi opts st m).ids, storedBlock a (a.keyOf st.lt)
      (blockBytes st.rate) 0 id = (blockRow nat a st data id).take (blockBytes st.rate)) :
    (wholeQuery E a lo hi opts st).Returns fun r =>
      counts r = layerCounts nat a st data opts E lo hi m := by
  refine returns_wholeQuery lo hi (shapeOk_setup hc hst) hfits hm ?_
  rw [if_pos h0]
  refine returns_streamLayer hst h0 hobj fun peak => ?_
  have hsum := sum_groups (opts.mergeGapBlocks % 2 ^ 64) (plannedOf E a lo hi opts st m).ids
    fun id => countValues E.decode st.rate lo hi
      (storedBlock a (a.keyOf st.lt) (blockBytes st.rate) 0 id)
  have hcongr := List.map_congr_left fun id hid =>
    congrArg (countValues E.decode st.rate lo hi) (hblock id hid)
  rw [hcongr] at hsum
  unfold counts layerCounts streamResult queryResult
  dsimp only
  rw [valuesPerBlock_setup hst, sortedBlocks_plannedOf, List.length_map, List.map_map]
  simp only [Function.comp_def]
  rw [hsum]

theorem block_of_packed (hc : a.codec.ChunkOk a.chunk) (hst : setup a opts = .ok st)
    (hA : Packed nat a st data) {cid b : ℕ} (hcid : cid < st.lt.planArgs.nChunk)
    (hb : b < st.lt.planArgs.blocksPerChunk) : ∃ obj, a.get (a.keyOf st.lt cid) = some obj ∧
      (b + 1) * blockBytes st.rate ≤ obj.length := by
  obtain ⟨hn, hblocks⟩ := counts_setup hc hst
  obtain ⟨obj, hget, hlen, -⟩ := (holds_of_packed hc hst hA).object cid (by rwa [hn])
  rw [(getLastD_cols hst).2, hblocks, Nat.mul_comm] at hlen
  exact ⟨obj, hget, (Nat.mul_le_mul_right _ hb).trans hlen⟩

theorem object_of_packed [LinearOrder κ] (hc : a.codec.ChunkOk a.chunk) (hst : setup a opts = .ok st)
    (hA : Packed nat a st data) (m : List UInt8 × ℕ × ℕ) :
    ∀ id ∈ (plannedOf E a lo hi opts st m).ids, ∃ obj, a.get (a.keyOf st.lt id.1) = some obj ∧
      (id.2 + 1) * blockBytes st.rate ≤ obj.length := fun id hid => by
  obtain ⟨hcid, hb, -⟩ := mem_maybeIds.mp hid
  exact block_of_packed hc hst hA hcid hb

/-- What is counted for the single-layer array is what is counted for the layer. -/
theorem layerCounts_single (hc : a.codec.ChunkOk a.chunk) (hst : setup a opts = .ok st)
    (h1 : 1 < a.codec.layers.length) (hpre : Prefixed nat a.codec st.layer) (hb : IsSingle a st.layer b)
    (hst' : setup b opts' = .ok st') (hzm : m'.1 = planMeta a.codec st.layer st.lt.unitShape m.1) :
    layerCounts nat b st' data opts' E lo hi m' = layerCounts nat a st data opts E lo hi m := by
  obtain ⟨-, hrate, hargs, -⟩ := setup_single hst hb hst' h1
  obtain ⟨hids, hin, hout⟩ := plannedOf_single hst hb hst' E lo hi h1 hzm
  have hrows : ∀ id ∈ (plannedOf E a lo hi opts st m).ids, countValues E.decode st'.rate lo hi
      ((blockRow nat b st' data id).take (blockBytes st'.rate)) = countValues E.decode st.rate lo hi
        ((blockRow nat a st data id).take (blockBytes st.rate)) := by
    intro id hid
    have hblock := ((regular_plannedOf hc hst E lo hi m).inside id hid).2
    obtain ⟨size, hlt⟩ := layoutOf_setup hst
    have hin : id.2 < volume (blocksOf a.chunk) := by
      rw [hlt] at hblock
      exact hblock
    rw [← take_blockRow hc hst hb hst' h1 hpre hin, List.take_take, hrate, Nat.min_self]
  unfold layerCounts
  dsimp only
  rw [hids, hin, hout, List.map_congr_left hrows]

theorem returns_single [LinearOrder κ'] (hc : a.codec.ChunkOk a.chunk) (hst : setup a opts = .ok st)
    (h1 : 1 < a.codec.layers.length) (hfits : st.lt.planArgs.fits)
    (hpre : Prefixed nat a.codec st.layer) (hb : IsSingle a st.layer b) (hst' : setup b opts' = .ok st')
    (hm' : (readMeta E b opts' st').Returns (· = m')) (hB : Packed nat b st' data)
    (hzm : m'.1 = planMeta a.codec st.layer st.lt.unitShape m.1) :
    (wholeQuery E b lo hi opts' st').Returns fun r =>
      counts r = layerCounts nat a st data opts E lo hi m := by
  obtain ⟨h0, -, hargs, -⟩ := setup_single hst hb hst' h1
  have hc' : b.codec.ChunkOk b.chunk := by
    rw [hb.codec, hb.chunk]
    exact chunkOk_single hb.lt hc
  rw [← layerCounts_single hc hst h1 hpre hb hst' hzm]
  refine returns_layerZero hc' hst' h0 (by rw [hargs]; exact hfits) hm' (object_of_packed hc' hst' hB m')
    fun id hid => ?_
  obtain ⟨hcid, hblock⟩ := (regular_plannedOf hc' hst' E lo hi m').inside id hid
  exact storedBlock_holds hst' h0 (holds_of_packed hc' hst' hB) hcid hblock

/-- Pipelined or not, small counts are those of the query with the whole zone map. -/
theorem always_of_wholeQuery [LinearOrder κ'] {l : List ℕ} {cs : List ℕ}
    (hchunk : b.codec.chunkShape l = .ok b.chunk) (hst' : setup b opts' = .ok st')
    (hfits : st'.lt.planArgs.fits)
    (hpipe : ∀ mo, st'.pipelined opts' = some mo → FixesIntegers E.fl ∧ ∀ n ∈ cs, n < 2 ^ 53)
    (h : (wholeQuery E b lo hi opts' st').Returns (counts · = cs)) :
    (queryAsync E b lo hi opts').Always (counts · = cs) := by
  cases hmo : st'.pipelined opts' with
  | none =>
    rw [query_eq_wholeQuery hst' hmo]
    exact always_of_returns h
  | some mo =>
    obtain ⟨hfl, hsmall⟩ := hpipe mo hmo
    obtain ⟨-, -, h0, -⟩ := pipelined_spec hmo
    obtain ⟨v, hv, rfl⟩ := exists_of_always (always_of_returns h)
    have hsame : (wholeQuery E b lo hi opts' st').SameUpTo SameSmall _ :=
      same_query (slabbed_of_setup hchunk hst' hmo hfits) hmo hfl (layer_zero hst' h0).1
    rw [query_eq_pipelinedQuery hst' hmo]
    exact always_mono (fun v' hv' => (hv' hsmall).1) (hsame.1 v hv)

/-- **A query at a layer of a layered array equals the query of the single-layer array.** For every
layered codec, every layer `k ≥ 1` whose encoding is the beginning of the full one, every order of units,
chunks and blocks, all data and all options of both queries:

* `plan_meta` makes the zone map of the single-layer array of the zone map of the layered array;
* whatever was in memory, row `i` of the matrix is the beginning of the encoding of the `i`-th MAYBE
  block, and every cell of it is written exactly once;
* every run of either query returns the same counts. -/
theorem layer_query_eq [LinearOrder κ] [LinearOrder κ'] {l : List ℕ} {fl : ℚ → ℚ}
    (hchunk : a.codec.chunkShape l = .ok a.chunk) (hst : setup a opts = .ok st) (hlayer : st.layer ≠ 0)
    (hfits : st.lt.planArgs.fits) (hpre : Prefixed nat a.codec st.layer) (hA : Packed nat a st data)
    (hm : (readMeta E a opts st).Returns (· = m))
    (hz : writeMeta fl nat a.codec a.shape a.chunk data = .ok m.1)
    (hb : IsSingle a st.layer b) (hst' : setup b opts' = .ok st') (hB : Packed nat b st' data)
    (hm' : (readMeta E b opts' st').Returns (· = m'))
    (hz' : writeMeta fl nat b.codec b.shape b.chunk data = .ok m'.1)
    (hpipe : ∀ mo, st'.pipelined opts' = some mo →
      FixesIntegers E.fl ∧ 64 * st'.lt.planArgs.totalBlocks < 2 ^ 53) :
    m'.1 = planMeta a.codec st.layer st.lt.unitShape m.1 ∧
    (∃ p parts, planQuery E a lo hi opts st m = .ok p ∧
      (payloadReqs opts st p).mapM (fun q => readOne a q.1) = .ok parts ∧
      assemble E a opts st p parts = (p.ids.map fun id =>
        (blockRow nat a st data id).take (a.codec.layerBytes.take (st.layer + 1)).sum) ∧
      ∀ i < p.ids.length, ∀ x < (a.codec.layerBytes.take (st.layer + 1)).sum,
        (allWrites a opts st p parts).countP (fun w => w.Covers i x) = 1) ∧
    ∃ cs, (queryAsync E a lo hi opts).Always (counts · = cs) ∧
      (queryAsync E b lo hi opts').Always (counts · = cs) := by
  have hc := a.codec.chunkOk_of_chunkShape hchunk
  have h1 : 1 < a.codec.layers.length := by
    have := hb.lt
    omega
  obtain ⟨size, hlt⟩ := layoutOf_setup hst
  have hunit : st.lt.unitShape = a.codec.unit a.chunk := by rw [hlt]; rfl
  have hzm : m'.1 = planMeta a.codec st.layer st.lt.unitShape m.1 := by
    have h := writeMeta_single hb.lt (bits_eq_zero h1) hz
    rw [hb.codec, hb.shape, hb.chunk, h] at hz'
    rw [hunit]
    exact (Except.ok.inj hz').symm
  have hold := holds_of_packed hc hst hA
  have hp := regular_plannedOf hc hst E lo hi m
  have hwidth : st.cols.getLastD 0 = (a.codec.layerBytes.take (st.layer + 1)).sum := by
    rw [(getLastD_cols hst).1, getD_cols hst le_rfl]
  obtain ⟨-, -, hargs, -⟩ := setup_single hst hb hst' h1
  have hchunk' : b.codec.chunkShape l = .ok b.chunk := by
    rw [hb.codec, hb.chunk]
    exact hchunk
  refine ⟨hzm, ⟨_, payloadParts a opts st (plannedOf E a lo hi opts st m),
    planQuery_eq (shapeOk_setup hc hst) hfits m, mapM_ok (readOne_payload hold hp opts), ?_, ?_⟩,
    layerCounts nat a st data opts E lo hi m,
    always_of_returns (returns_layer hc hst hlayer hfits hm hA), ?_⟩
  · rw [← hwidth]
    exact assemble_eq hold hp E opts
  · rw [← hwidth]
    exact fun i hi x hx => countP_allWrites hold hp opts (List.getElem?_eq_getElem hi) hx
  · refine always_of_wholeQuery hchunk' hst' (by rwa [hargs]) (fun mo hmo => ?_)
      (returns_single hc hst h1 hfits hpre hb hst' hm' hB hzm)
    obtain ⟨hfl, hlt⟩ := hpipe mo hmo
    rw [hargs] at hlt
    exact ⟨hfl, fun n hn => (le_layerCounts n hn).trans_lt hlt⟩

end Query

/-! ### Two chunks in two layers -/

theorem prefixed_firstValue (toBytes : F32 → List UInt8) (ofBytes : List UInt8 → F32)
    (c : SkipZFPCodec) {k : ℕ} (hk : k < c.layers.length) :
    Prefixed (firstValue toBytes ofBytes) c k := by
  intro s arr b hb
  have hrow : ∀ r, encodedBlock (firstValue toBytes ofBytes) r s arr b =
      (toBytes (arr (join blockShape (unravel (blocksOf s) b) fun _ => 0)) ++
        List.replicate (blockBytes r) 0).take (blockBytes r) := by
    intro r
    refine (slice_flatten_rows (w := blockBytes r) ?_ (by simpa using hb)).trans (by simp)
    intro row hrow
    obtain ⟨j, -, rfl⟩ := List.mem_map.mp hrow
    simp
  have hle : blockBytes (c.layers.getD k 0) ≤ blockBytes c.rate := by
    rw [← c.sum_layerBytes, ← c.sum_take_layerBytes hk]
    exact sum_take_le _ _
  rw [hrow, hrow, List.take_take, Nat.min_eq_left hle, List.take_append, List.take_append,
    List.take_replicate, List.take_replicate]
  congr 2
  omega

/-- Blocks that begin with a two, and in the first four planes two blocks of zeros between them. -/
def twosAndZeros (i : Tri) : F32 :=
  if i 0 < 4 ∧ 4 ≤ i 2 ∧ i 2 < 12 then F32.ofBytes [0, 0, 0, 0]
  else if i 2 % 4 = 0 then F32.ofBytes [0, 0, 0, 64]
  else F32.ofBytes [0, 0, 192, 63]

/-- The record of a unit of two blocks up to 2.0, with the bound 0.5 of each of `n` layers. -/
def upToTwo (n : ℕ) (lo ranges : List UInt8) : List UInt8 :=
  lo ++ [0, 0, 0, 64] ++ (List.replicate n [0, 0, 0, 63]).flatten ++ ranges

/-- The zone map of the units, two in a chunk. -/
def zonesUpToTwo (n : ℕ) : List UInt8 :=
  upToTwo n [0, 0, 0, 0] [191, 255, 0, 0] ++ upToTwo n [0, 0, 0, 0] [0, 0, 191, 255] ++
    upToTwo n [0, 0, 192, 63] [0, 255, 0, 255] ++ upToTwo n [0, 0, 192, 63] [0, 255, 0, 255]

/-- Two chunks of four blocks, in two layers. -/
def arrayOfTwoLayers : ZarrArray ℕ where
  codec := twoLayers
  shape := ![8, 4, 16]
  chunk := ![4, 4, 16]
  get k :=
    if k = 0 then some ([0, 0, 0, 64, 0, 0, 0, 0, 0, 0, 0, 0, 0, 0, 0, 64] ++ List.replicate 16 0)
    else if k = 1 then some ((List.replicate 4 [0, 0, 0, 64]).flatten ++ List.replicate 16 0)
    else some (zonesUpToTwo 2)
  chunkKey := ravel ![2, 1, 1]
  metaKey := some fun i => i + 2
  source := none
  tChunk := some 2
  packing := none
  metaArray := .error .zstd

/-- The second of the layers alone. -/
def arrayOfOneLayer : ZarrArray ℕ :=
  { arrayOfTwoLayers with
    codec := single twoLayers 1 (by decide)
    get := fun k =>
      if k = 0 then some ([0, 0, 0, 64] ++ List.replicate 20 0 ++ [0, 0, 0, 64] ++ List.replicate 4 0)
      else if k = 1 then some (List.replicate 4 [0, 0, 0, 64, 0, 0, 0, 0]).flatten
      else some (zonesUpToTwo 1) }

/-- At most two requests for a chunk. -/
def optionsOfTwoLayers : QueryOptions :=
  { optionsOfTwo with
    layer := some 1
    maxChunkRequests := 2
    maxInflightBytes := none
    requests_pos := Nat.two_pos
    inflight_pos := optionsOfTwo.batch_pos }

def setupOfTwoLayers : Setup where
  lt := layoutOf twoLayers ![8, 4, 16] ![4, 4, 16] 32
  layer := 1
  mo := some ⟨2, 40, 1, false, 2⟩

def setupOfOneLayer : Setup where
  lt := layoutOf (single twoLayers 1 (by decide)) ![8, 4, 16] ![4, 4, 16] 32
  layer := 0
  mo := some ⟨2, 32, 1, false, 2⟩

theorem chunkShape_ofTwoLayers : twoLayers.chunkShape [4, 4, 16] = .ok ![4, 4, 16] := by
  have h : (fun a : Fin 3 => [4, 4, 16].getD a 0) = ![4, 4, 16] := by decide
  unfold SkipZFPCodec.chunkShape
  rw [← h]
  rfl

theorem setup_ofTwoLayers : setup arrayOfTwoLayers optionsOfTwoLayers = .ok setupOfTwoLayers :=
  setup_eq (a := arrayOfTwoLayers) (k := 1) (twoLayers.chunkOk_of_chunkShape chunkShape_ofTwoLayers)
    (by decide) (by decide) (by decide +kernel) (by decide) rfl (Or.inr rfl) rfl

theorem setup_ofOneLayer : setup arrayOfOneLayer optionsPipelined = .ok setupOfOneLayer :=
  setup_eq (a := arrayOfOneLayer) (k := 0)
    (chunkOk_single (by decide) (twoLayers.chunkOk_of_chunkShape chunkShape_ofTwoLayers))
    (by decide) (by decide) (by decide +kernel) (by decide) rfl (Or.inl rfl) rfl

theorem packed_ofTwoLayers :
    Packed (firstValue F32.bytes F32.ofBytes) arrayOfTwoLayers setupOfTwoLayers twosAndZeros :=
  ⟨by decide +kernel, by decide +kernel⟩

theorem readMeta_ofTwoLayers {opts : QueryOptions} (hkey : opts.metaByKey = true) :
    (readMeta envOfTwo arrayOfTwoLayers opts setupOfTwoLayers).Returns (· = (zonesUpToTwo 2, 80, 1)) := by
  unfold readMeta
  rw [hkey]
  exact returns_zones rfl fun _ => returns_done rfl rfl

/-- The query of the second of two layers, with the first chunk read at once and the second layer by
layer, and of one layer with pipelining. -/
theorem layer_query_eq_ofTwoLayers :
    zonesUpToTwo 1 = planMeta twoLayers 1 ![4, 4, 8] (zonesUpToTwo 2) ∧
    (∃ p parts, planQuery envOfTwo arrayOfTwoLayers (.fin (7 / 4)) .pinf optionsOfTwoLayers
        setupOfTwoLayers (zonesUpToTwo 2, 80, 1) = .ok p ∧
      (payloadReqs optionsOfTwoLayers setupOfTwoLayers p).mapM
        (fun q => readOne arrayOfTwoLayers q.1) = .ok parts ∧
      assemble envOfTwo arrayOfTwoLayers optionsOfTwoLayers setupOfTwoLayers p parts =
        (p.ids.map fun id => (blockRow (firstValue F32.bytes F32.ofBytes) arrayOfTwoLayers
          setupOfTwoLayers twosAndZeros id).take (twoLayers.layerBytes.take 2).sum) ∧
      ∀ i < p.ids.length, ∀ x < (twoLayers.layerBytes.take 2).sum,
        (allWrites arrayOfTwoLayers optionsOfTwoLayers setupOfTwoLayers p parts).countP
          (fun w => w.Covers i x) = 1) ∧
    ∃ cs, (queryAsync envOfTwo arrayOfTwoLayers (.fin (7 / 4)) .pinf optionsOfTwoLayers).Always
        (counts · = cs) ∧
      (queryAsync envOfTwo arrayOfOneLayer (.fin (7 / 4)) .pinf optionsPipelined).Always
        (counts · = cs) := by
  have hm' : (readMeta envOfTwo arrayOfOneLayer optionsPipelined setupOfOneLayer).Returns
      (· = (zonesUpToTwo 1, 64, 1)) := by
    unfold readMeta
    exact returns_zones rfl fun _ => returns_done rfl rfl
  have hB : Packed (firstValue F32.bytes F32.ofBytes) arrayOfOneLayer setupOfOneLayer twosAndZeros :=
    ⟨by decide +kernel, by decide +kernel⟩
  have hz : writeMeta id (firstValue F32.bytes F32.ofBytes) twoLayers ![8, 4, 16] ![4, 4, 16] twosAndZeros =
      .ok (zonesUpToTwo 2) := by
    decide +kernel
  have hz' : writeMeta id (firstValue F32.bytes F32.ofBytes) (single twoLayers 1 (by decide))
      ![8, 4, 16] ![4, 4, 16] twosAndZeros = .ok (zonesUpToTwo 1) := by
    decide +kernel
  exact layer_query_eq (a := arrayOfTwoLayers) (b := arrayOfOneLayer) chunkShape_ofTwoLayers
    setup_ofTwoLayers (by decide) (by decide +kernel)
    (prefixed_firstValue F32.bytes F32.ofBytes twoLayers (by decide)) packed_ofTwoLayers
    (readMeta_ofTwoLayers rfl) hz ⟨by decide, rfl, rfl, rfl⟩ setup_ofOneLayer hB hm' hz'
    fun _ _ => ⟨fun n _ => rfl, by decide +kernel⟩

end SkipZFP.Query.Layers
