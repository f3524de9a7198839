import SkipZFP.Query.Count

/-! # Filling the matrix of a higher layer

A query at a higher layer reads the MAYBE blocks layer by layer, or all layers of a dense chunk at once,
and writes what it read into a matrix with a row for each block. `Holds` says of a store that the bytes of
layer `j` of every block are where the layout has them, and `Regular` says of a plan that its reads are
those of the groups of its ids.

* `carries_layer`, `carries_dense`: a write puts the bytes of its columns of each of its rows.
* `countP_allWrites`: **every cell is written exactly once**.
* `assemble_eq`: **the matrix has the blocks**, whatever was in memory. -/

namespace SkipZFP.Query.Fill

open SkipZFP.Lib.Grid SkipZFP.Lib.Rows SkipZFP.Lib.Loops SkipZFP.Lib.Table SkipZFP.Lib.Double
open SkipZFP.Codec.Config SkipZFP.Plan.Blocks SkipZFP.Plan.Shapes SkipZFP.Plan.Records
open SkipZFP.Read.Merge SkipZFP.Read.Budget SkipZFP.Read.Store SkipZFP.Read.ZoneMap
open SkipZFP.Read.Stream SkipZFP.Query.Run SkipZFP.Query.Count

/-! ### The reads of groups -/

section Reads
variable {κ : Type*} (keys : ℕ → κ) (blockSize base : ℕ)

/-- **Every id is an item of exactly one read**, which is of its chunk. -/
theorem countP_readsOf (P : κ → Prop) [DecidablePred P] {i : ℕ} : ∀ (m : ℕ) (gs : List (List (ℕ × ℕ))),
    (∀ g ∈ gs, ∀ id ∈ g, id.1 = (g.headD (0, 0)).1) → ∀ id, gs.flatten[i]? = some id →
      (readsOf keys blockSize base m gs).countP (fun r => P r.key ∧ r.itemStart ≤ m + i ∧
        m + i < r.itemEnd) = if P (keys id.1) then 1 else 0
  | _, [], _, id, h => by simp at h
  | m, g :: gs, hg, id, h => by
    rw [List.flatten_cons] at h
    rw [readsOf, List.countP_cons]
    by_cases hi : i < g.length
    · have hid : g[i]? = some id := by rwa [List.getElem?_append_left hi] at h
      have hchunk := hg g List.mem_cons_self id (List.mem_of_getElem? hid)
      have hrest : (readsOf keys blockSize base (m + g.length) gs).countP (fun r => P r.key ∧
          r.itemStart ≤ m + i ∧ m + i < r.itemEnd) = 0 := by
        rw [List.countP_eq_zero]
        intro r hr
        obtain ⟨g', -, n, rfl, -⟩ := mem_readsOf keys blockSize base _ gs hr
        simp [groupRead]
        omega
      rw [hrest, Nat.zero_add, hchunk]
      simp [groupRead, hi]
    · have hlen : i = g.length + (i - g.length) := by omega
      have ih := countP_readsOf P (m + g.length) gs (fun g' hg' => hg g' (List.mem_cons_of_mem _ hg'))
        id (by rwa [List.getElem?_append_right (by omega)] at h)
      rw [Nat.add_assoc, ← hlen] at ih
      rw [ih]
      simp [groupRead, hi]

end Reads

/-! ### Sorted lists -/

/-- **`searchsorted`** finds the first item that is not less. -/
theorem searchsorted_le_iff (c : ℕ) : ∀ {l : List ℕ}, l.Pairwise (· ≤ ·) → ∀ {i : ℕ} {x : ℕ},
    l[i]? = some x → (searchsorted l c ≤ i ↔ c ≤ x)
  | [], _, i, x, h => by simp at h
  | y :: l, hl, i, x, h => by
    obtain ⟨hy, hl'⟩ := List.pairwise_cons.mp hl
    have hcons : searchsorted (y :: l) c = searchsorted l c + if y < c then 1 else 0 := by
      unfold searchsorted
      rw [List.countP_cons]
      simp
    -- nothing behind an item that is not less is less
    have hzero : c ≤ y → searchsorted l c = 0 := fun hc => by
      unfold searchsorted
      rw [List.countP_eq_zero]
      intro z hz
      have := hy z hz
      simp
      omega
    rw [hcons]
    cases i with
    | zero =>
      obtain rfl : y = x := by simpa using h
      split_ifs with hc
      · omega
      · rw [hzero (by omega)]
        omega
    | succ i =>
      have ih := searchsorted_le_iff c hl' (i := i) (x := x) (by simpa using h)
      have hyx := hy x (List.mem_of_getElem? (by simpa using h : l[i]? = some x))
      split_ifs with hc
      · omega
      · rw [hzero (by omega)]
        omega

/-! ### What a write carries -/

/-- The write puts columns `j` of the rows of its ids, cut at `cut`. -/
structure Carries (cut : ℕ → ℕ) (row : ℕ × ℕ → List UInt8) (ids : List (ℕ × ℕ)) (j : ℕ)
    (w : Write UInt8) : Prop where
  columns : w.c0 = cut j ∧ w.c1 = cut (j + 1)
  vals : ∀ i, w.r0 ≤ i → i < w.r1 → ∃ id, ids[i]? = some id ∧
    w.vals.getD (i - w.r0) [] = slice (row id) (cut j) (cut (j + 1))

section Carries
variable {cut : ℕ → ℕ} {row : ℕ × ℕ → List UInt8} {ids : List (ℕ × ℕ)} {j width : ℕ} {w : Write UInt8}

theorem Carries.fits (h : Carries cut row ids j w) (hj : cut j ≤ cut (j + 1))
    (hw : cut (j + 1) ≤ width) (hrow : ∀ id ∈ ids, width ≤ (row id).length) : w.Fits width := by
  obtain ⟨h0, h1⟩ := h.columns
  refine ⟨by rw [h0, h1]; exact ⟨hj, hw⟩, fun i hi hi' => ?_⟩
  obtain ⟨id, hid, hv⟩ := h.vals i hi hi'
  have hlen := hrow id (List.mem_of_getElem? hid)
  rw [hv, length_slice (by omega), h0, h1]

theorem Carries.value (h : Carries cut row ids j w) {i x : ℕ} (hc : w.Covers i x) {id : ℕ × ℕ}
    (hid : ids[i]? = some id) : w.value i x = (row id)[x]? := by
  obtain ⟨⟨hr0, hr1⟩, hx0, hx1⟩ := hc
  obtain ⟨id', hid', hv⟩ := h.vals i hr0 hr1
  obtain rfl : id = id' := Option.some.inj (hid.symm.trans hid')
  obtain ⟨h0, h1⟩ := h.columns
  rw [h0] at hx0
  rw [h1] at hx1
  unfold Write.value
  rw [hv, h0, getElem?_slice, if_pos (by omega), Nat.add_sub_cancel' hx0]

end Carries

theorem getD_takeRows {w : ℕ} (hw : 0 < w) {buf : List UInt8} {n : ℕ} (hlen : buf.length = n * w)
    {rows : List ℕ} {i r : ℕ} (hi : rows[i]? = some r) (hr : r < n) :
    (takeRows w buf rows).getD i [] = slice buf (r * w) (r * w + w) := by
  have hn : buf.length / w = n := by rw [hlen, Nat.mul_div_cancel _ hw]
  unfold takeRows
  rw [List.getD_eq_getElem?_getD, List.getElem?_map, hi, Option.map_some, Option.getD_some, hn,
    List.getD_eq_getElem _ _ (by rwa [length_reshape]), getElem_reshape]

/-- A row taken out of the rows `b0` to `b0 + e` of an object whose rows begin at `base`. -/
theorem getD_takeRows_slice {w : ℕ} (hw : 0 < w) {obj : List UInt8} {base b0 e : ℕ}
    (hlen : base + (b0 + e + 1) * w ≤ obj.length) {rows : List ℕ} {i d : ℕ} (hi : rows[i]? = some d)
    (hd : d ≤ e) : (takeRows w (slice obj (base + b0 * w) (base + (b0 + e + 1) * w)) rows).getD i [] =
      slice obj (base + (b0 + d) * w) (base + (b0 + d) * w + w) := by
  have hrows : (b0 + e + 1) * w = b0 * w + (e + 1) * w := by rw [Nat.add_assoc, Nat.add_mul]
  have hwhole : (slice obj (base + b0 * w) (base + (b0 + e + 1) * w)).length = (e + 1) * w := by
    rw [length_slice (by omega)]
    omega
  have hend : d * w + w ≤ (e + 1) * w := by
    rw [← Nat.succ_mul]
    exact Nat.mul_le_mul_right w (by omega)
  rw [getD_takeRows hw hwhole hi (by omega), slice_slice _ (by omega), Nat.add_mul]
  congr 1 <;> omega

/-! ### The store and the plan -/

section Fill
variable {κ : Type} (a : ZarrArray κ) (st : Setup)

/-- **A store that holds the rows of its blocks**, layer by layer, under distinct keys. -/
structure Holds (row : ℕ × ℕ → List UInt8) : Prop where
  object : ∀ cid < st.nChunk, ∃ obj, a.get (a.keyOf st.lt cid) = some obj ∧
    st.cols.getLastD 0 * st.lt.blocksPerChunk ≤ obj.length ∧
    ∀ b < st.lt.blocksPerChunk, ∀ j ≤ st.layer,
      slice obj (st.lt.layerStarts.getD j 0 + b * st.layerBytes j)
        (st.lt.layerStarts.getD j 0 + b * st.layerBytes j + st.layerBytes j) =
      slice (row (cid, b)) (st.cols.getD j 0) (st.cols.getD (j + 1) 0)
  distinct : ∀ cid < st.nChunk, ∀ cid' < st.nChunk,
    a.keyOf st.lt cid = a.keyOf st.lt cid' → cid = cid'
  row : ∀ cid < st.nChunk, ∀ b < st.lt.blocksPerChunk,
    st.cols.getLastD 0 ≤ (row (cid, b)).length
  starts : ∀ j ≤ st.layer, st.lt.layerStarts.getD j 0 = st.lt.blocksPerChunk * st.cols.getD j 0
  columns : ∀ j ≤ st.layer, st.cols.getD (j + 1) 0 = st.cols.getD j 0 + st.layerBytes j ∧
    0 < st.layerBytes j
  first : st.cols.getD 0 0 = 0
  last : st.cols.getLastD 0 = st.cols.getD (st.layer + 1) 0

/-- A plan whose reads are those of the groups of its ids, layer by layer. -/
structure Regular (p : Planned κ) (gap : ℕ) : Prop where
  reads : p.perLayer = (List.range (st.layer + 1)).map fun j =>
    (readsOf (a.keyOf st.lt) (st.layerBytes j) (st.lt.layerStarts.getD j 0) 0 (groups gap p.ids),
      p.ids.map Prod.snd)
  sorted : p.ids.Pairwise IdLt
  inside : ∀ id ∈ p.ids, id.1 < st.nChunk ∧ id.2 < st.lt.blocksPerChunk

/-- What the store has of a byte range. -/
def bytesOf (r : Range κ) : List UInt8 := slice ((a.get r.key).getD []) r.start r.stop

variable {a st} {row : ℕ × ℕ → List UInt8} {p : Planned κ} {gap : ℕ}

theorem Regular.sortedBlocks_eq (hp : Regular a st p gap) : p.sortedBlocks = p.ids.map Prod.snd := by
  unfold Planned.sortedBlocks
  rw [hp.reads, List.range_succ_eq_map]
  rfl

theorem Holds.columns_le (h : Holds a st row) {j : ℕ} (hj : j ≤ st.layer) :
    st.cols.getD j 0 ≤ st.cols.getD (j + 1) 0 ∧ st.cols.getD (j + 1) 0 ≤ st.cols.getLastD 0 := by
  have hstep : ∀ j < st.layer + 1, st.cols.getD j 0 ≤ st.cols.getD (j + 1) 0 := fun j hj => by
    have := (h.columns j (by omega)).1
    omega
  rw [h.last]
  exact ⟨hstep j (by omega), cut_mono hstep _ le_rfl _ (by omega)⟩

theorem Holds.end_le (h : Holds a st row) {j b : ℕ} (hj : j ≤ st.layer)
    (hb : b < st.lt.blocksPerChunk) :
    st.lt.layerStarts.getD j 0 + (b + 1) * st.layerBytes j ≤
        st.lt.layerStarts.getD j 0 + st.lt.blocksPerChunk * st.layerBytes j ∧
      st.lt.layerStarts.getD j 0 + st.lt.blocksPerChunk * st.layerBytes j ≤
        st.cols.getLastD 0 * st.lt.blocksPerChunk := by
  have h1 : (b + 1) * st.layerBytes j ≤ st.lt.blocksPerChunk * st.layerBytes j :=
    Nat.mul_le_mul_right _ hb
  have h2 : st.lt.blocksPerChunk * st.cols.getD (j + 1) 0 ≤
      st.lt.blocksPerChunk * st.cols.getLastD 0 := Nat.mul_le_mul_left _ (h.columns_le hj).2
  rw [(h.columns j hj).1, Nat.mul_add, ← h.starts j hj] at h2
  rw [Nat.mul_comm (st.cols.getLastD 0)]
  omega

variable [LinearOrder κ]

/-- **A read of layer `j`** carries these bytes of its ids. -/
theorem carries_layer (h : Holds a st row) (hp : Regular a st p gap) {j : ℕ} (hj : j ≤ st.layer)
    {r : MergedRange κ} (hr : r ∈ readsOf (a.keyOf st.lt) (st.layerBytes j)
      (st.lt.layerStarts.getD j 0) 0 (groups gap p.ids)) :
    ∀ w ∈ fillWrites a st p (bytesOf a (rangeOf r)) (.layer j r),
      Carries (st.cols.getD · 0) row p.ids j w := by
  obtain ⟨g, hg, n, rfl, hslice⟩ := mem_readsOf _ _ _ _ _ hr
  rw [flatten_groups] at hslice
  have hin := joins_group hp.sorted hg
  obtain ⟨hmem, hhead, hlast⟩ := mem_group hg
  obtain ⟨hcid, -⟩ := hp.inside _ (hmem _ hhead)
  obtain ⟨-, hlastIn⟩ := hp.inside _ (hmem _ hlast)
  obtain ⟨obj, hget, hlen, hblock⟩ := h.object _ hcid
  obtain ⟨hend, hend'⟩ := h.end_le hj hlastIn
  have hle : (g.headD (0, 0)).2 ≤ (g.getLastD (0, 0)).2 := (hin _ hlast).2.1
  obtain ⟨hwidth, hpos⟩ := h.columns j hj
  have hbytes : bytesOf a (rangeOf (groupRead (a.keyOf st.lt) (st.layerBytes j)
      (st.lt.layerStarts.getD j 0) (0 + n) g)) =
      slice obj (st.lt.layerStarts.getD j 0 + (g.headD (0, 0)).2 * st.layerBytes j)
        (st.lt.layerStarts.getD j 0 + ((g.getLastD (0, 0)).2 + 1) * st.layerBytes j) := by
    show slice ((a.get (a.keyOf st.lt (g.headD (0, 0)).1)).getD []) _ _ = _
    rw [hget, Option.getD_some]
    rfl
  intro w hw
  rw [hbytes] at hw
  unfold fillWrites at hw
  rw [List.mem_singleton] at hw
  subst hw
  refine ⟨⟨rfl, rfl⟩, fun i hi hi' => ?_⟩
  dsimp only [groupRead] at hi hi' ⊢
  rw [Nat.zero_add] at hi hi' ⊢
  have hid : g[i - n]? = p.ids[i]? := by
    conv_lhs => rw [← hslice]
    rw [getElem?_slice, if_pos (by omega), Nat.add_sub_cancel' hi]
  obtain ⟨id, hgi⟩ : ∃ id, g[i - n]? = some id := ⟨_, List.getElem?_eq_getElem (by omega)⟩
  obtain ⟨hchunk, hfirst, hlast'⟩ := hin id (List.mem_of_getElem? hgi)
  obtain ⟨-, hb⟩ := hp.inside id (hmem id (List.mem_of_getElem? hgi))
  refine ⟨id, hid.symm.trans hgi, ?_⟩
  -- the read starts at the first block of the group
  obtain ⟨d, hd⟩ := Nat.le.dest hfirst
  obtain ⟨e, he⟩ := Nat.le.dest hle
  set b0 := (g.headD (0, 0)).2
  have hrow : ((slice p.sortedBlocks n (n + g.length)).map (· - b0))[i - n]? = some d := by
    rw [hp.sortedBlocks_eq, ← map_slice, hslice, List.map_map, List.getElem?_map, hgi]
    simp
    omega
  rw [← he] at hend ⊢
  rw [getD_takeRows_slice hpos (by omega) hrow (by omega)]
  have hid' : id = ((g.headD (0, 0)).1, b0 + d) := Prod.ext hchunk hd.symm
  rw [hid', ← hblock _ (by omega) j hj]

theorem Holds.chunkOf_eq (h : Holds a st row) {cid : ℕ} (hcid : cid < st.nChunk) :
    chunkOf a st (a.keyOf st.lt cid) = cid := by
  unfold chunkOf
  cases hf : (List.range st.nChunk).reverse.find? fun c => a.keyOf st.lt c = a.keyOf st.lt cid with
  | none =>
    have := List.find?_eq_none.mp hf cid (List.mem_reverse.mpr (List.mem_range.mpr hcid))
    simp at this
  | some c =>
    have hkey := List.find?_some hf
    have hc := List.mem_range.mp (List.mem_reverse.mp (List.mem_of_find?_eq_some hf))
    exact h.distinct c hc cid hcid (of_decide_eq_true hkey)

omit [LinearOrder κ] in
/-- **The rows of a chunk** are those between two positions in the sorted chunk ids. -/
theorem Regular.searchsorted_iff (hp : Regular a st p gap) {i : ℕ} {id : ℕ × ℕ}
    (hid : p.ids[i]? = some id) (c : ℕ) :
    searchsorted ((p.ids.insertionSort idLe).map Prod.fst) c ≤ i ↔ c ≤ id.1 := by
  have hle : p.ids.Pairwise idLe := hp.sorted.imp fun h => by
    unfold IdLt at h
    unfold idLe
    omega
  rw [hle.insertionSort_eq]
  refine searchsorted_le_iff c ?_ (by rw [List.getElem?_map, hid, Option.map_some])
  refine List.pairwise_map.mpr (hle.imp fun h => ?_)
  unfold idLe at h
  omega

/-- **The read of a dense chunk** carries the bytes of every layer of its ids. -/
theorem carries_dense (h : Holds a st row) (hp : Regular a st p gap) {cid : ℕ} (hcid : cid < st.nChunk) :
    ∀ w ∈ fillWrites a st p (bytesOf a ⟨a.keyOf st.lt cid, 0,
      st.cols.getLastD 0 * st.lt.blocksPerChunk⟩) (.dense (a.keyOf st.lt cid)),
      ∃ j ≤ st.layer, Carries (st.cols.getD · 0) row p.ids j w := by
  obtain ⟨obj, hget, hlen, hblock⟩ := h.object _ hcid
  have hbytes : bytesOf a ⟨a.keyOf st.lt cid, 0, st.cols.getLastD 0 * st.lt.blocksPerChunk⟩ =
      slice obj 0 (st.cols.getLastD 0 * st.lt.blocksPerChunk) := by
    unfold bytesOf
    rw [hget, Option.getD_some]
  intro w hw
  rw [hbytes] at hw
  unfold fillWrites at hw
  dsimp only at hw
  rw [h.chunkOf_eq hcid] at hw
  obtain ⟨j, hj, rfl⟩ := List.mem_map.mp hw
  have hj : j ≤ st.layer := Nat.lt_succ_iff.mp (List.mem_range.mp hj)
  refine ⟨j, hj, ⟨rfl, rfl⟩, fun i hi hi' => ?_⟩
  dsimp only at hi hi' ⊢
  have hcount : searchsorted ((p.ids.insertionSort idLe).map Prod.fst) (cid + 1) ≤ p.ids.length := by
    refine le_trans List.countP_le_length ?_
    rw [List.length_map, (List.perm_insertionSort idLe p.ids).length_eq]
  obtain ⟨id, hid⟩ : ∃ id, p.ids[i]? = some id := ⟨_, List.getElem?_eq_getElem (by omega)⟩
  have h1 := (hp.searchsorted_iff hid cid).mp hi
  have h2 := mt (hp.searchsorted_iff hid (cid + 1)).mpr (by omega)
  obtain ⟨-, hb⟩ := hp.inside id (List.mem_of_getElem? hid)
  have hid' : id = (cid, id.2) := Prod.ext (by omega) rfl
  have hpos := (h.columns j hj).2
  obtain ⟨hend, hend'⟩ := h.end_le hj hb
  refine ⟨id, hid, ?_⟩
  have hrow : (slice p.sortedBlocks (searchsorted ((p.ids.insertionSort idLe).map Prod.fst) cid)
      (searchsorted ((p.ids.insertionSort idLe).map Prod.fst) (cid + 1)))[i -
        searchsorted ((p.ids.insertionSort idLe).map Prod.fst) cid]? = some id.2 := by
    rw [getElem?_slice, if_pos (by omega), Nat.add_sub_cancel' hi, hp.sortedBlocks_eq,
      List.getElem?_map, hid, Option.map_some]
  have hlen' : (slice (slice obj 0 (st.cols.getLastD 0 * st.lt.blocksPerChunk))
      (st.lt.layerStarts.getD j 0) (st.lt.layerStarts.getD j 0 +
        st.lt.blocksPerChunk * st.layerBytes j)).length = st.lt.blocksPerChunk * st.layerBytes j := by
    rw [length_slice (by rw [length_slice hlen]; omega)]
    omega
  rw [Nat.succ_mul] at hend
  rw [getD_takeRows hpos hlen' hrow hb, slice_slice _ (by omega), slice_slice _ (by omega)]
  conv_rhs => rw [hid', ← hblock _ hb j hj]
  congr 1 <;> omega

/-! ### All writes -/

def denseRange (st : Setup) (k : κ) : Range κ :=
  ⟨k, 0, st.cols.getLastD 0 * st.lt.blocksPerChunk⟩

/-- The payload reads: layer by layer, then the dense chunks. -/
theorem Regular.payloadReqs_eq (hp : Regular a st p gap) (opts : QueryOptions) :
    payloadReqs opts st p = ((List.range (st.layer + 1)).flatMap fun j =>
      (sparseReads a st p gap opts.maxChunkRequests j).map fun req => (rangeOf req, Fill.layer j req)) ++
      (p.dense opts.maxChunkRequests).map fun k => (denseRange st k, Fill.dense k) := by
  have hzip : ∀ (n : ℕ) (f : ℕ → List (MergedRange κ) × List ℕ),
      ((List.range n).map f).zipIdx = (List.range n).map fun j => (f j, j) := by
    intro n f
    refine List.ext_getElem (by simp) fun i h1 h2 => ?_
    simp
  unfold payloadReqs
  dsimp only
  rw [hp.reads, hzip, List.flatMap_map]
  rfl

def payloadParts (a : ZarrArray κ) (opts : QueryOptions) (st : Setup) (p : Planned κ) :
    List (List UInt8) :=
  (payloadReqs opts st p).map fun q => bytesOf a q.1

theorem allWrites_eq (opts : QueryOptions) : allWrites a opts st p (payloadParts a opts st p) =
    (payloadReqs opts st p).flatMap fun q => fillWrites a st p (bytesOf a q.1) q.2 := by
  unfold allWrites payloadParts
  rw [List.zip_map', List.flatMap_map]

theorem Regular.mem_dense (hp : Regular a st p gap) {m : ℕ} {k : κ} (hk : k ∈ p.dense m) :
    ∃ id ∈ p.ids, k = a.keyOf st.lt id.1 := by
  unfold Planned.dense at hk
  rw [List.mem_insertionSort] at hk
  have hkey := List.mem_dedup.mp (List.mem_of_mem_filter hk)
  unfold Planned.readKeys at hkey
  rw [hp.reads, List.flatMap_map] at hkey
  obtain ⟨j, -, hkey⟩ := List.mem_flatMap.mp hkey
  obtain ⟨r, hr, rfl⟩ := List.mem_map.mp hkey
  obtain ⟨g, hg, n, rfl, -⟩ := mem_readsOf _ _ _ _ _ hr
  obtain ⟨hmem, hhead, -⟩ := mem_group hg
  exact ⟨_, hmem _ hhead, rfl⟩

theorem nodup_dense (p : Planned κ) (m : ℕ) : (p.dense m).Nodup := by
  unfold Planned.dense
  rw [(List.perm_insertionSort _ _).nodup_iff]
  exact (List.nodup_dedup _).filter _

theorem Regular.key_payload (hp : Regular a st p gap) (opts : QueryOptions) :
    ∀ q ∈ payloadReqs opts st p, ∃ id ∈ p.ids, q.1.key = a.keyOf st.lt id.1 := by
  intro q hq
  rw [hp.payloadReqs_eq] at hq
  rcases List.mem_append.mp hq with hq | hq
  · obtain ⟨j, -, hq⟩ := List.mem_flatMap.mp hq
    obtain ⟨r, hr, rfl⟩ := List.mem_map.mp hq
    obtain ⟨g, hg, n, rfl, -⟩ := mem_readsOf _ _ _ _ _ (List.mem_of_mem_filter hr)
    obtain ⟨hmem, hhead, -⟩ := mem_group hg
    exact ⟨_, hmem _ hhead, rfl⟩
  · obtain ⟨k, hk, rfl⟩ := List.mem_map.mp hq
    exact hp.mem_dense hk

theorem Regular.exists_payload (hp : Regular a st p gap) (opts : QueryOptions) {id : ℕ × ℕ}
    (hid : id ∈ p.ids) : ∃ q ∈ payloadReqs opts st p, q.1.key = a.keyOf st.lt id.1 := by
  rw [hp.payloadReqs_eq]
  by_cases hdense : a.keyOf st.lt id.1 ∈ p.dense opts.maxChunkRequests
  · exact ⟨_, List.mem_append_right _ (List.mem_map.mpr ⟨_, hdense, rfl⟩), rfl⟩
  · obtain ⟨g, hg, -, hchunk⟩ := exists_group gap hp.sorted hid
    obtain ⟨n, hr⟩ := exists_readsOf (a.keyOf st.lt) (st.layerBytes 0) (st.lt.layerStarts.getD 0 0) 0 hg
    have hkey : (groupRead (a.keyOf st.lt) (st.layerBytes 0) (st.lt.layerStarts.getD 0 0) n g).key =
        a.keyOf st.lt id.1 := congrArg (a.keyOf st.lt) hchunk
    have hsparse : groupRead (a.keyOf st.lt) (st.layerBytes 0) (st.lt.layerStarts.getD 0 0) n g ∈
        sparseReads a st p gap opts.maxChunkRequests 0 := by
      refine List.mem_filter.mpr ⟨hr, decide_eq_true ?_⟩
      rwa [hkey]
    exact ⟨_, List.mem_append_left _ (List.mem_flatMap.mpr ⟨0, List.mem_range.mpr (Nat.succ_pos _),
      List.mem_map.mpr ⟨_, hsparse, rfl⟩⟩), hkey⟩

theorem carries_allWrites (h : Holds a st row) (hp : Regular a st p gap) (opts : QueryOptions) :
    ∀ w ∈ allWrites a opts st p (payloadParts a opts st p),
      ∃ j ≤ st.layer, Carries (st.cols.getD · 0) row p.ids j w := by
  intro w hw
  rw [allWrites_eq, hp.payloadReqs_eq, List.mem_flatMap] at hw
  obtain ⟨q, hq, hw⟩ := hw
  rcases List.mem_append.mp hq with hq | hq
  · obtain ⟨j, hj, hq⟩ := List.mem_flatMap.mp hq
    obtain ⟨r, hr, rfl⟩ := List.mem_map.mp hq
    have hj : j ≤ st.layer := Nat.lt_succ_iff.mp (List.mem_range.mp hj)
    exact ⟨j, hj, carries_layer h hp hj (List.mem_of_mem_filter hr) w hw⟩
  · obtain ⟨k, hk, rfl⟩ := List.mem_map.mp hq
    obtain ⟨id, hid, rfl⟩ := hp.mem_dense hk
    exact carries_dense h hp (hp.inside id hid).1 w hw

omit [LinearOrder κ] in
/-- The columns of exactly one layer have an index. -/
theorem Holds.countP_columns (h : Holds a st row) {x : ℕ} (hx : x < st.cols.getLastD 0) :
    (List.range (st.layer + 1)).countP (fun j =>
      st.cols.getD j 0 ≤ x ∧ x < st.cols.getD (j + 1) 0) = 1 :=
  countP_piece (st.cols.getD · 0) (by rw [h.first]; exact Nat.zero_le _) _
    (fun j hj => (h.columns_le (by omega)).1) (by rwa [← h.last])

/-- The reads of layer `j` write a cell of its columns once, if its chunk is not dense. -/
theorem Regular.countP_layer (hp : Regular a st p gap) {i : ℕ} {id : ℕ × ℕ} (hid : p.ids[i]? = some id)
    (m j x : ℕ) : ((sparseReads a st p gap m j).flatMap fun r =>
      fillWrites a st p (bytesOf a (rangeOf r)) (.layer j r)).countP (fun w => w.Covers i x) =
        if st.cols.getD j 0 ≤ x ∧ x < st.cols.getD (j + 1) 0 then
          if a.keyOf st.lt id.1 ∉ p.dense m then 1 else 0
        else 0 := by
  have hcount := countP_readsOf (a.keyOf st.lt) (st.layerBytes j) (st.lt.layerStarts.getD j 0)
    (fun k => k ∉ p.dense m) 0 (groups gap p.ids) (fun g hg id hid => (joins_group hp.sorted hg id hid).1)
    id (by rwa [flatten_groups])
  rw [Nat.zero_add] at hcount
  unfold fillWrites sparseReads
  dsimp only
  rw [← List.map_eq_flatMap, List.countP_map, List.countP_filter]
  by_cases hcol : st.cols.getD j 0 ≤ x ∧ x < st.cols.getD (j + 1) 0
  · rw [if_pos hcol, ← hcount]
    refine List.countP_congr fun r _ => ?_
    simp only [Function.comp_apply, Bool.and_eq_true, decide_eq_true_eq]
    unfold Write.Covers
    tauto
  · rw [if_neg hcol, List.countP_eq_zero]
    intro r _
    simp only [Function.comp_apply, Bool.and_eq_true, decide_eq_true_eq]
    unfold Write.Covers
    tauto

/-- The read of a dense chunk writes every cell of its rows once. -/
theorem Holds.countP_dense (h : Holds a st row) (hp : Regular a st p gap) {i x : ℕ} {id : ℕ × ℕ}
    (hid : p.ids[i]? = some id) (hx : x < st.cols.getLastD 0) {k : κ} {m : ℕ} (hk : k ∈ p.dense m) :
    (fillWrites a st p (bytesOf a (denseRange st k)) (.dense k)).countP (fun w => w.Covers i x) =
      if k = a.keyOf st.lt id.1 then 1 else 0 := by
  obtain ⟨id', hid', rfl⟩ := hp.mem_dense hk
  obtain ⟨hcid, -⟩ := hp.inside id' hid'
  generalize id'.1 = cid at hcid ⊢
  obtain ⟨hid1, -⟩ := hp.inside id (List.mem_of_getElem? hid)
  have hlo := hp.searchsorted_iff hid cid
  have hhi := hp.searchsorted_iff hid (cid + 1)
  unfold fillWrites
  dsimp only [denseRange]
  rw [h.chunkOf_eq hcid, List.countP_map]
  by_cases hrow : id.1 = cid
  · rw [if_pos (by rw [hrow])]
    refine (List.countP_congr fun j _ => ?_).trans (h.countP_columns hx)
    simp only [Function.comp_apply, decide_eq_true_eq]
    unfold Write.Covers
    dsimp only
    omega
  · rw [if_neg fun hkey => hrow (h.distinct cid hcid _ hid1 hkey).symm, List.countP_eq_zero]
    intro j _
    simp only [Function.comp_apply, decide_eq_true_eq]
    unfold Write.Covers
    dsimp only
    omega

/-- **Every cell is written exactly once.** -/
theorem countP_allWrites (h : Holds a st row) (hp : Regular a st p gap) (opts : QueryOptions) {i x : ℕ}
    {id : ℕ × ℕ} (hid : p.ids[i]? = some id) (hx : x < st.cols.getLastD 0) :
    (allWrites a opts st p (payloadParts a opts st p)).countP (fun w => w.Covers i x) = 1 := by
  set key := a.keyOf st.lt id.1
  set dense := p.dense opts.maxChunkRequests with hdense
  rw [allWrites_eq, hp.payloadReqs_eq, List.flatMap_append, List.countP_append, List.flatMap_assoc,
    List.countP_flatMap, List.countP_flatMap]
  have hsparse : ((List.range (st.layer + 1)).map fun j =>
      (((sparseReads a st p gap opts.maxChunkRequests j).map fun req =>
        (rangeOf req, Fill.layer j req)).flatMap fun q =>
          fillWrites a st p (bytesOf a q.1) q.2).countP fun w => w.Covers i x).sum =
        if key ∉ dense then 1 else 0 := by
    have hsum := sum_map_ite (fun j => decide (st.cols.getD j 0 ≤ x ∧ x < st.cols.getD (j + 1) 0))
      (if key ∉ dense then 1 else 0) (List.range (st.layer + 1))
    rw [h.countP_columns hx, Nat.one_mul] at hsum
    rw [← hsum]
    refine congrArg List.sum (List.map_congr_left fun j _ => ?_)
    rw [List.flatMap_map, hp.countP_layer hid]
    simp only [decide_eq_true_eq]
    rfl
  have hfull : ((dense.map fun k => (denseRange st k, Fill.dense k)).map fun q =>
      (fillWrites a st p (bytesOf a q.1) q.2).countP fun w => w.Covers i x).sum =
        if key ∈ dense then 1 else 0 := by
    have hsum := sum_map_ite (fun k => decide (k = key)) 1 dense
    rw [Nat.mul_one] at hsum
    have hcount : dense.countP (fun k => decide (k = key)) = dense.count key :=
      List.countP_congr fun k _ => by simp
    rw [hcount, (nodup_dense p opts.maxChunkRequests).count] at hsum
    rw [← hsum, List.map_map]
    refine congrArg List.sum (List.map_congr_left fun k hk => ?_)
    simp only [decide_eq_true_eq]
    exact h.countP_dense hp hid hx hk
  rw [Function.comp_def, Function.comp_def, hsparse, hfull]
  split_ifs <;> rfl

/-- **The matrix has the blocks**: row `i` is the beginning of the row of the `i`-th MAYBE block, whatever
was in memory. -/
theorem assemble_eq (h : Holds a st row) (hp : Regular a st p gap) (E : Env) (opts : QueryOptions) :
    assemble E a opts st p (payloadParts a opts st p) =
      p.ids.map fun id => (row id).take (st.cols.getLastD 0) := by
  have hrow : ∀ id ∈ p.ids, st.cols.getLastD 0 ≤ (row id).length := fun id hid =>
    h.row id.1 (hp.inside id hid).1 id.2 (hp.inside id hid).2
  have hlen : p.sortedBlocks.length = p.ids.length := by rw [hp.sortedBlocks_eq, List.length_map]
  unfold assemble
  dsimp only
  refine foldl_put_eq (st.cols.getLastD 0) (fun w hw => ?_) (fun r hr => ?_) (fun r hr => ?_) ?_
    (fun i hi x hx => ?_) fun i hi x hx w hw hc => ?_
  · obtain ⟨j, hj, hcarry⟩ := carries_allWrites h hp opts w hw
    obtain ⟨h1, h2⟩ := h.columns_le hj
    exact hcarry.fits h1 h2 hrow
  · obtain ⟨i, -, rfl⟩ := List.mem_map.mp hr
    rw [List.length_map, List.length_range]
  · obtain ⟨id, hid, rfl⟩ := List.mem_map.mp hr
    rw [List.length_take, Nat.min_eq_left (hrow id hid)]
  · rw [List.length_map, List.length_range, List.length_map, hlen]
  · rw [List.length_map] at hi
    have hcount := countP_allWrites h hp opts (List.getElem?_eq_getElem hi) hx
    obtain ⟨w, hw, hc⟩ := List.countP_pos_iff.mp (by rw [hcount]; exact Nat.one_pos)
    exact ⟨w, hw, of_decide_eq_true hc⟩
  · rw [List.length_map] at hi
    obtain ⟨j, -, hcarry⟩ := carries_allWrites h hp opts w hw
    have hid := List.getElem?_eq_getElem hi
    rw [hcarry.value hc hid]
    unfold cell
    rw [List.getElem?_map, hid, Option.map_some, Option.getD_some, List.getElem?_take, if_pos hx]

end Fill

end SkipZFP.Query.Fill
