import Mathlib.Data.List.ProdSigma
import SkipZFP.Plan.Right
import SkipZFP.Query.Layers

/-! # What reading an array returns

Zarr does not store the object of a chunk whose values are all the fill value, and it reads a missing
object as that value. `Written` says that an array was written chunk by chunk in this way, and `readAt` is
the value that is read for a cell: the fill value, or what libzfp makes of the value that was written.

* `perm_cells`: the cells of the planner's blocks are the cells of the array, each once.
* `readAt_eq_zarrAt`: at the last layer, `readAt` is what zarr returns.
* `decode_blockRow`: **the stored bytes of a block decode to the values that are read**.
* `right_of_wellDecoded`: **in exact arithmetic the states are right for the values that are read**. -/

namespace SkipZFP.Query.Reading

open SkipZFP.Lib.Grid SkipZFP.Lib.Rows SkipZFP.Lib.Double SkipZFP.Lib.Float32 SkipZFP.Lib.Next
open SkipZFP.Codec.Config SkipZFP.Codec.Pack SkipZFP.Codec.Meta SkipZFP.Plan.Classify
open SkipZFP.Plan.Blocks SkipZFP.Plan.Shapes SkipZFP.Plan.Records SkipZFP.Plan.Agree
open SkipZFP.Plan.Layers SkipZFP.Plan.Right SkipZFP.Read.Store SkipZFP.Read.Stream
open SkipZFP.Query.Run SkipZFP.Query.Count SkipZFP.Query.Layers

/-! ### Blocks and cells -/

/-- The ids of `n` chunks of `m` blocks. -/
def blockIds (n m : ℕ) : List (ℕ × ℕ) := List.range n ×ˢ List.range m

theorem mem_blockIds {n m : ℕ} {id : ℕ × ℕ} : id ∈ blockIds n m ↔ id.1 < n ∧ id.2 < m := by
  obtain ⟨cid, b⟩ := id
  rw [blockIds, List.mem_product, List.mem_range, List.mem_range]

theorem sum_blockIds (n m : ℕ) (f : ℕ × ℕ → ℕ) :
    ((List.range n).map fun cid => ((List.range m).map fun b => f (cid, b)).sum).sum =
      ((blockIds n m).map f).sum := by
  show _ = (((List.range n).flatMap fun cid => (List.range m).map (Prod.mk cid)).map f).sum
  rw [List.map_flatMap, List.flatMap_def, List.sum_flatten, List.map_map]
  refine congrArg List.sum (List.map_congr_left fun cid _ => ?_)
  rw [Function.comp_apply, List.map_map]
  rfl

theorem nodup_unitCells (s : Tri) : (unitCells s).Nodup := by
  have hinj : ∀ b, Function.Injective (join blockShape b) := fun b r r' h => by
    funext d
    exact Nat.add_left_cancel (congrFun h d)
  refine List.nodup_flatMap.mpr ⟨fun b _ => (nodup_indices _).map (hinj b), ?_⟩
  refine (nodup_indices (blocksOf s)).imp fun {b b'} hne => ?_
  show List.Disjoint (blockCells b) (blockCells b')
  intro i hi hi'
  exact hne ((mem_blockCells.mp hi).symm.trans (mem_blockCells.mp hi'))

/-- The cells of the blocks of a shape are its cells. -/
theorem perm_unitCells {s : Tri} (h : ∀ d, s d % blockDim = 0) : (unitCells s).Perm (indices s) := by
  refine (List.perm_ext_iff_of_nodup (nodup_unitCells s) (nodup_indices s)).mpr fun i => ?_
  rw [mem_indices]
  constructor
  · intro hi
    obtain ⟨b, hb, hi⟩ := List.mem_flatMap.mp hi
    have hr : Inside blockShape (inner blockShape i) := fun d => Nat.mod_lt (i d) (Nat.succ_pos 3)
    have hin := inside_join (mem_indices.mp hb) hr
    rwa [← mem_blockCells.mp hi, join_outer_inner, scale_blocksOf h] at hin
  · intro hi
    refine mem_unitCells (mem_indices.mpr ?_) (mem_blockCells.mpr rfl)
    rw [← scale_blocksOf h] at hi
    exact inside_outer hi

section Cells
variable {c : SkipZFPCodec} {shape chunk : Tri} (hc : c.ChunkOk chunk) (hs : ∀ d, shape d % chunk d = 0)
include hc hs

/-- **The cells of the planner's blocks are the cells of the array**, each once. -/
theorem perm_cells : ((blockIds (volume (outer chunk shape)) (volume (blocksOf chunk))).flatMap fun id =>
    blockCells (blockOfId c shape chunk id.1 id.2)).Perm (indices shape) := by
  obtain ⟨hmaps, hinj, hsurj⟩ := bijOn_blockOfId hc hs
  have hnodup : (blockIds (volume (outer chunk shape)) (volume (blocksOf chunk))).Nodup :=
    List.nodup_range.product List.nodup_range
  have hblocks : ((blockIds (volume (outer chunk shape)) (volume (blocksOf chunk))).map fun id =>
      blockOfId c shape chunk id.1 id.2).Perm (indices (blocksOf shape)) := by
    refine (List.perm_ext_iff_of_nodup (hnodup.map_on fun id hid id' hid' h =>
      hinj (mem_blockIds.mp hid) (mem_blockIds.mp hid') h) (nodup_indices _)).mpr fun B => ?_
    rw [mem_indices, List.mem_map]
    constructor
    · rintro ⟨id, hid, rfl⟩
      exact hmaps (mem_blockIds.mp hid)
    · intro hB
      obtain ⟨id, hid, rfl⟩ := hsurj hB
      exact ⟨id, mem_blockIds.mpr hid, rfl⟩
  have hmul : ∀ d, shape d % blockDim = 0 := fun d => Nat.mod_eq_zero_of_dvd
    ((Nat.dvd_of_mod_eq_zero (hc.block d)).trans (Nat.dvd_of_mod_eq_zero (hs d)))
  have h := hblocks.flatMap_right blockCells
  rw [List.flatMap_map] at h
  exact h.trans (perm_unitCells hmul)

theorem countP_cells (p : Tri → Bool) : (indices shape).countP p =
    ((blockIds (volume (outer chunk shape)) (volume (blocksOf chunk))).map fun id =>
      (blockCells (blockOfId c shape chunk id.1 id.2)).countP p).sum := by
  rw [← (perm_cells hc hs).countP_eq p, List.countP_flatMap]
  rfl

omit hs in
theorem outer_block (cid b : ℕ) {r : Tri} (hb : b < volume (blocksOf chunk)) (hr : Inside blockShape r) :
    outer chunk (join blockShape (blockOfId c shape chunk cid b) r) = unravel (outer chunk shape) cid := by
  have hin : Inside (c.unit chunk) (join blockShape (blockInUnit c chunk b) r) := by
    have h := inside_join (inside_blockInUnit hc b) hr
    rwa [scale_blocksOf hc.unit_block] at h
  have hchunk := inside_join (inside_unravel (div_lt hc hb)) hin
  rw [hc.scale_unit] at hchunk
  rw [blockOfId, join_unit hc, unitOfId, join_join, hc.scale_unit, outer_join hchunk]

end Cells

/-! ### The array -/

section Array
variable {κ : Type} (nat : Native F32) (a : ZarrArray κ) (lt : Layout) (data : Tri → F32) (fill : F32)

/-- **An array written chunk by chunk**, under distinct keys: the object of a chunk is what the codec
makes of the chunk, and it may be left out where all values are the fill value. -/
structure Written : Prop where
  object : ∀ cid < volume lt.gridShape, a.get (a.keyOf lt cid) =
      some (pack nat a.codec a.chunk ((tileBox a.chunk (unravel lt.gridShape cid)).view data)) ∨
    a.get (a.keyOf lt cid) = none ∧ ∀ r, Inside a.chunk r →
      ((tileBox a.chunk (unravel lt.gridShape cid)).view data r).val = fill.val
  distinct : ∀ cid < volume lt.gridShape, ∀ cid' < volume lt.gridShape,
    a.keyOf lt cid = a.keyOf lt cid' → cid = cid'

/-- What zarr returns for cell `i`: its value in the unpacked object of its chunk, or the fill value.
`memory` is what `np.empty` holds. -/
def zarrAt (memory : Tri → F32) (i : Tri) : F32 :=
  match a.get (a.chunkKey (outer a.chunk i)) with
  | none => fill
  | some obj => unpack nat a.codec a.chunk memory obj (inner a.chunk i)

/-- **The value that is read for cell `i` at a layer**: the fill value in a chunk that is not stored, else
what libzfp makes of the value that was written, at the rate of the layer. -/
def readAt (layer : ℕ) (i : Tri) : F32 :=
  if (a.get (a.chunkKey (outer a.chunk i))).isNone then fill
  else decodedAt nat a.codec a.chunk (a.codec.layers.getD layer 0) data i

variable {nat a lt data fill}

/-- **At the last layer this is what zarr returns.** -/
theorem readAt_eq_zarrAt (hc : a.codec.ChunkOk a.chunk) (hlt : getLayout a.codec a.shape a.chunk = .ok lt)
    (h : Written nat a lt data fill) (memory : Tri → F32) {i : Tri} (hi : Inside a.shape i) :
    readAt nat a data fill (a.codec.layers.length - 1) i = zarrAt nat a fill memory i := by
  obtain ⟨hs, size, rfl⟩ := getLayout_ok hlt
  have hgrid : (layoutOf a.codec a.shape a.chunk size).gridShape = outer a.chunk a.shape := rfl
  rw [← scale_outer hs] at hi
  have ho := inside_outer hi
  have hr : Inside (scale (outer (a.codec.unit a.chunk) a.chunk) (a.codec.unit a.chunk))
      (inner a.chunk i) := by
    rw [hc.scale_unit]
    exact inside_inner hi
  have hobj := h.object _ (ravel_lt ho)
  unfold ZarrArray.keyOf at hobj
  rw [hgrid, unravel_ravel ho] at hobj
  unfold readAt zarrAt
  rcases hobj with hobj | ⟨hobj, -⟩
  · have hx := inside_inner hr
    have hcell := unpack_pack_apply nat a.codec hc ((tileBox a.chunk (outer a.chunk i)).view data) memory
      (inside_outer hr) hx
    -- the unit of the cell, and the cell in its unit
    have hjoin : i = join (a.codec.unit a.chunk) (join (outer (a.codec.unit a.chunk) a.chunk)
        (outer a.chunk i) (outer (a.codec.unit a.chunk) (inner a.chunk i)))
          (inner (a.codec.unit a.chunk) (inner a.chunk i)) := by
      rw [join_join, hc.scale_unit, join_outer_inner, join_outer_inner]
    rw [join_outer_inner, view_unit hc] at hcell
    rw [hobj, if_neg (by simp), a.codec.getD_last]
    dsimp only
    rw [hcell, decodedAt]
    conv_lhs => rw [hjoin, outer_join hx, inner_join hx]
    rfl
  · rw [hobj]
    rfl

end Array

/-! ### The zone map -/

section Zones
variable {κ : Type} (E : Env) (nat : Native F32) (a : ZarrArray κ) (st : Setup) (data : Tri → F32)
  (fill : F32) (zm : List UInt8) (lo hi : Dbl)

/-- The state that a query gives block `b` of chunk `cid`, for the zone map `zm`. -/
def blockState (cid b : ℕ) : BlockState :=
  stateAt E.fl (planMeta a.codec st.layer st.lt.unitShape zm) st.lt.planArgs lo hi cid b

def cellsOf (id : ℕ × ℕ) : List Tri := blockCells (blockOfId a.codec a.shape a.chunk id.1 id.2)

/-- **The states are right** for the values that are read. -/
def RightStates : Prop := ∀ cid < st.lt.planArgs.nChunk, ∀ b < st.lt.planArgs.blocksPerChunk,
  ∀ i ∈ cellsOf a (cid, b),
    Sound (blockState E a st zm lo hi cid b) lo hi (readAt nat a data fill st.layer i).val

/-- **The blocks that an aggregate reads can be added up**: their error bounds are numbers, and so are
their values. -/
def Summable : Prop := ∀ cid < st.lt.planArgs.nChunk, ∀ b < st.lt.planArgs.blocksPerChunk,
  isListed true (blockState E a st zm lo hi cid b) →
    (∃ e, (errorAt E.fl (planMeta a.codec st.layer st.lt.unitShape zm) st.lt.planArgs cid b).val = .fin e ∧
      0 ≤ e) ∧ ∀ i ∈ cellsOf a (cid, b), ∃ q, (readAt nat a data fill st.layer i).val = .fin q

/-- **A chunk that is needed but not stored**: one of its blocks has to be read. -/
structure Missing (keepIn : Bool) (cid : ℕ) : Prop where
  lt : cid < st.lt.planArgs.nChunk
  absent : a.get (a.keyOf st.lt cid) = none
  needed : ∃ b < st.lt.planArgs.blocksPerChunk, isListed keepIn (blockState E a st zm lo hi cid b)

variable {E nat a st data fill zm lo hi} {opts : QueryOptions}

theorem mem_cellsOf {id : ℕ × ℕ} {i : Tri} : i ∈ cellsOf a id ↔ ∃ r, Inside blockShape r ∧
    i = join blockShape (blockOfId a.codec a.shape a.chunk id.1 id.2) r := by
  rw [cellsOf, mem_blockCells]
  constructor
  · intro h
    refine ⟨inner blockShape i, fun d => Nat.mod_lt (i d) (Nat.succ_pos 3), ?_⟩
    rw [← h, join_outer_inner]
  · rintro ⟨r, hr, rfl⟩
    exact outer_join hr

theorem length_cellsOf (id : ℕ × ℕ) : (cellsOf a id).length = 64 := by
  rw [cellsOf, blockCells, List.length_map, length_indices]
  rfl

variable (hc : a.codec.ChunkOk a.chunk) (hst : setup a opts = .ok st)
include hc hst

theorem sizes_setup : st.lt.gridShape = outer a.chunk a.shape ∧
    st.lt.planArgs.nChunk = volume (outer a.chunk a.shape) ∧
      st.lt.planArgs.blocksPerChunk = volume (blocksOf a.chunk) := by
  obtain ⟨size, hlt⟩ := layoutOf_setup hst
  rw [hlt, planArgs_layoutOf]
  exact ⟨rfl, congrArg volume (grid_planArgs hc), hc.volume_blocks.symm⟩

theorem inside_cell {cid b : ℕ} (hcid : cid < st.lt.planArgs.nChunk)
    (hb : b < st.lt.planArgs.blocksPerChunk) {i : Tri} (hi : i ∈ cellsOf a (cid, b)) :
    Inside a.shape i := by
  obtain ⟨-, hn, hblocks⟩ := sizes_setup hc hst
  rw [hn] at hcid
  rw [hblocks] at hb
  exact mem_indices.mp ((perm_cells hc (shape_mod hst)).mem_iff.mp
    (List.mem_flatMap.mpr ⟨(cid, b), mem_blockIds.mpr ⟨hcid, hb⟩, hi⟩))

/-- **Every cell of a block is in the block's chunk.** It is read from its object, or it is the fill
value. -/
theorem readAt_cell (h : Written nat a st.lt data fill) {cid b : ℕ} (hcid : cid < st.lt.planArgs.nChunk)
    (hb : b < st.lt.planArgs.blocksPerChunk) {i : Tri} (hi : i ∈ cellsOf a (cid, b)) :
    (a.get (a.keyOf st.lt cid) = none ∧ readAt nat a data fill st.layer i = fill ∧
      (data i).val = fill.val) ∨
    (a.get (a.keyOf st.lt cid)).isSome ∧ readAt nat a data fill st.layer i =
      decodedAt nat a.codec a.chunk (a.codec.layers.getD st.layer 0) data i := by
  obtain ⟨hgrid, hn, hblocks⟩ := sizes_setup hc hst
  rw [hn, ← hgrid] at hcid
  rw [hblocks] at hb
  have hobj := h.object cid hcid
  obtain ⟨r, hr, rfl⟩ := mem_cellsOf.mp hi
  have hchunk : outer a.chunk (join blockShape (blockOfId a.codec a.shape a.chunk cid b) r) =
      unravel (outer a.chunk a.shape) cid := outer_block hc cid b hb hr
  unfold ZarrArray.keyOf at hobj ⊢
  rw [hgrid] at hobj ⊢
  unfold readAt
  rw [hchunk]
  rcases hobj with hobj | ⟨hobj, hfill⟩
  · right
    rw [hobj]
    exact ⟨rfl, rfl⟩
  · left
    rw [hobj]
    refine ⟨rfl, rfl, ?_⟩
    rw [← hfill (inner a.chunk _) fun d => Nat.mod_lt _ (hc.pos d), ← hchunk, view_tileBox,
      join_outer_inner]

/-- **The states are right**, and what an aggregate reads can be added up, for numbers that libzfp decodes
well: in exact arithmetic and in any rounding to 53 bits, if reader and writer compute alike. -/
theorem right_of_wellDecoded (h : Written nat a st.lt data fill) (hfl : IsRounding 53 E.fl)
    (hzm : writeMeta E.fl nat a.codec a.shape a.chunk data = .ok zm)
    (hw : WellDecoded E.fl nat a.codec st.layer a.shape a.chunk data) :
    (∀ lo hi, RightStates E nat a st data fill zm lo hi) ∧
      ∀ lo hi, Summable E nat a st data fill zm lo hi := by
  obtain ⟨size, hlt⟩ := layoutOf_setup hst
  obtain ⟨-, hn, hblocks⟩ := sizes_setup hc hst
  have hl := (setup_spec hst).2.1
  have hargs : st.lt.planArgs = planArgs a.codec a.shape a.chunk := by rw [hlt]; rfl
  have hunit : st.lt.unitShape = a.codec.unit a.chunk := by rw [hlt]; rfl
  constructor
  · intro lo hi cid hcid b hb i hi
    have hcell := readAt_cell hc hst h hcid hb hi
    obtain ⟨r, hr, rfl⟩ := mem_cellsOf.mp hi
    rw [hn] at hcid
    rw [hblocks] at hb
    unfold blockState
    rw [hunit, hargs]
    refine sound_stateAt hc hfl hl hzm hw hcid hb lo _ hr _ ?_
    rcases hcell with ⟨-, hread, hfill⟩ | ⟨-, hread⟩
    · left
      rw [hread, hfill]
    · right
      rw [hread]
  · intro lo hi cid hcid b hb _
    refine ⟨?_, fun i hi => ?_⟩
    · rw [hn] at hcid
      rw [hblocks] at hb
      rw [hunit, hargs]
      exact errorAt_fin hc hfl hl hzm hw hcid hb
    · rcases readAt_cell hc hst h hcid hb hi with ⟨-, hread, hfill⟩ | ⟨-, hread⟩
      · rw [hread, ← hfill]
        exact hw.finite i (inside_cell hc hst hcid hb hi)
      · obtain ⟨r, hr, rfl⟩ := mem_cellsOf.mp hi
        rw [hread]
        exact decodedAt_fin hc hl hzm hw (by rwa [← hn]) (by rwa [← hblocks]) hr

end Zones

/-! ### The stored bytes -/

/-- **What is assumed of the decoder of blocks**: of the encoding of a block it makes what libzfp makes of
it, in C order. -/
def Blockwise (nat : Native F32) (decode : ℚ → List UInt8 → Values) (rate : ℚ) : Prop :=
  ∀ (s : Tri) (y : Tri → F32) (b : Tri), (∀ d, s d % blockDim = 0) → Inside (blocksOf s) b →
    ∀ k : Fin 64, decode rate (encodedBlock nat rate s y (ravel (blocksOf s) b)) k =
      decoded nat rate s y (join blockShape b (unravel blockShape k))

section Stored
variable {κ : Type} {E : Env} {nat : Native F32} {a : ZarrArray κ} {st : Setup} {data : Tri → F32}
  {fill : F32} {opts : QueryOptions}

/-- The array with the objects of all chunks. -/
def filled [DecidableEq κ] (nat : Native F32) (a : ZarrArray κ) (st : Setup) (data : Tri → F32) :
    ZarrArray κ :=
  { a with
    get := fun k => (a.get k).or (((List.range st.nChunk).find? fun cid => a.keyOf st.lt cid = k).map
      fun cid => pack nat a.codec a.chunk (chunkView a st data cid)) }

theorem packed_filled [DecidableEq κ] (h : Written nat a st.lt data fill) :
    Packed nat (filled nat a st data) st data where
  object cid hcid := by
    have hkey : (filled nat a st data).keyOf st.lt cid = a.keyOf st.lt cid := rfl
    show (a.get _).or _ = _
    rw [hkey]
    rcases h.object cid hcid with hobj | ⟨hobj, -⟩
    · rw [hobj]
      rfl
    · rw [hobj, Option.none_or]
      cases hfind : (List.range st.nChunk).find? fun c => a.keyOf st.lt c = a.keyOf st.lt cid with
      | none =>
        have := List.find?_eq_none.mp hfind cid (List.mem_range.mpr hcid)
        simp at this
      | some c =>
        have hmem := List.mem_range.mp (List.mem_of_find?_eq_some hfind)
        have heq : a.keyOf st.lt c = a.keyOf st.lt cid := by simpa using List.find?_some hfind
        rw [h.distinct c hmem cid hcid heq]
        rfl
  distinct := h.distinct

theorem get_filled [DecidableEq κ] {k : κ} (hk : (a.get k).isSome) :
    (filled nat a st data).get k = a.get k := by
  obtain ⟨obj, hobj⟩ := Option.isSome_iff_exists.mp hk
  show (a.get k).or _ = _
  rw [hobj]
  rfl

variable (hc : a.codec.ChunkOk a.chunk) (hst : setup a opts = .ok st)
include hc hst

/-- The row of a block is its encoding in its unit. -/
theorem blockRow_eq {cid b : ℕ} (hb : b < st.lt.planArgs.blocksPerChunk) :
    blockRow nat a st data (cid, b) = encodedBlock nat a.codec.rate (a.codec.unit a.chunk)
      ((tileBox (a.codec.unit a.chunk) (unitOfId a.codec a.shape a.chunk cid
        (b / volume (blocksOf (a.codec.unit a.chunk))))).view data)
      (ravel (blocksOf (a.codec.unit a.chunk)) (blockInUnit a.codec a.chunk b)) := by
  obtain ⟨hgrid, -, hblocks⟩ := sizes_setup hc hst
  rw [hblocks] at hb
  unfold blockRow chunkView
  rw [List.getD_eq_getElem?_getD, packRows_getElem?_of_lt nat a.codec hc _ hb, Option.getD_some,
    view_unit hc, hgrid]
  rfl

/-- **The stored bytes of a block decode to its values** at the rate of the layer. -/
theorem decode_blockRow (hdec : Blockwise nat E.decode st.rate) (hpre : Prefixed nat a.codec st.layer)
    {cid b : ℕ} (hb : b < st.lt.planArgs.blocksPerChunk) :
    List.ofFn (E.decode st.rate ((blockRow nat a st data (cid, b)).take (blockBytes st.rate))) =
      (cellsOf a (cid, b)).map (decodedAt nat a.codec a.chunk st.rate data) := by
  obtain ⟨size, hlt⟩ := layoutOf_setup hst
  have hrate : st.rate = a.codec.layers.getD st.layer 0 := by
    unfold Setup.rate
    rw [hlt]
    rfl
  have hbi := inside_blockInUnit hc b
  have htake := hpre (a.codec.unit a.chunk) ((tileBox (a.codec.unit a.chunk) (unitOfId a.codec a.shape
    a.chunk cid (b / volume (blocksOf (a.codec.unit a.chunk))))).view data) _ (ravel_lt hbi)
  have hcells : cellsOf a (cid, b) = (List.finRange 64).map fun k : Fin 64 =>
      join blockShape (blockOfId a.codec a.shape a.chunk cid b) (unravel blockShape k.val) := by
    have hrange : List.range (volume blockShape) = (List.finRange 64).map Fin.val :=
      List.map_coe_finRange_eq_range.symm
    rw [cellsOf, blockCells, indices_eq, hrange, List.map_map, List.map_map]
    rfl
  rw [blockRow_eq hc hst hb, hrate, htake, ← hrate, hcells, List.ofFn_eq_map, List.map_map]
  refine List.map_congr_left fun k _ => ?_
  have hk : Inside blockShape (unravel blockShape k) := inside_unravel k.isLt
  rw [Function.comp_apply, hdec _ _ _ hc.unit_block hbi, blockOfId, decodedAt_block hc _ hbi hk]

end Stored

end SkipZFP.Query.Reading
