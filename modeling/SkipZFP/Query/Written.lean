import SkipZFP.Query.Slabs

/-! # A written zone map

`storeMeta` is an array after `write_meta`: with `compress` the records of every object are packed, zarr
cuts the values into objects of `t_chunk` rows of units, fills up the last one with zeros, and stores
them, compressed or raw. `openArray` is what opening the zone map as an array makes of the objects; an
object that is not stored is full of zeros.

* `flatten_zarrObject`: the objects, put together and cut back, are the values.
* `readMetaObject_written`: an object read by its key is unpacked to records, with the zeros behind.
* `zone_map_round_trip`: **every reader returns the records that were written**. -/

namespace SkipZFP.Query.Written

open SkipZFP.Lib.Grid SkipZFP.Lib.Rows SkipZFP.Lib.Loops SkipZFP.Lib.Float32
open SkipZFP.Codec.Config SkipZFP.Codec.Pack SkipZFP.Codec.Meta SkipZFP.Codec.Packing
open SkipZFP.Plan.Blocks SkipZFP.Plan.Shapes SkipZFP.Plan.Records
open SkipZFP.Read.Budget SkipZFP.Read.Gather SkipZFP.Read.Store SkipZFP.Read.ZoneMap
open SkipZFP.Query.Run SkipZFP.Query.Count SkipZFP.Query.Slabs

/-! ### What is stored -/

/-- `rows`: the records of all units, in C order. -/
def metaRecords (fl : ℚ → ℚ) (nat : Native F32) (c : SkipZFPCodec) (shape chunk : Tri)
    (data : Tri → F32) : Except String (List (List UInt8)) :=
  (indices (outer (c.unit chunk) shape)).mapM fun idx =>
    writeMetaOne fl nat c (c.unit chunk) ((tileBox (c.unit chunk) idx).view data)

/-- `t_chunk`, from the argument of `write_meta`: by default as many units as fit in
`META_OBJECT_BYTES`, at most 16. -/
def tChunkOf (arg : Option ℕ) (grid : Tri) (size : ℕ) : ℕ :=
  min (arg.getD (max 1 (min 16 (2000000 / (grid 1 * grid 2 * size))))) (grid 0)

/-- The values of the zone map: the records, or the packed records of one object after another. -/
def metaValues (compress : Bool) (lead blocks step : ℕ) (rec : List (List UInt8)) : List UInt8 :=
  if compress then ((batched step rec).map (packMeta lead blocks)).flatten else rec.flatten

/-- Object `i` of an array whose objects have `size` bytes: zarr fills up the last one with zeros. -/
def zarrObject (size : ℕ) (values : List UInt8) (i : ℕ) : List UInt8 :=
  let part := slice values (i * size) ((i + 1) * size)
  part ++ List.replicate (size - part.length) 0

/-- What zarr calls: zstd, and the size of an array's `zarr.json`. -/
structure Zarr where
  compress : List UInt8 → List UInt8
  decompress : List UInt8 → Option (List UInt8)
  jsonBytes : ℕ

section Store
variable {κ : Type} [DecidableEq κ] (Z : Zarr) (a : ZarrArray κ) (lt : Layout) (key : ℕ → κ) (t : ℕ)
  (compress : Bool)

def objectSize : ℕ := t * (lt.unitGrid 1 * lt.unitGrid 2 * lt.metaSize)

/-- Object `i`, from a store: a missing object is full of the fill value, zero. -/
def openObjectAt (get : κ → Option (List UInt8)) (i : ℕ) : Except (QueryError κ) (List UInt8) :=
  match get (key i) with
  | none => .ok (List.replicate (objectSize lt t) 0)
  | some d =>
    if compress then
      match Z.decompress d with
      | none => .error .zstd
      | some x => .ok x
    else .ok d

/-- **Opening the zone map as an array** and reading all of it. -/
def openArray (get : κ → Option (List UInt8)) : Except (QueryError κ) MetaArray :=
  ((List.range (ceildiv (lt.unitGrid 0) t)).mapM (openObjectAt Z lt key t compress get)).map
    fun objects =>
      { shape := [lt.unitGrid 0, lt.unitGrid 1, lt.unitGrid 2, lt.metaSize]
        chunks := [t, lt.unitGrid 1, lt.unitGrid 2, lt.metaSize]
        values := objects.flatten.take
          (lt.unitGrid 0 * (lt.unitGrid 1 * lt.unitGrid 2 * lt.metaSize))
        nbytesStored := Z.jsonBytes + ((List.range (ceildiv (lt.unitGrid 0) t)).map fun i =>
          ((get (key i)).getD []).length).sum }

/-- The array with the attributes that `write_meta` sets, and the objects in a store. -/
def withMeta (get : κ → Option (List UInt8)) : ZarrArray κ :=
  { a with
    get := get
    metaKey := some key
    source := some ⟨a.codec, a.shape, a.chunk⟩
    tChunk := some t
    packing := if compress then some "planar-zstd" else none
    metaArray := openArray Z lt key t compress get }

/-- Object `i` as it is stored. -/
def storedObject (rec : List (List UInt8)) (i : ℕ) : List UInt8 :=
  let values := metaValues compress (8 + 4 * lt.layers.length) lt.blocksPerUnit
    (t * (lt.unitGrid 1 * lt.unitGrid 2)) rec
  let object := zarrObject (objectSize lt t) values i
  if compress then Z.compress object else object

/-- The store with the objects of the zone map put in it. -/
def putObjects (rec : List (List UInt8)) (k : κ) : Option (List UInt8) :=
  match (List.range (ceildiv (lt.unitGrid 0) t)).find? fun i => key i = k with
  | some i => some (storedObject Z lt t compress rec i)
  | none => a.get k

/-- **The array after `write_meta`**, for records `rec`. -/
def storeMeta (rec : List (List UInt8)) : ZarrArray κ :=
  withMeta Z a lt key t compress (putObjects Z a lt key t compress rec)

end Store

/-! ### Objects and values -/

theorem length_zarrObject (size : ℕ) (values : List UInt8) (i : ℕ) :
    (zarrObject size values i).length = size := by
  have h : (slice values (i * size) ((i + 1) * size)).length ≤ size := by
    rw [slice, List.length_take, Nat.succ_mul]
    omega
  rw [zarrObject, List.length_append, List.length_replicate]
  omega

/-- **The objects, put together and cut back, are the values.** -/
theorem flatten_zarrObject {size n : ℕ} (hs : 0 < size) {values : List UInt8}
    (hn : values.length ≤ n * size) :
    (((List.range n).map (zarrObject size values)).flatten).take values.length = values := by
  refine List.ext_getElem? fun p => ?_
  rw [List.getElem?_take]
  by_cases hp : p < values.length
  · have hdm : p / size * size + p % size = p := by
      have := Nat.div_add_mod p size
      rwa [Nat.mul_comm] at this
    have hj := Nat.mod_lt p hs
    have hi : p / size < n := Nat.div_lt_of_lt_mul (by rw [Nat.mul_comm]; omega)
    have hrow : ((List.range n).map (zarrObject size values))[p / size]? =
        some (zarrObject size values (p / size)) := by
      rw [List.getElem?_map, List.getElem?_range hi, Option.map_some]
    have hw : ∀ r ∈ (List.range n).map (zarrObject size values), r.length = size := by
      intro r hr
      obtain ⟨i, -, rfl⟩ := List.mem_map.mp hr
      exact length_zarrObject size values i
    have hlt : p % size < (slice values (p / size * size) ((p / size + 1) * size)).length := by
      rw [slice, List.length_take, List.length_drop, Nat.succ_mul]
      omega
    have hget := getElem?_flatten_rows hw hrow hj
    rw [hdm] at hget
    rw [if_pos hp, hget, zarrObject, List.getElem?_append_left hlt, getElem?_slice, hdm,
      if_pos (by rw [Nat.succ_mul]; omega)]
  · rw [if_neg hp, List.getElem?_eq_none (by omega)]

/-- Batches of a list that is itself made of batches. -/
theorem ceildiv_mul {g t w : ℕ} (hw : 0 < w) : ceildiv (g * w) (t * w) = ceildiv g t := by
  have h : (g * w + t * w - 1) / w = g + t - 1 := by
    rcases Nat.eq_zero_or_pos (g + t) with h0 | h0
    · have hg : g = 0 := by omega
      have ht : t = 0 := by omega
      subst hg ht
      simp [Nat.div_eq_of_lt hw]
    · refine Nat.div_eq_of_lt_le ?_ ?_ <;> rw [← Nat.add_mul]
      · have := Nat.sub_one_mul (g + t) w
        have : w ≤ (g + t) * w := Nat.le_mul_of_pos_left w h0
        omega
      · rw [Nat.sub_add_cancel h0]
        have : 0 < (g + t) * w := Nat.mul_pos h0 hw
        omega
  unfold ceildiv
  rw [Nat.mul_comm t w, ← Nat.div_div_eq_div_mul, Nat.mul_comm w t, h]

theorem length_batched {α : Type*} (n : ℕ) (l : List α) : (batched n l).length = ceildiv l.length n := by
  rw [batched, List.length_map, List.length_range]

/-! ### The records of an object -/

/-- **Records of a layout**: one for each unit, of the right size. -/
structure OfLayout (lt : Layout) (rec : List (List UInt8)) : Prop where
  length : rec.length = lt.unitGrid 0 * (lt.unitGrid 1 * lt.unitGrid 2)
  row : ∀ r ∈ rec, r.length = lt.metaSize
  lead : 8 + 4 * lt.layers.length + 2 * lt.blocksPerUnit ≤ lt.metaSize
  pos : 0 < lt.unitGrid 1 * lt.unitGrid 2

/-- The records of object `i`. -/
def objectRecords (lt : Layout) (t : ℕ) (rec : List (List UInt8)) (i : ℕ) : List (List UInt8) :=
  slice rec (i * (t * (lt.unitGrid 1 * lt.unitGrid 2))) ((i + 1) * (t * (lt.unitGrid 1 * lt.unitGrid 2)))

/-- The records of an object as they are stored. -/
def packPart (compress : Bool) (lt : Layout) (part : List (List UInt8)) : List UInt8 :=
  if compress then packMeta (8 + 4 * lt.layers.length) lt.blocksPerUnit part else part.flatten

section Records
variable {lt : Layout} {rec : List (List UInt8)} (h : OfLayout lt rec) {t : ℕ} (ht : 0 < t)
  (compress : Bool)
include h

theorem OfLayout.metaSize_pos : 0 < lt.metaSize := by
  have := h.lead
  omega

theorem length_objectRecords (i : ℕ) : (objectRecords lt t rec i).length =
    min t (lt.unitGrid 0 - i * t) * (lt.unitGrid 1 * lt.unitGrid 2) := by
  unfold objectRecords
  rw [slice, List.length_take, List.length_drop, h.length]
  generalize lt.unitGrid 1 * lt.unitGrid 2 = w
  have h1 : (i + 1) * (t * w) - i * (t * w) = t * w := by
    rw [Nat.add_one_mul, Nat.add_sub_cancel_left]
  rw [h1, ← Nat.mul_assoc, ← Nat.sub_mul]
  rw [Nat.mul_min_mul_right]

theorem length_packPart {part : List (List UInt8)} (hpart : ∀ r ∈ part, r ∈ rec) :
    (packPart compress lt part).length = part.length * lt.metaSize := by
  have hrow : ∀ r ∈ part, r.length = lt.metaSize := fun r hr => h.row r (hpart r hr)
  unfold packPart
  split_ifs
  · exact length_packMeta hrow h.lead
  · exact length_flatten_rows hrow

/-- A stored object, or what is left of one in a chunk of values, is unpacked to its records. -/
theorem unpackRecords_packPart {part : List (List UInt8)} (hpart : ∀ r ∈ part, r ∈ rec)
    (rest : List UInt8) : unpackRecords (packPart true lt part ++ rest) lt part.length =
      part.flatten ++ rest := by
  have hrow : ∀ r ∈ part, r.length = lt.metaSize := fun r hr => h.row r (hpart r hr)
  have hlen := length_packPart h true hpart
  unfold unpackRecords
  dsimp only
  rw [List.take_left' hlen, List.drop_left' hlen]
  unfold packPart
  rw [if_pos rfl, unpackMeta_packMeta hrow h.lead h.metaSize_pos]

omit h in
theorem mem_of_mem_objectRecords {i : ℕ} : ∀ r ∈ objectRecords lt t rec i, r ∈ rec :=
  fun _ hr => mem_of_mem_slice hr

theorem length_parts : (batched (t * (lt.unitGrid 1 * lt.unitGrid 2)) rec).length =
    ceildiv (lt.unitGrid 0) t := by
  rw [length_batched, h.length, ceildiv_mul h.pos]

include ht

theorem metaValues_eq : metaValues compress (8 + 4 * lt.layers.length) lt.blocksPerUnit
    (t * (lt.unitGrid 1 * lt.unitGrid 2)) rec =
      ((List.range (ceildiv (lt.unitGrid 0) t)).map fun i =>
        packPart compress lt (objectRecords lt t rec i)).flatten := by
  have hparts : (List.range (ceildiv (lt.unitGrid 0) t)).map (objectRecords lt t rec) =
      batched (t * (lt.unitGrid 1 * lt.unitGrid 2)) rec := by
    rw [batched, ← length_parts h, length_batched]
    rfl
  have hmap : ((List.range (ceildiv (lt.unitGrid 0) t)).map fun i =>
      packPart compress lt (objectRecords lt t rec i)) =
        (batched (t * (lt.unitGrid 1 * lt.unitGrid 2)) rec).map (packPart compress lt) := by
    rw [← hparts, List.map_map]
    rfl
  rw [hmap]
  unfold metaValues packPart
  split_ifs
  · rfl
  · have := flatten_batched (Nat.mul_pos ht h.pos) rec
    conv_lhs => rw [← this]
    exact List.flatten_flatten

theorem length_metaValues : (metaValues compress (8 + 4 * lt.layers.length) lt.blocksPerUnit
    (t * (lt.unitGrid 1 * lt.unitGrid 2)) rec).length = rec.length * lt.metaSize := by
  unfold metaValues
  split_ifs
  · have hflat := flatten_batched (Nat.mul_pos ht h.pos) rec
    have hlen : ∀ part ∈ batched (t * (lt.unitGrid 1 * lt.unitGrid 2)) rec,
        (packMeta (8 + 4 * lt.layers.length) lt.blocksPerUnit part).length =
          part.length * lt.metaSize := fun part hp => by
      refine length_packMeta (fun r hr => h.row r ?_) h.lead
      rw [← hflat]
      exact List.mem_flatten.mpr ⟨part, hp, hr⟩
    rw [List.length_flatten, List.map_map]
    conv_rhs => rw [← hflat, List.length_flatten, ← List.sum_map_mul_right]
    exact congrArg List.sum (List.map_congr_left hlen)
  · exact length_flatten_rows h.row

/-- **Object `i` of the values are its records.** -/
theorem slice_metaValues {i : ℕ} (hi : i < ceildiv (lt.unitGrid 0) t) :
    slice (metaValues compress (8 + 4 * lt.layers.length) lt.blocksPerUnit
      (t * (lt.unitGrid 1 * lt.unitGrid 2)) rec) (i * objectSize lt t) ((i + 1) * objectSize lt t) =
        packPart compress lt (objectRecords lt t rec i) := by
  rw [metaValues_eq h ht]
  have hsize : objectSize lt t = t * (lt.unitGrid 1 * lt.unitGrid 2) * lt.metaSize := by
    rw [objectSize, Nat.mul_assoc t]
  have hlen : ∀ j, (packPart compress lt (objectRecords lt t rec j)).length =
      min t (lt.unitGrid 0 - j * t) * (lt.unitGrid 1 * lt.unitGrid 2) * lt.metaSize := fun j => by
    rw [length_packPart h compress mem_of_mem_objectRecords, length_objectRecords h]
  refine (slice_flatten_pieces (by rw [List.length_map, List.length_range]; exact hi)
    (fun j _ hj => ?_) fun r hr => ?_).trans (by rw [List.getElem_map, List.getElem_range])
  · -- an object that is not the last one is full
    rw [List.length_map, List.length_range] at hj
    rw [List.getElem_map, List.getElem_range, hlen, hsize, Nat.min_eq_left]
    have hcov : (j + 2) * t ≤ lt.unitGrid 0 + t - 1 :=
      (Nat.mul_le_mul_right t hj).trans (Nat.div_mul_le_self _ _)
    have h2 : (j + 2) * t = j * t + t + t := by ring
    omega
  · obtain ⟨j, -, rfl⟩ := List.mem_map.mp hr
    rw [hlen, hsize]
    exact Nat.mul_le_mul_right _ (Nat.mul_le_mul_right _ (Nat.min_le_left _ _))

end Records

/-! ### The readers -/

def writtenObjects (lt : Layout) (t : ℕ) (compress : Bool) : MetaObjects where
  tChunk := t
  rows := lt.unitGrid 1 * lt.unitGrid 2 * lt.metaSize
  count := ceildiv (lt.unitGrid 0) t
  packed := compress
  units := lt.unitGrid 0

theorem openObject_ok {κ : Type} {zstd : List UInt8 → Option (List UInt8)} {lt : Layout}
    {mo : MetaObjects} {i : ℕ} {data slab : List UInt8}
    (hun : (if mo.packed then (zstd data).map fun d => unpackRecords d lt
      (min mo.tChunk (mo.units - i * mo.tChunk) * mo.rows / lt.metaSize) else some data) = some slab)
    (hlen : slab.length = mo.size) :
    (openObject zstd lt mo i data : Except (QueryError κ) _) = .ok slab := by
  unfold openObject
  dsimp only
  rw [hun]
  dsimp only
  rw [if_neg (not_not.mpr hlen)]

section Readers
variable {κ : Type} [LinearOrder κ] {Z : Zarr} (hZ : ∀ x, Z.decompress (Z.compress x) = some x)
  {a : ZarrArray κ} {lt : Layout} {key : ℕ → κ} {t : ℕ} (ht : 0 < t) {compress : Bool}
  {rec : List (List UInt8)} (h : OfLayout lt rec)

omit [LinearOrder κ] in
theorem metaPacked_withMeta (get : κ → Option (List UInt8)) :
    metaPacked (withMeta Z a lt key t compress get) = .ok compress := by
  unfold metaPacked withMeta
  cases compress <;> rfl

omit [LinearOrder κ] in
include ht in
theorem metaObjects_withMeta (get : κ → Option (List UInt8)) :
    metaObjects (withMeta Z a lt key t compress get) lt =
      .ok (some (writtenObjects lt t compress)) := by
  unfold metaObjects
  rw [if_neg (by simp [withMeta]), if_neg (by simp [withMeta])]
  show (if t = 0 then _ else _) = _
  rw [if_neg ht.ne', metaPacked_withMeta]
  rfl

theorem putObjects_key (hkey : Function.Injective key) {i : ℕ} (hi : i < ceildiv (lt.unitGrid 0) t) :
    putObjects Z a lt key t compress rec (key i) = some (storedObject Z lt t compress rec i) := by
  have hfind : (List.range (ceildiv (lt.unitGrid 0) t)).find? (fun j => key j = key i) = some i := by
    rw [List.find?_range_eq_some]
    exact ⟨by simp, List.mem_range.mpr hi, fun j hj => by simp [hkey.eq_iff, hj.ne]⟩
  unfold putObjects
  rw [hfind]

variable (compress) in
include ht h in
theorem zarrObject_metaValues {i : ℕ} (hi : i < ceildiv (lt.unitGrid 0) t) :
    zarrObject (objectSize lt t) (metaValues compress (8 + 4 * lt.layers.length) lt.blocksPerUnit
      (t * (lt.unitGrid 1 * lt.unitGrid 2)) rec) i =
        packPart compress lt (objectRecords lt t rec i) ++ List.replicate (objectSize lt t -
          (objectRecords lt t rec i).length * lt.metaSize) 0 := by
  unfold zarrObject
  dsimp only
  rw [slice_metaValues h ht compress hi, length_packPart h compress mem_of_mem_objectRecords]

include hZ ht h in
/-- **An object read by its key** is unpacked to its records, with the zeros behind them. -/
theorem readMetaObject_written (hkey : Function.Injective key) {i : ℕ}
    (hi : i < ceildiv (lt.unitGrid 0) t) :
    readMetaObject Z.decompress (storeMeta Z a lt key t compress rec) lt (writtenObjects lt t compress) i =
      .ok ((objectRecords lt t rec i).flatten ++ List.replicate (objectSize lt t -
        (objectRecords lt t rec i).length * lt.metaSize) 0) := by
  have hlen : ∀ part : List UInt8, part.length = (objectRecords lt t rec i).length * lt.metaSize →
      (part ++ List.replicate (objectSize lt t -
        (objectRecords lt t rec i).length * lt.metaSize) (0 : UInt8)).length = objectSize lt t := by
    intro part hpart
    have hle : (objectRecords lt t rec i).length * lt.metaSize ≤ objectSize lt t := by
      rw [length_objectRecords h, objectSize, ← Nat.mul_assoc t]
      exact Nat.mul_le_mul_right _ (Nat.mul_le_mul_right _ (Nat.min_le_left _ _))
    rw [List.length_append, hpart, List.length_replicate]
    omega
  have hflat : (objectRecords lt t rec i).flatten.length =
      (objectRecords lt t rec i).length * lt.metaSize :=
    length_flatten_rows fun r hr => h.row r (mem_of_mem_objectRecords r hr)
  have hfetch : fetchObject (storeMeta Z a lt key t compress rec) i =
      .ok (storedObject Z lt t compress rec i) := by
    show (match putObjects Z a lt key t compress rec (key i) with
      | none => _
      | some data => _) = _
    rw [putObjects_key hkey hi]
  have hn : min t (lt.unitGrid 0 - i * t) * (writtenObjects lt t compress).rows / lt.metaSize =
      (objectRecords lt t rec i).length := by
    show _ * (lt.unitGrid 1 * lt.unitGrid 2 * lt.metaSize) / lt.metaSize = _
    rw [← Nat.mul_assoc, Nat.mul_div_cancel _ h.metaSize_pos, length_objectRecords h]
  have hobj : storedObject Z lt t compress rec i = if compress then
      Z.compress (packPart true lt (objectRecords lt t rec i) ++ List.replicate (objectSize lt t -
        (objectRecords lt t rec i).length * lt.metaSize) 0)
      else (objectRecords lt t rec i).flatten ++ List.replicate (objectSize lt t -
        (objectRecords lt t rec i).length * lt.metaSize) 0 := by
    unfold storedObject
    dsimp only
    rw [zarrObject_metaValues ht compress h hi]
    cases compress <;> rfl
  unfold readMetaObject
  rw [hfetch, hobj]
  refine openObject_ok ?_ (hlen _ hflat)
  cases compress with
  | false => rfl
  | true =>
    show (Z.decompress (Z.compress _)).map _ = _
    rw [hZ, Option.map_some]
    exact congrArg some ((congrArg _ hn).trans (unpackRecords_packPart h mem_of_mem_objectRecords _))

variable (compress) in
include ht h in
theorem length_values : (metaValues compress (8 + 4 * lt.layers.length) lt.blocksPerUnit
      (t * (lt.unitGrid 1 * lt.unitGrid 2)) rec).length =
        lt.unitGrid 0 * (lt.unitGrid 1 * lt.unitGrid 2 * lt.metaSize) ∧
    lt.unitGrid 0 * (lt.unitGrid 1 * lt.unitGrid 2 * lt.metaSize) ≤
      ceildiv (lt.unitGrid 0) t * objectSize lt t := by
  refine ⟨by rw [length_metaValues h ht, h.length, Nat.mul_assoc], ?_⟩
  have hcov : lt.unitGrid 0 ≤ ceildiv (lt.unitGrid 0) t * t := by
    have := Nat.div_add_mod (lt.unitGrid 0 + t - 1) t
    have := Nat.mod_lt (lt.unitGrid 0 + t - 1) ht
    unfold ceildiv
    rw [Nat.mul_comm]
    omega
  rw [objectSize, ← Nat.mul_assoc (ceildiv _ _)]
  exact Nat.mul_le_mul_right _ hcov

include ht h in
/-- The objects of records that are not packed, put together and cut back, are the records. -/
theorem flatten_objects : (((List.range (ceildiv (lt.unitGrid 0) t)).map fun i =>
    (objectRecords lt t rec i).flatten ++ List.replicate (objectSize lt t -
      (objectRecords lt t rec i).length * lt.metaSize) 0).flatten).take
        (lt.unitGrid 0 * (lt.unitGrid 1 * lt.unitGrid 2 * lt.metaSize)) = rec.flatten := by
  obtain ⟨hlen, hle⟩ := length_values ht false h
  have hS : 0 < objectSize lt t := Nat.mul_pos ht (Nat.mul_pos h.pos h.metaSize_pos)
  have hobjects : ((List.range (ceildiv (lt.unitGrid 0) t)).map fun i =>
      (objectRecords lt t rec i).flatten ++ List.replicate (objectSize lt t -
        (objectRecords lt t rec i).length * lt.metaSize) 0) =
      (List.range (ceildiv (lt.unitGrid 0) t)).map (zarrObject (objectSize lt t) (metaValues false
        (8 + 4 * lt.layers.length) lt.blocksPerUnit (t * (lt.unitGrid 1 * lt.unitGrid 2)) rec)) :=
    List.map_congr_left fun i hi => (zarrObject_metaValues ht false h (List.mem_range.mp hi)).symm
  rw [hobjects, ← hlen, flatten_zarrObject hS (hlen.trans_le hle)]
  rfl

include hZ ht h in
theorem returns_readMeta (hkey : Function.Injective key) {E : Env} (hE : E.zstd = Z.decompress)
    {opts : QueryOptions} {st : Setup} (hlt : st.lt = lt)
    (hmo : (st.mo.filter fun _ => opts.metaByKey) = some (writtenObjects lt t compress)) :
    (readMeta E (storeMeta Z a lt key t compress rec) opts st).Returns fun m => m.1 = rec.flatten := by
  have hzone : ∀ i ∈ List.range (ceildiv (lt.unitGrid 0) t), ∃ n,
      (metaWork Z.decompress (storeMeta Z a lt key t compress rec) lt
        (writtenObjects lt t compress)).evalZone i = .ok (((objectRecords lt t rec i).flatten ++
          List.replicate (objectSize lt t - (objectRecords lt t rec i).length * lt.metaSize) 0, n),
            []) := by
    intro i hi
    have hread : readMetaObject Z.decompress (storeMeta Z a lt key t compress rec) lt
        (writtenObjects lt t compress) i = .ok _ :=
      readMetaObject_written hZ ht h hkey (List.mem_range.mp hi)
    unfold readMetaObject at hread
    cases hdata : fetchObject (storeMeta Z a lt key t compress rec) i with
    | error e => rw [hdata] at hread; cases hread
    | ok data =>
      refine ⟨data.length, evalZone_ok.mpr ⟨?_, rfl⟩⟩
      rw [hdata, Except.bind] at hread
      have hresult : (metaWork Z.decompress (storeMeta Z a lt key t compress rec) lt
          (writtenObjects lt t compress)).zoneResult i =
          (fetchObject (storeMeta Z a lt key t compress rec) i).bind fun data =>
            (openObject Z.decompress lt (writtenObjects lt t compress) i data).map fun slab =>
              (slab, data.length) := rfl
      rw [hresult, hdata, Except.bind, hread]
      rfl
  choose! n hn using hzone
  unfold readMeta
  rw [hmo]
  dsimp only
  rw [hE, hlt]
  refine returns_zones (mapM_ok hn) fun peak => returns_done rfl ?_
  unfold joinObjects
  rw [List.map_map, List.map_map]
  exact flatten_objects ht h

include h in
theorem unpack_parts (ht : 0 < t) : ((List.range (ceildiv (lt.unitGrid 0 *
    (lt.unitGrid 1 * lt.unitGrid 2 * lt.metaSize)) (objectSize lt t))).map fun i =>
      unpackRecords (slice (metaValues true (8 + 4 * lt.layers.length) lt.blocksPerUnit
        (t * (lt.unitGrid 1 * lt.unitGrid 2)) rec) (i * objectSize lt t) ((i + 1) * objectSize lt t)) lt
        ((slice (metaValues true (8 + 4 * lt.layers.length) lt.blocksPerUnit
          (t * (lt.unitGrid 1 * lt.unitGrid 2)) rec) (i * objectSize lt t)
            ((i + 1) * objectSize lt t)).length / lt.metaSize)).flatten = rec.flatten := by
  have hcount : ceildiv (lt.unitGrid 0 * (lt.unitGrid 1 * lt.unitGrid 2 * lt.metaSize))
      (objectSize lt t) = ceildiv (lt.unitGrid 0) t :=
    ceildiv_mul (Nat.mul_pos h.pos h.metaSize_pos)
  have hplain := metaValues_eq h ht false
  rw [hcount]
  refine (congrArg List.flatten (List.map_congr_left fun i hi => ?_)).trans hplain.symm
  rw [slice_metaValues h ht true (List.mem_range.mp hi),
    length_packPart h true mem_of_mem_objectRecords, Nat.mul_div_cancel _ h.metaSize_pos]
  have hpart : unpackRecords (packPart true lt (objectRecords lt t rec i) ++ []) lt
      (objectRecords lt t rec i).length = (objectRecords lt t rec i).flatten ++ [] :=
    unpackRecords_packPart h mem_of_mem_objectRecords []
  rwa [List.append_nil, List.append_nil] at hpart

include hZ ht h in
theorem readMetaZarr_written (hkey : Function.Injective key) :
    ∃ m, readMetaZarr (storeMeta Z a lt key t compress rec) lt = .ok m ∧ m.1 = rec.flatten := by
  obtain ⟨hlen, hle⟩ := length_values ht compress h
  have hS : 0 < objectSize lt t := Nat.mul_pos ht (Nat.mul_pos h.pos h.metaSize_pos)
  have hobjects : (List.range (ceildiv (lt.unitGrid 0) t)).mapM
      (openObjectAt Z lt key t compress (putObjects Z a lt key t compress rec)) =
        (.ok ((List.range (ceildiv (lt.unitGrid 0) t)).map (zarrObject (objectSize lt t) (metaValues
          compress (8 + 4 * lt.layers.length) lt.blocksPerUnit
            (t * (lt.unitGrid 1 * lt.unitGrid 2)) rec))) : Except (QueryError κ) _) := by
    refine mapM_ok fun i hi => ?_
    unfold openObjectAt
    rw [putObjects_key hkey (List.mem_range.mp hi)]
    unfold storedObject
    cases compress with
    | false => rfl
    | true =>
      show (match Z.decompress (Z.compress _) with
        | none => _
        | some x => _) = _
      rw [hZ]
  have hopen : (storeMeta Z a lt key t compress rec).metaArray =
      openArray Z lt key t compress (putObjects Z a lt key t compress rec) := rfl
  unfold readMetaZarr
  rw [hopen]
  unfold openArray
  rw [hobjects, Except.map]
  dsimp only
  rw [if_neg (not_not.mpr rfl), storeMeta, metaPacked_withMeta, Except.map]
  rw [← hlen, flatten_zarrObject hS (hlen.trans_le hle)]
  cases compress with
  | false => exact ⟨_, rfl, rfl⟩
  | true =>
    have hstep : [t, lt.unitGrid 1, lt.unitGrid 2, lt.metaSize].headD 0 *
        (lt.unitGrid 1 * lt.unitGrid 2) * lt.metaSize = objectSize lt t := by
      rw [List.headD_cons, objectSize, Nat.mul_assoc t]
    refine ⟨_, rfl, ?_⟩
    rw [if_pos rfl, hstep, hlen]
    exact unpack_parts h ht

end Readers

/-! ### The round trip -/

section RoundTrip
variable {fl : ℚ → ℚ} {nat : Native F32} {c : SkipZFPCodec} {shape chunk : Tri} {data : Tri → F32}
  {rec : List (List UInt8)}

theorem metaRecords_of_writeMeta {zm : List UInt8} (h : writeMeta fl nat c shape chunk data = .ok zm) :
    ∃ rec, metaRecords fl nat c shape chunk data = .ok rec ∧ zm = rec.flatten := by
  unfold writeMeta at h
  dsimp only at h
  split_ifs at h
  unfold metaRecords
  split at h
  · cases h
  · rename_i rows hrows
    cases h
    exact ⟨rows, hrows, rfl⟩

theorem writeMeta_of_metaRecords (hs : ∀ d, shape d % chunk d = 0)
    (h : metaRecords fl nat c shape chunk data = .ok rec) :
    writeMeta fl nat c shape chunk data = .ok rec.flatten := by
  unfold metaRecords at h
  unfold writeMeta
  rw [if_neg (by simpa using hs)]
  dsimp only
  rw [h]

theorem unitGrid_pos (hc : c.ChunkOk chunk) (hpos : ∀ i, 0 < shape i) {lt : Layout}
    (hlt : getLayout c shape chunk = .ok lt) :
    lt.unitGrid = outer (c.unit chunk) shape ∧ ∀ i, 0 < lt.unitGrid i := by
  obtain ⟨hs, size, rfl⟩ := getLayout_ok hlt
  have hgrid : (layoutOf c shape chunk size).unitGrid = outer (c.unit chunk) shape :=
    units_planArgs hc hs
  refine ⟨hgrid, fun i => ?_⟩
  have hdvd : c.unit chunk i ∣ shape i :=
    (Nat.dvd_of_mod_eq_zero (hc.unit i)).trans (Nat.dvd_of_mod_eq_zero (hs i))
  rw [hgrid]
  exact Nat.div_pos (Nat.le_of_dvd (hpos i) hdvd) (hc.unit_pos i)

theorem ofLayout_metaRecords (hc : c.ChunkOk chunk) (hpos : ∀ i, 0 < shape i) {lt : Layout}
    (hlt : getLayout c shape chunk = .ok lt) (hrec : metaRecords fl nat c shape chunk data = .ok rec) :
    OfLayout lt rec := by
  obtain ⟨hgrid, hunits⟩ := unitGrid_pos hc hpos hlt
  obtain ⟨hs, size, rfl⟩ := getLayout_ok hlt
  obtain ⟨hlen, hget⟩ := getElem?_mapM_ok hrec
  refine ⟨?_, fun r hr => ?_, ?_, ?_⟩
  · rw [hlen, length_indices, hgrid, volume, Nat.mul_assoc]
  · obtain ⟨k, hk, rfl⟩ := List.getElem_of_mem hr
    have hk' : k < (indices (outer (c.unit chunk) shape)).length := by omega
    obtain ⟨r', hr', hone⟩ := hget k _ (List.getElem?_eq_getElem hk')
    rw [List.getElem?_eq_getElem hk] at hr'
    cases hr'
    exact length_writeMetaOne hone
  · show 8 + 4 * c.layers.length + 2 * volume (blocksOf (c.unit chunk)) ≤ metaSize c (c.unit chunk)
    unfold metaSize
    dsimp only
    omega
  · exact Nat.mul_pos (hunits 1) (hunits 2)

/-- **Every reader returns the records that were written**, in C order of the units: reading all objects
by their keys, in any order, opening the zone map as an array, and reading one object alone. For every
codec, every array of whole chunks, all records, any number of units in an object, packed or not. -/
theorem zone_map_round_trip {κ : Type} [LinearOrder κ] {Z : Zarr}
    (hZ : ∀ x, Z.decompress (Z.compress x) = some x) {E : Env} (hE : E.zstd = Z.decompress)
    {a : ZarrArray κ} {l : List ℕ} (hchunk : a.codec.chunkShape l = .ok a.chunk)
    (hpos : ∀ i, 0 < a.shape i) {lt : Layout} (hlt : getLayout a.codec a.shape a.chunk = .ok lt)
    {key : ℕ → κ} (hkey : Function.Injective key)
    (hrec : metaRecords fl nat a.codec a.shape a.chunk data = .ok rec) (arg : Option ℕ)
    (harg : ∀ t ∈ arg, 0 < t) (compress : Bool) :
    ∃ mo, metaObjects (storeMeta Z a lt key (tChunkOf arg lt.unitGrid lt.metaSize) compress rec) lt =
        .ok (some mo) ∧
      (∀ opts layer, (readMeta E (storeMeta Z a lt key (tChunkOf arg lt.unitGrid lt.metaSize) compress
        rec) opts ⟨lt, layer, some mo⟩).Always fun m => m.1 = rec.flatten) ∧
      (∃ m, readMetaZarr (storeMeta Z a lt key (tChunkOf arg lt.unitGrid lt.metaSize) compress rec) lt =
        .ok m ∧ m.1 = rec.flatten) ∧
      ∀ i < mo.count, ∃ data, readMetaObject E.zstd (storeMeta Z a lt key
          (tChunkOf arg lt.unitGrid lt.metaSize) compress rec) lt mo i = .ok data ∧
        data.take (min mo.tChunk (lt.unitGrid 0 - i * mo.tChunk) * mo.rows) =
          (objectRecords lt mo.tChunk rec i).flatten := by
  have hc := a.codec.chunkOk_of_chunkShape hchunk
  have h := ofLayout_metaRecords hc hpos hlt hrec
  have ht : 0 < tChunkOf arg lt.unitGrid lt.metaSize := by
    have hgrid := (unitGrid_pos hc hpos hlt).2 0
    unfold tChunkOf
    cases arg with
    | none => rw [Option.getD_none]; omega
    | some t => have := harg t rfl; rw [Option.getD_some]; omega
  generalize tChunkOf arg lt.unitGrid lt.metaSize = t at ht ⊢
  have hzarr : ∃ m, readMetaZarr (storeMeta Z a lt key t compress rec) lt = .ok m ∧ m.1 = rec.flatten :=
    readMetaZarr_written hZ ht h hkey
  obtain ⟨m, hm, hrows⟩ := hzarr
  refine ⟨writtenObjects lt t compress, metaObjects_withMeta ht _, fun opts layer => ?_, ⟨m, hm, hrows⟩,
    fun i hi => ⟨_, by rw [hE]; exact readMetaObject_written hZ ht h hkey hi, ?_⟩⟩
  · refine always_of_returns ?_
    by_cases hby : opts.metaByKey = true
    · exact returns_readMeta hZ ht h hkey hE rfl (by simp [hby])
    · have hzarr : readMeta E (storeMeta Z a lt key t compress rec) opts
          ⟨lt, layer, some (writtenObjects lt t compress)⟩ =
            .done (readMetaZarr (storeMeta Z a lt key t compress rec) lt) := by
        unfold readMeta
        simp [hby]
      rw [hzarr]
      exact returns_done hm hrows
  · refine List.take_left' ?_
    rw [length_flatten_rows fun r hr => h.row r (mem_of_mem_objectRecords r hr), length_objectRecords h]
    exact Nat.mul_assoc _ _ _

end RoundTrip

/-- A compressor that puts a mark before the bytes. -/
def markFirst : Zarr where
  compress l := 40 :: l
  decompress l := if l.head? = some 40 then some l.tail else none
  jsonBytes := 0

theorem getLayout_ofTwo :
    getLayout arrayOfTwo.codec arrayOfTwo.shape arrayOfTwo.chunk = .ok setupOfTwo.lt := by
  have hsize : volume (blocksOf ![4, 4, 8]) * blockBytes oneLayer.rate = 16 := by decide +kernel
  have h : getLayout oneLayer ![4, 4, 8] ![4, 4, 8] = .ok _ :=
    getLayout_eq (oneLayer.chunkOk_of_chunkShape chunkShape_oneLayer) (by decide) (by decide)
  rwa [hsize] at h

/-- The zone map of an array of two units, packed, as each of the three readers returns it. -/
theorem zone_map_round_trip_ofTwo : ∃ rec mo,
    metaRecords id (firstValue F32.bytes F32.ofBytes) oneLayer ![4, 4, 8] ![4, 4, 8]
        (fun _ => F32.ofBytes [0, 0, 128, 63]) = .ok rec ∧
      metaObjects (storeMeta markFirst arrayOfTwo setupOfTwo.lt id 1 true rec) setupOfTwo.lt =
        .ok (some mo) ∧
      (readMeta { envOfTwo with zstd := markFirst.decompress }
        (storeMeta markFirst arrayOfTwo setupOfTwo.lt id 1 true rec) optionsOfTwo
          ⟨setupOfTwo.lt, 0, some mo⟩).Always (fun m => m.1 = rec.flatten) ∧
      (∃ m, readMetaZarr (storeMeta markFirst arrayOfTwo setupOfTwo.lt id 1 true rec) setupOfTwo.lt =
        .ok m ∧ m.1 = rec.flatten) ∧
      ∀ i < mo.count, ∃ data, readMetaObject markFirst.decompress
          (storeMeta markFirst arrayOfTwo setupOfTwo.lt id 1 true rec) setupOfTwo.lt mo i = .ok data ∧
        data.take (min mo.tChunk (setupOfTwo.lt.unitGrid 0 - i * mo.tChunk) * mo.rows) =
          (objectRecords setupOfTwo.lt mo.tChunk rec i).flatten := by
  have hwrite : ∃ zm, writeMeta id (firstValue F32.bytes F32.ofBytes) oneLayer ![4, 4, 8] ![4, 4, 8]
      (fun _ => F32.ofBytes [0, 0, 128, 63]) = .ok zm := exists_writeMeta oneLayer rfl (by decide) _ _ _
  obtain ⟨zm, hzm⟩ := hwrite
  obtain ⟨rec, hrec, -⟩ := metaRecords_of_writeMeta hzm
  obtain ⟨mo, hmo, hbyKey, hzarr, hone⟩ := zone_map_round_trip (Z := markFirst)
    (fun x => rfl) (E := { envOfTwo with zstd := markFirst.decompress }) rfl (a := arrayOfTwo)
    chunkShape_oneLayer (by decide) getLayout_ofTwo Function.injective_id hrec (some 1) (by simp) true
  exact ⟨rec, mo, hrec, hmo, hbyKey _ _, hzarr, hone⟩

end SkipZFP.Query.Written
