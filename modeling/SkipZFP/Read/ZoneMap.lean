import SkipZFP.Codec.Packing
import SkipZFP.Read.Budget
import SkipZFP.Read.Store

/-! # Reading the zone map

The zone map is stored in objects of `tChunk` rows of units, the last one padded. `metaObjects` says
where they are, `fetchObject` and `openObject` are the two halves of `read_meta_object`, before and
after the semaphore is given back, and `readMetaZarr` reads the zone map as an array instead. -/

namespace SkipZFP.Read.ZoneMap

open SkipZFP.Lib.Grid SkipZFP.Lib.Rows SkipZFP.Codec.Packing SkipZFP.Plan.Shapes
open SkipZFP.Read.Budget SkipZFP.Read.Store

variable {κ : Type*}

/-- `_MetaObjects`. -/
structure MetaObjects where
  tChunk : ℕ
  rows : ℕ
  count : ℕ
  packed : Bool
  units : ℕ

def MetaObjects.size (mo : MetaObjects) : ℕ := mo.tChunk * mo.rows

/-- `meta_packed`. -/
def metaPacked (a : ZarrArray κ) : Except (QueryError κ) Bool :=
  match a.packing with
  | none => .ok false
  | some p =>
    if p = "planar-zstd" then .ok true else .error (.ValueError s!"unknown zone map packing '{p}'")

/-- **`meta_objects`**; `none` for an array that does not record `t_chunk`. -/
def metaObjects (a : ZarrArray κ) (lt : Layout) : Except (QueryError κ) (Option MetaObjects) :=
  if a.metaKey.isNone then .error (.ValueError "array has no metadata; run codec.write_meta first")
  else if a.source.any fun s => s ≠ ⟨a.codec, a.shape, a.chunk⟩ then
    .error (.ValueError ("the zone map was built for another codec, shape or chunk layout; " ++
      "run write_meta again"))
  else
    match a.tChunk with
    | none => .ok none
    | some t =>
      -- `ceildiv` divides by `t`
      if t = 0 then .error .ZeroDivisionError
      else (metaPacked a).map fun packed => some
        { tChunk := t
          rows := lt.unitGrid 1 * lt.unitGrid 2 * lt.metaSize
          count := ceildiv (lt.unitGrid 0) t
          packed := packed
          units := lt.unitGrid 0 }

/-- `unpack_records`. -/
def unpackRecords (data : List UInt8) (lt : Layout) (nRecords : ℕ) : List UInt8 :=
  let size := nRecords * lt.metaSize
  (unpackMeta lt.metaSize (8 + 4 * lt.layers.length) lt.blocksPerUnit (data.take size)).flatten ++
    data.drop size

section Objects
variable (zstd : List UInt8 → Option (List UInt8)) (a : ZarrArray κ) (lt : Layout) (mo : MetaObjects)

/-- The read of object `i`. -/
def fetchObject (i : ℕ) : Except (QueryError κ) (List UInt8) :=
  match a.metaKey with
  | none => .error (.ValueError "array has no metadata; run codec.write_meta first")
  | some key =>
    match a.get (key i) with
    | none => .error (.FileNotFoundError (key i))
    | some data => .ok data

/-- What `read_meta_object` makes of the bytes it read. -/
def openObject (i : ℕ) (data : List UInt8) : Except (QueryError κ) (List UInt8) :=
  let unpacked :=
    if mo.packed then
      let n := min mo.tChunk (mo.units - i * mo.tChunk) * mo.rows / lt.metaSize
      (zstd data).map fun d => unpackRecords d lt n
    else some data
  match unpacked with
  | none => .error .zstd
  | some data =>
    if data.length ≠ mo.size then
      .error (.ValueError (s!"metadata object {i} has {data.length} bytes, which does not match " ++
        s!"the array layout ({mo.size} bytes)"))
    else .ok data

/-- **`read_meta_object`**. -/
def readMetaObject (i : ℕ) : Except (QueryError κ) (List UInt8) :=
  (fetchObject a i).bind (openObject zstd lt mo i)

/-- The tasks of `read_meta`, which start no reads: the objects, each with its stored size. -/
def metaWork : Work ℕ Empty (List UInt8) (List UInt8 × ℕ) Unit (QueryError κ) where
  readZone := fetchObject a
  plan i data := (openObject zstd lt mo i data).map fun slab => (slab, data.length)
  reads _ := []
  size := Empty.elim
  read := Empty.elim
  decode r _ := r.elim
  limit := none

/-- What `read_meta` returns once all objects are in their slots: the zone map without the padding, its
stored size and the number of objects. -/
def joinObjects (slabs : List (List UInt8 × ℕ)) : List UInt8 × ℕ × ℕ :=
  ((slabs.map Prod.fst).flatten.take (lt.unitGrid 0 * mo.rows), (slabs.map Prod.snd).sum, mo.count)

end Objects

/-- **`read_meta_zarr`**. -/
def readMetaZarr (a : ZarrArray κ) (lt : Layout) : Except (QueryError κ) (List UInt8 × ℕ × ℕ) :=
  match a.metaArray with
  | .error e => .error e
  | .ok z =>
    if z.shape ≠ [lt.unitGrid 0, lt.unitGrid 1, lt.unitGrid 2, lt.metaSize] then
      .error (.ValueError s!"metadata shape {z.shape} does not match the array layout")
    else
      let nObj := (List.zipWith ceildiv z.shape z.chunks).prod
      (metaPacked a).map fun packed =>
        if packed then
          let step := z.chunks.headD 0 * (lt.unitGrid 1 * lt.unitGrid 2) * lt.metaSize
          let parts := (List.range (ceildiv z.values.length step)).map fun i =>
            let part := slice z.values (i * step) ((i + 1) * step)
            unpackRecords part lt (part.length / lt.metaSize)
          (parts.flatten, z.nbytesStored, nObj)
        else (z.values, z.values.length, nObj)

end SkipZFP.Read.ZoneMap
