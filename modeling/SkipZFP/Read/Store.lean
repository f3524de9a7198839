import SkipZFP.Plan.Shapes

/-! # Arrays and their stores

What a query is given: an array with its codec, shapes and attributes, and the store its objects are
in. Zarr itself is not modelled: `get` returns an object, `chunkKey` and `metaKey` are the keys of the
chunks and of the zone map objects, and `metaArray` is what opening the zone map as an array returns. -/

namespace SkipZFP.Read.Store

open SkipZFP.Lib.Grid SkipZFP.Lib.Rows SkipZFP.Codec.Config SkipZFP.Plan.Blocks SkipZFP.Plan.Shapes

deriving instance DecidableEq for SkipZFPCodec

/-- What a query raises. `order` is the `RuntimeError` of `_read_listed`, `layout` any error of
`get_layout`. -/
inductive QueryError (κ : Type*) where
  | ValueError (msg : String)
  | FileNotFoundError (key : κ)
  | OSError (key : κ) (got want : ℕ)
  | RuntimeError (name : String) (code : SzError)
  | order (msg : String)
  | zstd
  | ZeroDivisionError
  | layout (msg : String)

/-- What the zone map was built from, as `check_source` reads it. -/
structure MetaSource where
  codec : SkipZFPCodec
  shape : Tri
  chunks : Tri
deriving DecidableEq

/-- The zone map opened as an array: its shape and chunks, its values in C order, its stored bytes. -/
structure MetaArray where
  shape : List ℕ
  chunks : List ℕ
  values : List UInt8
  nbytesStored : ℕ

/-- An array opened for reading. `metaKey` is `none` without the attribute `skipzfp_meta`. -/
structure ZarrArray (κ : Type*) where
  codec : SkipZFPCodec
  shape : Tri
  chunk : Tri
  get : κ → Option (List UInt8)
  chunkKey : Tri → κ
  metaKey : Option (ℕ → κ)
  source : Option MetaSource
  tChunk : Option ℕ
  packing : Option String
  metaArray : Except (QueryError κ) MetaArray

section
variable {κ : Type*}

/-- `keys[cid]`: the key of a chunk, chunks in C order. -/
def ZarrArray.keyOf (a : ZarrArray κ) (lt : Layout) (cid : ℕ) : κ :=
  a.chunkKey (unravel lt.gridShape cid)

/-- `_Range`. -/
structure Range (κ : Type*) where
  key : κ
  start : ℕ
  stop : ℕ

/-- **`read_one`**, once it has its permit. A store returns what an object has of a byte range. -/
def readOne (a : ZarrArray κ) (req : Range κ) : Except (QueryError κ) (List UInt8) :=
  match a.get req.key with
  | none => .error (.FileNotFoundError req.key)
  | some obj =>
    let data := slice obj req.start req.stop
    let want := req.stop - req.start
    if data.length ≠ want then .error (.OSError req.key data.length want) else .ok data

/-- `check(code, name)`. -/
def checked {α : Type*} (name : String) : Except SzError α → Except (QueryError κ) α
  | .ok x => .ok x
  | .error code => .error (.RuntimeError name code)

theorem readOne_eq {a : ZarrArray κ} {req : Range κ} {obj : List UInt8} (h : a.get req.key = some obj)
    (hstop : req.stop ≤ obj.length) : readOne a req = .ok (slice obj req.start req.stop) := by
  unfold readOne
  rw [h]
  dsimp only
  rw [if_neg (not_not.mpr (length_slice hstop))]

end

end SkipZFP.Read.Store
