import SkipZFP.Read.Stream

/-! # Aggregating blocks

`aggregateBlock` is the C function that adds one decoded block to the running totals of an aggregate, and
`aggregateOffsets` the one that does so for the blocks at given offsets of a buffer. Each original value
is within `eps` of its decoded value: it surely matches, may match, or does not. -/

namespace SkipZFP.Aggregate.Block

open SkipZFP.Lib.Grid SkipZFP.Lib.Rows SkipZFP.Lib.Double SkipZFP.Lib.Float32
open SkipZFP.Codec.Config SkipZFP.Plan.Classify SkipZFP.Plan.Blocks SkipZFP.Read.Stream

/-- The arithmetic of doubles: `bound` rounds `r - eps` and `r + eps`, `fl` all other results, `u` is
the unit roundoff `_U`, and `down` and `up` are the next doubles. -/
structure Arith where
  bound : ℚ → ℚ
  fl : ℚ → ℚ
  u : ℚ
  down : Dbl → Dbl
  up : Dbl → Dbl

/-- Arithmetic without rounding. -/
def Arith.exact : Arith where
  bound := id
  fl := id
  u := 0
  down := id
  up := id

/-- `SzAggregate`. -/
structure SzAggregate where
  recCount : ℕ
  recSum : Dbl
  sureCount : ℕ
  sureSumLo : Dbl
  sureSumHi : Dbl
  maybeCount : ℕ
  maybeSumNeg : Dbl
  maybeSumPos : Dbl
  maybeMin : Dbl
  maybeMax : Dbl
  absTotal : Dbl

/-- The totals before the first block. -/
def SzAggregate.init : SzAggregate where
  recCount := 0
  recSum := .fin 0
  sureCount := 0
  sureSumLo := .fin 0
  sureSumHi := .fin 0
  maybeCount := 0
  maybeSumNeg := .fin 0
  maybeSumPos := .fin 0
  maybeMin := .pinf
  maybeMax := .ninf
  absTotal := .fin 0

/-- `x > y ? x : y`. -/
def larger (x y : Dbl) : Dbl := if y < x then x else y

/-- `x < y ? x : y`. -/
def smaller (x y : Dbl) : Dbl := if x < y then x else y

section Block
variable (A : Arith) (eps : Dbl) (inBlock : Bool) (lo hi : Dbl)

/-- What the value `v` adds to the exact totals. -/
def addRec (acc : SzAggregate) (v : F32) : SzAggregate :=
  if inBlock ∨ InRange lo hi v.val then
    { acc with
      recCount := acc.recCount + 1
      recSum := Dbl.add A.fl acc.recSum v.val }
  else acc

/-- What the value `v` adds to the bounds: the original value matches and lies in `[a, b]` within the
range, or may match and then lies in the range and in `[a, b]`. -/
def addOriginal (acc : SzAggregate) (v : F32) : SzAggregate :=
  let a := Dbl.sub A.bound v.val eps
  let b := Dbl.add A.bound v.val eps
  if inBlock ∨ (lo < a ∧ b ≤ hi) then
    { acc with
      sureCount := acc.sureCount + 1
      sureSumLo := Dbl.add A.fl acc.sureSumLo (larger a lo)
      sureSumHi := Dbl.add A.fl acc.sureSumHi (smaller b hi) }
  else if ¬ (b ≤ lo ∨ hi < a) then
    let low := larger a lo
    let high := smaller b hi
    { acc with
      maybeCount := acc.maybeCount + 1
      maybeSumNeg := Dbl.add A.fl acc.maybeSumNeg (smaller low (.fin 0))
      maybeSumPos := Dbl.add A.fl acc.maybeSumPos (larger high (.fin 0))
      maybeMin := if low < acc.maybeMin then low else acc.maybeMin
      maybeMax := if acc.maybeMax < high then high else acc.maybeMax }
  else acc

/-- The body of the loop of `aggregate_block`. -/
def addValue (acc : SzAggregate) (v : F32) : SzAggregate :=
  addOriginal A eps inBlock lo hi (addRec A inBlock lo hi { acc with
    absTotal := Dbl.add A.fl acc.absTotal (Dbl.add A.fl (Dbl.abs v.val) eps) } v) v

/-- **`aggregate_block`**. -/
def aggregateBlock (acc : SzAggregate) (v : List F32) : SzAggregate :=
  v.foldl (addValue A eps inBlock lo hi) acc

end Block

/-- What `szfp_aggregate_offsets_range` gets for each block: its offset, its bound and the IN flag. -/
structure Item where
  offset : ℕ
  eps : F32
  inBlock : Bool

/-- The checks of the items, one after another. -/
def checkItems (bufSize blockNbytes : ℕ) : List Item → Except SzError Unit
  | [] => .ok ()
  | x :: items =>
    if bufSize < x.offset ∨ bufSize - x.offset < blockNbytes then .error .SZ_ERR_SIZE
    else if ¬ (.fin 0 ≤ x.eps.val) ∨ x.eps.val = .pinf then .error .SZ_ERR_ARG
    else checkItems bufSize blockNbytes items

/-- **`szfp_aggregate_offsets_range`**. -/
def aggregateOffsets (decode : ℚ → List UInt8 → Values) (A : Arith) (buf : List UInt8)
    (items : List Item) (blockNbytes : ℕ) (rate : ℚ) (blockDim : ℕ) (lo hi : Dbl) :
    Except SzError SzAggregate :=
  if items = [] then .ok .init
  else
    match blockLayout blockDim rate with
    | none => .error .SZ_ERR_ARG
    | some (nval, needBytes) =>
      if 64 < nval ∨ blockDim ≠ 4 then .error .SZ_ERR_ARG
      else if blockNbytes ≠ needBytes then .error .SZ_ERR_SIZE
      else (checkItems buf.length blockNbytes items).map fun _ =>
        items.foldl (fun acc x => aggregateBlock A x.eps.val x.inBlock lo hi acc
          (List.ofFn (decode rate (slice buf x.offset (x.offset + blockNbytes))))) .init

end SkipZFP.Aggregate.Block
