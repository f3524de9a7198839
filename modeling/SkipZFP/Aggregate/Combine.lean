import SkipZFP.Aggregate.Block

/-! # Combining the totals of the reads

`combine` makes the answer of an aggregate out of the totals of its reads, the exact one and the bounds
for the original values. -/

namespace SkipZFP.Aggregate.Combine

open SkipZFP.Lib.Double SkipZFP.Aggregate.Block

/-- `math.fsum`: the exact sum, rounded once. Infinities of both signs are an error, also beside a NaN. -/
def fsum (fl : ℚ → ℚ) (l : List Dbl) : Except String Dbl :=
  if .pinf ∈ l ∧ .ninf ∈ l then .error "-inf + inf in fsum"
  else if .nan ∈ l then .ok .nan
  else if .pinf ∈ l then .ok .pinf
  else if .ninf ∈ l then .ok .ninf
  else .ok (.fin (fl (l.map Dbl.toRat).sum))

/-- `min`, where a later item replaces an earlier one that is larger. -/
def pyMin (x y : Dbl) : Dbl := if y < x then y else x

/-- `max`. -/
def pyMax (x y : Dbl) : Dbl := if x < y then y else x

/-- The answer of an aggregate, exact and for the original values. -/
structure Combined where
  count : ℕ
  sum : Dbl
  mean : Option Dbl
  originalCount : ℕ × ℕ
  originalSum : Dbl × Dbl
  originalMean : Option (Dbl × Dbl)

section Combine
variable (A : Arith) (valuesPerBlock : ℕ)

def ofNat (n : ℕ) : Dbl := .fin (A.fl n)

/-- The rounding error that a read of `n` blocks may have. -/
def slackOf (p : SzAggregate × ℕ) : Dbl :=
  Dbl.mul A.fl (Dbl.mul A.fl (ofNat A (p.2 * valuesPerBlock + 2)) (.fin A.u)) p.1.absTotal

/-- The bounds of the mean, from the sums and counts of the sure and of the maybe values. -/
def meanBounds (sure maybe : ℕ) (sureLo sureHi maybeMin maybeMax : Dbl) : Option (Dbl × Dbl) :=
  if sure ≠ 0 then
    let loMean := A.down (Dbl.div A.fl sureLo (ofNat A sure))
    let hiMean := A.up (Dbl.div A.fl sureHi (ofNat A sure))
    if maybe ≠ 0 then
      let n := ofNat A (sure + maybe)
      some (pyMin loMean (A.down (Dbl.div A.fl (A.down (Dbl.add A.fl sureLo
          (A.down (Dbl.mul A.fl (ofNat A maybe) maybeMin)))) n)),
        pyMax hiMean (A.up (Dbl.div A.fl (A.up (Dbl.add A.fl sureHi
          (A.up (Dbl.mul A.fl (ofNat A maybe) maybeMax)))) n)))
    else some (loMean, hiMean)
  else if maybe ≠ 0 then some (maybeMin, maybeMax)
  else none

/-- **`combine`**, of the totals of every read with its number of blocks. -/
def combine (parts : List (SzAggregate × ℕ)) : Except String Combined := do
  let count := (parts.map fun p => p.1.recCount).sum
  let total ← fsum A.fl (parts.map fun p => p.1.recSum)
  let sure := (parts.map fun p => p.1.sureCount).sum
  let maybe := (parts.map fun p => p.1.maybeCount).sum
  let slack ← fsum A.fl (parts.map (slackOf A valuesPerBlock))
  let sureSumLo ← fsum A.fl (parts.map fun p => p.1.sureSumLo)
  let sureLo := Dbl.sub A.fl sureSumLo slack
  let sureSumHi ← fsum A.fl (parts.map fun p => p.1.sureSumHi)
  let sureHi := Dbl.add A.fl sureSumHi slack
  let maybeNeg ← fsum A.fl (parts.map fun p => p.1.maybeSumNeg)
  let maybePos ← fsum A.fl (parts.map fun p => p.1.maybeSumPos)
  let maybeMin := (parts.map fun p => p.1.maybeMin).foldl pyMin .pinf
  let maybeMax := (parts.map fun p => p.1.maybeMax).foldl pyMax .ninf
  .ok
    { count := count
      sum := total
      mean := if count ≠ 0 then some (Dbl.div A.fl total (ofNat A count)) else none
      originalCount := (sure, sure + maybe)
      originalSum := (A.down (Dbl.add A.fl sureLo maybeNeg), A.up (Dbl.add A.fl sureHi maybePos))
      originalMean := meanBounds A sure maybe sureLo sureHi maybeMin maybeMax }

end Combine

end SkipZFP.Aggregate.Combine
