import Mathlib.Logic.Relation
import SkipZFP.Decode.Count

/-! # The fast decoder stays in bounds

`step` goes through `decode_planes` and `decode_planes_bmi2` from one loop head to the next, and checks
what C does not: that a peek is inside the buffer, that a shift is below 64, that an unsigned difference
or sum does not wrap and that a plane is written inside the array.

* `Inv`: what ties the counters together at a loop head.
* `step_plane`, `step_window`, `step_tests`, `step_scan`: **no check fails**, and a step keeps the
  invariant and the planes that will be returned.
* `fast_decoder_in_bounds`: **every run on every block ends without a fault**, with the planes of
  `decodePlanes`. -/

namespace SkipZFP.Decode.Bounds

open SkipZFP.Lib.Rows SkipZFP.Lib.Words SkipZFP.Decode.Planes SkipZFP.Decode.Bmi2 SkipZFP.Decode.Count

/-! ### Machines -/

section Machine
variable {P F : Type} {step : P → Except F (Option P)}

/-- One step of a machine that can fault or halt. -/
def Next (step : P → Except F (Option P)) (p q : P) : Prop := step p = .ok (some q)

/-- **What every step keeps** holds in every state that is reached. No step faults, there is no endless
run, and some run halts. -/
theorem run_of_step {I : P → Prop} {μ : P → ℕ}
    (hstep : ∀ p, I p → step p = .ok none ∨ ∃ q, step p = .ok (some q) ∧ I q ∧ μ q < μ p) {p : P}
    (hp : I p) : (∀ q, Relation.ReflTransGen (Next step) p q → I q ∧ ∃ o, step q = .ok o) ∧
      Acc (flip (Next step)) p ∧ ∃ q, Relation.ReflTransGen (Next step) p q ∧ step q = .ok none := by
  have hnext : ∀ p q, I p → Next step p q → I q ∧ μ q < μ p := by
    intro p q hI h
    rcases hstep p hI with hnone | ⟨q', hq', hI', hlt⟩
    · cases hnone.symm.trans h
    · obtain rfl := Option.some.inj (Except.ok.inj (hq'.symm.trans h))
      exact ⟨hI', hlt⟩
  refine ⟨?_, ?_, ?_⟩
  · intro q hq
    have hI : I q := by
      induction hq with
      | refl => exact hp
      | tail _ h ih => exact (hnext _ _ ih h).1
    rcases hstep q hI with hnone | ⟨q', hq', -⟩
    · exact ⟨hI, _, hnone⟩
    · exact ⟨hI, _, hq'⟩
  · induction hμ : μ p using Nat.strong_induction_on generalizing p with
    | _ m ih =>
      refine ⟨p, fun q hq => ?_⟩
      obtain ⟨hI, hlt⟩ := hnext p q hp hq
      exact ih (μ q) (by omega) hI rfl
  · induction hμ : μ p using Nat.strong_induction_on generalizing p with
    | _ m ih =>
      rcases hstep p hp with hnone | ⟨q, hq, hI, hlt⟩
      · exact ⟨p, .refl, hnone⟩
      · obtain ⟨r, hrun, hhalt⟩ := ih (μ q) (by omega) hI rfl
        exact ⟨r, .head hq hrun, hhalt⟩

end Machine

/-! ### The decoder, with checks -/

/-- What may go wrong. -/
inductive Fault where
  | read
  | shift
  | wrap
  | write
deriving DecidableEq

/-- `peek`, inside a buffer. -/
def load (buf : List UInt8) (pos : ℕ) : Except Fault Word :=
  if pos / 8 + 8 ≤ buf.length then .ok (peek buf pos) else .error .read

/-- A left shift. -/
def shifted (x : Word) (k : ℕ) : Except Fault Word := if k < 64 then .ok (x <<< k) else .error .shift

/-- A difference of `uint32_t`. -/
def minus (a b : ℕ) : Except Fault ℕ := if b ≤ a then .ok (a - b) else .error .wrap

/-- A sum of `uint32_t`. -/
def plus (a b : ℕ) : Except Fault ℕ := if a + b < 2 ^ 32 then .ok (a + b) else .error .wrap

/-- `planes[np++] = x`, in an array of 32. -/
def stored (planes : List Word) (x : Word) : Except Fault (List Word) :=
  if planes.length < 32 then .ok (planes ++ [x]) else .error .write

/-- The counters of a decoder: the cursor, the planes that may still be read and those written. -/
structure Counters extends Cursor where
  k : ℕ
  planes : List Word

/-- The heads of the loops of a decoder, and the window of `decode_planes_bmi2`. -/
inductive Point where
  | plane (c : Counters)
  | window (x : Word) (c : Counters)
  | tests (x : Word) (c : Counters)
  | scan (x : Word) (limAll : ℕ) (c : Counters)
  | done (planes : List Word)

section Step
variable (bmi2 : Bool) (buf : List UInt8)

/-- The budget and the position after `m` bits. -/
def take (s : Cursor) (m : ℕ) : Except Fault Cursor := do
  let bits ← minus s.bits m
  let pos ← plus s.pos m
  return { s with bits := bits, pos := pos }

def verbatimChecked (s : Cursor) : Except Fault (Word × Cursor) := do
  let m := if s.n < s.bits then s.n else s.bits
  if m ≤ 56 then
    let x ← if m ≠ 0 then do
        let w ← load buf s.pos
        let b ← shifted 1#64 m
        pure (w &&& (b - 1#64))
      else pure 0#64
    return (x, ← take s m)
  else
    let w ← load buf s.pos
    let high ← load buf (← plus s.pos 32)
    let b ← shifted 1#64 (← minus m 32)
    return (w &&& 0xffffffff#64 ||| (high &&& (b - 1#64)) <<< 32, ← take s m)

/-- `planes[np++] = x`, and on to the next plane. -/
def endPlane (x : Word) (c : Counters) : Except Fault (Option Point) := do
  let planes ← stored c.planes x
  return some (.plane { c with planes := planes })

/-- `x += 1ull << n; n++`, and on to the next group test. -/
def found (x : Word) (c : Counters) : Except Fault (Option Point) := do
  let b ← shifted 1#64 c.n
  return some (.tests (x + b) { c with n := c.n + 1 })

/-- `while (bits && k-- > 0)`, up to the first group test. -/
def planeStep (c : Counters) : Except Fault (Option Point) :=
  if c.bits = 0 ∨ c.k = 0 then .ok (some (.done c.planes))
  else do
    let v ← verbatimChecked buf c.toCursor
    let c' : Counters := { toCursor := v.2, k := c.k - 1, planes := c.planes }
    return some (if bmi2 then .window v.1 c' else .tests v.1 c')

/-- The group tests of a whole plane from one window. -/
def windowStep (x : Word) (c : Counters) : Except Fault (Option Point) :=
  if 0 < c.bits ∧ c.n < 64 then do
    let v ← load buf c.pos
    let w := v &&& lowMask 57
    if w.getLsbD 0 = false then
      let s ← take c.toCursor 1
      endPlane x { c with toCursor := s }
    else
      let g := pdep 0x5555555555555555#64 w
      let t := pdep 0xAAAAAAAAAAAAAAAA#64 w
      let stop := t &&& ~~~(w >>> 1) &&& lowMask 56
      if stop ≠ 0#64 then
        let e := ctz stop
        let used := e + 2
        let two ← shifted 2#64 e
        let keep := (two - 1#64) &&& ~~~g
        let add := popcount keep
        if used ≤ c.bits ∧ c.n + add < 63 then
          let y ← shifted (pext w keep) c.n
          let s ← take c.toCursor used
          endPlane (x ||| y) { c with toCursor := { s with n := c.n + add } }
        else return some (.tests x c)
      else return some (.tests x c)
  else return some (.tests x c)

/-- `while (bits && n < 64)`, up to the scan. -/
def testsStep (x : Word) (c : Counters) : Except Fault (Option Point) :=
  if 0 < c.bits ∧ c.n < 64 then do
    let w ← load buf c.pos
    let s ← take c.toCursor 1
    if w.getLsbD 0 = false then endPlane x { c with toCursor := s }
    else
      let lim ← minus 63 c.n
      return some (.scan x (if s.bits < lim then s.bits else lim) { c with toCursor := s })
  else endPlane x c

/-- `for (;;)`: one window of a scan. -/
def scanStep (x : Word) (limAll : ℕ) (c : Counters) : Except Fault (Option Point) := do
  let w ← load buf c.pos
  let lim := if limAll < 56 then limAll else 56
  let z := if w ≠ 0#64 then ctz w else 64
  if z < lim then
    let s ← take c.toCursor (z + 1)
    found x { c with toCursor := { s with n := c.n + z } }
  else
    let s ← take c.toCursor lim
    let rest ← minus limAll lim
    if rest = 0 then found x { c with toCursor := { s with n := c.n + lim } }
    else return some (.scan x rest { c with toCursor := { s with n := c.n + lim } })

/-- **The step from one loop head to the next**; `none` where the decoder has returned. -/
def step : Point → Except Fault (Option Point)
  | .plane c => planeStep bmi2 buf c
  | .window x c => windowStep buf x c
  | .tests x c => testsStep buf x c
  | .scan x limAll c => scanStep buf x limAll c
  | .done _ => .ok none

/-- `szfp_fast_decode` and `szfp_fast_count`, up to the planes: the exponent is read, and the planes begin
at bit 9. -/
def start (len : ℕ) : Except Fault Point := do
  let _ ← load buf 1
  let bits ← minus (8 * len) 9
  return .plane { n := 0, bits := bits, pos := 9, k := 32, planes := [] }

end Step

/-! ### The checks -/

theorem ok_bind {F α β : Type} (x : α) (f : α → Except F β) : (Except.ok x >>= f) = f x := rfl

/-- The counters at a loop head of a decoder that has to account for `room` planes: the budget and the
position make up the block. -/
structure Sound (len room : ℕ) (c : Counters) : Prop where
  total : c.pos + c.bits = 8 * len
  n_le : c.n ≤ 64
  room : c.planes.length + c.k = room

section Checks
variable {buf : List UInt8} {len : ℕ} (hbuf : buf.length = len + 8) (hlen : len ≤ 256) {s : Cursor}
  (hs : s.pos + s.bits = 8 * len)

include hbuf in
theorem load_ok {pos : ℕ} (hpos : pos ≤ 8 * len) : load buf pos = .ok (peek buf pos) :=
  if_pos (by omega)

theorem shifted_ok {k : ℕ} (x : Word) (hk : k < 64) : shifted x k = .ok (x <<< k) := if_pos hk

theorem minus_ok {m n : ℕ} (h : n ≤ m) : minus m n = .ok (m - n) := if_pos h

include hlen hs in
theorem take_ok {m : ℕ} (hm : m ≤ s.bits) :
    take s m = .ok { s with bits := s.bits - m, pos := s.pos + m } := by
  unfold take plus
  rw [minus_ok hm, ok_bind, if_pos (by omega), ok_bind]
  rfl

include hbuf hlen hs in
/-- **The verbatim bits** are read without a fault. -/
theorem verbatimChecked_ok (hn : s.n ≤ 64) : verbatimChecked buf s = .ok (verbatim buf s) := by
  have hm : (if s.n < s.bits then s.n else s.bits) = min s.n s.bits := by split_ifs <;> omega
  unfold verbatimChecked verbatim
  dsimp only
  rw [hm]
  by_cases h56 : min s.n s.bits ≤ 56
  · rw [if_pos h56, if_pos h56]
    by_cases h0 : min s.n s.bits = 0
    · rw [if_neg (not_not.mpr h0), if_neg (not_not.mpr h0), take_ok hlen hs (by omega)]
      rfl
    · rw [if_pos h0, if_pos h0, load_ok hbuf (by omega), ok_bind, shifted_ok _ (by omega),
        take_ok hlen hs (by omega)]
      rfl
  · -- the second word begins 32 bits later, still before the end of the block
    have hplus : plus s.pos 32 = .ok (s.pos + 32) := if_pos (by omega)
    rw [if_neg h56, if_neg h56, load_ok hbuf (by omega), ok_bind, hplus, ok_bind, load_ok hbuf (by omega),
      ok_bind, minus_ok (by omega), ok_bind, shifted_ok _ (by omega), ok_bind, take_ok hlen hs (by omega)]
    rfl

theorem verbatim_total (buf : List UInt8) {s : Cursor} {total : ℕ} (hs : s.pos + s.bits = total) :
    (verbatim buf s).2.pos + (verbatim buf s).2.bits = total := by
  show s.pos + min s.n s.bits + (s.bits - min s.n s.bits) = total
  omega

end Checks

/-! ### Steps -/

section Steps
variable (bmi2 : Bool) (buf : List UInt8)

def planeOf : Cursor → Word × Cursor := if bmi2 then planeBmi2 buf else plane buf

/-- The planes that are returned in the end, with the open plane read to its end. -/
def finish (c : Counters) (p : Word × Cursor) : List Word :=
  c.planes ++ p.1 :: planesLoop (planeOf bmi2 buf) c.k p.2

/-- **What will be returned** from a loop head on. -/
def result : Point → List Word
  | .plane c => c.planes ++ planesLoop (planeOf bmi2 buf) c.k c.toCursor
  | .window x c => finish bmi2 buf c ((fastTests buf x c.toCursor).getD (groupTests buf x c.toCursor))
  | .tests x c => finish bmi2 buf c (groupTests buf x c.toCursor)
  | .scan x limAll c =>
    let s := scanRun buf c.toCursor limAll
    finish bmi2 buf c (groupTests buf (x + 1#64 <<< s.n) { s with n := s.n + 1 })
  | .done planes => planes

/-- **What holds at a loop head**: inside a plane one of the 32 is neither written nor to be read, and a
scan stays below coefficient 64 and inside the budget. -/
def Inv (len : ℕ) : Point → Prop
  | .plane c => Sound len 32 c
  | .window _ c => Sound len 31 c
  | .tests _ c => Sound len 31 c
  | .scan _ limAll c => Sound len 31 c ∧ c.n + limAll ≤ 63 ∧ limAll ≤ c.bits
  | .done planes => planes.length ≤ 32

/-- What becomes smaller with every step. -/
def measure : Point → ℕ
  | .plane c => 10000 * c.k + 1
  | .window _ c => 10000 * c.k + 7000
  | .tests _ c => 10000 * c.k + 100 * (64 - c.n) + 80
  | .scan _ limAll c => 10000 * c.k + 100 * (64 - c.n) + limAll
  | .done _ => 0

/-- A step without a fault, to a loop head that returns the same. -/
def Steps (len : ℕ) (p : Point) : Prop :=
  ∃ q, step bmi2 buf p = .ok (some q) ∧ (Inv len q ∧ result bmi2 buf q = result bmi2 buf p) ∧
    measure q < measure p

variable {bmi2 buf} {len : ℕ} (hbuf : buf.length = len + 8) (hlen : len ≤ 256)

theorem endPlane_steps {x : Word} {c : Counters} {s : Cursor} {p : Point}
    (hroom : c.planes.length + c.k = 31)
    (htotal : s.pos + s.bits = 8 * len) (hn : s.n ≤ 64)
    (hp : step bmi2 buf p = endPlane x { c with toCursor := s })
    (hresult : result bmi2 buf p = finish bmi2 buf c (x, s)) (hmeasure : 10000 * c.k + 1 < measure p) :
    Steps bmi2 buf len p := by
  have hstored : stored c.planes x = .ok (c.planes ++ [x]) := if_pos (by omega)
  refine ⟨.plane { c with toCursor := s, planes := c.planes ++ [x] }, ?_, ⟨⟨htotal, hn, ?_⟩, ?_⟩, hmeasure⟩
  · rw [hp, endPlane, hstored]
    rfl
  · rw [List.length_append, List.length_singleton]
    show c.planes.length + 1 + c.k = 32
    omega
  · rw [hresult, finish, result, List.append_assoc]
    rfl

include hbuf hlen

theorem step_plane {c : Counters} (h : Sound len 32 c) : Steps bmi2 buf len (.plane c) := by
  obtain ⟨htotal, hn, hroom⟩ := h
  by_cases hend : c.bits = 0 ∨ c.k = 0
  · refine ⟨.done c.planes, if_pos hend, ⟨?_, ?_⟩, Nat.succ_pos _⟩
    · show c.planes.length ≤ 32
      omega
    · have hloop : planesLoop (planeOf bmi2 buf) c.k c.toCursor = [] := by
        rcases hend with hbits | hk
        · cases c.k with
          | zero => rfl
          | succ k => exact if_pos hbits
        · rw [hk]
          rfl
      show c.planes = c.planes ++ _
      rw [hloop, List.append_nil]
  · rw [not_or] at hend
    obtain ⟨k, hk⟩ := Nat.exists_eq_succ_of_ne_zero hend.2
    have hv := verbatimChecked_ok hbuf hlen htotal hn
    have hbits := (verbatim_total buf htotal)
    set v := verbatim buf c.toCursor with hvdef
    have hnv : v.2.n = c.n := rfl
    have hstep : step bmi2 buf (.plane c) = .ok (some (if bmi2 then
        .window v.1 { toCursor := v.2, k := c.k - 1, planes := c.planes }
        else .tests v.1 { toCursor := v.2, k := c.k - 1, planes := c.planes })) := by
      show planeStep bmi2 buf c = _
      unfold planeStep
      rw [if_neg (not_or.mpr hend), hv]
      rfl
    have hsound : Sound len 31 { toCursor := v.2, k := c.k - 1, planes := c.planes } :=
      ⟨hbits, hn, by show c.planes.length + (c.k - 1) = 31; omega⟩
    have hloop : planesLoop (planeOf bmi2 buf) c.k c.toCursor =
        (planeOf bmi2 buf c.toCursor).1 :: planesLoop (planeOf bmi2 buf) (c.k - 1)
          (planeOf bmi2 buf c.toCursor).2 := by
      rw [hk]
      exact if_neg hend.1
    have hresult : result bmi2 buf (.plane c) = finish bmi2 buf
        { toCursor := v.2, k := c.k - 1, planes := c.planes } (planeOf bmi2 buf c.toCursor) :=
      congrArg (c.planes ++ ·) hloop
    cases bmi2 with
    | true =>
      refine ⟨_, hstep, ⟨hsound, ?_⟩, ?_⟩
      · rw [hresult]
        refine congrArg (finish true buf _) ?_
        show (fastTests buf v.1 v.2).getD (groupTests buf v.1 v.2) = planeBmi2 buf c.toCursor
        unfold planeBmi2
        dsimp only
        rw [← hvdef]
        cases fastTests buf v.1 v.2 <;> rfl
      · show 10000 * (c.k - 1) + 7000 < 10000 * c.k + 1
        omega
    | false =>
      refine ⟨_, hstep, ⟨hsound, ?_⟩, ?_⟩
      · rw [hresult]
        rfl
      · show 10000 * (c.k - 1) + 100 * (64 - v.2.n) + 80 < 10000 * c.k + 1
        omega

theorem step_window {x : Word} {c : Counters} (h : Sound len 31 c) : Steps bmi2 buf len (.window x c) := by
  obtain ⟨htotal, hn, hroom⟩ := h
  have htests : step bmi2 buf (.window x c) = .ok (some (.tests x c)) →
      fastTests buf x c.toCursor = none → Steps bmi2 buf len (.window x c) := fun hstep hfast => by
    refine ⟨.tests x c, hstep, ⟨⟨htotal, hn, hroom⟩, ?_⟩, ?_⟩
    · show finish _ _ _ _ = finish _ _ _ ((fastTests buf x c.toCursor).getD _)
      rw [hfast]
      rfl
    · show 10000 * c.k + 100 * (64 - c.n) + 80 < 10000 * c.k + 7000
      omega
  have hread : ∀ {x' : Word} {s : Cursor}, step bmi2 buf (.window x c) =
      endPlane x' { c with toCursor := s } → fastTests buf x c.toCursor = some (x', s) →
      s.pos + s.bits = 8 * len → s.n ≤ 64 → Steps bmi2 buf len (.window x c) := fun hstep hfast hs hns => by
    refine endPlane_steps hroom hs hns hstep ?_ (by show _ < 10000 * c.k + 7000; omega)
    show finish _ _ _ ((fastTests buf x c.toCursor).getD _) = _
    rw [hfast]
    rfl
  have hstep : step bmi2 buf (.window x c) = windowStep buf x c := rfl
  obtain ⟨r, hr⟩ : ∃ r, fastTests buf x c.toCursor = r := ⟨_, rfl⟩
  have hfast := hr
  unfold windowStep at hstep
  unfold fastTests at hfast
  by_cases hgo : 0 < c.bits ∧ c.n < 64
  case neg =>
    rw [if_neg hgo] at hstep hfast
    exact htests hstep (hr.trans hfast.symm)
  rw [if_pos hgo] at hstep hfast
  rw [load_ok hbuf (by omega), ok_bind] at hstep
  dsimp only at hstep hfast
  generalize peek buf c.pos &&& lowMask 57 = w at hstep hfast
  by_cases h0 : w.getLsbD 0 = false
  · -- no new coefficient in this plane
    rw [if_pos h0] at hstep hfast
    rw [take_ok hlen htotal (by omega), ok_bind] at hstep
    exact hread hstep (hr.trans hfast.symm) (by show c.pos + 1 + (c.bits - 1) = 8 * len; omega) hn
  rw [if_neg h0] at hstep hfast
  by_cases hstop : pdep 0xAAAAAAAAAAAAAAAA#64 w &&& ~~~(w >>> 1) &&& lowMask 56 ≠ 0#64
  case neg =>
    rw [if_neg hstop] at hstep hfast
    exact htests hstep (hr.trans hfast.symm)
  rw [if_pos hstop] at hstep hfast
  -- the coefficient that ends the plane is below bit 56
  have he := getLsbD_ctz (ctz_lt_of_ne_zero hstop)
  generalize ctz (pdep 0xAAAAAAAAAAAAAAAA#64 w &&& ~~~(w >>> 1) &&& lowMask 56) = e at hstep hfast he
  have he56 : e < 56 := by
    rw [BitVec.getLsbD_and, getLsbD_lowMask (by norm_num), Bool.and_eq_true, decide_eq_true_eq] at he
    exact he.2
  rw [shifted_ok _ (by omega), ok_bind] at hstep
  generalize (2#64 <<< e) - 1#64 &&& ~~~pdep 0x5555555555555555#64 w = keep at hstep hfast
  by_cases hfit : e + 2 ≤ c.bits ∧ c.n + popcount keep < 63
  case neg =>
    rw [if_neg hfit] at hstep hfast
    exact htests hstep (hr.trans hfast.symm)
  rw [if_pos hfit] at hstep hfast
  rw [shifted_ok _ hgo.2, ok_bind, take_ok hlen htotal hfit.1, ok_bind] at hstep
  exact hread hstep (hr.trans hfast.symm) (by show c.pos + (e + 2) + (c.bits - (e + 2)) = 8 * len; omega)
    (by show c.n + popcount keep ≤ 64; omega)

theorem step_tests {x : Word} {c : Counters} (h : Sound len 31 c) : Steps bmi2 buf len (.tests x c) := by
  obtain ⟨htotal, hn, hroom⟩ := h
  have hstep : step bmi2 buf (.tests x c) = testsStep buf x c := rfl
  have hresult : result bmi2 buf (.tests x c) = finish bmi2 buf c (groupTests buf x c.toCursor) := rfl
  have hmeasure : 10000 * c.k + 1 < measure (.tests x c) := by
    show _ < 10000 * c.k + 100 * (64 - c.n) + 80
    omega
  unfold testsStep at hstep
  unfold groupTests at hresult
  by_cases hgo : 0 < c.bits ∧ c.n < 64
  case neg =>
    rw [if_neg hgo] at hstep hresult
    exact endPlane_steps hroom htotal hn hstep hresult hmeasure
  rw [if_pos hgo] at hstep hresult
  rw [load_ok hbuf (by omega), ok_bind, take_ok hlen htotal (by omega), ok_bind] at hstep
  have htotal' : c.pos + 1 + (c.bits - 1) = 8 * len := by omega
  by_cases hbit : (peek buf c.pos).getLsbD 0 = false
  · rw [if_pos hbit] at hstep hresult
    exact endPlane_steps (s := { n := c.n, bits := c.bits - 1, pos := c.pos + 1 }) hroom htotal' hn hstep
      hresult hmeasure
  rw [if_neg hbit] at hstep hresult
  rw [minus_ok (by omega), ok_bind] at hstep
  have hlim : (if c.bits - 1 < 63 - c.n then c.bits - 1 else 63 - c.n) = min (63 - c.n) (c.bits - 1) := by
    split_ifs <;> omega
  dsimp only at hstep
  rw [hlim] at hstep
  refine ⟨_, hstep, ⟨⟨⟨htotal', hn, hroom⟩, ?_, ?_⟩, ?_⟩, ?_⟩
  · show c.n + min (63 - c.n) (c.bits - 1) ≤ 63
    omega
  · show min (63 - c.n) (c.bits - 1) ≤ c.bits - 1
    omega
  · rw [hresult]
    rfl
  · show 10000 * c.k + 100 * (64 - c.n) + min (63 - c.n) (c.bits - 1) < 10000 * c.k + 100 * (64 - c.n) + 80
    omega

/-- **A window of a scan.** -/
theorem step_scan {x : Word} {limAll : ℕ} {c : Counters} (h : Inv len (.scan x limAll c)) :
    Steps bmi2 buf len (.scan x limAll c) := by
  obtain ⟨⟨htotal, hn, hroom⟩, h63, hlim⟩ := h
  -- a one-bit is found, or taken as read, at coefficient `s.n`
  have hfound : ∀ {s : Cursor}, step bmi2 buf (.scan x limAll c) = found x { c with toCursor := s } →
      scanRun buf c.toCursor limAll = s → s.pos + s.bits = 8 * len → c.n ≤ s.n → s.n ≤ 63 →
        Steps bmi2 buf len (.scan x limAll c) := fun {s} hstep hscan hs hle hns => by
    have hshift : shifted 1#64 s.n = .ok (1#64 <<< s.n) := shifted_ok _ (by omega)
    refine ⟨.tests (x + 1#64 <<< s.n) { toCursor := { s with n := s.n + 1 }, k := c.k, planes := c.planes },
      ?_, ⟨⟨hs, ?_, hroom⟩, ?_⟩, ?_⟩
    · rw [hstep, found, hshift]
      rfl
    · show s.n + 1 ≤ 64
      omega
    · show _ = finish _ _ _ (groupTests buf (x + 1#64 <<< (scanRun buf c.toCursor limAll).n) _)
      rw [hscan]
      rfl
    · show 10000 * c.k + 100 * (64 - (s.n + 1)) + 80 < 10000 * c.k + 100 * (64 - c.n) + limAll
      omega
  have hstep : step bmi2 buf (.scan x limAll c) = scanStep buf x limAll c := rfl
  obtain ⟨r, hr⟩ : ∃ r, scanRun buf c.toCursor limAll = r := ⟨_, rfl⟩
  have hscan := hr
  have hmin : (if limAll < 56 then limAll else 56) = min limAll 56 := by split_ifs <;> omega
  unfold scanStep at hstep
  unfold scanRun at hscan
  rw [load_ok hbuf (by omega), ok_bind] at hstep
  dsimp only at hstep hscan
  rw [hmin] at hstep
  generalize (if peek buf c.pos ≠ 0#64 then ctz (peek buf c.pos) else 64) = z at hstep hscan
  by_cases hz : z < min limAll 56
  · rw [if_pos hz] at hstep hscan
    rw [take_ok hlen htotal (by omega), ok_bind] at hstep
    exact hfound hstep (hr.trans hscan.symm) (by show c.pos + (z + 1) + (c.bits - (z + 1)) = 8 * len; omega)
      (by show c.n ≤ c.n + z; omega) (by show c.n + z ≤ 63; omega)
  rw [if_neg hz] at hstep hscan
  rw [take_ok hlen htotal (by omega), ok_bind, minus_ok (by omega), ok_bind] at hstep
  have htotal' : c.pos + min limAll 56 + (c.bits - min limAll 56) = 8 * len := by omega
  by_cases hend : limAll - min limAll 56 = 0
  · rw [if_pos hend] at hstep hscan
    exact hfound hstep (hr.trans hscan.symm) htotal' (by show c.n ≤ c.n + _; omega)
      (by show c.n + min limAll 56 ≤ 63; omega)
  rw [if_neg hend] at hstep hscan
  refine ⟨_, hstep, ⟨⟨⟨htotal', ?_, hroom⟩, ?_, ?_⟩, ?_⟩, ?_⟩
  · show c.n + min limAll 56 ≤ 64
    omega
  · show c.n + min limAll 56 + (limAll - min limAll 56) ≤ 63
    omega
  · show limAll - min limAll 56 ≤ c.bits - min limAll 56
    omega
  · unfold result
    dsimp only
    rw [hscan, hr]
    rfl
  · show 10000 * c.k + 100 * (64 - (c.n + min limAll 56)) + (limAll - min limAll 56) <
      10000 * c.k + 100 * (64 - c.n) + limAll
    omega

/-- **No step faults**, and every step keeps the invariant and what will be returned. -/
theorem step_inv {p : Point} (h : Inv len p) : (∃ planes, p = .done planes) ∨ Steps bmi2 buf len p := by
  rcases p with c | ⟨x, c⟩ | ⟨x, c⟩ | ⟨x, limAll, c⟩ | planes
  · exact Or.inr (step_plane hbuf hlen h)
  · exact Or.inr (step_window hbuf hlen h)
  · exact Or.inr (step_tests hbuf hlen h)
  · exact Or.inr (step_scan hbuf hlen h)
  · exact Or.inl ⟨planes, rfl⟩

end Steps

/-! ### Every run -/

/-- **The fast decoder stays in bounds**, with `bmi2` and without, on a block of any bytes. The start does
not fault. In every state that is reached the counters are tied together by `Inv`, and no check of the
next step fails. There is no endless run, and the planes of the decoder, 32 at most, are returned. -/
theorem fast_decoder_in_bounds (bmi2 : Bool) (block : List UInt8) (h2 : 2 ≤ block.length)
    (h256 : block.length ≤ 256) :
    ∃ p, start (padded block) block.length = .ok p ∧
      (∀ q, Relation.ReflTransGen (Next (step bmi2 (padded block))) p q →
        Inv block.length q ∧ ∃ o, step bmi2 (padded block) q = .ok o) ∧
      Acc (flip (Next (step bmi2 (padded block)))) p ∧
      ∃ planes, Relation.ReflTransGen (Next (step bmi2 (padded block))) p (.done planes) ∧
        planes.length ≤ 32 ∧ planes =
          (if bmi2 then decodePlanesBmi2 else decodePlanes) (padded block) 9 (8 * block.length - 9) := by
  have hbuf : (padded block).length = block.length + 8 := by
    rw [padded, List.length_append, List.length_replicate]
  set c : Counters := { n := 0, bits := 8 * block.length - 9, pos := 9, k := 32, planes := [] }
  have hstart : start (padded block) block.length = .ok (.plane c) := by
    unfold start
    rw [load_ok hbuf (by omega), ok_bind, minus_ok (by omega), ok_bind]
    rfl
  have hinv : Inv block.length (.plane c) :=
    ⟨by show 9 + (8 * block.length - 9) = 8 * block.length; omega, Nat.zero_le 64, rfl⟩
  have hresult : result bmi2 (padded block) (.plane c) =
      (if bmi2 then decodePlanesBmi2 else decodePlanes) (padded block) 9 (8 * block.length - 9) := by
    cases bmi2 <;> rfl
  -- along a run: the counters are tied together, and what will be returned stays the same
  set I : Point → Prop := fun q => Inv block.length q ∧
    result bmi2 (padded block) q = result bmi2 (padded block) (.plane c)
  have hsteps : ∀ q, I q → step bmi2 (padded block) q = .ok none ∨
      ∃ q', step bmi2 (padded block) q = .ok (some q') ∧ I q' ∧ measure q' < measure q := by
    rintro q ⟨hq, hres⟩
    rcases step_inv hbuf h256 hq with ⟨planes, rfl⟩ | ⟨q', hstep, ⟨hinv', hres'⟩, hlt⟩
    · exact Or.inl rfl
    · exact Or.inr ⟨q', hstep, ⟨hinv', hres'.trans hres⟩, hlt⟩
  obtain ⟨hreach, hacc, q, hrun, hhalt⟩ := run_of_step hsteps (p := .plane c) ⟨hinv, rfl⟩
  refine ⟨.plane c, hstart, fun q hq => ⟨(hreach q hq).1.1, (hreach q hq).2⟩, hacc, ?_⟩
  obtain ⟨⟨hq, hres⟩, -⟩ := hreach q hrun
  rcases step_inv hbuf h256 hq with ⟨planes, rfl⟩ | ⟨q', hstep, -, -⟩
  · exact ⟨planes, hrun, hq, hres.trans hresult⟩
  · cases hhalt.symm.trans hstep

theorem fast_decoder_in_bounds_short : ∃ p, start (padded [0xff, 0x2c]) 2 = .ok p ∧
    (∀ q, Relation.ReflTransGen (Next (step true (padded [0xff, 0x2c]))) p q →
      Inv 2 q ∧ ∃ o, step true (padded [0xff, 0x2c]) q = .ok o) ∧
    Acc (flip (Next (step true (padded [0xff, 0x2c])))) p ∧
    ∃ planes, Relation.ReflTransGen (Next (step true (padded [0xff, 0x2c]))) p (.done planes) ∧
      planes.length ≤ 32 ∧ planes = decodePlanesBmi2 (padded [0xff, 0x2c]) 9 7 :=
  fast_decoder_in_bounds true [0xff, 0x2c] (by decide) (by decide)

end SkipZFP.Decode.Bounds
