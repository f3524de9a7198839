import SkipZFP.Lib.Double
import Mathlib.Data.Nat.Log
import Mathlib.Order.Monotone.Basic
import Mathlib.Tactic.NormNum
import Mathlib.Tactic.Positivity
import Mathlib.Tactic.Ring

/-! # float32

The nonnegative numbers of a binary format with `p` fraction bits are numbered by their bit patterns:
number `k` is `units p k` times the least positive one. The spacing after number `k` is
`2 ^ (k / 2 ^ p - 1)` (`units_succ`), so the numbering is increasing, `ordFloor` finds the last number
not above an integer (`ordFloor_spec`) and `roundOrd` rounds to the nearest, ties to even.

An `F32` is a float32 bit pattern, `F32.val` its value, `F32.ofDouble` the cast from double and
`nextafterf` the C function. `ofDouble_eq`: what is not negative is cast by `roundOrd`. -/

namespace SkipZFP.Lib.Float32

open SkipZFP.Lib.Double

/-! ### Numbers of a binary format -/

/-- The `k`-th nonnegative number of a format with `p` fraction bits, in units of the least one. -/
def units (p k : ℕ) : ℕ := (k - (k / 2 ^ p - 1) * 2 ^ p) * 2 ^ (k / 2 ^ p - 1)

theorem units_succ (p k : ℕ) : units p (k + 1) = units p k + 2 ^ (k / 2 ^ p - 1) := by
  have hP : 0 < 2 ^ p := Nat.two_pow_pos p
  have hdm := Nat.div_add_mod k (2 ^ p)
  have hlt := Nat.mod_lt k hP
  unfold units
  generalize 2 ^ p = P at *
  generalize hq : k / P = q at *
  rcases Nat.lt_or_ge (k % P + 1) P with hr | hr
  · have h1 : (k + 1) / P = q := Nat.div_eq_of_lt_le (by rw [Nat.mul_comm]; omega)
      (by rw [Nat.succ_mul, Nat.mul_comm]; omega)
    have h2 : (q - 1) * P ≤ k := by
      calc (q - 1) * P ≤ q * P := Nat.mul_le_mul_right P (Nat.sub_le q 1)
        _ ≤ k := by rw [Nat.mul_comm]; omega
    rw [h1, show k + 1 - (q - 1) * P = k - (q - 1) * P + 1 by omega, Nat.succ_mul]
  · have hk : k + 1 = (q + 1) * P := by rw [Nat.succ_mul, Nat.mul_comm q]; omega
    have h1 : (k + 1) / P = q + 1 := by rw [hk, Nat.mul_div_cancel _ hP]
    rw [h1]
    rcases q with _ | q
    · simp
    · have hk' : k + 1 - (q + 1) * P = P := by rw [hk, Nat.succ_mul (q + 1)]; omega
      have hk'' : k - q * P = 2 * P - 1 := by
        have : (q + 1 + 1) * P = q * P + 2 * P := by ring
        omega
      simp only [Nat.add_sub_cancel]
      rw [hk', hk'', Nat.sub_mul, pow_succ]
      have : 1 * 2 ^ q ≤ 2 * P * 2 ^ q := Nat.mul_le_mul_right _ (by omega)
      have e : P * (2 ^ q * 2) = 2 * P * 2 ^ q := by ring
      omega

theorem units_strictMono (p : ℕ) : StrictMono (units p) :=
  strictMono_nat_of_lt_succ fun k => by
    rw [units_succ]; exact Nat.lt_add_of_pos_right (Nat.two_pow_pos _)

theorem units_zero (p : ℕ) : units p 0 = 0 := by simp [units]

/-- The last number not above the integer `x`. -/
def ordFloor (p x : ℕ) : ℕ := (Nat.log2 x - p) * 2 ^ p + x / 2 ^ (Nat.log2 x - p)

theorem ordFloor_spec (p x : ℕ) : units p (ordFloor p x) ≤ x ∧ x < units p (ordFloor p x + 1) := by
  rw [units_succ]
  have hP : 0 < 2 ^ p := Nat.two_pow_pos p
  rcases Nat.lt_or_ge x (2 ^ (p + 1)) with hx | hx
  · have hs : Nat.log2 x - p = 0 := by
      rcases Nat.eq_zero_or_pos x with rfl | hx0
      · simp
      · have := (Nat.log2_lt hx0.ne').mpr hx
        omega
    have hk : ordFloor p x = x := by simp [ordFloor, hs]
    have hq : x / 2 ^ p - 1 = 0 := by
      have : x / 2 ^ p < 2 := Nat.div_lt_of_lt_mul (by rw [pow_succ] at hx; exact hx)
      omega
    rw [hk, hq]
    simp [units, hq]
  · have hx0 : x ≠ 0 := by
      rintro rfl
      exact absurd hx (by simp)
    have hlo := Nat.log2_self_le hx0
    have hhi := Nat.lt_log2_self (n := x)
    have hp : p + 1 ≤ Nat.log2 x := (Nat.le_log2 hx0).mpr hx
    obtain ⟨s, hs⟩ : ∃ s, Nat.log2 x = p + s := ⟨_, (Nat.add_sub_of_le (by omega)).symm⟩
    rw [hs, pow_add] at hlo
    rw [hs, show p + s + 1 = (p + 1) + s by omega, pow_add] at hhi
    have hm1 : 2 ^ p ≤ x / 2 ^ s := (Nat.le_div_iff_mul_le (Nat.two_pow_pos s)).mpr hlo
    have hm2 : x / 2 ^ s < 2 ^ (p + 1) :=
      Nat.div_lt_of_lt_mul (by rw [Nat.mul_comm]; exact hhi)
    have hk : ordFloor p x = s * 2 ^ p + x / 2 ^ s := by
      unfold ordFloor; rw [hs, Nat.add_sub_cancel_left]
    have hq : ordFloor p x / 2 ^ p - 1 = s := by
      have h1 : x / 2 ^ s / 2 ^ p = 1 := Nat.div_eq_of_lt_le (by omega) (by rw [pow_succ] at hm2; omega)
      rw [hk, Nat.mul_comm, Nat.mul_add_div hP, h1]
      omega
    unfold units
    rw [hq, hk, Nat.add_sub_cancel_left]
    have hdm := Nat.div_add_mod x (2 ^ s)
    have hlt := Nat.mod_lt x (Nat.two_pow_pos s)
    rw [Nat.mul_comm] at hdm
    omega

/-- The number nearest to `x`, ties to the even one. -/
def roundOrd (p : ℕ) (x : ℚ) : ℕ :=
  let k := ordFloor p ⌊x⌋.toNat
  if x - units p k < units p (k + 1) - x then k
  else if (units p (k + 1) : ℚ) - x < x - units p k then k + 1
  else if k % 2 = 0 then k
  else k + 1

theorem ordFloor_floor_spec (p : ℕ) {x : ℚ} (hx : 0 ≤ x) :
    (units p (ordFloor p ⌊x⌋.toNat) : ℚ) ≤ x ∧ x < units p (ordFloor p ⌊x⌋.toNat + 1) := by
  obtain ⟨h1, h2⟩ := ordFloor_spec p ⌊x⌋.toNat
  have hf : ((⌊x⌋.toNat : ℕ) : ℚ) = (⌊x⌋ : ℚ) := by
    exact_mod_cast congrArg (Int.cast (R := ℚ)) (Int.toNat_of_nonneg (Int.floor_nonneg.mpr hx))
  constructor
  · calc (units p (ordFloor p ⌊x⌋.toNat) : ℚ) ≤ (⌊x⌋.toNat : ℚ) := by exact_mod_cast h1
      _ = ⌊x⌋ := hf
      _ ≤ x := Int.floor_le x
  · calc x < ⌊x⌋ + 1 := Int.lt_floor_add_one x
      _ = ((⌊x⌋.toNat + 1 : ℕ) : ℚ) := by push_cast; rw [hf]
      _ ≤ _ := by exact_mod_cast h2

theorem roundOrd_cases (p : ℕ) (x : ℚ) : roundOrd p x = ordFloor p ⌊x⌋.toNat ∨
    roundOrd p x = ordFloor p ⌊x⌋.toNat + 1 := by
  unfold roundOrd
  dsimp only
  split_ifs <;> simp

/-! ### Bit patterns -/

structure F32 where
  bits : BitVec 32
deriving DecidableEq, Inhabited

/-- The magnitude bits of an infinity. -/
def infMag : ℕ := 0x7F800000

namespace F32

def mag (f : F32) : ℕ := f.bits.toNat % 2 ^ 31

def isNeg (f : F32) : Bool := 2 ^ 31 ≤ f.bits.toNat

/-- Number `k` of the format as a rational. -/
def magVal (k : ℕ) : ℚ := units 23 k / 2 ^ 149

/-- **The value** `(double)f`. -/
def val (f : F32) : Dbl :=
  if infMag < f.mag then .nan
  else if f.mag = infMag then if f.isNeg then .ninf else .pinf
  else .fin (if f.isNeg then -magVal f.mag else magVal f.mag)

/-- The float32 of a sign and magnitude bits. -/
def ofMag (neg : Bool) (k : ℕ) : F32 := ⟨BitVec.ofNat 32 (if neg then 2 ^ 31 + k else k)⟩

/-- **The cast** `(float)d`: to nearest, ties to even, beyond the range to an infinity. -/
def ofDouble : Dbl → F32
  | .nan => ofMag false 0x7FC00000
  | .ninf => ofMag true infMag
  | .pinf => ofMag false infMag
  | .fin q => ofMag (decide (q < 0)) (min (roundOrd 23 (|q| * 2 ^ 149)) infMag)

/-- `FLT_MAX`. -/
def fltMax : F32 := ofMag false (infMag - 1)

/-- `-FLT_MAX`. -/
def negFltMax : F32 := ofMag true (infMag - 1)

/-- `INFINITY`. -/
def inf : F32 := ofMag false infMag

/-- `-INFINITY`. -/
def negInf : F32 := ofMag true infMag

def up (f : F32) : F32 :=
  if f.mag = 0 then ofMag false 1
  else if f.isNeg then ofMag true (f.mag - 1) else ofMag false (f.mag + 1)

def down (f : F32) : F32 :=
  if f.mag = 0 then ofMag true 1
  else if f.isNeg then ofMag true (f.mag + 1) else ofMag false (f.mag - 1)

/-- `nextafterf`: `t` if the two are equal, else one step from `f` towards `t`. -/
def nextafterf (f t : F32) : F32 :=
  if f.val = .nan ∨ t.val = .nan then ofMag false 0x7FC00000
  else if f.val = t.val then t
  else if f.val < t.val then f.up
  else f.down

/-- The four bytes `memcpy` writes, least significant first. -/
def bytes (f : F32) : List UInt8 :=
  [UInt8.ofNat f.bits.toNat, UInt8.ofNat (f.bits.toNat / 2 ^ 8),
    UInt8.ofNat (f.bits.toNat / 2 ^ 16), UInt8.ofNat (f.bits.toNat / 2 ^ 24)]

/-- The float32 that `memcpy` reads from four bytes. -/
def ofBytes (l : List UInt8) : F32 :=
  ⟨BitVec.ofNat 32 ((l.getD 0 0).toNat + 2 ^ 8 * (l.getD 1 0).toNat + 2 ^ 16 * (l.getD 2 0).toNat +
    2 ^ 24 * (l.getD 3 0).toNat)⟩

theorem length_bytes (f : F32) : f.bytes.length = 4 := rfl

theorem ofBytes_bytes (f : F32) : ofBytes f.bytes = f := by
  obtain ⟨b⟩ := f
  have hb := b.isLt
  unfold ofBytes bytes
  congr 1
  apply BitVec.eq_of_toNat_eq
  simp only [List.getD_cons_zero, List.getD_cons_succ, BitVec.toNat_ofNat, UInt8.toNat_ofNat']
  omega

/-! ### Signs and magnitudes -/

theorem mag_ofMag {neg : Bool} {k : ℕ} (hk : k < 2 ^ 31) : (ofMag neg k).mag = k := by
  unfold mag ofMag
  rw [BitVec.toNat_ofNat]
  cases neg <;> simp <;> omega

theorem isNeg_ofMag {neg : Bool} {k : ℕ} (hk : k < 2 ^ 31) : (ofMag neg k).isNeg = neg := by
  unfold isNeg ofMag
  rw [BitVec.toNat_ofNat]
  cases neg <;> simp <;> omega

theorem magVal_strictMono : StrictMono magVal := fun a b h => by
  unfold magVal
  have : (units 23 a : ℚ) < units 23 b := by exact_mod_cast units_strictMono 23 h
  exact div_lt_div_of_pos_right this (by positivity)

theorem magVal_zero : magVal 0 = 0 := by simp [magVal, units_zero]

theorem magVal_nonneg (k : ℕ) : 0 ≤ magVal k := by unfold magVal; positivity

theorem magVal_max : magVal (infMag - 1) = 2 ^ 128 - 2 ^ 104 := by
  have h : units 23 (infMag - 1) = (2 ^ 24 - 1) * 2 ^ 253 := by decide
  rw [magVal, h]; norm_num

theorem magVal_inf : magVal infMag = 2 ^ 128 := by
  have h : units 23 infMag = 2 ^ 128 * 2 ^ 149 := by decide
  have hq : (units 23 infMag : ℚ) = 2 ^ 128 * 2 ^ 149 := by exact_mod_cast h
  rw [magVal, hq, mul_div_assoc, div_self (by positivity), mul_one]

theorem val_ofMag {neg : Bool} {k : ℕ} (hk : k < infMag) :
    (ofMag neg k).val = .fin (if neg then -magVal k else magVal k) := by
  have h31 : k < 2 ^ 31 := hk.trans (by decide)
  unfold val
  rw [mag_ofMag h31, isNeg_ofMag h31, if_neg (by omega), if_neg (by omega)]

theorem val_ofMag_inf (neg : Bool) :
    (ofMag neg infMag).val = if neg then .ninf else .pinf := by
  unfold val
  rw [mag_ofMag (by decide), isNeg_ofMag (by decide), if_neg (lt_irrefl _), if_pos rfl]

theorem val_fltMax : fltMax.val = .fin (2 ^ 128 - 2 ^ 104) := by
  rw [fltMax, val_ofMag (by decide), ← magVal_max]; rfl

theorem val_negFltMax : negFltMax.val = .fin (-(2 ^ 128 - 2 ^ 104)) := by
  rw [negFltMax, val_ofMag (by decide), ← magVal_max]; rfl

theorem val_inf : inf.val = .pinf := val_ofMag_inf false

theorem val_negInf : negInf.val = .ninf := val_ofMag_inf true

theorem abs_le_of_val {f : F32} {q : ℚ} (h : f.val = .fin q) : |q| ≤ 2 ^ 128 - 2 ^ 104 := by
  unfold val at h
  split_ifs at h with h1 h2 h3 h4
  · have hm : magVal f.mag ≤ magVal (infMag - 1) := magVal_strictMono.monotone (by omega)
    rw [magVal_max] at hm
    cases h
    rw [abs_neg, abs_of_nonneg (magVal_nonneg _)]
    exact hm
  · have hm : magVal f.mag ≤ magVal (infMag - 1) := magVal_strictMono.monotone (by omega)
    rw [magVal_max] at hm
    cases h
    rw [abs_of_nonneg (magVal_nonneg _)]
    exact hm

/-! ### Rounding a nonnegative number -/

/-- The number the cast rounds down to, before it is rounded. -/
def floorMag (q : ℚ) : ℕ := ordFloor 23 ⌊q * 2 ^ 149⌋.toNat

theorem floorMag_spec {q : ℚ} (hq : 0 ≤ q) :
    magVal (floorMag q) ≤ q ∧ q < magVal (floorMag q + 1) := by
  obtain ⟨h1, h2⟩ := ordFloor_floor_spec 23 (x := q * 2 ^ 149) (by positivity)
  unfold magVal floorMag
  exact ⟨(div_le_iff₀ (by positivity)).mpr h1, (lt_div_iff₀ (by positivity)).mpr h2⟩

theorem val_ofDouble_of_lt {q : ℚ} (hq : 0 ≤ q) (h : roundOrd 23 (q * 2 ^ 149) < infMag) :
    (ofDouble (.fin q)).val = .fin (magVal (roundOrd 23 (q * 2 ^ 149))) := by
  show (ofMag (decide (q < 0)) (min (roundOrd 23 (|q| * 2 ^ 149)) infMag)).val = _
  rw [abs_of_nonneg hq, min_eq_left h.le, val_ofMag h, if_neg]
  simpa using hq

theorem val_ofDouble_of_ge {q : ℚ} (hq : 0 ≤ q) (h : infMag ≤ roundOrd 23 (q * 2 ^ 149)) :
    (ofDouble (.fin q)).val = .pinf := by
  show (ofMag (decide (q < 0)) (min (roundOrd 23 (|q| * 2 ^ 149)) infMag)).val = _
  rw [abs_of_nonneg hq, min_eq_right h, val_ofMag_inf, if_neg]
  simpa using hq

/-- **Where a nonnegative number is cast**: to the number below it or to the one above it. -/
theorem roundOrd_floorMag (q : ℚ) : roundOrd 23 (q * 2 ^ 149) = floorMag q ∨
    roundOrd 23 (q * 2 ^ 149) = floorMag q + 1 := roundOrd_cases 23 _

theorem roundOrd_of_lt {q : ℚ} (h : q - magVal (floorMag q) < magVal (floorMag q + 1) - q) :
    roundOrd 23 (q * 2 ^ 149) = floorMag q := by
  have h' := mul_lt_mul_of_pos_right h (show (0 : ℚ) < 2 ^ 149 by positivity)
  unfold magVal at h'
  rw [sub_mul, sub_mul, div_mul_cancel₀ _ (by positivity), div_mul_cancel₀ _ (by positivity)] at h'
  exact if_pos h'

theorem roundOrd_of_le {q : ℚ} (hodd : floorMag q % 2 = 1)
    (h : magVal (floorMag q + 1) - q ≤ q - magVal (floorMag q)) :
    roundOrd 23 (q * 2 ^ 149) = floorMag q + 1 := by
  have h' := mul_le_mul_of_nonneg_right h (show (0 : ℚ) ≤ 2 ^ 149 by positivity)
  unfold magVal at h'
  rw [sub_mul, sub_mul, div_mul_cancel₀ _ (by positivity), div_mul_cancel₀ _ (by positivity)] at h'
  unfold floorMag at h' hodd ⊢
  unfold roundOrd
  dsimp only
  rw [if_neg (not_lt.mpr h')]
  split_ifs with h1 h2
  · rfl
  · omega
  · rfl

/-! ### The cast rounded up -/

/-- The cast of a number that is not negative, moved up one step if it is below the number. -/
def castUp (t : F32) (e : Dbl) : F32 :=
  if (ofDouble e).val < e then nextafterf (ofDouble e) t else ofDouble e

theorem val_up_ofMag {k : ℕ} (hk : k + 1 < infMag) :
    (ofMag false k).up.val = .fin (magVal (k + 1)) := by
  have h31 : k < 2 ^ 31 := by unfold infMag at hk; omega
  unfold up
  rw [mag_ofMag h31, isNeg_ofMag h31, if_neg Bool.false_ne_true]
  split_ifs with h0
  · subst h0; exact val_ofMag (by decide)
  · exact val_ofMag hk

theorem ofDouble_eq {q : ℚ} (hq : 0 ≤ q) :
    ofDouble (.fin q) = ofMag false (min (roundOrd 23 (q * 2 ^ 149)) infMag) := by
  show ofMag (decide (q < 0)) (min (roundOrd 23 (|q| * 2 ^ 149)) infMag) = _
  rw [abs_of_nonneg hq, decide_eq_false (not_lt.mpr hq)]

theorem magVal_lt_iff {a b : ℕ} : magVal a < magVal b ↔ a < b := magVal_strictMono.lt_iff_lt

/-- In the range of the format the cast moved up is a finite number not below the number. -/
theorem castUp_of_le {q : ℚ} {t : F32} (hq : 0 ≤ q) (hmax : q ≤ 2 ^ 128 - 2 ^ 104)
    (ht : t = fltMax ∨ t = inf) : ∃ e, (castUp t (.fin q)).val = .fin e ∧ q ≤ e := by
  obtain ⟨h1, h2⟩ := floorMag_spec hq
  have hk : floorMag q < infMag := by
    rw [← magVal_lt_iff, magVal_inf]
    have : (0 : ℚ) < 2 ^ 104 := by positivity
    linarith
  have hlt : floorMag q = infMag - 1 → roundOrd 23 (q * 2 ^ 149) = floorMag q := by
    intro hk'
    refine roundOrd_of_lt ?_
    rw [hk', magVal_max] at h1
    rw [hk', magVal_max, show infMag - 1 + 1 = infMag from rfl, magVal_inf]
    have : (0 : ℚ) < 2 ^ 104 := by positivity
    linarith
  rcases roundOrd_floorMag q with hr | hr
  · have hv := val_ofDouble_of_lt hq (hr ▸ hk)
    rw [hr] at hv
    unfold castUp
    rw [hv]
    split_ifs with hup
    · rw [Dbl.fin_lt_fin] at hup
      -- below the number the cast is not the greatest one, so the step goes up
      have hk1 : floorMag q + 1 < infMag := by
        rcases Nat.lt_or_ge (floorMag q + 1) infMag with h | h
        · exact h
        · have : floorMag q = infMag - 1 := by omega
          rw [this, magVal_max] at hup
          linarith
      have hdir : (ofDouble (.fin q)).val < t.val := by
        rw [hv]
        rcases ht with rfl | rfl
        · rw [val_fltMax, Dbl.fin_lt_fin]; linarith
        · rw [val_inf]; exact Dbl.fin_lt_pinf _
      have hne : ¬ ((ofDouble (.fin q)).val = .nan ∨ t.val = .nan) :=
        not_or.mpr (Dbl.ne_nan_of_lt hdir)
      refine ⟨magVal (floorMag q + 1), ?_, h2.le⟩
      unfold nextafterf
      rw [if_neg hne, if_neg (Dbl.ne_of_lt hdir), if_pos hdir, ofDouble_eq hq, hr,
        min_eq_left hk.le]
      exact val_up_ofMag hk1
    · rw [Dbl.fin_lt_fin, not_lt] at hup
      exact ⟨_, hv, hup⟩
  · have hk1 : floorMag q + 1 < infMag := by
      rcases Nat.lt_or_ge (floorMag q + 1) infMag with h | h
      · exact h
      · have := hlt (by omega)
        omega
    have hv := val_ofDouble_of_lt hq (hr ▸ hk1)
    rw [hr] at hv
    refine ⟨magVal (floorMag q + 1), ?_, h2.le⟩
    unfold castUp
    rw [hv, if_neg (by rw [Dbl.fin_lt_fin, not_lt]; exact h2.le), hv]

/-- Just above the range the cast rounds to `FLT_MAX`. -/
theorem val_ofDouble_of_sliver {q : ℚ} (h1 : 2 ^ 128 - 2 ^ 104 < q) (h2 : q < 2 ^ 128 - 2 ^ 103) :
    (ofDouble (.fin q)).val = .fin (2 ^ 128 - 2 ^ 104) := by
  have hp : (0 : ℚ) < 2 ^ 103 := by positivity
  have hp' : (2 : ℚ) ^ 104 = 2 * 2 ^ 103 := by ring
  have hp'' : (2 : ℚ) ^ 104 ≤ 2 ^ 128 := pow_le_pow_right₀ (by norm_num) (by norm_num)
  have hq : 0 ≤ q := by linarith
  obtain ⟨hf1, hf2⟩ := floorMag_spec hq
  have hk : floorMag q = infMag - 1 := by
    have ha : floorMag q < infMag := by rw [← magVal_lt_iff, magVal_inf]; linarith
    have hb : infMag - 1 < floorMag q + 1 := by rw [← magVal_lt_iff, magVal_max]; linarith
    omega
  have hr : roundOrd 23 (q * 2 ^ 149) = floorMag q := by
    refine roundOrd_of_lt ?_
    rw [hk, magVal_max, show infMag - 1 + 1 = infMag from rfl, magVal_inf]
    linarith
  rw [val_ofDouble_of_lt hq (by rw [hr, hk]; decide), hr, hk, magVal_max]

/-- From half a step above `FLT_MAX` on the cast is an infinity. -/
theorem val_ofDouble_of_large {q : ℚ} (h : 2 ^ 128 - 2 ^ 103 ≤ q) : (ofDouble (.fin q)).val = .pinf := by
  have hp : (0 : ℚ) < 2 ^ 103 := by positivity
  have hp' : (2 : ℚ) ^ 104 = 2 * 2 ^ 103 := by ring
  have hp'' : (2 : ℚ) ^ 104 ≤ 2 ^ 128 := pow_le_pow_right₀ (by norm_num) (by norm_num)
  have hq : 0 ≤ q := by linarith
  obtain ⟨hf1, hf2⟩ := floorMag_spec hq
  refine val_ofDouble_of_ge hq ?_
  rcases Nat.lt_or_ge (floorMag q) infMag with hk | hk
  · have hb : infMag - 1 < floorMag q + 1 := by rw [← magVal_lt_iff, magVal_max]; linarith
    have hk' : floorMag q = infMag - 1 := by omega
    have hr : roundOrd 23 (q * 2 ^ 149) = floorMag q + 1 := by
      refine roundOrd_of_le (by rw [hk']; decide) ?_
      rw [hk', magVal_max, show infMag - 1 + 1 = infMag from rfl, magVal_inf]
      linarith
    omega
  · rcases roundOrd_floorMag q with hr | hr <;> omega

end F32

end SkipZFP.Lib.Float32
