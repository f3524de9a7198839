import Mathlib.Algebra.Order.Round
import SkipZFP.Lib.Precision
import SkipZFP.Lib.Rounding

/-! # The error of rounding to nearest, and the next number

Rounding to a nearest number of `p` bits moves a number by at most the fraction `2 ^ -p` of it.
`nextBelow` is the next smaller number of `p` bits, which is where `nextafter` goes; below zero it is the
negative of the least positive double. One step outward makes up for a rounding.

* `rounds_of_toNearest`: **the relative error**.
* `IsRounding`: what the lemmas about computed bounds use of it; exact arithmetic has it too.
* `hasBits_nextBelow`, `nextBelow_lt`: the next number has `p` bits, too.
* `nextBelow_le`, `le_nextAbove`: **what was rounded is not beyond the next number**. -/

namespace SkipZFP.Lib.Next

open SkipZFP.Lib.Precision SkipZFP.Lib.Rounding

variable {p : ℕ} {fl : ℚ → ℚ} {x : ℚ}

theorem ulp_pos (p : ℕ) (x : ℚ) : 0 < ulp p x := zpow_pos (by norm_num) _

theorem two_pow_mul_ulp (p : ℕ) (x : ℚ) : 2 ^ p * ulp p x = 2 ^ (Int.log 2 |x| + 1) := by
  unfold ulp
  rw [← zpow_natCast, ← zpow_add₀ (by norm_num)]
  congr 1
  omega

theorem abs_lt_ulp (p : ℕ) (hx : x ≠ 0) : |x| < 2 ^ p * ulp p x := by
  rw [two_pow_mul_ulp]
  exact (zpow_log_le (abs_pos.mpr hx)).2

/-- **The relative error** of rounding to nearest. -/
theorem rounds_of_toNearest (h : ToNearest p fl) : Rounds (1 / 2 ^ p) fl := by
  intro x
  rcases eq_or_ne x 0 with rfl | hx
  · rw [h.zero, sub_zero, abs_zero, mul_zero]
  have hu := ulp_pos p x
  set u := ulp p x with hudef
  -- a multiple of the unit is at most half a unit away
  set n := round (x / u) with hn
  have hbits : HasBits p (n * u) := by
    refine ⟨n, Int.log 2 |x| + 1 - p, ?_, rfl⟩
    have hlt : |x / u| < 2 ^ p := by
      rw [abs_div, abs_of_pos hu, div_lt_iff₀ hu]
      exact abs_lt_ulp p hx
    have hround := abs_le.mp (abs_sub_round (x / u))
    rw [← hn] at hround
    obtain ⟨h1, h2⟩ := abs_lt.mp hlt
    have h3 : (n : ℚ) < 2 ^ p + 1 := by linarith
    have h4 : -(2 ^ p + 1 : ℚ) < n := by linarith
    have h3' : n < 2 ^ p + 1 := by exact_mod_cast h3
    have h4' : -(2 ^ p + 1) < n := by exact_mod_cast h4
    exact abs_le.mpr ⟨by omega, by omega⟩
  have hhalf : |x - n * u| ≤ 1 / 2 * u := by
    have hscale := mul_le_mul_of_nonneg_right (abs_sub_round (x / u)) hu.le
    rwa [← hn, ← abs_of_pos hu, ← abs_mul, abs_of_pos hu, sub_mul, div_mul_cancel₀ _ hu.ne'] at hscale
  have hpow : (2 : ℚ) ^ Int.log 2 |x| ≤ |x| := (zpow_log_le (abs_pos.mpr hx)).1
  have hunit : 1 / 2 * u = 1 / 2 ^ p * 2 ^ Int.log 2 |x| := by
    have htwo := two_pow_mul_ulp p x
    rw [← hudef, zpow_add_one₀ (by norm_num)] at htwo
    field_simp
    linarith
  calc |fl x - x| = |x - fl x| := abs_sub_comm _ _
    _ ≤ |x - n * u| := h.near x _ hbits
    _ ≤ 1 / 2 * u := hhalf
    _ = 1 / 2 ^ p * 2 ^ Int.log 2 |x| := hunit
    _ ≤ 1 / 2 ^ p * |x| := mul_le_mul_of_nonneg_left hpow (by positivity)

/-! ### Any rounding to `p` bits -/

/-- **Arithmetic with `p` bits**: monotone, exact on the numbers of `p` bits, and near everywhere. -/
structure IsRounding (p : ℕ) (fl : ℚ → ℚ) : Prop where
  mono : Monotone fl
  eq_self : ∀ x, HasBits p x → fl x = x
  rounds : Rounds (1 / 2 ^ p) fl

theorem isRounding_id (p : ℕ) : IsRounding p id where
  mono := monotone_id
  eq_self _ _ := rfl
  rounds x := by
    rw [id_eq, sub_self, abs_zero]
    positivity

theorem isRounding_of_toNearest (h : ToNearest p fl) : IsRounding p fl :=
  ⟨h.mono, fun _ => h.eq_self, rounds_of_toNearest h⟩

section
variable (h : IsRounding p fl) {y : ℚ}
include h

theorem IsRounding.le_of_le (hy : HasBits p y) (hxy : x ≤ y) : fl x ≤ y :=
  (h.mono hxy).trans_eq (h.eq_self y hy)

theorem IsRounding.le_of_ge (hy : HasBits p y) (hyx : y ≤ x) : y ≤ fl x :=
  (h.eq_self y hy).symm.trans_le (h.mono hyx)

theorem IsRounding.abs_le_of_le (hy : HasBits p y) (hxy : |x| ≤ y) : |fl x| ≤ y := by
  obtain ⟨h1, h2⟩ := abs_le.mp hxy
  exact abs_le.mpr ⟨h.le_of_ge hy.neg h1, h.le_of_le hy h2⟩

theorem IsRounding.natCast {n : ℕ} (hn : n ≤ 2 ^ p) : fl n = n := by
  have hbits : HasBits p ((n : ℤ) : ℚ) :=
    hasBits_intCast (by rw [abs_of_nonneg (by omega)]; exact_mod_cast hn)
  exact_mod_cast h.eq_self _ hbits

theorem IsRounding.nonneg (hx : 0 ≤ x) : 0 ≤ fl x := h.le_of_ge ⟨0, 0, by simp, by simp⟩ hx

end

/-! ### The next number -/

/-- **The next number of `p` bits below `x`.** -/
def nextBelow (p : ℕ) (x : ℚ) : ℚ :=
  if x < 0 then x - ulp p x
  else if x = 0 then -2 ^ (-1074 : ℤ)
  else if x = 2 ^ Int.log 2 x then x - ulp p x / 2
  else x - ulp p x

/-- The next one above. -/
def nextAbove (p : ℕ) (x : ℚ) : ℚ := -nextBelow p (-x)

theorem nextBelow_lt (p : ℕ) (x : ℚ) : nextBelow p x < x := by
  have hu := ulp_pos p x
  unfold nextBelow
  split_ifs with h0 h1 h2
  · linarith
  · rw [h1]
    exact neg_neg_of_pos (zpow_pos (by norm_num) _)
  · linarith
  · linarith

theorem exists_mul_ulp (hp : 1 ≤ p) (hx : 0 < x) (h : HasBits p x) :
    ∃ n : ℤ, x = n * ulp p x ∧ 0 < n ∧ n < 2 ^ p := by
  have hu := ulp_pos p x
  have hulp : ulp p x = 2 ^ (Int.log 2 x + 1 - p : ℤ) := by rw [ulp, abs_of_pos hx]
  obtain ⟨n, hn⟩ : ∃ n : ℤ, x = n * ulp p x := by
    rw [hulp]
    rcases h.exists_mul (zpow_log_le hx).1 with hpow | hmul
    · exact ⟨2 ^ (p - 1), hpow.trans (zpow_eq_mul hp)⟩
    · exact hmul
  have hpos : (0 : ℚ) < n := pos_of_mul_pos_left (hn ▸ hx) hu.le
  have hlt : (n : ℚ) * ulp p x < 2 ^ p * ulp p x := by
    rw [← hn]
    exact (le_abs_self x).trans_lt (abs_lt_ulp p hx.ne')
  exact ⟨n, hn, by exact_mod_cast hpos, by exact_mod_cast lt_of_mul_lt_mul_right hlt hu.le⟩

theorem hasBits_nextBelow (hp : 1 ≤ p) (h : HasBits p x) : HasBits p (nextBelow p x) := by
  unfold nextBelow
  split_ifs with h0 h1 h2
  · -- one unit more, of a number that has less than `2 ^ p` of them
    obtain ⟨n, hn, hpos, hlt⟩ := exists_mul_ulp hp (neg_pos.mpr h0) h.neg
    have hneg : ulp p (-x) = ulp p x := by rw [ulp, abs_neg, ulp]
    rw [hneg] at hn
    refine ⟨-(n + 1), Int.log 2 |x| + 1 - p, ?_, ?_⟩
    · rw [abs_neg, abs_of_pos (by omega)]
      omega
    · show x - ulp p x = ((-(n + 1) : ℤ) : ℚ) * ulp p x
      push_cast
      linarith
  · exact ⟨-1, -1074, by simpa using one_le_pow₀ (by norm_num),
      by rw [Int.cast_neg, Int.cast_one, neg_one_mul]⟩
  · -- below a power of two the units are half as large
    have hx : 0 < x := lt_of_le_of_ne (not_lt.mp h0) (Ne.symm h1)
    have htwo := two_pow_mul_ulp p x
    rw [abs_of_pos hx, zpow_add_one₀ (by norm_num), ← h2] at htwo
    refine ⟨2 ^ p - 1, Int.log 2 |x| + 1 - p - 1, ?_, ?_⟩
    · have hone : (1 : ℤ) ≤ 2 ^ p := one_le_pow₀ (by norm_num)
      rw [abs_of_nonneg (by omega)]
      omega
    · rw [zpow_sub_one₀ (by norm_num)]
      show x - ulp p x / 2 = ((2 ^ p - 1 : ℤ) : ℚ) * (ulp p x * 2⁻¹)
      push_cast
      linarith
  · have hx : 0 < x := lt_of_le_of_ne (not_lt.mp h0) (Ne.symm h1)
    obtain ⟨n, hn, hpos, hlt⟩ := exists_mul_ulp hp hx h
    refine ⟨n - 1, Int.log 2 |x| + 1 - p, ?_, ?_⟩
    · rw [abs_of_nonneg (by omega)]
      omega
    · show x - ulp p x = ((n - 1 : ℤ) : ℚ) * ulp p x
      push_cast
      linarith

/-- **What was rounded is not below the next number.** -/
theorem nextBelow_le (h : ToNearest p fl) (hp : 1 ≤ p) (x : ℚ) : nextBelow p (fl x) ≤ x := by
  by_contra hlt
  have hle := h.mono (not_le.mp hlt).le
  rw [h.eq_self (hasBits_nextBelow hp (h.bits x))] at hle
  exact absurd (nextBelow_lt p (fl x)) (not_lt.mpr hle)

theorem le_nextAbove (h : ToNearest p fl) (hp : 1 ≤ p) (x : ℚ) : x ≤ nextAbove p (fl x) := by
  have hbits := (hasBits_nextBelow hp (h.bits x).neg).neg
  have hgt : fl x < nextAbove p (fl x) := by
    have := nextBelow_lt p (-fl x)
    unfold nextAbove
    linarith
  by_contra hlt
  have hle := h.mono (not_le.mp hlt).le
  rw [show fl (nextAbove p (fl x)) = nextAbove p (fl x) from h.eq_self hbits] at hle
  exact absurd hgt (not_lt.mpr hle)

end SkipZFP.Lib.Next
