import Mathlib.Algebra.Order.Ring.Pow
import Mathlib.Algebra.Order.Field.Rat
import Mathlib.Tactic.Linarith
import Mathlib.Tactic.Positivity
import Mathlib.Tactic.Ring

/-! # Rounding with a relative error

`Rounds u fl` says that `fl` moves a number by at most the fraction `u` of it. A product of numbers that
are not negative keeps its sign and gains a factor between `1 - u` and `1 + u` with every rounding; a sum
moves by at most `u` times its magnitude. -/

namespace SkipZFP.Lib.Rounding

/-- **Rounding with relative error `u`.** -/
def Rounds (u : ℚ) (fl : ℚ → ℚ) : Prop := ∀ x, |fl x - x| ≤ u * |x|

section
variable {u : ℚ} {fl : ℚ → ℚ} (h : Rounds u fl)
include h

theorem Rounds.of_nonneg {x : ℚ} (hx : 0 ≤ x) : (1 - u) * x ≤ fl x ∧ fl x ≤ (1 + u) * x := by
  have := abs_le.mp (h x)
  rw [abs_of_nonneg hx] at this
  constructor <;> linarith [this.1, this.2]

/-- A rounded number is between two multiples of what bounds the number. -/
theorem Rounds.bounds {x a b : ℚ} (hu0 : 0 ≤ u) (hu1 : u ≤ 1) (ha : 0 ≤ a) (h1 : a ≤ x) (h2 : x ≤ b) :
    (1 - u) * a ≤ fl x ∧ fl x ≤ (1 + u) * b ∧ 0 ≤ fl x := by
  obtain ⟨hl, hr⟩ := h.of_nonneg (ha.trans h1)
  have h3 : (1 - u) * a ≤ (1 - u) * x := mul_le_mul_of_nonneg_left h1 (by linarith)
  have h4 : (1 + u) * x ≤ (1 + u) * b := mul_le_mul_of_nonneg_left h2 (by linarith)
  have h5 : 0 ≤ (1 - u) * a := mul_nonneg (by linarith) ha
  exact ⟨h3.trans hl, hr.trans h4, h5.trans (h3.trans hl)⟩

/-- Rounding moves an upper bound by at most `u` times its magnitude. -/
theorem Rounds.le_of_le {x y : ℚ} (hu0 : 0 ≤ u) (hu1 : u ≤ 1) (hxy : x ≤ y) : fl x ≤ y + u * |y| := by
  have hfl := (abs_le.mp (h x)).2
  have habs : |x| ≤ |y| + (y - x) := by
    rw [← abs_of_nonneg (sub_nonneg.mpr hxy), abs_sub_comm]
    linarith [abs_sub_abs_le_abs_sub x y]
  have h1 : u * |x| ≤ u * |y| + u * (y - x) := by
    rw [← mul_add]
    exact mul_le_mul_of_nonneg_left habs hu0
  have h2 : u * (y - x) ≤ y - x := mul_le_of_le_one_left (sub_nonneg.mpr hxy) hu1
  linarith

end

/-- Five roundings of a product gain less than six units. -/
theorem one_add_pow_five_le {u : ℚ} (hu0 : 0 ≤ u) (hu : u ≤ 1 / 1000) : (1 + u) ^ 5 ≤ 1 + 6 * u := by
  have h2 : u ^ 2 ≤ (1 / 1000) ^ 2 := pow_le_pow_left₀ hu0 hu 2
  have h3 : u ^ 3 ≤ (1 / 1000) ^ 3 := pow_le_pow_left₀ hu0 hu 3
  have h4 : u ^ 4 ≤ (1 / 1000) ^ 4 := pow_le_pow_left₀ hu0 hu 4
  calc (1 + u) ^ 5 = 1 + 5 * u + u * (10 * u + 10 * u ^ 2 + 5 * u ^ 3 + u ^ 4) := by ring
    _ ≤ 1 + 5 * u + u * 1 := by
      refine add_le_add le_rfl (mul_le_mul_of_nonneg_left ?_ hu0)
      linarith
    _ = 1 + 6 * u := by ring

/-- They lose at most five. -/
theorem one_sub_pow_five_ge {u : ℚ} (hu : u ≤ 1 / 1000) : 1 - 5 * u ≤ (1 - u) ^ 5 := by
  have := one_add_mul_le_pow (a := -u) (by linarith) 5
  push_cast at this
  linarith

end SkipZFP.Lib.Rounding
