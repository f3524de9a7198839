import Mathlib.Algebra.Order.Field.Rat
import Mathlib.Data.Rat.Floor
import Mathlib.Tactic.FieldSimp
import Mathlib.Tactic.Linarith
import Mathlib.Tactic.Positivity
import Mathlib.Tactic.Ring

/-! # Levels of an interval

An interval `[lo, hi]` of rationals is divided into `n` equal steps, with the levels `0, …, n` at their
ends. `quantDown` and `quantUp` are the last level not above and the first level not below a number of
the interval (`level_quantDown_le`, `le_level_quantUp`), and they are numbers from `0` to `n`. An
interval of length zero has its one number at every level. -/

namespace SkipZFP.Lib.Levels

/-- The number at level `k`. -/
def level (n lo hi k : ℚ) : ℚ := lo + k / n * (hi - lo)

def quantDown (n lo hi x : ℚ) : ℤ := ⌊(x - lo) * (n / (hi - lo))⌋

def quantUp (n lo hi x : ℚ) : ℤ := ⌈(x - lo) * (n / (hi - lo))⌉

variable {n lo hi x : ℚ}

theorem level_self (n lo k : ℚ) : level n lo lo k = lo := by simp [level]

theorem level_mono {k k' : ℚ} (hn : 0 < n) (h : lo ≤ hi) (hk : k ≤ k') :
    level n lo hi k ≤ level n lo hi k' := by
  unfold level
  have h1 : k / n ≤ k' / n := div_le_div_of_nonneg_right hk hn.le
  have h2 : k / n * (hi - lo) ≤ k' / n * (hi - lo) := mul_le_mul_of_nonneg_right h1 (by linarith)
  linarith

theorem level_scaled (hn : 0 < n) (h : lo < hi) : level n lo hi ((x - lo) * (n / (hi - lo))) = x := by
  have h1 : hi - lo ≠ 0 := by linarith
  unfold level
  field_simp
  ring

section
variable (hn : 0 < n) (h1 : lo ≤ x) (h2 : x ≤ hi)
include hn h1 h2

theorem scaled_nonneg : 0 ≤ (x - lo) * (n / (hi - lo)) :=
  mul_nonneg (by linarith) (div_nonneg hn.le (by linarith))

theorem scaled_le : (x - lo) * (n / (hi - lo)) ≤ n := by
  rcases eq_or_lt_of_le (h1.trans h2) with h | h
  · rw [h, sub_self, div_zero, mul_zero]; exact hn.le
  · rw [← mul_div_assoc, div_le_iff₀ (by linarith), mul_comm]
    exact mul_le_mul_of_nonneg_left (by linarith) hn.le

theorem quantDown_nonneg : 0 ≤ quantDown n lo hi x := Int.floor_nonneg.mpr (scaled_nonneg hn h1 h2)

theorem quantUp_nonneg : 0 ≤ quantUp n lo hi x :=
  (quantDown_nonneg hn h1 h2).trans (Int.floor_le_ceil _)

theorem level_quantDown_le : level n lo hi (quantDown n lo hi x) ≤ x := by
  rcases eq_or_lt_of_le (h1.trans h2) with h | h
  · subst h; rw [level_self]; exact h1
  · calc level n lo hi (quantDown n lo hi x)
        ≤ level n lo hi ((x - lo) * (n / (hi - lo))) := level_mono hn h.le (Int.floor_le _)
      _ = x := level_scaled hn h

theorem le_level_quantUp : x ≤ level n lo hi (quantUp n lo hi x) := by
  rcases eq_or_lt_of_le (h1.trans h2) with h | h
  · subst h; rw [level_self]; exact h2
  · calc x = level n lo hi ((x - lo) * (n / (hi - lo))) := (level_scaled hn h).symm
      _ ≤ level n lo hi (quantUp n lo hi x) := level_mono hn h.le (Int.le_ceil _)

end

theorem quantDown_le {m : ℕ} (hm : 0 < m) (h1 : lo ≤ x) (h2 : x ≤ hi) : quantDown m lo hi x ≤ m := by
  have hn : (0 : ℚ) < m := by exact_mod_cast hm
  have h := (Int.floor_le _).trans (scaled_le hn h1 h2)
  exact_mod_cast h

theorem quantUp_le {m : ℕ} (hm : 0 < m) (h1 : lo ≤ x) (h2 : x ≤ hi) : quantUp m lo hi x ≤ m := by
  have hn : (0 : ℚ) < m := by exact_mod_cast hm
  exact Int.ceil_le.mpr (by exact_mod_cast scaled_le hn h1 h2)

end SkipZFP.Lib.Levels
