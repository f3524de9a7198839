import Mathlib.Algebra.Order.Field.Rat
import Mathlib.Data.Rat.Floor
import Mathlib.Tactic.Linarith

/-! # Doubles over the rationals

A `Dbl` is a double seen as a number: a rational, an infinity or not a number. The two zeros are one.
Arithmetic takes the rounding of a finite result, `fl : ℚ → ℚ`, as its first argument: `id` for exact
arithmetic, any function for a result about every rounding. Comparisons follow IEEE 754, so that a
comparison with `nan` is false; `<` and `≤` are therefore transitive but not total. -/

namespace SkipZFP.Lib.Double

inductive Dbl where
  | nan
  | ninf
  | fin (q : ℚ)
  | pinf
deriving DecidableEq, Inhabited

namespace Dbl

/-! ### Comparisons -/

/-- `a < b`. -/
def ltb : Dbl → Dbl → Bool
  | fin a, fin b => decide (a < b)
  | ninf, fin _ => true
  | ninf, pinf => true
  | fin _, pinf => true
  | _, _ => false

/-- `a <= b`. -/
def leb : Dbl → Dbl → Bool
  | fin a, fin b => decide (a ≤ b)
  | ninf, ninf => true
  | ninf, fin _ => true
  | ninf, pinf => true
  | fin _, pinf => true
  | pinf, pinf => true
  | _, _ => false

instance : LT Dbl := ⟨fun a b => ltb a b = true⟩
instance : LE Dbl := ⟨fun a b => leb a b = true⟩
instance (a b : Dbl) : Decidable (a < b) := inferInstanceAs (Decidable (ltb a b = true))
instance (a b : Dbl) : Decidable (a ≤ b) := inferInstanceAs (Decidable (leb a b = true))

section
variable (a b : ℚ) (x : Dbl)

@[simp] theorem fin_lt_fin : fin a < fin b ↔ a < b := decide_eq_true_iff
@[simp] theorem fin_le_fin : fin a ≤ fin b ↔ a ≤ b := decide_eq_true_iff
@[simp] theorem ninf_lt_fin : ninf < fin a := rfl
@[simp] theorem ninf_lt_pinf : ninf < pinf := rfl
@[simp] theorem fin_lt_pinf : fin a < pinf := rfl
@[simp] theorem ninf_le_ninf : ninf ≤ ninf := rfl
@[simp] theorem ninf_le_fin : ninf ≤ fin a := rfl
@[simp] theorem ninf_le_pinf : ninf ≤ pinf := rfl
@[simp] theorem fin_le_pinf : fin a ≤ pinf := rfl
@[simp] theorem pinf_le_pinf : pinf ≤ pinf := rfl
@[simp] theorem not_pinf_lt : ¬ pinf < x := by cases x <;> exact Bool.false_ne_true
@[simp] theorem not_lt_ninf : ¬ x < ninf := by cases x <;> exact Bool.false_ne_true
@[simp] theorem not_nan_lt : ¬ nan < x := by cases x <;> exact Bool.false_ne_true
@[simp] theorem not_lt_nan : ¬ x < nan := by cases x <;> exact Bool.false_ne_true
@[simp] theorem not_nan_le : ¬ nan ≤ x := by cases x <;> exact Bool.false_ne_true
@[simp] theorem not_le_nan : ¬ x ≤ nan := by cases x <;> exact Bool.false_ne_true
@[simp] theorem not_pinf_le_fin : ¬ pinf ≤ fin a := Bool.false_ne_true
@[simp] theorem not_pinf_le_ninf : ¬ pinf ≤ ninf := Bool.false_ne_true
@[simp] theorem not_fin_le_ninf : ¬ fin a ≤ ninf := Bool.false_ne_true

end

theorem le_of_lt {a b : Dbl} (h : a < b) : a ≤ b := by
  cases a <;> cases b <;> simp_all
  exact h.le

theorem lt_of_lt_of_le {a b c : Dbl} (h1 : a < b) (h2 : b ≤ c) : a < c := by
  cases a <;> cases b <;> cases c <;> simp_all
  exact h1.trans_le h2

theorem lt_of_le_of_lt {a b c : Dbl} (h1 : a ≤ b) (h2 : b < c) : a < c := by
  cases a <;> cases b <;> cases c <;> simp_all
  exact h1.trans_lt h2

theorem le_trans {a b c : Dbl} (h1 : a ≤ b) (h2 : b ≤ c) : a ≤ c := by
  cases a <;> cases b <;> cases c <;> simp_all
  exact h1.trans h2

theorem le_antisymm {a b : Dbl} (h1 : a ≤ b) (h2 : b ≤ a) : a = b := by
  cases a <;> cases b <;> simp_all
  exact h1.antisymm h2

theorem le_refl {a : Dbl} (h : a ≠ nan) : a ≤ a := by
  cases a <;> simp_all

/-- Only `nan` is incomparable. -/
theorem not_lt {a b : Dbl} (ha : a ≠ nan) (hb : b ≠ nan) : ¬ a < b ↔ b ≤ a := by
  cases a <;> cases b <;> simp_all

theorem not_le {a b : Dbl} (ha : a ≠ nan) (hb : b ≠ nan) : ¬ a ≤ b ↔ b < a := by
  cases a <;> cases b <;> simp_all

theorem not_lt_of_le {a b : Dbl} (h : b ≤ a) : ¬ a < b := by
  cases a <;> cases b <;> simp_all

theorem not_le_of_lt {a b : Dbl} (h : b < a) : ¬ a ≤ b := by
  cases a <;> cases b <;> simp_all

theorem ne_nan_of_le {a b : Dbl} (h : a ≤ b) : a ≠ nan ∧ b ≠ nan := by
  constructor <;> rintro rfl <;> simp at h

theorem ne_nan_of_lt {a b : Dbl} (h : a < b) : a ≠ nan ∧ b ≠ nan := ne_nan_of_le (le_of_lt h)

theorem ne_of_lt {a b : Dbl} (h : a < b) : a ≠ b := by
  rintro rfl
  exact not_le_of_lt h (le_refl (ne_nan_of_lt h).1)

theorem le_pinf {a : Dbl} (h : a ≠ nan) : a ≤ pinf := by
  cases a <;> simp_all

theorem exists_fin_of_between {a b : ℚ} {x : Dbl} (h1 : fin a ≤ x) (h2 : x ≤ fin b) : ∃ q, x = fin q := by
  cases x with
  | fin q => exact ⟨q, rfl⟩
  | _ => simp at h1 h2

/-! ### Arithmetic -/

def neg : Dbl → Dbl
  | nan => nan
  | ninf => pinf
  | fin q => fin (-q)
  | pinf => ninf

/-- `fabs`. -/
def abs : Dbl → Dbl
  | nan => nan
  | ninf => pinf
  | fin q => fin |q|
  | pinf => pinf

def add (fl : ℚ → ℚ) : Dbl → Dbl → Dbl
  | nan, _ => nan
  | _, nan => nan
  | pinf, ninf => nan
  | ninf, pinf => nan
  | pinf, _ => pinf
  | _, pinf => pinf
  | ninf, _ => ninf
  | _, ninf => ninf
  | fin a, fin b => fin (fl (a + b))

def sub (fl : ℚ → ℚ) (a b : Dbl) : Dbl := add fl a (neg b)

/-- An infinity of the sign of `q`, `nan` for zero. -/
def infOf (q : ℚ) : Dbl := if 0 < q then pinf else if q < 0 then ninf else nan

def mul (fl : ℚ → ℚ) : Dbl → Dbl → Dbl
  | nan, _ => nan
  | _, nan => nan
  | pinf, pinf => pinf
  | ninf, ninf => pinf
  | pinf, ninf => ninf
  | ninf, pinf => ninf
  | pinf, fin q => infOf q
  | ninf, fin q => infOf (-q)
  | fin q, pinf => infOf q
  | fin q, ninf => infOf (-q)
  | fin a, fin b => fin (fl (a * b))

/-- Division; the divisor zero counts as `+0`. -/
def div (fl : ℚ → ℚ) : Dbl → Dbl → Dbl
  | nan, _ => nan
  | _, nan => nan
  | fin a, fin b => if b = 0 then infOf a else fin (fl (a / b))
  | fin _, _ => fin 0
  | pinf, fin b => if b < 0 then ninf else pinf
  | ninf, fin b => if b < 0 then pinf else ninf
  | _, _ => nan

section
variable (fl : ℚ → ℚ) (a b : ℚ)

@[simp] theorem neg_fin : neg (fin a) = fin (-a) := rfl
@[simp] theorem abs_fin : abs (fin a) = fin |a| := rfl
@[simp] theorem add_fin : add fl (fin a) (fin b) = fin (fl (a + b)) := rfl
@[simp] theorem sub_fin : sub fl (fin a) (fin b) = fin (fl (a - b)) := by
  rw [sub, neg_fin, add_fin, sub_eq_add_neg]
@[simp] theorem mul_fin : mul fl (fin a) (fin b) = fin (fl (a * b)) := rfl
theorem div_fin {b : ℚ} (hb : b ≠ 0) : div fl (fin a) (fin b) = fin (fl (a / b)) := if_neg hb
@[simp] theorem add_fin_pinf : add fl (fin a) pinf = pinf := rfl
@[simp] theorem sub_fin_pinf : sub fl (fin a) pinf = ninf := rfl
@[simp] theorem add_fin_nan : add fl (fin a) nan = nan := rfl
@[simp] theorem sub_fin_nan : sub fl (fin a) nan = nan := rfl

end

/-- The rational of a finite double, zero otherwise. -/
def toRat : Dbl → ℚ
  | fin q => q
  | _ => 0

@[simp] theorem toRat_fin (q : ℚ) : toRat (fin q) = q := rfl

end Dbl

end SkipZFP.Lib.Double
