import Mathlib.Algebra.BigOperators.Group.List.Lemmas
import Mathlib.Algebra.Order.Group.Abs
import SkipZFP.Lib.Rounding

/-! # Sums of rounded numbers

A loop that adds numbers one by one and rounds every sum is off by the fraction `(1 + u) ^ (n - 1) - 1` of
the sum of their magnitudes: the first number is added to zero and is not rounded. `Summed` is the
invariant of such a loop.

An error bound that is computed is rounded itself. `Widened` says of two rounded sums that a computed
bound covers their errors, with room for three more roundings; it is kept by addition.

* `Summed.add`: **one more number**.
* `lower_add`: a rounded sum of numbers that are not negative is not much too small.
* `slack_le`: the inequality that `n + 2` units are enough for `n` numbers.
* `Summed.widened`: **the bound `(n + 2) u t` covers two sums of `n` numbers in all**.
* `Widened.sum`, `Widened.lower`, `Widened.upper`: **all sums together, as they are combined**. -/

namespace SkipZFP.Lib.Summation

open SkipZFP.Lib.Rounding

variable {u : ℚ} {fl : ℚ → ℚ}

/-- **A sum of `n` numbers** that was rounded to `x`: the exact sum is `s`, and `t` bounds the sum of the
magnitudes. -/
structure Summed (u : ℚ) (n : ℕ) (x s t : ℚ) : Prop where
  start : n = 0 → x = 0
  abs_le : |s| ≤ t
  near : |x - s| ≤ ((1 + u) ^ (n - 1) - 1) * t

theorem Summed.zero (u : ℚ) : Summed u 0 0 0 0 where
  start _ := rfl
  abs_le := by simp
  near := by simp

section Summed
variable {n n' : ℕ} {x s t y b : ℚ}

theorem Summed.nonneg (h : Summed u n x s t) : 0 ≤ t := (abs_nonneg s).trans h.abs_le

theorem Summed.add (hfl : Rounds u fl) (hu : 0 ≤ u) (h : Summed u n x s t) (hy : fl y = y)
    (hb : |y| ≤ b) : Summed u (n + 1) (fl (x + y)) (s + y) (t + b) := by
  refine ⟨fun h0 => absurd h0 (Nat.succ_ne_zero n), (abs_add_le s y).trans (add_le_add h.abs_le hb), ?_⟩
  cases n with
  | zero =>
    -- the first number is kept
    have hs := h.near
    rw [h.start rfl, Nat.zero_sub, pow_zero, sub_self, zero_mul, zero_sub, abs_neg] at hs
    have hs0 : s = 0 := abs_nonpos_iff.mp hs
    rw [h.start rfl, hs0, zero_add, hy, sub_self, abs_zero, zero_add, Nat.sub_self, pow_zero, sub_self,
      zero_mul]
  | succ n =>
    have hnear := h.near
    simp only [Nat.add_sub_cancel] at hnear ⊢
    set g := (1 + u) ^ n with hg
    have hg1 : 1 ≤ g := one_le_pow₀ (by linarith)
    have hround := hfl (x + y)
    have hsize : |x + y| ≤ (g - 1) * t + t + b :=
      calc |x + y| = |(x - s) + s + y| := by ring_nf
        _ ≤ |x - s| + |s| + |y| := (abs_add_le _ _).trans (add_le_add (abs_add_le _ _) le_rfl)
        _ ≤ (g - 1) * t + t + b := add_le_add (add_le_add hnear h.abs_le) hb
    calc |fl (x + y) - (s + y)| = |(fl (x + y) - (x + y)) + (x - s)| := by ring_nf
      _ ≤ u * |x + y| + (g - 1) * t := (abs_add_le _ _).trans (add_le_add hround hnear)
      _ ≤ u * ((g - 1) * t + t + b) + (g - 1) * t :=
        add_le_add (mul_le_mul_of_nonneg_left hsize hu) le_rfl
      _ ≤ (g * (1 + u) - 1) * (t + b) := by
        have hb0 : 0 ≤ b := (abs_nonneg y).trans hb
        nlinarith [mul_nonneg (mul_nonneg (sub_nonneg.mpr hg1) (by linarith : 0 ≤ 1 + u)) hb0]
      _ = ((1 + u) ^ (n + 1) - 1) * (t + b) := by rw [pow_succ]

theorem Summed.near_le (h : Summed u n x s t) (hu : 0 ≤ u) (hn : n ≤ n') :
    |x - s| ≤ ((1 + u) ^ (n' - 1) - 1) * t := by
  refine h.near.trans (mul_le_mul_of_nonneg_right (sub_le_sub_right ?_ 1) h.nonneg)
  exact pow_le_pow_right₀ (by linarith) (by omega)

theorem Summed.abs_rounded_le (h : Summed u n x s t) (hu : 0 ≤ u) (hn : n ≤ n') :
    |x| ≤ (1 + u) ^ (n' - 1) * t :=
  calc |x| = |(x - s) + s| := by ring_nf
    _ ≤ ((1 + u) ^ (n' - 1) - 1) * t + t := (abs_add_le _ _).trans (add_le_add (h.near_le hu hn) h.abs_le)
    _ = (1 + u) ^ (n' - 1) * t := by ring

/-- **A rounded sum of numbers that are not negative** is not much too small. -/
theorem lower_add (hfl : Rounds u fl) (hu0 : 0 ≤ u) (hu1 : u ≤ 1) {e : ℕ} (he : 1 ≤ e) (ht : 0 ≤ t)
    (hb : 0 ≤ b) (hx : (1 - u) ^ e * t ≤ x) : (1 - u) ^ (e + 1) * (t + b) ≤ fl (x + fl b) := by
  have hpow : (1 - u) ^ e ≤ (1 - u) ^ 1 := pow_le_pow_of_le_one (by linarith) (by linarith) he
  have hterm : (1 - u) ^ e * b ≤ fl b := by
    refine le_trans ?_ (hfl.of_nonneg hb).1
    exact mul_le_mul_of_nonneg_right (by rwa [pow_one] at hpow) hb
  have hsum : (1 - u) ^ e * (t + b) ≤ x + fl b := by
    rw [mul_add]
    exact add_le_add hx hterm
  have h0 : 0 ≤ (1 - u) ^ e * (t + b) := mul_nonneg (pow_nonneg (by linarith) e) (add_nonneg ht hb)
  calc (1 - u) ^ (e + 1) * (t + b) = (1 - u) * ((1 - u) ^ e * (t + b)) := by ring
    _ ≤ fl (x + fl b) := (hfl.bounds hu0 hu1 h0 hsum le_rfl).1

end Summed

/-! ### The error bound -/

/-- What `n` roundings add, at most. -/
theorem one_add_pow_sub_one_le (hu : 0 ≤ u) (n : ℕ) : (1 + u) ^ n - 1 ≤ n * u * (1 + u) ^ n := by
  induction n with
  | zero => simp
  | succ n ih =>
    have h1 : 1 ≤ (1 + u) ^ (n + 1) := one_le_pow₀ (by linarith)
    calc (1 + u) ^ (n + 1) - 1 = ((1 + u) ^ n - 1) * (1 + u) + u * 1 := by ring
      _ ≤ n * u * (1 + u) ^ n * (1 + u) + u * (1 + u) ^ (n + 1) :=
        add_le_add (mul_le_mul_of_nonneg_right ih (by linarith)) (mul_le_mul_of_nonneg_left h1 hu)
      _ = ((n + 1 : ℕ) : ℚ) * u * (1 + u) ^ (n + 1) := by
        push_cast
        ring

/-- **`n + 2` units are enough** for `n` numbers and four roundings, as long as `n ^ 2` units are below
one half. -/
theorem slack_le (hu : 0 ≤ u) {n : ℕ} (h : 2 * ((n : ℚ) + 3) ^ 2 * u ≤ 1) :
    ((n : ℚ) + 1) * (1 + u) ^ (n + 1) ≤ ((n : ℚ) + 2) * (1 - u) ^ (n + 5) := by
  have hn : (0 : ℚ) ≤ n := Nat.cast_nonneg n
  have hu1 : u ≤ 1 := by nlinarith
  have hup : 0 ≤ (1 + u) ^ (n + 1) := pow_nonneg (by linarith) _
  have hlow : 0 ≤ (1 - u) ^ (n + 5) := pow_nonneg (by linarith) _
  have hbern : 1 - (2 * n + 6) * u ≤ (1 - u) ^ (2 * n + 6) := by
    have := one_add_mul_le_pow (a := -u) (by linarith) (2 * n + 6)
    push_cast at this
    rw [← sub_eq_add_neg] at this
    linarith
  have hsq : (1 - u) ^ (n + 1) * (1 + u) ^ (n + 1) ≤ 1 := by
    rw [← mul_pow]
    exact pow_le_one₀ (by nlinarith) (by nlinarith)
  calc ((n : ℚ) + 1) * (1 + u) ^ (n + 1)
      ≤ ((n : ℚ) + 2) * (1 - (2 * n + 6) * u) * (1 + u) ^ (n + 1) :=
        mul_le_mul_of_nonneg_right (by nlinarith) hup
    _ ≤ ((n : ℚ) + 2) * (1 - u) ^ (2 * n + 6) * (1 + u) ^ (n + 1) :=
        mul_le_mul_of_nonneg_right (mul_le_mul_of_nonneg_left hbern (by linarith)) hup
    _ = ((n : ℚ) + 2) * (1 - u) ^ (n + 5) * ((1 - u) ^ (n + 1) * (1 + u) ^ (n + 1)) := by
        rw [show 2 * n + 6 = (n + 5) + (n + 1) by omega, pow_add]
        ring
    _ ≤ ((n : ℚ) + 2) * (1 - u) ^ (n + 5) * 1 :=
        mul_le_mul_of_nonneg_left hsq (mul_nonneg (by linarith) hlow)
    _ = ((n : ℚ) + 2) * (1 - u) ^ (n + 5) := mul_one _

/-- **A bound `l` that covers the errors of two sums**, `x` of `s` and `y` of `m`, with room for three
more roundings of `x`, one of `y` and two of the bound. -/
structure Widened (u x s y m l : ℚ) : Prop where
  nonneg : 0 ≤ l
  covers : |x - s| + |y - m| + u * (2 + u) * |x| + u * |y| ≤ (1 - u) ^ 2 * l

/-- The errors of two sums of at most `n` numbers in all, and of their roundings. -/
theorem Summed.errors_le {n a b : ℕ} {x s y m t t' r : ℚ} (hu : 0 ≤ u) (hn : 1 ≤ n) (hx : Summed u a x s t)
    (hy : Summed u b y m t') (ha : a ≤ n) (hb : b ≤ n) (hr : 0 ≤ r) (ht : t + t' ≤ (1 + u) * r) :
    |x - s| + |y - m| + u * (2 + u) * |x| + u * |y| ≤ u * (((n : ℚ) + 1) * (1 + u) ^ (n + 1)) * r := by
  have ht0 := hx.nonneg
  have ht0' := hy.nonneg
  have hn1 : (1 : ℚ) ≤ n := by exact_mod_cast hn
  set g := (1 + u) ^ (n - 1) with hg
  have hgn : (1 + u) ^ (n + 1) = g * (1 + u) ^ 2 := by
    rw [hg, ← pow_add]
    congr 1
    omega
  have hg1 : 1 ≤ g := one_le_pow₀ (by linarith)
  have hug : 0 ≤ u * g := mul_nonneg hu (by linarith)
  have herr : g - 1 ≤ ((n : ℚ) - 1) * u * g := by
    have := one_add_pow_sub_one_le hu (n - 1)
    rwa [Nat.cast_sub hn, Nat.cast_one] at this
  have hxy : |x - s| + |y - m| ≤ (g - 1) * t + (g - 1) * t' :=
    add_le_add (hx.near_le hu ha) (hy.near_le hu hb)
  have hround : u * (2 + u) * |x| ≤ u * (2 + u) * (g * t) :=
    mul_le_mul_of_nonneg_left (hx.abs_rounded_le hu ha) (mul_nonneg hu (by linarith))
  have hround' : u * |y| ≤ u * (2 + u) * (g * t') :=
    calc u * |y| ≤ u * (g * t') := mul_le_mul_of_nonneg_left (hy.abs_rounded_le hu hb) hu
      _ ≤ u * (2 + u) * (g * t') :=
        mul_le_mul_of_nonneg_right (by nlinarith) (mul_nonneg (by linarith) ht0')
  calc |x - s| + |y - m| + u * (2 + u) * |x| + u * |y|
      ≤ ((g - 1) + u * (2 + u) * g) * (t + t') := by linarith
    _ ≤ (((n : ℚ) - 1) * u * g + u * (2 + u) * g) * ((1 + u) * r) := by
        refine mul_le_mul (add_le_add herr le_rfl) ht (add_nonneg ht0 ht0') ?_
        have := mul_nonneg (sub_nonneg.mpr hn1) hug
        nlinarith
    _ ≤ u * (((n : ℚ) + 1) * (g * (1 + u) ^ 2)) * r := by
        have hkey : (((n : ℚ) - 1) + (2 + u)) * (1 + u) ≤ ((n : ℚ) + 1) * (1 + u) ^ 2 := by nlinarith
        have := mul_le_mul_of_nonneg_left hkey (mul_nonneg hug hr)
        linarith
    _ = u * (((n : ℚ) + 1) * (1 + u) ^ (n + 1)) * r := by rw [hgn]

/-- **The bound `(n + 2) u t` covers two sums** of at most `n` numbers in all, when it is rounded down by
no more than `(1 - u) ^ (n + 3)`. -/
theorem Summed.widened {n a b : ℕ} {x s y m t t' r l : ℚ} (hu : 0 ≤ u) (hn : 2 * ((n : ℚ) + 3) ^ 2 * u ≤ 1)
    (hx : Summed u a x s t) (hy : Summed u b y m t') (ha : a ≤ n) (hb : b ≤ n) (ht : t + t' ≤ (1 + u) * r)
    (hl : ((n : ℚ) + 2) * u * (1 - u) ^ (n + 3) * r ≤ l) : Widened u x s y m l := by
  have hn0 : (0 : ℚ) ≤ n := Nat.cast_nonneg n
  have hu1 : u ≤ 1 := by nlinarith
  have hr : 0 ≤ r := nonneg_of_mul_nonneg_right ((add_nonneg hx.nonneg hy.nonneg).trans ht) (by linarith)
  have hl0 : 0 ≤ l := le_trans (mul_nonneg (mul_nonneg (mul_nonneg (by linarith) hu)
    (pow_nonneg (by linarith) _)) hr) hl
  refine ⟨hl0, ?_⟩
  rcases Nat.eq_zero_or_pos n with rfl | hpos
  · -- no numbers at all
    obtain rfl : a = 0 := by omega
    obtain rfl : b = 0 := by omega
    have h1 := hx.near
    have h2 := hy.near
    rw [Nat.zero_sub, pow_zero, sub_self, zero_mul] at h1 h2
    rw [hx.start rfl] at h1 ⊢
    rw [hy.start rfl] at h2 ⊢
    rw [abs_zero, mul_zero, mul_zero, add_zero, add_zero]
    have := mul_nonneg (pow_nonneg (sub_nonneg.mpr hu1) 2) hl0
    linarith
  calc |x - s| + |y - m| + u * (2 + u) * |x| + u * |y|
      ≤ u * (((n : ℚ) + 1) * (1 + u) ^ (n + 1)) * r := hx.errors_le hu hpos hy ha hb hr ht
    _ ≤ u * (((n : ℚ) + 2) * (1 - u) ^ (n + 5)) * r :=
        mul_le_mul_of_nonneg_right (mul_le_mul_of_nonneg_left (slack_le hu hn) hu) hr
    _ = (1 - u) ^ 2 * (((n : ℚ) + 2) * u * (1 - u) ^ (n + 3) * r) := by ring
    _ ≤ (1 - u) ^ 2 * l := mul_le_mul_of_nonneg_left hl (pow_nonneg (by linarith) 2)

section Widened
variable {x s y m l x' s' y' m' l' : ℚ}

theorem Widened.zero (u : ℚ) : Widened u 0 0 0 0 0 := ⟨le_rfl, by simp⟩

theorem Widened.add (hu : 0 ≤ u) (h : Widened u x s y m l) (h' : Widened u x' s' y' m' l') :
    Widened u (x + x') (s + s') (y + y') (m + m') (l + l') := by
  refine ⟨add_nonneg h.nonneg h'.nonneg, ?_⟩
  have h1 : |x + x' - (s + s')| ≤ |x - s| + |x' - s'| := by
    rw [add_sub_add_comm]
    exact abs_add_le _ _
  have h2 : |y + y' - (m + m')| ≤ |y - m| + |y' - m'| := by
    rw [add_sub_add_comm]
    exact abs_add_le _ _
  have h3 : u * (2 + u) * |x + x'| ≤ u * (2 + u) * (|x| + |x'|) :=
    mul_le_mul_of_nonneg_left (abs_add_le _ _) (mul_nonneg hu (by linarith))
  have h4 : u * |y + y'| ≤ u * (|y| + |y'|) := mul_le_mul_of_nonneg_left (abs_add_le _ _) hu
  have := add_le_add h.covers h'.covers
  linarith

theorem Widened.sum {ι : Type*} {x s y m l : ι → ℚ} (hu : 0 ≤ u) {is : List ι}
    (h : ∀ i ∈ is, Widened u (x i) (s i) (y i) (m i) (l i)) :
    Widened u (is.map x).sum (is.map s).sum (is.map y).sum (is.map m).sum (is.map l).sum := by
  induction is with
  | nil => exact .zero u
  | cons i is ih =>
    simp only [List.map_cons, List.sum_cons]
    exact (h i List.mem_cons_self).add hu (ih fun j hj => h j (List.mem_cons_of_mem i hj))

theorem Widened.left (hu : 0 ≤ u) (h : Widened u x s y m l) : Widened u x s 0 0 l := by
  refine ⟨h.nonneg, ?_⟩
  have := h.covers
  have := mul_nonneg hu (abs_nonneg y)
  have := abs_nonneg (y - m)
  rw [sub_zero, abs_zero, mul_zero]
  linarith

variable (hfl : Rounds u fl) (hu0 : 0 ≤ u) (hu1 : u ≤ 1)
include hfl hu0 hu1

/-- **The bound covers all roundings**, also those of combining it with the first sum. -/
theorem Widened.abs_sub_le (h : Widened u x s y m l) {c : ℚ} (hc : |c| = fl l) :
    |fl (fl x + c) + fl y - (s + m + c)| ≤ fl l := by
  have hl := (hfl.of_nonneg h.nonneg).1
  have hsize : |fl x + c| ≤ (1 + u) * |x| + fl l := by
    have h1 : |fl x| ≤ |fl x - x| + |x| := by simpa using abs_add_le (fl x - x) x
    have h2 := abs_add_le (fl x) c
    rw [hc] at h2
    linarith [hfl x]
  have hround : |fl (fl x + c) - (fl x + c)| ≤ u * ((1 + u) * |x| + fl l) :=
    (hfl _).trans (mul_le_mul_of_nonneg_left hsize hu0)
  have hbound : (1 - u) * ((1 - u) * l) ≤ (1 - u) * fl l := mul_le_mul_of_nonneg_left hl (by linarith)
  calc |fl (fl x + c) + fl y - (s + m + c)|
      = |(fl (fl x + c) - (fl x + c)) + (fl x - x) + (x - s) + ((fl y - y) + (y - m))| := by ring_nf
    _ ≤ |fl (fl x + c) - (fl x + c)| + |fl x - x| + |x - s| + (|fl y - y| + |y - m|) :=
        (abs_add_le _ _).trans (add_le_add ((abs_add_le _ _).trans (add_le_add (abs_add_le _ _) le_rfl))
          (abs_add_le _ _))
    _ ≤ u * ((1 + u) * |x| + fl l) + u * |x| + |x - s| + (u * |y| + |y - m|) :=
        add_le_add (add_le_add (add_le_add hround (hfl x)) le_rfl) (add_le_add (hfl y) le_rfl)
    _ ≤ fl l := by linarith [h.covers]

theorem Widened.lower (h : Widened u x s y m l) : fl (fl x - fl l) + fl y ≤ s + m := by
  have hl := (hfl.bounds hu0 hu1 le_rfl h.nonneg (le_refl l)).2.2
  have := (abs_le.mp (h.abs_sub_le hfl hu0 hu1 (c := -fl l) (by rw [abs_neg, abs_of_nonneg hl]))).2
  rw [← sub_eq_add_neg] at this
  linarith

theorem Widened.upper (h : Widened u x s y m l) : s + m ≤ fl (fl x + fl l) + fl y := by
  have hl := (hfl.bounds hu0 hu1 le_rfl h.nonneg (le_refl l)).2.2
  have := (abs_le.mp (h.abs_sub_le hfl hu0 hu1 (abs_of_nonneg hl))).1
  linarith

end Widened

end SkipZFP.Lib.Summation
