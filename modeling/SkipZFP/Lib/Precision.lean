import Mathlib.Algebra.Order.Archimedean.Basic
import Mathlib.Algebra.Ring.Int.Parity
import Mathlib.Data.Int.Log
import Mathlib.Data.Rat.Floor
import Mathlib.Tactic.FieldSimp
import Mathlib.Tactic.Linarith
import Mathlib.Tactic.Positivity
import Mathlib.Tactic.Ring
import SkipZFP.Lib.Neighbour

/-! # Rounding to a number of bits

`HasBits p` are the numbers of `p` significant bits, with exponents of any size. `ToNearest p` are the
roundings to a nearest one, whatever they do with a tie; `roundEven p` takes the even one.

* `ToNearest.mono` and `ToNearest.eq_self`: a rounding to nearest is monotone and keeps what has `p` bits.
* `toNearest_roundEven`: `roundEven` is one.
* `roundEven_le_iff`: what is rounded to a number of fewer bits, or below it.
* `hasBits_val`: a float32 has 24 bits. -/

namespace SkipZFP.Lib.Precision

/-! ### The nearest integer -/

/-- The integer nearest to `y`, of two the even one. -/
def nearestEven (y : ℚ) : ℤ :=
  if y - ⌊y⌋ < 1 / 2 then ⌊y⌋
  else if 1 / 2 < y - ⌊y⌋ then ⌊y⌋ + 1
  else if Even ⌊y⌋ then ⌊y⌋
  else ⌊y⌋ + 1

theorem floor_le_nearestEven (y : ℚ) : ⌊y⌋ ≤ nearestEven y ∧ nearestEven y ≤ ⌊y⌋ + 1 := by
  unfold nearestEven
  split_ifs <;> omega

/-- **What is rounded to `k` or below.** -/
theorem nearestEven_le_iff {y : ℚ} {k : ℤ} :
    nearestEven y ≤ k ↔ y < k + 1 / 2 ∨ (y = k + 1 / 2 ∧ Even k) := by
  have h1 := Int.floor_le y
  have h2 := Int.lt_floor_add_one y
  obtain ⟨hlo, hhi⟩ := floor_le_nearestEven y
  rcases lt_trichotomy k ⌊y⌋ with hk | rfl | hk
  · have hk' : (k : ℚ) + 1 ≤ ⌊y⌋ := by exact_mod_cast hk
    refine ⟨fun h => by omega, ?_⟩
    rintro (h | ⟨h, -⟩) <;> linarith
  · unfold nearestEven
    split_ifs with h h' heven
    · exact ⟨fun _ => Or.inl (by linarith), fun _ => le_rfl⟩
    · refine ⟨fun hle => by omega, ?_⟩
      rintro (hlt | ⟨heq, -⟩) <;> linarith
    · exact ⟨fun _ => Or.inr ⟨by linarith, heven⟩, fun _ => le_rfl⟩
    · refine ⟨fun hle => by omega, ?_⟩
      rintro (hlt | ⟨-, he⟩)
      · linarith
      · exact absurd he heven
  · have hk' : (⌊y⌋ : ℚ) + 1 ≤ k := by exact_mod_cast hk
    exact ⟨fun _ => Or.inl (by linarith), fun _ => by omega⟩

theorem abs_sub_nearestEven_le (y : ℚ) (k : ℤ) : |y - nearestEven y| ≤ |y - k| := by
  have h1 := Int.floor_le y
  have h2 := Int.lt_floor_add_one y
  have hhalf : |y - nearestEven y| ≤ 1 / 2 := by
    unfold nearestEven
    rw [abs_le]
    split_ifs <;> push_cast <;> constructor <;> linarith
  by_cases hk : k = nearestEven y
  · rw [hk]
  · -- another integer is one apart, so the half of it is not nearer
    have hone : (1 : ℚ) ≤ |(nearestEven y : ℚ) - k| := by
      have : 1 ≤ |nearestEven y - k| := Int.one_le_abs (sub_ne_zero.mpr (Ne.symm hk))
      exact_mod_cast this
    have htri := abs_sub_le (nearestEven y : ℚ) y k
    rw [abs_sub_comm (nearestEven y : ℚ) y] at htri
    linarith

/-! ### Numbers of `p` bits -/

/-- **A number of `p` significant bits.** -/
def HasBits (p : ℕ) (x : ℚ) : Prop := ∃ m s : ℤ, |m| ≤ 2 ^ p ∧ x = m * 2 ^ s

/-- **A rounding to a nearest number of `p` bits.** -/
structure ToNearest (p : ℕ) (fl : ℚ → ℚ) : Prop where
  bits : ∀ x, HasBits p (fl x)
  near : ∀ x y, HasBits p y → |x - fl x| ≤ |x - y|

section Bits
variable {p : ℕ} {x y : ℚ}

theorem HasBits.mono {p' : ℕ} (h : HasBits p x) (hp : p ≤ p') : HasBits p' x := by
  obtain ⟨m, s, hm, rfl⟩ := h
  exact ⟨m, s, hm.trans (pow_le_pow_right₀ (by norm_num) hp), rfl⟩

theorem HasBits.neg (h : HasBits p x) : HasBits p (-x) := by
  obtain ⟨m, s, hm, rfl⟩ := h
  exact ⟨-m, s, by rwa [abs_neg], by push_cast; ring⟩

theorem HasBits.abs (h : HasBits p x) : HasBits p |x| := by
  rcases abs_choice x with hx | hx <;> rw [hx]
  · exact h
  · exact h.neg

theorem hasBits_intCast {k : ℤ} (h : |k| ≤ 2 ^ p) : HasBits p k := ⟨k, 0, h, by simp⟩

/-- A product has the bits of both factors. -/
theorem HasBits.mul {q : ℕ} (hx : HasBits p x) (hy : HasBits q y) : HasBits (p + q) (x * y) := by
  obtain ⟨m, s, hm, rfl⟩ := hx
  obtain ⟨n, t, hn, rfl⟩ := hy
  refine ⟨m * n, s + t, ?_, ?_⟩
  · rw [abs_mul, pow_add]
    exact mul_le_mul hm hn (abs_nonneg n) (by positivity)
  · rw [zpow_add₀ (by norm_num)]
    push_cast
    ring

end Bits

section Nearest
variable {p : ℕ} {fl : ℚ → ℚ} (h : ToNearest p fl)
include h

/-- **What has `p` bits stays.** -/
theorem ToNearest.eq_self {x : ℚ} (hx : HasBits p x) : fl x = x := by
  have := h.near x x hx
  rw [sub_self, abs_zero, abs_nonpos_iff, sub_eq_zero] at this
  exact this.symm

/-- **A rounding to nearest is monotone**, however it rounds a tie. -/
theorem ToNearest.mono : Monotone fl := by
  intro x y hxy
  by_contra hlt
  rw [not_le] at hlt
  have hx := h.near x _ (h.bits y)
  have hy := h.near y _ (h.bits x)
  -- both numbers are in the middle of the two results
  have h1 : x - fl y ≥ fl x - x := by
    by_contra hc
    rw [not_le] at hc
    rcases abs_cases (x - fl x) with ⟨e1, _⟩ | ⟨e1, _⟩ <;>
      rcases abs_cases (x - fl y) with ⟨e2, _⟩ | ⟨e2, _⟩ <;> linarith
  have h2 : y - fl y ≤ fl x - y := by
    by_contra hc
    rw [not_le] at hc
    rcases abs_cases (y - fl y) with ⟨e1, _⟩ | ⟨e1, _⟩ <;>
      rcases abs_cases (y - fl x) with ⟨e2, _⟩ | ⟨e2, _⟩ <;> linarith
  have hyx : y ≤ x := by linarith
  obtain rfl := le_antisymm hxy hyx
  exact lt_irrefl _ hlt

theorem ToNearest.zero : fl 0 = 0 := h.eq_self ⟨0, 0, by simp, by simp⟩

theorem ToNearest.nonneg {x : ℚ} (hx : 0 ≤ x) : 0 ≤ fl x := by
  rw [← h.zero]
  exact h.mono hx

theorem ToNearest.pos {x : ℚ} (hx : 0 < x) : 0 < fl x := by
  have hpow : (2 : ℚ) ^ Int.log 2 x ≤ x := by
    exact_mod_cast Int.zpow_log_le_self (b := 2) (by norm_num) hx
  have hk : (0 : ℚ) < 2 ^ Int.log 2 x := zpow_pos (by norm_num) _
  have hbits : HasBits p ((2 : ℚ) ^ Int.log 2 x) :=
    ⟨1, Int.log 2 x, by rw [abs_one]; exact one_le_pow₀ (by norm_num), by simp⟩
  rw [← h.eq_self hbits] at hk
  exact hk.trans_le (h.mono hpow)

theorem ToNearest.le_of_le {x y : ℚ} (hy : HasBits p y) (hxy : x ≤ y) : fl x ≤ y := by
  rw [← h.eq_self hy]
  exact h.mono hxy

theorem ToNearest.le_of_ge {x y : ℚ} (hx : HasBits p x) (hxy : x ≤ y) : x ≤ fl y := by
  rw [← h.eq_self hx]
  exact h.mono hxy

end Nearest

/-! ### Ties to even -/

/-- The unit in the last place of `p` bits. -/
def ulp (p : ℕ) (x : ℚ) : ℚ := 2 ^ (Int.log 2 |x| + 1 - p)

/-- **Rounding to nearest, ties to even**, at `p` significant bits. -/
def roundEven (p : ℕ) (x : ℚ) : ℚ :=
  if x < 0 then -(nearestEven (-x / ulp p x) * ulp p x) else nearestEven (x / ulp p x) * ulp p x

theorem nearestEven_zero : nearestEven 0 = 0 := by norm_num [nearestEven]

theorem roundEven_zero (p : ℕ) : roundEven p 0 = 0 := by
  unfold roundEven
  rw [if_neg (lt_irrefl _), zero_div, nearestEven_zero, Int.cast_zero, zero_mul]

theorem roundEven_neg (p : ℕ) (x : ℚ) : roundEven p (-x) = -roundEven p x := by
  have hulp : ulp p (-x) = ulp p x := by rw [ulp, abs_neg, ulp]
  rcases lt_trichotomy x 0 with hx | rfl | hx
  · unfold roundEven
    rw [if_pos hx, if_neg (by linarith), hulp, neg_neg]
  · rw [neg_zero, roundEven_zero, neg_zero]
  · unfold roundEven
    rw [if_pos (by linarith), if_neg (by linarith), hulp, neg_neg]

section Even
variable {p : ℕ} {x : ℚ} {k : ℤ}

theorem log_eq (h1 : (2 : ℚ) ^ k ≤ x) (h2 : x < 2 ^ (k + 1)) : Int.log 2 x = k := by
  have hx : 0 < x := (zpow_pos (by norm_num) k).trans_le h1
  have h1' := (Int.zpow_le_iff_le_log (b := 2) (by norm_num) hx).mp (by exact_mod_cast h1)
  have h2' := (Int.lt_zpow_iff_log_lt (b := 2) (by norm_num) hx).mp (by exact_mod_cast h2)
  omega

theorem zpow_log_le (hx : 0 < x) : (2 : ℚ) ^ Int.log 2 x ≤ x ∧ x < 2 ^ (Int.log 2 x + 1) := by
  have h1 := Int.zpow_log_le_self (b := 2) (by norm_num) hx
  have h2 := Int.lt_zpow_succ_log_self (b := 2) (by norm_num) x
  exact ⟨by exact_mod_cast h1, by exact_mod_cast h2⟩

/-- **Between two powers of two** the numbers of `p` bits are the multiples of one unit. -/
theorem roundEven_eq (h1 : (2 : ℚ) ^ k ≤ x) (h2 : x < 2 ^ (k + 1)) :
    roundEven p x = nearestEven (x / 2 ^ (k + 1 - p)) * 2 ^ (k + 1 - p) := by
  have hx : 0 < x := (zpow_pos (by norm_num) k).trans_le h1
  have hulp : ulp p x = 2 ^ (k + 1 - p) := by
    unfold ulp
    rw [abs_of_pos hx, log_eq h1 h2]
  unfold roundEven
  rw [if_neg (by linarith), hulp]

/-- A number of `p` bits from `2 ^ k` on is a multiple of the unit there. -/
theorem HasBits.exists_mul (h : HasBits p x) (h1 : (2 : ℚ) ^ k ≤ x) :
    x = 2 ^ k ∨ ∃ n : ℤ, x = n * 2 ^ (k + 1 - p : ℤ) := by
  obtain ⟨m, s, hm, rfl⟩ := h
  have hpow : (0 : ℚ) < 2 ^ s := zpow_pos (by norm_num) s
  by_cases hs : k + 1 - p ≤ s
  · obtain ⟨d, hd⟩ := Int.le.dest hs
    refine Or.inr ⟨m * 2 ^ d, ?_⟩
    rw [← hd, zpow_add₀ (by norm_num), zpow_natCast]
    push_cast
    ring
  · -- the number would be below `2 ^ k`
    left
    have hm' : (m : ℚ) ≤ 2 ^ p := by exact_mod_cast (le_abs_self m).trans hm
    have hle : (m : ℚ) * 2 ^ s ≤ 2 ^ k := by
      calc (m : ℚ) * 2 ^ s ≤ 2 ^ p * 2 ^ s := mul_le_mul_of_nonneg_right hm' hpow.le
        _ = 2 ^ ((p : ℤ) + s) := by rw [zpow_add₀ (by norm_num), zpow_natCast]
        _ ≤ 2 ^ k := zpow_le_zpow_right₀ (by norm_num) (by omega)
    exact le_antisymm hle h1

theorem zpow_eq_mul (hp : 1 ≤ p) : (2 : ℚ) ^ k = ((2 ^ (p - 1) : ℤ) : ℚ) * 2 ^ (k + 1 - p : ℤ) := by
  push_cast
  rw [← zpow_natCast, ← zpow_add₀ (by norm_num)]
  congr 1
  omega

theorem abs_sub_scaled_le {u : ℚ} (hu : 0 < u) (n : ℤ) :
    |x - nearestEven (x / u) * u| ≤ |x - n * u| := by
  have h := mul_le_mul_of_nonneg_right (abs_sub_nearestEven_le (x / u) n) hu.le
  have hscale : ∀ c : ℚ, |x / u - c| * u = |x - c * u| := fun c => by
    rw [← abs_of_pos hu, ← abs_mul, abs_of_pos hu, sub_mul, div_mul_cancel₀ _ hu.ne']
  rwa [hscale, hscale] at h

theorem roundEven_near_of_pos (hp : 1 ≤ p) (hx : 0 < x) :
    HasBits p (roundEven p x) ∧ ∀ y, HasBits p y → |x - roundEven p x| ≤ |x - y| := by
  obtain ⟨h1, h2⟩ := zpow_log_le hx
  generalize Int.log 2 x = k at h1 h2
  rw [roundEven_eq (p := p) h1 h2]
  have hu : (0 : ℚ) < 2 ^ (k + 1 - p : ℤ) := zpow_pos (by norm_num) _
  have hpk := zpow_eq_mul (k := k) hp
  set u : ℚ := 2 ^ (k + 1 - p : ℤ) with hudef
  constructor
  · refine ⟨nearestEven (x / u), k + 1 - p, ?_, rfl⟩
    -- the quotient is below `2 ^ p`, and so is its nearest integer
    have htop : x / u < 2 ^ p := by
      rw [div_lt_iff₀ hu, hudef, ← zpow_natCast, ← zpow_add₀ (by norm_num)]
      exact h2.trans_le (zpow_le_zpow_right₀ (by norm_num) (by omega))
    have hle : nearestEven (x / u) ≤ 2 ^ p := nearestEven_le_iff.mpr (Or.inl (by push_cast; linarith))
    have hge : 0 ≤ nearestEven (x / u) :=
      (Int.floor_nonneg.mpr (by positivity)).trans (floor_le_nearestEven _).1
    rwa [abs_of_nonneg hge]
  · intro y hy
    have hmul := fun n : ℤ => abs_sub_scaled_le (x := x) hu n
    rcases le_or_gt (2 ^ k) y with hk | hk
    · rcases hy.exists_mul hk with rfl | ⟨n, rfl⟩
      · rw [hpk]
        exact hmul _
      · exact hmul n
    · -- below the power of two nothing is nearer than that
      have hbelow : |x - 2 ^ k| ≤ |x - y| := by
        rw [abs_of_nonneg (by linarith), abs_of_nonneg (by linarith)]
        linarith
      rw [hpk] at hbelow
      exact (hmul _).trans hbelow

/-- **`roundEven` rounds to nearest.** -/
theorem toNearest_roundEven (hp : 1 ≤ p) : ToNearest p (roundEven p) := by
  have hneg : ∀ x, x < 0 → HasBits p (roundEven p x) ∧ ∀ y, HasBits p y →
    |x - roundEven p x| ≤ |x - y| := by
    intro x hx
    obtain ⟨hb, hn⟩ := roundEven_near_of_pos (p := p) hp (neg_pos.mpr hx)
    rw [roundEven_neg] at hb hn
    refine ⟨by simpa using hb.neg, fun y hy => ?_⟩
    have h := hn (-y) hy.neg
    rwa [← neg_add', ← neg_add', abs_neg, abs_neg, ← sub_eq_add_neg, ← sub_eq_add_neg] at h
  constructor <;> intro x <;> rcases lt_trichotomy x 0 with hx | rfl | hx
  · exact (hneg x hx).1
  · exact ⟨0, 0, by simp, by rw [roundEven_zero]; simp⟩
  · exact (roundEven_near_of_pos hp hx).1
  · exact (hneg x hx).2
  · intro y _
    rw [roundEven_zero, sub_zero, abs_zero]
    exact abs_nonneg _
  · exact (roundEven_near_of_pos hp hx).2

theorem abs_roundEven (hp : 1 ≤ p) (x : ℚ) : |roundEven p x| = roundEven p |x| := by
  have h := toNearest_roundEven hp
  rcases le_total 0 x with hx | hx
  · rw [abs_of_nonneg hx, abs_of_nonneg (h.nonneg hx)]
  · have h0 := h.nonneg (neg_nonneg.mpr hx)
    rw [roundEven_neg] at h0
    rw [abs_of_nonpos hx, roundEven_neg, abs_of_nonpos (by linarith)]

/-- A number of fewer bits is an even multiple of the unit, and so is not the last one below the next
power of two. -/
theorem HasBits.exists_even {f : ℚ} {p' : ℕ} (h0 : 1 ≤ p') (hp' : p' < p) (hbits : HasBits p' f)
    (h1 : (2 : ℚ) ^ k ≤ f) (h2 : f < 2 ^ (k + 1)) :
    ∃ n : ℤ, f = (2 * n : ℤ) * 2 ^ (k + 1 - p : ℤ) ∧ 0 < n ∧ 2 * n + 1 ≤ 2 ^ p ∧
      ((2 * n + 1 : ℤ) : ℚ) * 2 ^ (k + 1 - p : ℤ) ≤ 2 ^ (k + 1) := by
  have hu : (0 : ℚ) < 2 ^ (k + 1 - p : ℤ) := zpow_pos (by norm_num) _
  obtain ⟨n, hn⟩ : ∃ n : ℤ, f = (2 * n : ℤ) * 2 ^ (k + 1 - p : ℤ) := by
    obtain ⟨d, hd⟩ := Int.le.dest (show k + 1 - p + 1 ≤ k + 1 - p' by omega)
    have hpow : (2 : ℚ) ^ (k + 1 - p' : ℤ) = 2 * 2 ^ d * 2 ^ (k + 1 - p : ℤ) := by
      rw [← hd, zpow_add₀ (by norm_num), zpow_natCast, zpow_add₀ (by norm_num), zpow_one]
      ring
    rcases hbits.exists_mul h1 with rfl | ⟨m, rfl⟩
    · refine ⟨2 ^ (p - 2), ?_⟩
      rw [zpow_eq_mul (show 1 ≤ p by omega), show p - 1 = p - 2 + 1 by omega, pow_succ']
    · refine ⟨m * 2 ^ d, ?_⟩
      rw [hpow]
      push_cast
      ring
  have hpow : (2 : ℚ) ^ (k + 1) = 2 ^ p * 2 ^ (k + 1 - p : ℤ) := by
    rw [← zpow_natCast, ← zpow_add₀ (by norm_num)]
    congr 1
    omega
  have hpos : 0 < 2 * n := by
    have := pos_of_mul_pos_left (hn ▸ (zpow_pos (by norm_num) k).trans_le h1) hu.le
    exact_mod_cast this
  have htop : 2 * n < 2 ^ p := by
    rw [hn, hpow] at h2
    exact_mod_cast lt_of_mul_lt_mul_right h2 hu.le
  refine ⟨n, hn, by omega, by omega, ?_⟩
  rw [hpow]
  exact mul_le_mul_of_nonneg_right (by exact_mod_cast (show 2 * n + 1 ≤ 2 ^ p by omega)) hu.le

/-- **What is rounded to a number of fewer bits, or below it**: a tie goes to it, as it is even. -/
theorem roundEven_le_iff {f : ℚ} {p' : ℕ} (h0 : 1 ≤ p') (hp' : p' < p) (hf : 0 < f) (hbits : HasBits p' f) :
    roundEven p x ≤ f ↔ x ≤ f + 2 ^ (Int.log 2 f - p) := by
  have hnear := toNearest_roundEven (show 1 ≤ p by omega)
  obtain ⟨h1, h2⟩ := zpow_log_le hf
  generalize Int.log 2 f = k at h1 h2
  obtain ⟨n, hn, hpos, hmag, hbelow⟩ := hbits.exists_even h0 hp' h1 h2
  have hu : (0 : ℚ) < 2 ^ (k + 1 - p : ℤ) := zpow_pos (by norm_num) _
  have hhalf : (2 : ℚ) ^ (k + 1 - p : ℤ) = 2 * 2 ^ (k - p : ℤ) := by
    rw [← zpow_one_add₀ (by norm_num)]
    congr 1
    omega
  set u : ℚ := 2 ^ (k + 1 - p : ℤ) with hudef
  have hnext : f + u = (2 * n + 1 : ℤ) * u := by
    rw [hn]
    push_cast
    ring
  have hbits' : HasBits p (f + u) := ⟨2 * n + 1, k + 1 - p, by rwa [abs_of_pos (by omega)], hnext⟩
  constructor
  · intro hle
    by_contra hgt
    rw [not_le] at hgt
    rcases le_or_gt x (f + u) with hx | hx
    · -- the next number would be nearer
      have h := hnear.near x _ hbits'
      rw [abs_of_nonneg (by linarith), abs_of_nonpos (by linarith)] at h
      linarith
    · have := hnear.le_of_ge hbits' hx.le
      linarith
  · intro hx
    refine (hnear.mono hx).trans ?_
    rw [roundEven_eq (p := p) (h1.trans (by linarith)) (by linarith), ← hudef]
    have hq : (f + 2 ^ (k - p : ℤ)) / u = (2 * n : ℤ) + 1 / 2 := by
      rw [hn, add_div, mul_div_cancel_right₀ _ hu.ne', hhalf]
      field_simp
    have hle : nearestEven ((f + 2 ^ (k - p : ℤ)) / u) ≤ 2 * n :=
      nearestEven_le_iff.mpr (Or.inr ⟨hq, even_two_mul n⟩)
    calc (nearestEven ((f + 2 ^ (k - p : ℤ)) / u) : ℚ) * u ≤ (2 * n : ℤ) * u :=
        mul_le_mul_of_nonneg_right (by exact_mod_cast hle) hu.le
      _ = f := hn.symm

end Even

/-! ### The values of a float32 -/

open SkipZFP.Lib.Float32

/-- **A finite float32 has 24 bits.** -/
theorem hasBits_val {f : F32} {q : ℚ} (h : f.val = .fin q) : HasBits 24 q := by
  obtain ⟨j, hj⟩ := F32.magVal_of_val h
  have hmag : HasBits 24 (F32.magVal j) := by
    refine ⟨((j - (j / 2 ^ 23 - 1) * 2 ^ 23 : ℕ) : ℤ), ((j / 2 ^ 23 - 1 : ℕ) : ℤ) - 149, ?_, ?_⟩
    · rw [abs_of_nonneg (Int.natCast_nonneg _)]
      omega
    · unfold F32.magVal units
      rw [zpow_sub₀ (by norm_num), zpow_natCast]
      push_cast
      rw [mul_div_assoc]
      rfl
  rcases hj with rfl | rfl
  · exact hmag
  · exact hmag.neg

/-- A double holds every float32. -/
theorem hasBits_float {f : F32} {q : ℚ} (h : f.val = .fin q) : HasBits 53 q :=
  (hasBits_val h).mono (by norm_num)

end SkipZFP.Lib.Precision
