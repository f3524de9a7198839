import SkipZFP.Lib.Rounding
import SkipZFP.Plan.Classify

/-! # The planner's slack

The writer quantizes a block's least and greatest value to a byte each, and the planner makes bounds of
the bytes, widened by eight units in the last place of the range. `planner_slack`: **the widened bounds
hold**, whatever the ten operations on the way round to.

* `unscaled_le` and `le_unscaled`: what a byte stands for, against the value it was made of. Products of
  numbers that are not negative lose nothing to cancellation, so five roundings are five relative errors.
* `low_le` and `le_high`: the sums on top of it cancel, and are bounded by the magnitude `|a| + |z|` of
  the unit's range. In units of that, the product costs 6, each sum 2, and the slack is worth 15. -/

namespace SkipZFP.Plan.Slack

open SkipZFP.Lib.Double SkipZFP.Lib.Float32 SkipZFP.Lib.Rounding SkipZFP.Codec.Meta
open SkipZFP.Plan.Classify

/-! ### The bounds of a block -/

section Bounds
variable (fl : ℚ → ℚ) (cm : List UInt8) (bid : ℕ)

/-- The number that a byte stands for. -/
def atOffset (off : UInt8) : Dbl :=
  Dbl.add fl (recMin cm).val (Dbl.mul fl (Dbl.div fl (.fin off.toNat) (.fin 255))
    (Dbl.sub fl (recMax cm).val (recMin cm).val))

/-- `bmin`. -/
def blockLow (slack : Dbl) : Dbl :=
  if Dbl.sub fl (recMax cm).val (recMin cm).val = .fin 0 then (recMin cm).val
  else Dbl.sub fl (atOffset fl cm (recLow cm bid)) slack

/-- `bmax`. -/
def blockHigh (slack : Dbl) : Dbl :=
  if Dbl.sub fl (recMax cm).val (recMin cm).val = .fin 0 then (recMax cm).val
  else Dbl.add fl (atOffset fl cm (recHigh cm bid)) slack

theorem classifyBlock_eq (nBlock : ℕ) (hasCodes : Bool) (slack lo hi : Dbl) :
    classifyBlock fl cm nBlock hasCodes bid slack lo hi = stateOf fl (blockLow fl cm bid slack)
      (blockHigh fl cm bid slack) (recError fl cm nBlock hasCodes bid) lo hi := rfl

end Bounds

/-! ### Rounded arithmetic -/

section Arithmetic
variable {u : ℚ} {fl : ℚ → ℚ} (h : Rounds u fl) (hu0 : 0 ≤ u) (hu : u ≤ 1 / 1000)

/-- The scaled value that the writer rounds to an integer. -/
def scaled (fl : ℚ → ℚ) (a z x : ℚ) : ℚ := fl (fl (x - a) * fl (255 / fl (z - a)))

/-- The product that the planner adds to the least value. -/
def unscaled (fl : ℚ → ℚ) (a z o : ℚ) : ℚ := fl (fl (o / 255) * fl (z - a))

variable {a z x o : ℚ} (haz : a < z) (hax : a ≤ x) (hxz : x ≤ z)
include h hu0 hu haz

omit hu0 in
theorem span_pos : 0 < fl (z - a) ∧ fl (z - a) ≤ (1 + u) * (z - a) ∧ (1 - u) * (z - a) ≤ fl (z - a) := by
  obtain ⟨h1, h2⟩ := h.of_nonneg (sub_nonneg.mpr haz.le)
  have : 0 < (1 - u) * (z - a) := mul_pos (by linarith) (by linarith)
  exact ⟨by linarith, h2, h1⟩

include hax in
theorem scaled_bounds : (1 - u) ^ 3 * (x - a) * 255 ≤ scaled fl a z x * fl (z - a) ∧
    scaled fl a z x * fl (z - a) ≤ (1 + u) ^ 3 * (x - a) * 255 ∧ 0 ≤ scaled fl a z x := by
  obtain ⟨hs, -, -⟩ := span_pos h hu haz
  have hx : 0 ≤ x - a := sub_nonneg.mpr hax
  have hq : (0 : ℚ) ≤ 255 / fl (z - a) := by positivity
  obtain ⟨d1, d2⟩ := h.of_nonneg hx
  obtain ⟨s1, s2⟩ := h.of_nonneg hq
  have hd : 0 ≤ (1 - u) * (x - a) := mul_nonneg (by linarith) hx
  have hsc : 0 ≤ (1 - u) * (255 / fl (z - a)) := mul_nonneg (by linarith) hq
  obtain ⟨p1, p2, p0⟩ := h.bounds hu0 (by linarith) (mul_nonneg hd hsc)
    (mul_le_mul d1 s1 hsc (hd.trans d1)) (mul_le_mul d2 s2 (hsc.trans s1) (mul_nonneg (by linarith) hx))
  have hcancel : ∀ c : ℚ, c * (255 / fl (z - a)) * fl (z - a) = c * 255 := fun c => by
    rw [mul_assoc, div_mul_cancel₀ _ hs.ne']
  have e1 : (1 - u) * ((1 - u) * (x - a) * ((1 - u) * (255 / fl (z - a)))) * fl (z - a) =
      (1 - u) ^ 3 * (x - a) * 255 := by
    rw [← hcancel]
    ring
  have e2 : (1 + u) * ((1 + u) * (x - a) * ((1 + u) * (255 / fl (z - a)))) * fl (z - a) =
      (1 + u) ^ 3 * (x - a) * 255 := by
    rw [← hcancel]
    ring
  rw [← e1, ← e2]
  exact ⟨mul_le_mul_of_nonneg_right p1 hs.le, mul_le_mul_of_nonneg_right p2 hs.le, p0⟩

theorem unscaled_bounds (ho : 0 ≤ o) : (1 - u) ^ 2 * (o * fl (z - a)) ≤ unscaled fl a z o * 255 ∧
    unscaled fl a z o * 255 ≤ (1 + u) ^ 2 * (o * fl (z - a)) ∧ 0 ≤ unscaled fl a z o := by
  obtain ⟨hs, -, -⟩ := span_pos h hu haz
  have hq : (0 : ℚ) ≤ o / 255 := by positivity
  obtain ⟨d1, d2⟩ := h.of_nonneg hq
  have hd : 0 ≤ (1 - u) * (o / 255) := mul_nonneg (by linarith) hq
  obtain ⟨p1, p2, p0⟩ := h.bounds hu0 (by linarith) (mul_nonneg hd hs.le)
    (mul_le_mul_of_nonneg_right d1 hs.le) (mul_le_mul_of_nonneg_right d2 hs.le)
  refine ⟨?_, ?_, p0⟩
  · calc (1 - u) ^ 2 * (o * fl (z - a)) = (1 - u) * ((1 - u) * (o / 255) * fl (z - a)) * 255 := by ring
      _ ≤ _ := mul_le_mul_of_nonneg_right p1 (by norm_num)
  · calc unscaled fl a z o * 255 ≤ (1 + u) * ((1 + u) * (o / 255) * fl (z - a)) * 255 :=
          mul_le_mul_of_nonneg_right p2 (by norm_num)
      _ = (1 + u) ^ 2 * (o * fl (z - a)) := by ring

include hax in
/-- **A byte that is not above the scaled value** stands for a product that is not much above `x - a`. -/
theorem unscaled_le (ho : 0 ≤ o) (hle : o ≤ scaled fl a z x) :
    unscaled fl a z o ≤ (1 + u) ^ 5 * (x - a) := by
  obtain ⟨hs, -, -⟩ := span_pos h hu haz
  obtain ⟨-, hsc, -⟩ := scaled_bounds h hu0 hu haz hax
  obtain ⟨-, hun, -⟩ := unscaled_bounds h hu0 hu haz ho
  have h1 : o * fl (z - a) ≤ (1 + u) ^ 3 * (x - a) * 255 :=
    (mul_le_mul_of_nonneg_right hle hs.le).trans hsc
  have h2 : (1 + u) ^ 2 * (o * fl (z - a)) ≤ (1 + u) ^ 2 * ((1 + u) ^ 3 * (x - a) * 255) :=
    mul_le_mul_of_nonneg_left h1 (by positivity)
  have h3 : (1 + u) ^ 2 * ((1 + u) ^ 3 * (x - a) * 255) = (1 + u) ^ 5 * (x - a) * 255 := by ring
  linarith

include hax hxz in
/-- **A byte that is not below the scaled value**, or the last one. -/
theorem le_unscaled (ho : 0 ≤ o) (hge : scaled fl a z x ≤ o ∨ o = 255) :
    (1 - u) ^ 5 * (x - a) ≤ unscaled fl a z o := by
  obtain ⟨hs, -, hspan⟩ := span_pos h hu haz
  obtain ⟨hsc, -, -⟩ := scaled_bounds h hu0 hu haz hax
  obtain ⟨hun, -, -⟩ := unscaled_bounds h hu0 hu haz ho
  have hx : 0 ≤ x - a := sub_nonneg.mpr hax
  have h1u : 0 ≤ 1 - u := by linarith
  have h1 : (1 - u) ^ 3 * (x - a) * 255 ≤ o * fl (z - a) := by
    rcases hge with hge | rfl
    · exact hsc.trans (mul_le_mul_of_nonneg_right hge hs.le)
    · have hpow : (1 - u) ^ 3 ≤ (1 - u) ^ 1 := pow_le_pow_of_le_one h1u (by linarith) (by norm_num)
      have h3 : (1 - u) ^ 3 * (x - a) ≤ (1 - u) * (z - a) := by
        rw [pow_one] at hpow
        exact mul_le_mul hpow (by linarith) hx h1u
      linarith
  have h2 : (1 - u) ^ 2 * ((1 - u) ^ 3 * (x - a) * 255) ≤ (1 - u) ^ 2 * (o * fl (z - a)) :=
    mul_le_mul_of_nonneg_left h1 (by positivity)
  have h3 : (1 - u) ^ 2 * ((1 - u) ^ 3 * (x - a) * 255) = (1 - u) ^ 5 * (x - a) * 255 := by ring
  linarith

end Arithmetic

/-! ### The slack -/

section Slack
variable {u : ℚ} {fl : ℚ → ℚ} (h : Rounds u fl) (hu0 : 0 ≤ u) (hu : u ≤ 1 / 1000)
  {a z x o : ℚ} (haz : a < z) (hax : a ≤ x) (hxz : x ≤ z)
include h hu0 hu

/-- Sixteen roundings of the magnitude of the range, twice rounded. -/
theorem slack_ge (A : ℚ) (hA : 0 ≤ A) : 15 * (u * A) ≤ fl (16 * u * fl A) := by
  obtain ⟨h1, -⟩ := h.of_nonneg hA
  have hA' : 0 ≤ fl A := (mul_nonneg (by linarith) hA).trans h1
  obtain ⟨h2, -⟩ := h.of_nonneg (mul_nonneg (by linarith : 0 ≤ 16 * u) hA')
  have h3 : (1 - u) * (16 * u * ((1 - u) * A)) ≤ (1 - u) * (16 * u * fl A) :=
    mul_le_mul_of_nonneg_left (mul_le_mul_of_nonneg_left h1 (by linarith)) (by linarith)
  have h4 : (15 / 16 : ℚ) ≤ (1 - u) * (1 - u) := by nlinarith
  calc 15 * (u * A) = 15 / 16 * (16 * (u * A)) := by ring
    _ ≤ (1 - u) * (1 - u) * (16 * (u * A)) :=
      mul_le_mul_of_nonneg_right h4 (mul_nonneg (by norm_num) (mul_nonneg hu0 hA))
    _ = (1 - u) * (16 * u * ((1 - u) * A)) := by ring
    _ ≤ _ := h3.trans h2

/-- Rounding adds less than two units to what is a few units above a number. -/
theorem fl_le {A c t : ℚ} (hx : |x| ≤ A) (hc : |c| ≤ 10) (ht : t ≤ x + c * (u * A)) :
    fl t ≤ x + (c + 2) * (u * A) := by
  have hA : 0 ≤ A := (abs_nonneg x).trans hx
  have hmag : |x + c * (u * A)| ≤ 2 * A := by
    have h1 := abs_add_le x (c * (u * A))
    have h2 : |c| * (u * A) ≤ 10 * (1 / 1000 * A) :=
      mul_le_mul hc (mul_le_mul_of_nonneg_right hu hA) (mul_nonneg hu0 hA) (by norm_num)
    rw [abs_mul, abs_of_nonneg (mul_nonneg hu0 hA)] at h1
    linarith
  have hgain := mul_le_mul_of_nonneg_left hmag hu0
  linarith [h.le_of_le hu0 (by linarith) ht]

/-- Rounding takes less than two units from what is a few units off a number. -/
theorem le_fl {A c t : ℚ} (hx : |x| ≤ A) (hc : |c| ≤ 10) (ht : x + c * (u * A) ≤ t) :
    x + (c - 2) * (u * A) ≤ fl t := by
  have hneg : Rounds u fun y => -fl (-y) := fun y => by
    have := h (-y)
    rwa [abs_neg, sub_neg_eq_add, ← abs_neg, neg_add'] at this
  have := fl_le hneg hu0 hu (x := -x) (c := -c) (t := -t) ((abs_neg x).trans_le hx)
    ((abs_neg c).trans_le hc) (by linarith)
  rw [neg_neg] at this
  linarith

include haz hax hxz

omit h hu0 hu haz in
theorem magnitude : |x| ≤ |a| + |z| ∧ z - a ≤ |a| + |z| := by
  have h1 := neg_abs_le a
  have h2 := le_abs_self z
  have h3 := abs_nonneg a
  have h4 := abs_nonneg z
  exact ⟨abs_le.mpr ⟨by linarith, by linarith⟩, by linarith⟩

theorem low_le (ho : 0 ≤ o) (hle : o ≤ scaled fl a z x) :
    fl (fl (a + unscaled fl a z o) - fl (16 * u * fl (|a| + |z|))) ≤ x := by
  obtain ⟨hx, hspan⟩ := magnitude hax hxz
  set A := |a| + |z|
  have huA : 0 ≤ u * A := mul_nonneg hu0 ((abs_nonneg x).trans hx)
  have hprod : a + unscaled fl a z o ≤ x + 6 * (u * A) := by
    have h1 := unscaled_le h hu0 hu haz hax ho hle
    have h2 := mul_le_mul_of_nonneg_right (one_add_pow_five_le hu0 hu) (sub_nonneg.mpr hax)
    have h3 : u * (x - a) ≤ u * A := mul_le_mul_of_nonneg_left (by linarith) hu0
    linarith
  have hsum := fl_le h hu0 hu hx (by norm_num [abs_of_pos]) hprod
  have hslack := slack_ge h hu0 hu A ((abs_nonneg x).trans hx)
  have hlast := fl_le h hu0 hu (c := -7) hx (by norm_num [abs_of_neg])
    (by linarith : fl (a + unscaled fl a z o) - fl (16 * u * fl A) ≤ x + -7 * (u * A))
  linarith

theorem le_high (ho : 0 ≤ o) (hge : scaled fl a z x ≤ o ∨ o = 255) :
    x ≤ fl (fl (a + unscaled fl a z o) + fl (16 * u * fl (|a| + |z|))) := by
  obtain ⟨hx, hspan⟩ := magnitude hax hxz
  set A := |a| + |z|
  have huA : 0 ≤ u * A := mul_nonneg hu0 ((abs_nonneg x).trans hx)
  have hprod : x + -5 * (u * A) ≤ a + unscaled fl a z o := by
    have h1 := le_unscaled h hu0 hu haz hax hxz ho hge
    have h2 := mul_le_mul_of_nonneg_right (one_sub_pow_five_ge hu) (sub_nonneg.mpr hax)
    have h3 : u * (x - a) ≤ u * A := mul_le_mul_of_nonneg_left (by linarith) hu0
    linarith
  have hsum := le_fl h hu0 hu hx (by norm_num [abs_of_neg]) hprod
  have hslack := slack_ge h hu0 hu A ((abs_nonneg x).trans hx)
  have hlast := le_fl h hu0 hu (c := 8) hx (by norm_num [abs_of_pos])
    (by linarith : x + 8 * (u * A) ≤ fl (a + unscaled fl a z o) + fl (16 * u * fl A))
  linarith

end Slack

/-! ### The bytes -/

theorem toNat_toU8_floor {x : ℚ} (hx : 0 ≤ x) : ((toU8 ⌊x⌋).toNat : ℚ) ≤ x := by
  by_cases h : ⌊x⌋ ≤ 255
  · rw [toNat_toU8 (Int.floor_nonneg.mpr hx) h]
    exact Int.floor_le x
  · have h255 : (255 : ℚ) ≤ ⌊x⌋ := by exact_mod_cast (not_le.mp h).le
    unfold toU8
    rw [if_neg (by omega), if_pos (by omega)]
    exact h255.trans (Int.floor_le x)

theorem toNat_toU8_ceil {x : ℚ} (hx : 0 ≤ x) :
    x ≤ ((toU8 ⌈x⌉).toNat : ℚ) ∨ ((toU8 ⌈x⌉).toNat : ℚ) = 255 := by
  by_cases h : ⌈x⌉ ≤ 255
  · left
    rw [toNat_toU8 (Int.ceil_nonneg hx) h]
    exact Int.le_ceil x
  · right
    have := Int.ceil_nonneg hx
    unfold toU8
    rw [if_neg (by omega), if_pos (by omega)]
    rfl

/-! ### The bounds of a written block -/

section Block
variable {fl : ℚ → ℚ} (h : Rounds (1 / 2 ^ 53) fl) {cm : List UInt8} {bid : ℕ} {vmin vmax : F32}
  {a z m M : ℚ} (ha : (recMin cm).val = .fin a) (hz : (recMax cm).val = .fin z) (haz : a < z)
include ha hz

theorem atOffset_fin (off : UInt8) : atOffset fl cm off = .fin (fl (a + unscaled fl a z off.toNat)) ∧
    unitSlack fl cm = .fin (fl (16 * (1 / 2 ^ 53) * fl (|a| + |z|))) := by
  have h16 : (8 / 2 ^ 52 : ℚ) = 16 * (1 / 2 ^ 53) := by norm_num
  unfold atOffset unitSlack unscaled
  rw [ha, hz, Dbl.sub_fin, Dbl.div_fin _ _ (by norm_num), Dbl.mul_fin, Dbl.add_fin, Dbl.abs_fin,
    Dbl.abs_fin, Dbl.add_fin, Dbl.mul_fin, h16]
  exact ⟨rfl, rfl⟩

include h haz

theorem span_ne_zero : Dbl.sub fl (recMax cm).val (recMin cm).val ≠ .fin 0 := by
  rw [ha, hz, Dbl.sub_fin]
  exact fun h0 => (span_pos h (by norm_num) haz).1.ne' (Dbl.fin.inj h0)

/-- The bytes the writer makes are the scaled values, rounded outward. -/
theorem offsetsOf_scaled (hm : vmin.val = .fin m) (hM : vmax.val = .fin M) :
    offsetsOf fl (recMin cm) (recMax cm) vmin vmax =
      [toU8 ⌊scaled fl a z m⌋, toU8 ⌈scaled fl a z M⌉] := by
  have hne : (recMax cm).val ≠ (recMin cm).val := by
    rw [ha, hz]
    exact fun h0 => haz.ne' (Dbl.fin.inj h0)
  have hspan := (span_pos h (by norm_num) haz).1.ne'
  unfold offsetsOf scaled
  rw [if_neg hne, ha, hz, hm, hM]
  simp only [Dbl.sub_fin, Dbl.div_fin _ _ hspan, Dbl.mul_fin, Dbl.toRat_fin]

/-- **The slack covers all rounding**: the bounds that the planner makes of a block's bytes are outside
the values that the writer made the bytes of, whatever the double operations round to. -/
theorem planner_slack (hm : vmin.val = .fin m) (ham : a ≤ m) (hmz : m ≤ z) (hM : vmax.val = .fin M)
    (haM : a ≤ M) (hMz : M ≤ z)
    (hrec : offsetsOf fl (recMin cm) (recMax cm) vmin vmax = [recLow cm bid, recHigh cm bid]) :
    blockLow fl cm bid (unitSlack fl cm) ≤ vmin.val ∧
      vmax.val ≤ blockHigh fl cm bid (unitSlack fl cm) := by
  have hu : (1 / 2 ^ 53 : ℚ) ≤ 1 / 1000 := by norm_num
  have hu0 : (0 : ℚ) ≤ 1 / 2 ^ 53 := by norm_num
  rw [offsetsOf_scaled h ha hz haz hm hM] at hrec
  obtain ⟨hlow, hhigh⟩ := List.cons_eq_cons.mp hrec
  have hhigh := (List.cons_eq_cons.mp hhigh).1
  have hspan := span_ne_zero h ha hz haz
  unfold blockLow blockHigh
  rw [if_neg hspan, if_neg hspan, ← hlow, ← hhigh, (atOffset_fin ha hz _).1, (atOffset_fin ha hz _).1,
    (atOffset_fin ha hz 0).2, Dbl.sub_fin, Dbl.add_fin, hm, hM, Dbl.fin_le_fin, Dbl.fin_le_fin]
  exact ⟨low_le h hu0 hu haz ham hmz (Nat.cast_nonneg _)
      (toNat_toU8_floor (scaled_bounds h hu0 hu haz ham).2.2),
    le_high h hu0 hu haz haM hMz (Nat.cast_nonneg _)
      (toNat_toU8_ceil (scaled_bounds h hu0 hu haz haM).2.2)⟩

end Block

/-- The record of a unit from 1 to 3 with one block, whose least and greatest value are 2. -/
def midRecord : List UInt8 := [0, 0, 128, 63, 0, 0, 64, 64, 0, 0, 0, 0, 127, 128]

/-- Every operation may round up by the whole relative error. -/
theorem planner_slack_mid :
    blockLow (fun x => x * (1 + 1 / 2 ^ 53)) midRecord 0
        (unitSlack (fun x => x * (1 + 1 / 2 ^ 53)) midRecord) ≤ (⟨0x40000000⟩ : F32).val ∧
      (⟨0x40000000⟩ : F32).val ≤ blockHigh (fun x => x * (1 + 1 / 2 ^ 53)) midRecord 0
        (unitSlack (fun x => x * (1 + 1 / 2 ^ 53)) midRecord) :=
  planner_slack (a := 1) (z := 3) (m := 2) (M := 2)
    (fun x => by rw [mul_one_add, add_sub_cancel_left, mul_comm x, abs_mul, abs_of_nonneg (by norm_num)])
    (by decide +kernel) (by decide +kernel) (by norm_num) (by decide +kernel) (by norm_num) (by norm_num)
    (by decide +kernel) (by norm_num) (by norm_num) (by decide +kernel)

end SkipZFP.Plan.Slack
