import SkipZFP.Lib.Precision
import SkipZFP.Plan.Classify

/-! # The stored error bound in rounded arithmetic

`szfp_meta` rounds three times: the difference of two values to a double, the largest difference to a
float32, and that up to the next float32 if it is below the double. Only the second rounding is made up
for.

* `RoundedDown`: the differences that the first rounding takes down to a float32, or down into what the
  cast takes to `FLT_MAX`.
* `stored_bound_iff`: **the stored bound covers all differences of a unit exactly when the greatest of
  them is not one of these.** `not_covered_tiny` is a unit where it is. -/

namespace SkipZFP.Plan.ErrorBound

open SkipZFP.Lib.Grid SkipZFP.Lib.Double SkipZFP.Lib.Float32 SkipZFP.Lib.Precision
open SkipZFP.Codec.Meta SkipZFP.Plan.Classify

/-- **A difference that is rounded down.** It is above a positive float32 by half a unit of 53 bits at
most, or it is above `FLT_MAX` and the cast of the double still is `FLT_MAX`. -/
def RoundedDown (x : ℚ) : Prop :=
  (∃ (f : F32) (q : ℚ), f.val = .fin q ∧ 0 < q ∧ q < x ∧ x ≤ q + 2 ^ (Int.log 2 q - 53)) ∨
    (maxFloat < x ∧ x < castLimit - 2 ^ 74)

/-- The greatest exact difference of a unit, of those that are numbers. -/
def GreatestDifference (shape : Tri) (chunk dec : Tri → F32) (x : ℚ) : Prop :=
  (∃ i ∈ unitCells shape, errAt chunk dec id i = .fin x) ∧
    ∀ i ∈ unitCells shape, errAt chunk dec id i ≠ .nan → errAt chunk dec id i ≤ .fin x

/-! ### One number -/

section Number
variable {x : ℚ}

theorem toNearest53 : ToNearest 53 (roundEven 53) := toNearest_roundEven (by norm_num)

theorem castUp_val {f t : F32} {q : ℚ} (h : f.val = .fin q) : (F32.castUp t (.fin q)).val = .fin q := by
  have hcast : (F32.ofDouble (.fin q)).val = .fin q := by
    cases hv : (F32.ofDouble (.fin q)).val with
    | nan => exact absurd hv (F32.nearest_ofDouble.num q)
    | ninf => exact absurd (F32.nearest_ofDouble.underflow q hv f q h) (lt_irrefl q)
    | pinf => exact absurd (F32.nearest_ofDouble.overflow q hv f q h) (lt_irrefl q)
    | fin e =>
      have hnear := F32.nearest_ofDouble.finite q e hv f q h
      rw [sub_self, abs_zero, abs_nonpos_iff, sub_eq_zero] at hnear
      rw [hnear]
  unfold F32.castUp
  rw [hcast, if_neg fun hlt => lt_irrefl q ((Dbl.fin_lt_fin q q).mp hlt), hcast]

/-- What is rounded to the end of the casts to `FLT_MAX`. -/
theorem castLimit_le_roundEven_iff (hx : maxFloat < x) :
    castLimit ≤ roundEven 53 x ↔ castLimit - 2 ^ 74 ≤ x := by
  have hmax : (2 : ℚ) ^ (127 : ℤ) ≤ maxFloat := by norm_num [maxFloat]
  rcases lt_or_ge x (2 ^ ((127 : ℤ) + 1)) with htop | htop
  · rw [roundEven_eq (p := 53) (hmax.trans hx.le) htop]
    have hu : (0 : ℚ) < 2 ^ ((127 : ℤ) + 1 - (53 : ℕ)) := zpow_pos (by norm_num) _
    have hlimit : castLimit = ((2 ^ 53 - 2 ^ 28 : ℤ) : ℚ) * 2 ^ ((127 : ℤ) + 1 - (53 : ℕ)) := by
      norm_num [castLimit]
    -- the number before the limit is odd, so a tie goes up to the limit
    have hodd : ¬ Even (2 ^ 53 - 2 ^ 28 - 1 : ℤ) := by decide
    have hstep : nearestEven (x / 2 ^ ((127 : ℤ) + 1 - (53 : ℕ))) ≤ 2 ^ 53 - 2 ^ 28 - 1 ↔
        x < castLimit - 2 ^ 74 := by
      rw [nearestEven_le_iff, or_iff_left fun h => hodd h.2, div_lt_iff₀ hu]
      norm_num [castLimit]
    have hint : castLimit ≤ nearestEven (x / 2 ^ ((127 : ℤ) + 1 - (53 : ℕ))) *
        2 ^ ((127 : ℤ) + 1 - (53 : ℕ)) ↔
          ¬ nearestEven (x / 2 ^ ((127 : ℤ) + 1 - (53 : ℕ))) ≤ 2 ^ 53 - 2 ^ 28 - 1 := by
      rw [hlimit, mul_le_mul_iff_left₀ hu, Int.cast_le]
      omega
    rw [hint, hstep, not_lt]
  · have hbits : HasBits 53 ((2 : ℚ) ^ ((127 : ℤ) + 1)) := ⟨1, 127 + 1, by norm_num, by simp⟩
    have hle := toNearest53.le_of_ge hbits htop
    have hlim : castLimit ≤ 2 ^ ((127 : ℤ) + 1) := by norm_num [castLimit]
    have hpos : (0 : ℚ) < 2 ^ 74 := by norm_num
    exact ⟨fun _ => by linarith, fun _ => hlim.trans hle⟩

/-- **The bound of one difference**: it is not below the difference, unless that is rounded down. -/
theorem le_epsOf_iff (hx : 0 ≤ x) :
    .fin x ≤ (epsOf (.fin (roundEven 53 x))).val ↔ ¬ RoundedDown x := by
  have hmaxval := F32.val_fltMax
  have h0 := toNearest53.nonneg hx
  rcases le_or_gt (roundEven 53 x) maxFloat with hsmall | hbig
  · obtain ⟨e, he, hle⟩ := F32.castUp_of_le h0 hsmall (Or.inl rfl : F32.fltMax = F32.fltMax ∨ _)
    have heps : (epsOf (.fin (roundEven 53 x))).val = .fin e := he
    rw [heps, Dbl.fin_le_fin]
    constructor
    · rintro hcover (⟨f, q, hf, hq, hlt, hhalf⟩ | ⟨hgt, hlim⟩)
      · -- the double is the float32 itself, and so is the bound
        have hdown := (roundEven_le_iff (p := 53) (by norm_num) (by norm_num) hq (hasBits_val hf)).mpr hhalf
        have hround := le_antisymm hdown (toNearest53.le_of_ge (hasBits_float hf) hlt.le)
        rw [hround] at he
        have := Dbl.fin.inj (he.symm.trans (castUp_val hf))
        linarith
      · have hround := le_antisymm hsmall (toNearest53.le_of_ge (hasBits_float hmaxval) hgt.le)
        rw [hround] at he
        have := Dbl.fin.inj (he.symm.trans (castUp_val hmaxval))
        linarith
    · intro hdown
      by_contra hlt
      rw [not_le] at hlt
      have hround := le_antisymm hle (toNearest53.le_of_ge (hasBits_float he) hlt.le)
      have hpos : 0 < e := hround ▸ toNearest53.pos (lt_of_le_of_lt (h0.trans hle) hlt)
      refine hdown (Or.inl ⟨_, e, he, hpos, hlt, ?_⟩)
      exact (roundEven_le_iff (p := 53) (by norm_num) (by norm_num) hpos (hasBits_val he)).mp hround.le
  · have hgt : maxFloat < x := by
      by_contra hle
      exact absurd (toNearest53.le_of_le (hasBits_float hmaxval) (not_lt.mp hle)) (not_le.mpr hbig)
    have hiff := castLimit_le_roundEven_iff hgt
    rcases lt_or_ge (roundEven 53 x) castLimit with hlim | hlim
    · have heps := val_epsOf_of_sliver hbig hlim
      rw [heps, Dbl.fin_le_fin]
      refine ⟨fun hle => absurd hgt (not_lt.mpr hle), fun hdown => absurd (Or.inr ⟨hgt, ?_⟩) hdown⟩
      exact not_le.mp fun hge => absurd (hiff.mpr hge) (not_le.mpr hlim)
    · rw [val_epsOf_of_large hlim]
      refine ⟨?_, fun _ => Dbl.fin_le_pinf x⟩
      rintro - (⟨f, q, hf, hq, hlt, hhalf⟩ | ⟨-, hlt⟩)
      · -- a finite float32 is not above `FLT_MAX`
        have hdown := (roundEven_le_iff (p := 53) (by norm_num) (by norm_num) hq (hasBits_val hf)).mpr hhalf
        have hmax := (le_abs_self q).trans (F32.abs_le_of_val hf)
        exact absurd (hdown.trans hmax) (not_le.mpr hbig)
      · exact absurd (hiff.mp hlim) (not_le.mpr hlt)

end Number

/-! ### The largest difference -/

section Unit
variable {shape : Tri} {chunk dec : Tri → F32}

theorem errAt_of_fin {i : Tri} {v d : ℚ} (hv : (chunk i).val = .fin v) (hd : (dec i).val = .fin d)
    (fl : ℚ → ℚ) : errAt chunk dec fl i = .fin |fl (v - d)| := by
  rw [errAt, hv, hd, Dbl.sub_fin, Dbl.abs_fin]

variable (chunk dec) in
/-- **The differences**: of two numbers a number, and of all else the same in any arithmetic, not a
number. -/
theorem errAt_cases (i : Tri) :
    (∃ v d, (chunk i).val = .fin v ∧ (dec i).val = .fin d) ∨
      ∃ z : Dbl, (∀ x, z ≠ .fin x) ∧ ∀ fl, errAt chunk dec fl i = z := by
  unfold errAt
  cases (chunk i).val with
  | fin v =>
    cases (dec i).val with
    | fin d => exact Or.inl ⟨v, d, rfl, rfl⟩
    | nan => exact Or.inr ⟨.nan, by simp, fun _ => rfl⟩
    | _ => exact Or.inr ⟨.pinf, by simp, fun _ => rfl⟩
  | nan => exact Or.inr ⟨.nan, by simp, fun _ => rfl⟩
  | ninf =>
    cases (dec i).val with
    | nan | ninf => exact Or.inr ⟨.nan, by simp, fun _ => rfl⟩
    | _ => exact Or.inr ⟨.pinf, by simp, fun _ => rfl⟩
  | pinf =>
    cases (dec i).val with
    | nan | pinf => exact Or.inr ⟨.nan, by simp, fun _ => rfl⟩
    | _ => exact Or.inr ⟨.pinf, by simp, fun _ => rfl⟩

variable (chunk dec) in
/-- A difference is rounded like its magnitude; one that is not a finite number stays what it is. -/
theorem errAt_roundEven (i : Tri) :
    (∀ x, errAt chunk dec id i = .fin x → 0 ≤ x ∧ errAt chunk dec (roundEven 53) i =
      .fin (roundEven 53 x)) ∧
      ((∀ x, errAt chunk dec id i ≠ .fin x) →
        errAt chunk dec (roundEven 53) i = errAt chunk dec id i) := by
  rcases errAt_cases chunk dec i with ⟨v, d, hv, hd⟩ | ⟨z, hz, hall⟩
  · rw [errAt_of_fin hv hd, errAt_of_fin hv hd, abs_roundEven (by norm_num), id_eq]
    refine ⟨fun x hx => ?_, fun hne => absurd rfl (hne _)⟩
    rw [← Dbl.fin.inj hx]
    exact ⟨abs_nonneg _, rfl⟩
  · rw [hall, hall]
    exact ⟨fun x hx => absurd hx (hz x), fun _ => rfl⟩

theorem maxErr_of_pinf {i : Tri} (hi : i ∈ unitCells shape) (hinf : errAt chunk dec id i = .pinf) :
    maxErr shape chunk dec (roundEven 53) = .pinf := by
  have hround := (errAt_roundEven chunk dec i).2 fun x hx => by
    rw [hinf] at hx
    cases hx
  obtain ⟨hnan, -, hle, -⟩ := maxErr_spec shape chunk dec (roundEven 53)
  have hmax := hle i hi (by rw [hround, hinf]; simp)
  rw [hround, hinf] at hmax
  exact Dbl.le_antisymm (Dbl.le_pinf hnan) hmax

/-- **The largest double is the rounded greatest difference.** -/
theorem maxErr_of_greatest {x : ℚ} (h : GreatestDifference shape chunk dec x) :
    0 ≤ x ∧ maxErr shape chunk dec (roundEven 53) = .fin (roundEven 53 x) := by
  obtain ⟨⟨i, hi, hix⟩, hall⟩ := h
  obtain ⟨h0, hround⟩ := (errAt_roundEven chunk dec i).1 x hix
  obtain ⟨hnan, hnonneg, hle, hatt⟩ := maxErr_spec shape chunk dec (roundEven 53)
  have hge := hle i hi (by rw [hround]; simp)
  rw [hround] at hge
  refine ⟨h0, Dbl.le_antisymm ?_ hge⟩
  rcases hatt with hzero | ⟨j, hj, hmax⟩
  · rw [hzero, Dbl.fin_le_fin]
    exact toNearest53.nonneg h0
  · rw [← hmax]
    by_cases hfin : ∃ y, errAt chunk dec id j = .fin y
    · obtain ⟨y, hy⟩ := hfin
      have hyx := hall j hj (by rw [hy]; simp)
      rw [hy, Dbl.fin_le_fin] at hyx
      rw [((errAt_roundEven chunk dec j).1 y hy).2, Dbl.fin_le_fin]
      exact toNearest53.mono hyx
    · -- a difference that is not a finite number would be above the greatest one
      have hsame := (errAt_roundEven chunk dec j).2 fun y hy => hfin ⟨y, hy⟩
      have hle' := hall j hj (by rw [← hsame, hmax]; exact hnan)
      rw [hsame]
      refine absurd ⟨(errAt chunk dec id j).toRat, ?_⟩ hfin
      have hpos : Dbl.fin 0 ≤ errAt chunk dec id j := by rw [← hsame, hmax]; exact hnonneg
      obtain ⟨y, hy⟩ := Dbl.exists_fin_of_between hpos hle'
      rw [hy, Dbl.toRat_fin]

variable (shape chunk dec)

/-- A unit without an infinite difference has a greatest one, or no difference that is a number. -/
theorem exists_greatest (hinf : ∀ i ∈ unitCells shape, errAt chunk dec id i ≠ .pinf) :
    (∃ x, GreatestDifference shape chunk dec x) ∨ ∀ i ∈ unitCells shape, ∀ x,
      errAt chunk dec id i ≠ .fin x := by
  obtain ⟨-, hnonneg, hle, hatt⟩ := maxErr_spec shape chunk dec id
  by_cases hany : ∃ i ∈ unitCells shape, ∃ x, errAt chunk dec id i = .fin x
  · left
    obtain ⟨i, hi, x, hx⟩ := hany
    obtain ⟨j, hj, hmax⟩ : ∃ j ∈ unitCells shape, errAt chunk dec id j = maxErr shape chunk dec id := by
      rcases hatt with hzero | hatt
      · -- all differences are zero
        refine ⟨i, hi, ?_⟩
        have hxle := hle i hi (by rw [hx]; simp)
        have hx0 := ((errAt_roundEven chunk dec i).1 x hx).1
        rw [hzero, hx, Dbl.fin_le_fin] at hxle
        rw [hzero, hx, le_antisymm hxle hx0]
      · exact hatt
    have hfin : ∃ y, maxErr shape chunk dec id = .fin y := by
      cases hm : maxErr shape chunk dec id with
      | nan => exact absurd (hm ▸ hnonneg) (Dbl.not_le_nan _)
      | ninf => exact absurd (hm ▸ hnonneg) (Dbl.not_fin_le_ninf 0)
      | pinf => exact absurd (hmax.trans hm) (hinf j hj)
      | fin y => exact ⟨y, rfl⟩
    obtain ⟨y, hy⟩ := hfin
    rw [hy] at hle hmax
    exact ⟨y, ⟨j, hj, hmax⟩, hle⟩
  · exact Or.inr fun i hi x hx => hany ⟨i, hi, x, hx⟩

/-! ### The bound of a unit -/

/-- **When the stored bound is a true one.** It is not below any difference of two finite values of the
unit, as an exact inequality, exactly when the greatest difference is not one that is rounded down. -/
theorem stored_bound_iff :
    (∀ i ∈ unitCells shape, ∀ v d : ℚ, (chunk i).val = .fin v → (dec i).val = .fin d →
      .fin |v - d| ≤ (recEps (szfpMeta shape chunk dec (roundEven 53))).val) ↔
    ∀ x, GreatestDifference shape chunk dec x → ¬ RoundedDown x := by
  have heps : recEps (szfpMeta shape chunk dec (roundEven 53)) =
      epsOf (maxErr shape chunk dec (roundEven 53)) := by
    have := recEps_szfpMeta shape chunk dec (roundEven 53) []
    rwa [List.append_nil] at this
  rw [heps]
  by_cases hinf : ∃ i ∈ unitCells shape, errAt chunk dec id i = .pinf
  · obtain ⟨i, hi, hpinf⟩ := hinf
    rw [maxErr_of_pinf hi hpinf, val_epsOf_pinf]
    refine ⟨fun _ x hx => ?_, fun _ j _ v d _ _ => Dbl.fin_le_pinf _⟩
    have := hx.2 i hi (by rw [hpinf]; simp)
    rw [hpinf] at this
    exact absurd this (Dbl.not_pinf_le_fin x)
  · push Not at hinf
    rcases exists_greatest shape chunk dec hinf with ⟨x, hx⟩ | hnone
    · obtain ⟨h0, hmax⟩ := maxErr_of_greatest hx
      have huniq : ∀ y, GreatestDifference shape chunk dec y → y = x := by
        rintro y ⟨⟨i, hi, hiy⟩, hy⟩
        obtain ⟨⟨j, hj, hjx⟩, hx'⟩ := hx
        have h1 := hx' i hi (by rw [hiy]; simp)
        have h2 := hy j hj (by rw [hjx]; simp)
        rw [hiy, Dbl.fin_le_fin] at h1
        rw [hjx, Dbl.fin_le_fin] at h2
        exact le_antisymm h1 h2
      rw [hmax]
      constructor
      · intro hcover y hy
        rw [huniq y hy, ← le_epsOf_iff h0]
        obtain ⟨i, hi, hix⟩ := hx.1
        rcases errAt_cases chunk dec i with ⟨v, d, hv, hd⟩ | ⟨z, hz, hall⟩
        · rw [← hix, errAt_of_fin hv hd]
          exact hmax ▸ hcover i hi v d hv hd
        · exact absurd ((hall id).symm.trans hix) (hz x)
      · intro hdown i hi v d hv hd
        have hle := hx.2 i hi (by rw [errAt_of_fin hv hd]; simp)
        rw [errAt_of_fin hv hd] at hle
        exact Dbl.le_trans hle ((le_epsOf_iff h0).mpr (hdown x hx))
    · refine ⟨fun _ x hx => ?_, fun _ i hi v d hv hd => absurd (errAt_of_fin hv hd id) (hnone i hi _)⟩
      obtain ⟨i, hi, hix⟩ := hx.1
      exact absurd hix (hnone i hi x)

end Unit

/-- An original value of `-2 ^ -60`, decoded as 1: the difference is rounded to 1, and so is the bound. -/
theorem not_covered_tiny : ¬ ∀ i ∈ unitCells (fun _ => 4), ∀ v d : ℚ,
    (⟨0xA1800000#32⟩ : F32).val = .fin v → (⟨0x3F800000#32⟩ : F32).val = .fin d →
      .fin |v - d| ≤ (recEps (szfpMeta (fun _ => 4) (fun _ => ⟨0xA1800000#32⟩) (fun _ => ⟨0x3F800000#32⟩)
        (roundEven 53))).val := by
  have hv : (⟨0xA1800000#32⟩ : F32).val = .fin (-(1 / 2 ^ 60)) := by decide +kernel
  have hd : (⟨0x3F800000#32⟩ : F32).val = .fin 1 := by decide +kernel
  have habs : |(-(1 / 2 ^ 60) - 1 : ℚ)| = 1 + 1 / 2 ^ 60 := by
    rw [abs_of_neg (by norm_num)]
    norm_num
  set chunk : Tri → F32 := fun _ => ⟨0xA1800000#32⟩
  set dec : Tri → F32 := fun _ => ⟨0x3F800000#32⟩
  have herr : ∀ i, errAt chunk dec id i = .fin (1 + 1 / 2 ^ 60) := fun i => by
    rw [← habs]
    exact errAt_of_fin hv hd id
  have hmem : (fun _ => 0) ∈ unitCells fun _ => 4 := by decide
  have hgreat : GreatestDifference (fun _ => 4) chunk dec (1 + 1 / 2 ^ 60) :=
    ⟨⟨_, hmem, herr _⟩, fun i _ _ => by rw [herr]; exact Dbl.le_refl (by simp)⟩
  have hdown : RoundedDown (1 + 1 / 2 ^ 60) := by
    refine Or.inl ⟨_, 1, hd, one_pos, by norm_num, ?_⟩
    rw [Int.log_one_right]
    norm_num
  obtain ⟨h0, hmax⟩ := maxErr_of_greatest hgreat
  have heps := recEps_szfpMeta (fun _ => 4) chunk dec (roundEven 53) []
  rw [List.append_nil, hmax] at heps
  intro hcover
  have hle := hcover _ hmem _ _ hv hd
  rw [habs, heps] at hle
  exact (le_epsOf_iff h0).mp hle hdown

end SkipZFP.Plan.ErrorBound
