import Mathlib.Tactic.SplitIfs
import SkipZFP.Lib.Float32

/-! # Neighbours of a float32

`ord` numbers the float32 values, the infinities included, so that their order is the order of their
numbers (`val_lt_iff`) and `nextafterf` towards an infinity is a step of one (`ord_nextafterf`).
`Nearest` are the casts from double that round to a nearest value and overflow beyond the range only;
`nearest_ofDouble` says that the C cast is one of them.

* `lt_iff_of_lt` and `le_iff_of_gt`: no float32 lies between a double and what it is cast to.
* `pred_lt_iff`: what is above the value before a given one. -/

namespace SkipZFP.Lib.Float32

open SkipZFP.Lib.Double

namespace F32

/-! ### Numbers of values -/

/-- The number of a value: zero for both zeros, and `infMag` for the infinity. -/
def ord (f : F32) : ℤ := if f.isNeg then -f.mag else f.mag

/-- The rational of a finite value's number. -/
def ordVal (n : ℤ) : ℚ := if n < 0 then -magVal n.natAbs else magVal n.natAbs

theorem ordVal_lt {a b : ℤ} (h : a < b) : ordVal a < ordVal b := by
  unfold ordVal
  have hmono := @magVal_strictMono
  have hnonneg := magVal_nonneg
  split_ifs with ha hb hb
  · exact neg_lt_neg (hmono (by omega))
  · rcases Nat.eq_zero_or_pos b.natAbs with h0 | h0
    · rw [h0, magVal_zero]
      have := hmono (show 0 < a.natAbs by omega)
      rw [magVal_zero] at this
      linarith
    · have h1 := hnonneg a.natAbs
      have := hmono h0
      rw [magVal_zero] at this
      linarith
  · omega
  · exact hmono (by omega)

theorem ordVal_lt_iff {a b : ℤ} : ordVal a < ordVal b ↔ a < b := by
  refine ⟨fun h => ?_, ordVal_lt⟩
  rcases lt_trichotomy a b with hab | rfl | hab
  · exact hab
  · exact absurd h (lt_irrefl _)
  · exact absurd h (ordVal_lt hab).not_gt

theorem val_ne_nan_iff {f : F32} : f.val ≠ .nan ↔ f.mag ≤ infMag := by
  unfold val
  split_ifs with h1 h2 h3 <;> simp <;> omega

theorem abs_ord_le {f : F32} (hf : f.val ≠ .nan) : -infMag ≤ f.ord ∧ f.ord ≤ infMag := by
  have h := val_ne_nan_iff.mp hf
  unfold ord
  split_ifs <;> omega

theorem val_eq_ord {f : F32} (hf : f.val ≠ .nan) : f.val =
    if f.ord = -infMag then .ninf else if f.ord = infMag then .pinf else .fin (ordVal f.ord) := by
  have h := val_ne_nan_iff.mp hf
  have hpos : (0 : ℤ) < infMag := by decide
  unfold val ord ordVal
  rw [if_neg (by omega)]
  by_cases hneg : f.isNeg = true
  · simp only [hneg, if_true]
    by_cases hinf : f.mag = infMag
    · rw [if_pos hinf, if_pos (by omega)]
    · rw [if_neg hinf, if_neg (by omega), if_neg (by omega)]
      by_cases h0 : f.mag = 0
      · simp [h0, magVal_zero]
      · rw [if_pos (by omega), Int.natAbs_neg, Int.natAbs_natCast]
  · have hord : ¬ ((f.mag : ℤ) = -infMag) := by omega
    simp only [hneg, Bool.false_eq_true, if_false, if_neg hord]
    by_cases hinf : f.mag = infMag
    · rw [if_pos hinf, if_pos (by omega)]
    · rw [if_neg hinf, if_neg (by omega), if_neg (by omega), Int.natAbs_natCast]

/-- **Values are ordered like their numbers.** -/
theorem val_lt_iff {f g : F32} (hf : f.val ≠ .nan) (hg : g.val ≠ .nan) :
    f.val < g.val ↔ f.ord < g.ord := by
  have hpos : (0 : ℤ) < infMag := by decide
  have h1 := abs_ord_le hf
  have h2 := abs_ord_le hg
  rw [val_eq_ord hf, val_eq_ord hg]
  split_ifs <;> simp [ordVal_lt_iff] <;> omega

theorem val_le_iff {f g : F32} (hf : f.val ≠ .nan) (hg : g.val ≠ .nan) :
    f.val ≤ g.val ↔ f.ord ≤ g.ord := by
  rw [← Dbl.not_lt hg hf, val_lt_iff hg hf]
  omega

theorem val_eq_ninf_iff {f : F32} (hf : f.val ≠ .nan) : f.val = .ninf ↔ f.ord = -infMag := by
  have hpos : (0 : ℤ) < infMag := by decide
  rw [val_eq_ord hf]
  split_ifs <;> simp_all

/-! ### The next value down -/

theorem ord_ofMag {neg : Bool} {k : ℕ} (hk : k < 2 ^ 31) :
    (ofMag neg k).ord = if neg then -(k : ℤ) else k := by
  unfold ord
  rw [mag_ofMag hk, isNeg_ofMag hk]

theorem ord_negInf : negInf.ord = -infMag := ord_ofMag (by decide)

theorem ord_down {f : F32} (hf : f.val ≠ .nan) (hinf : f.ord ≠ -infMag) :
    f.down.ord = f.ord - 1 ∧ f.down.val ≠ .nan := by
  have h := val_ne_nan_iff.mp hf
  have hM : infMag < 2 ^ 31 - 1 := by decide
  have hpos : 1 ≤ infMag := by decide
  rw [val_ne_nan_iff]
  unfold ord at hinf
  by_cases h0 : f.mag = 0
  · have hdown : f.down = ofMag true 1 := if_pos h0
    rw [hdown, ord_ofMag (by omega), mag_ofMag (by omega)]
    unfold ord
    simp [h0, hpos]
  · by_cases hneg : f.isNeg = true
    · have hdown : f.down = ofMag true (f.mag + 1) := by
        unfold down
        rw [if_neg h0, if_pos hneg]
      rw [if_pos hneg] at hinf
      rw [hdown, ord_ofMag (by omega), mag_ofMag (by omega)]
      unfold ord
      rw [if_pos hneg, if_pos rfl]
      omega
    · have hdown : f.down = ofMag false (f.mag - 1) := by
        unfold down
        rw [if_neg h0, if_neg hneg]
      rw [hdown, ord_ofMag (by omega), mag_ofMag (by omega)]
      unfold ord
      rw [if_neg hneg, if_neg Bool.false_ne_true]
      omega

/-- **`nextafterf(f, -INFINITY)`** is one step down, to the negative infinity at most. -/
theorem ord_nextafterf {f : F32} (hf : f.val ≠ .nan) :
    (nextafterf f negInf).ord = max (f.ord - 1) (-infMag) ∧ (nextafterf f negInf).val ≠ .nan := by
  have hrange := abs_ord_le hf
  unfold nextafterf
  rw [val_negInf, if_neg (by simp [hf])]
  by_cases hinf : f.val = .ninf
  · rw [if_pos hinf, ord_negInf, val_negInf]
    have := (val_eq_ninf_iff hf).mp hinf
    exact ⟨by omega, by simp⟩
  · rw [if_neg hinf, if_neg (Dbl.not_lt_ninf _)]
    have hord : f.ord ≠ -infMag := fun h => hinf ((val_eq_ninf_iff hf).mpr h)
    obtain ⟨h1, h2⟩ := ord_down hf hord
    exact ⟨by omega, h2⟩

/-- **What is above the value before `f`.** -/
theorem pred_lt_iff {f g : F32} (hf : f.val ≠ .nan) (hg : g.val ≠ .nan) :
    (nextafterf f negInf).val < g.val ↔ f.val ≤ g.val ∧ g.val ≠ .ninf := by
  obtain ⟨hord, hnan⟩ := ord_nextafterf hf
  have h1 := abs_ord_le hf
  have h2 := abs_ord_le hg
  rw [val_lt_iff hnan hg, val_le_iff hf hg, Ne, val_eq_ninf_iff hg, hord]
  omega

/-! ### Casts to a nearest value -/

/-- **A cast to a nearest value.** A finite double goes to a float32 that no other is nearer to, or to an
infinity where it is beyond all of them. -/
structure Nearest (round : Dbl → F32) : Prop where
  num : ∀ q, (round (.fin q)).val ≠ .nan
  finite : ∀ q e, (round (.fin q)).val = .fin e → ∀ (f : F32) (e' : ℚ), f.val = .fin e' →
    |q - e| ≤ |q - e'|
  overflow : ∀ q, (round (.fin q)).val = .pinf → ∀ (f : F32) (e' : ℚ), f.val = .fin e' → e' < q
  underflow : ∀ q, (round (.fin q)).val = .ninf → ∀ (f : F32) (e' : ℚ), f.val = .fin e' → q < e'
  pinf : (round .pinf).val = .pinf
  ninf : (round .ninf).val = .ninf

namespace Nearest
variable {round : Dbl → F32} (h : Nearest round) {x : Dbl} (hx : x ≠ .nan)
include h hx

theorem ne_nan : (round x).val ≠ .nan := by
  cases x with
  | nan => exact absurd rfl hx
  | ninf => rw [h.ninf]; simp
  | pinf => rw [h.pinf]; simp
  | fin q => exact h.num q

/-- **A double that is cast down**: no float32 lies between. -/
theorem lt_iff_of_lt (hlt : (round x).val < x) {g : F32} (hg : g.val ≠ .nan) :
    (round x).val < g.val ↔ x < g.val := by
  refine ⟨fun hfg => ?_, Dbl.lt_of_lt_of_le hlt ∘ Dbl.le_of_lt⟩
  cases x with
  | nan => exact absurd rfl hx
  | ninf => exact absurd hlt (Dbl.not_lt_ninf _)
  | pinf => rw [h.pinf] at hlt; exact absurd hlt (Dbl.not_pinf_lt _)
  | fin q =>
    have hf := h.num q
    cases hge : g.val with
    | nan => exact absurd hge hg
    | ninf => rw [hge] at hfg; exact absurd hfg (Dbl.not_lt_ninf _)
    | pinf => simp
    | fin e' =>
      rw [hge] at hfg
      rw [Dbl.fin_lt_fin]
      cases hfe : (round (.fin q)).val with
      | nan => exact absurd hfe hf
      | ninf => exact h.underflow q hfe g e' hge
      | pinf => rw [hfe] at hfg; exact absurd hfg (Dbl.not_pinf_lt _)
      | fin e =>
        have hnear := h.finite q e hfe g e' hge
        rw [hfe, Dbl.fin_lt_fin] at hfg hlt
        by_contra hle
        rw [abs_of_pos (by linarith), abs_of_nonneg (by linarith)] at hnear
        linarith

/-- **A double that is cast up**: no float32 lies between. -/
theorem le_iff_of_gt (hgt : x < (round x).val) {g : F32} (hg : g.val ≠ .nan) :
    (round x).val ≤ g.val ↔ x ≤ g.val := by
  refine ⟨Dbl.le_trans (Dbl.le_of_lt hgt), fun hxg => ?_⟩
  cases x with
  | nan => exact absurd rfl hx
  | ninf => rw [h.ninf] at hgt; exact absurd hgt (Dbl.not_lt_ninf _)
  | pinf => exact absurd hgt (Dbl.not_pinf_lt _)
  | fin q =>
    have hf := h.num q
    cases hge : g.val with
    | nan => exact absurd hge hg
    | ninf => rw [hge] at hxg; exact absurd hxg (Dbl.not_fin_le_ninf q)
    | pinf => exact Dbl.le_pinf hf
    | fin e' =>
      rw [hge, Dbl.fin_le_fin] at hxg
      cases hfe : (round (.fin q)).val with
      | nan => exact absurd hfe hf
      | ninf => exact Dbl.ninf_le_fin e'
      | pinf => exact absurd (h.overflow q hfe g e' hge) (not_lt.mpr hxg)
      | fin e =>
        have hnear := h.finite q e hfe g e' hge
        rw [hfe, Dbl.fin_lt_fin] at hgt
        rw [Dbl.fin_le_fin]
        rw [abs_of_neg (by linarith), abs_of_nonpos (by linarith)] at hnear
        linarith

theorem ne_val_of_gt (hgt : x < (round x).val) (g : F32) : x ≠ g.val := by
  intro hxg
  cases x with
  | nan => exact absurd rfl hx
  | ninf => rw [h.ninf] at hgt; exact absurd hgt (Dbl.not_lt_ninf _)
  | pinf => exact absurd hgt (Dbl.not_pinf_lt _)
  | fin q =>
    cases hfe : (round (.fin q)).val with
    | nan => exact h.num q hfe
    | ninf => rw [hfe] at hgt; exact absurd hgt (Dbl.not_lt_ninf _)
    | pinf => exact lt_irrefl q (h.overflow q hfe g q hxg.symm)
    | fin e =>
      have hnear := h.finite q e hfe g q hxg.symm
      rw [hfe, Dbl.fin_lt_fin] at hgt
      rw [sub_self, abs_zero, abs_nonpos_iff] at hnear
      linarith

/-- **A double that is cast up**, again: the float32 from the rounded one on are above it. -/
theorem lt_iff_of_gt (hgt : x < (round x).val) {g : F32} (hg : g.val ≠ .nan) :
    (round x).val ≤ g.val ↔ x < g.val := by
  rw [h.le_iff_of_gt hx hgt hg]
  refine ⟨fun hle => ?_, Dbl.le_of_lt⟩
  by_contra hlt
  exact h.ne_val_of_gt hx hgt g (Dbl.le_antisymm hle ((Dbl.not_lt hx hg).mp hlt))

end Nearest

/-! ### The C cast is to a nearest value -/

/-- The number `k` that `roundOrd` chooses is the nearer one of two neighbours. -/
theorem roundOrd_nearer (q : ℚ) :
    (roundOrd 23 (q * 2 ^ 149) = floorMag q ∧ q - magVal (floorMag q) ≤ magVal (floorMag q + 1) - q) ∨
    (roundOrd 23 (q * 2 ^ 149) = floorMag q + 1 ∧
      magVal (floorMag q + 1) - q ≤ q - magVal (floorMag q)) := by
  have hscale : ∀ k, magVal k * 2 ^ 149 = units 23 k := fun k => by
    unfold magVal
    rw [div_mul_cancel₀ _ (by positivity)]
  have hpos : (0 : ℚ) < 2 ^ 149 := by positivity
  have hle : ∀ {a b : ℚ}, a * 2 ^ 149 ≤ b * 2 ^ 149 → a ≤ b := fun h => le_of_mul_le_mul_right h hpos
  unfold roundOrd
  dsimp only
  rw [← hscale, ← hscale]
  show (ite _ (floorMag q) _ = _ ∧ _) ∨ (ite _ (floorMag q) _ = _ ∧ _)
  unfold floorMag
  split_ifs with h1 h2 h3
  · exact Or.inl ⟨rfl, hle (by linarith)⟩
  · exact Or.inr ⟨rfl, hle (by linarith)⟩
  · exact Or.inl ⟨rfl, hle (by linarith)⟩
  · exact Or.inr ⟨rfl, hle (by linarith)⟩

theorem abs_sub_round_le {q : ℚ} (hq : 0 ≤ q) {e : ℚ} (he : ∃ j, e = magVal j ∨ e = -magVal j) :
    |q - magVal (roundOrd 23 (q * 2 ^ 149))| ≤ |q - e| := by
  obtain ⟨h1, h2⟩ := floorMag_spec hq
  have hmono := magVal_strictMono.monotone
  have hpos : ∀ j, |q - magVal (roundOrd 23 (q * 2 ^ 149))| ≤ |q - magVal j| := by
    intro j
    rcases Nat.lt_or_ge (floorMag q) j with hj | hj
    · have hup := hmono (show floorMag q + 1 ≤ j by omega)
      rw [abs_of_neg (a := q - magVal j) (by linarith)]
      rcases roundOrd_nearer q with ⟨hr, hn⟩ | ⟨hr, hn⟩
      · rw [hr, abs_of_nonneg (by linarith)]
        linarith
      · rw [hr, abs_of_neg (by linarith)]
        linarith
    · have hdown := hmono hj
      rw [abs_of_nonneg (a := q - magVal j) (by linarith)]
      rcases roundOrd_nearer q with ⟨hr, hn⟩ | ⟨hr, hn⟩
      · rw [hr, abs_of_nonneg (by linarith)]
        linarith
      · rw [hr, abs_of_neg (by linarith)]
        linarith
  obtain ⟨j, rfl | rfl⟩ := he
  · exact hpos j
  · -- the other sign is farther than zero
    have hzero := hpos 0
    have hj := magVal_nonneg j
    rw [magVal_zero, sub_zero, abs_of_nonneg hq] at hzero
    rw [abs_of_nonneg (a := q - -magVal j) (by linarith)]
    linarith

theorem lt_of_roundOrd_ge {q : ℚ} (hq : 0 ≤ q) (h : infMag ≤ roundOrd 23 (q * 2 ^ 149)) :
    2 ^ 128 - 2 ^ 104 < q := by
  obtain ⟨h1, h2⟩ := floorMag_spec hq
  have hmax := magVal_max
  have hstep := magVal_strictMono (show infMag - 1 < infMag by decide)
  rcases roundOrd_nearer q with ⟨hr, hn⟩ | ⟨hr, hn⟩
  · have := magVal_strictMono.monotone (show infMag ≤ floorMag q by omega)
    linarith
  · have hle := magVal_strictMono.monotone (show infMag - 1 ≤ floorMag q by omega)
    have hlt := magVal_strictMono (Nat.lt_succ_self (floorMag q))
    linarith

/-- The finite values are the numbers of the format with a sign. -/
theorem magVal_of_val {f : F32} {e : ℚ} (h : f.val = .fin e) : ∃ j, e = magVal j ∨ e = -magVal j := by
  unfold val at h
  split_ifs at h
  · cases h; exact ⟨_, Or.inr rfl⟩
  · cases h; exact ⟨_, Or.inl rfl⟩

/-- **The C cast is to a nearest value.** -/
theorem nearest_ofDouble : Nearest ofDouble := by
  have hval : ∀ q : ℚ, (ofDouble (.fin q)).val =
      if infMag ≤ roundOrd 23 (|q| * 2 ^ 149) then (if q < 0 then .ninf else .pinf)
      else .fin (if q < 0 then -magVal (roundOrd 23 (|q| * 2 ^ 149))
        else magVal (roundOrd 23 (|q| * 2 ^ 149))) := by
    intro q
    show (ofMag (decide (q < 0)) (min (roundOrd 23 (|q| * 2 ^ 149)) infMag)).val = _
    by_cases h : infMag ≤ roundOrd 23 (|q| * 2 ^ 149)
    · rw [min_eq_right h, val_ofMag_inf, if_pos h]
      simp
    · rw [min_eq_left (by omega), val_ofMag (by omega), if_neg h]
      simp
  have habs : ∀ {f : F32} {e : ℚ}, f.val = .fin e → -(2 ^ 128 - 2 ^ 104) ≤ e ∧ e ≤ 2 ^ 128 - 2 ^ 104 :=
    fun h => abs_le.mp (abs_le_of_val h)
  refine ⟨fun q => ?_, fun q e he f e' he' => ?_, fun q he f e' he' => ?_, fun q he f e' he' => ?_,
    val_inf, val_negInf⟩
  · rw [hval]
    split_ifs <;> simp
  · have hnear := fun {e} he => abs_sub_round_le (abs_nonneg q) (e := e) he
    rw [hval] at he
    obtain ⟨j, hj⟩ := magVal_of_val he'
    split_ifs at he with h1 h2 h2
    · -- below zero both numbers change their sign
      have h := hnear (e := -e') ⟨j, by rcases hj with rfl | rfl <;> simp⟩
      rw [abs_of_neg h2] at h
      rw [← Dbl.fin.inj he, ← abs_neg (q - e'), ← abs_neg (q - _), abs_of_neg h2]
      convert h using 2 <;> ring
    · have h := hnear ⟨j, hj⟩
      rw [abs_of_nonneg (not_lt.mp h2)] at h
      rw [← Dbl.fin.inj he, abs_of_nonneg (not_lt.mp h2)]
      exact h
  · rw [hval] at he
    split_ifs at he with h1 h2
    have h := lt_of_roundOrd_ge (abs_nonneg q) h1
    rw [abs_of_nonneg (not_lt.mp h2)] at h
    exact (habs he').2.trans_lt h
  · rw [hval] at he
    split_ifs at he with h1 h2
    have h := lt_of_roundOrd_ge (abs_nonneg q) h1
    rw [abs_of_neg h2] at h
    linarith [(habs he').1]

end F32

end SkipZFP.Lib.Float32
