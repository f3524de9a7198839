import SkipZFP.Lib.Neighbour
import SkipZFP.Plan.Classify

/-! # The bounds of a range

`rangeBounds` maps a range with open or closed ends to the pair `(a, b)` for which a query counts
`a < x <= b`. An end that has to change its kind moves to the float32 below it.

* `belowF32_lt_iff`: what is above the float32 below a bound.
* `range_bounds_iff`: **when `a < x <= b` is the range asked for**. Negative infinity is never in it, even
  where there is no lower bound. -/

namespace SkipZFP.Query.Bounds

open SkipZFP.Lib.Double SkipZFP.Lib.Float32 SkipZFP.Lib.Float32.F32 SkipZFP.Plan.Classify

section Bounds
variable (round : Dbl → F32)

/-- `_below_f32`, with the cast `np.float32`. -/
def belowF32 (x : Dbl) : Dbl :=
  let f := round x
  if x ≤ f.val then (nextafterf f negInf).val else f.val

/-- `a` of `range_bounds`. -/
def lowerEnd (lo : Option Dbl) (inclusive : Bool) : Dbl :=
  match lo with
  | none => .ninf
  | some l => if inclusive then belowF32 round l else l

/-- `b` of `range_bounds`. -/
def upperEnd (hi : Option Dbl) (inclusive : Bool) : Dbl :=
  match hi with
  | none => .pinf
  | some h => if inclusive then h else belowF32 round h

/-- **`range_bounds`**. -/
def rangeBounds (lo hi : Option Dbl) (loInclusive hiInclusive : Bool) : Except String (Dbl × Dbl) :=
  if lo = some .nan then .error "lo must not be NaN"
  else if hi = some .nan then .error "hi must not be NaN"
  else if ∃ l ∈ lo, ∃ h ∈ hi, h < l then .error "lo must not exceed hi"
  else .ok (lowerEnd round lo loInclusive, upperEnd round hi hiInclusive)

/-- The range asked for. A missing bound imposes no condition. -/
def Meets (lo hi : Option Dbl) (loInclusive hiInclusive : Bool) (x : Dbl) : Prop :=
  (∀ l ∈ lo, if loInclusive then l ≤ x else l < x) ∧ ∀ h ∈ hi, if hiInclusive then x ≤ h else x < h

variable {round} (hr : Nearest round)
include hr

theorem belowF32_ne_nan {x : Dbl} (hx : x ≠ .nan) : belowF32 round x ≠ .nan := by
  unfold belowF32
  dsimp only
  split_ifs
  · exact (ord_nextafterf (hr.ne_nan hx)).2
  · exact hr.ne_nan hx

/-- **What is above the float32 below a bound**: what is not below the bound, but for negative
infinity. -/
theorem belowF32_lt_iff {x : Dbl} (hx : x ≠ .nan) {g : F32} (hg : g.val ≠ .nan) :
    belowF32 round x < g.val ↔ x ≤ g.val ∧ g.val ≠ .ninf := by
  have hf := hr.ne_nan hx
  unfold belowF32
  dsimp only
  split_ifs with hle
  · rw [pred_lt_iff hf hg]
    by_cases heq : (round x).val ≤ x
    · -- the bound is a float32
      exact and_congr_left fun _ => ⟨Dbl.le_trans hle, Dbl.le_trans heq⟩
    · rw [hr.le_iff_of_gt hx ((Dbl.not_le hf hx).mp heq) hg]
  · have hlt := (Dbl.not_le hx hf).mp hle
    rw [hr.lt_iff_of_lt hx hlt hg]
    refine ⟨fun hxg => ⟨Dbl.le_of_lt hxg, fun h => ?_⟩, fun h => ?_⟩
    · rw [h] at hxg
      exact Dbl.not_lt_ninf _ hxg
    · rw [← hr.lt_iff_of_lt hx hlt hg]
      exact Dbl.lt_of_lt_of_le hlt h.1

theorem lower_iff {lo : Option Dbl} (hlo : ∀ l ∈ lo, l ≠ .nan) (inclusive : Bool) {g : F32}
    (hg : g.val ≠ .nan) :
    lowerEnd round lo inclusive < g.val ↔
      g.val ≠ .ninf ∧ ∀ l ∈ lo, if inclusive then l ≤ g.val else l < g.val := by
  have hninf : ∀ {l : Dbl}, l < g.val → g.val ≠ .ninf := fun h he => by
    rw [he] at h
    exact Dbl.not_lt_ninf _ h
  unfold lowerEnd
  cases lo with
  | none =>
    refine ⟨fun h => ⟨hninf h, by simp⟩, fun h => ?_⟩
    exact (Dbl.not_le hg (by simp)).mp fun hle => by cases hv : g.val <;> simp_all
  | some l =>
    have hl := hlo l rfl
    by_cases hi : inclusive = true
    · simp only [hi, if_true, Option.mem_def, Option.some.injEq, forall_eq']
      rw [belowF32_lt_iff hr hl hg, and_comm]
    · simp only [hi, Bool.false_eq_true, if_false, Option.mem_def, Option.some.injEq, forall_eq']
      exact ⟨fun h => ⟨hninf h, h⟩, And.right⟩

theorem upper_iff {hi : Option Dbl} (hhi : ∀ h ∈ hi, h ≠ .nan) (inclusive : Bool) {g : F32}
    (hg : g.val ≠ .nan) (hninf : g.val ≠ .ninf) :
    g.val ≤ upperEnd round hi inclusive ↔
      ∀ h ∈ hi, if inclusive then g.val ≤ h else g.val < h := by
  unfold upperEnd
  cases hi with
  | none => simp [Dbl.le_pinf hg]
  | some h =>
    have hh := hhi h rfl
    by_cases hi : inclusive = true
    · simp [hi]
    · simp only [hi, Bool.false_eq_true, if_false, Option.mem_def, Option.some.injEq, forall_eq']
      rw [← Dbl.not_lt (belowF32_ne_nan hr hh) hg, belowF32_lt_iff hr hh hg, ← Dbl.not_le hh hg]
      simp [hninf]

theorem rangeBounds_ne_nan {lo hi : Option Dbl} {loInclusive hiInclusive : Bool} {a b : Dbl}
    (hok : rangeBounds round lo hi loInclusive hiInclusive = .ok (a, b)) : a ≠ .nan ∧ b ≠ .nan := by
  unfold rangeBounds at hok
  split_ifs at hok with h1 h2 h3
  obtain ⟨rfl, rfl⟩ := Prod.mk.inj (Except.ok.inj hok)
  unfold lowerEnd upperEnd
  constructor
  · cases lo with
    | none => simp
    | some l =>
      have hl : l ≠ .nan := fun h => h1 (by rw [h])
      dsimp only
      split_ifs
      · exact belowF32_ne_nan hr hl
      · exact hl
  · cases hi with
    | none => simp
    | some h =>
      have hh : h ≠ .nan := fun h' => h2 (by rw [h'])
      dsimp only
      split_ifs
      · exact hh
      · exact belowF32_ne_nan hr hh

omit hr in
/-- Negative infinity meets the lower bound unless a bound excludes it. -/
theorem lower_ninf_iff {lo : Option Dbl} (hlo : ∀ l ∈ lo, l ≠ .nan) {inclusive : Bool} :
    (∀ l ∈ lo, if inclusive then l ≤ .ninf else l < .ninf) ↔
      ¬ ∃ l ∈ lo, inclusive = true → l ≠ .ninf := by
  cases lo with
  | none => simp
  | some l =>
    have hl := hlo l rfl
    cases l <;> cases inclusive <;> simp_all

omit hr in
/-- Negative infinity meets every upper bound but to be below itself. -/
theorem upper_ninf_iff {hi : Option Dbl} (hhi : ∀ h ∈ hi, h ≠ .nan) {inclusive : Bool} :
    (∀ h ∈ hi, if inclusive then .ninf ≤ h else .ninf < h) ↔
      ¬ (hi = some .ninf ∧ inclusive = false) := by
  cases hi with
  | none => simp
  | some h =>
    have hh := hhi h rfl
    cases h <;> cases inclusive <;> simp_all

/-- **When `a < x <= b` is the range asked for**: for all values but negative infinity, which is never
counted. It is asked for unless the lower bound excludes it, or it has to be below itself. -/
theorem range_bounds_iff {lo hi : Option Dbl} (hlo : ∀ l ∈ lo, l ≠ .nan) (hhi : ∀ h ∈ hi, h ≠ .nan)
    (hle : ∀ l ∈ lo, ∀ h ∈ hi, l ≤ h) (loInclusive hiInclusive : Bool) {f : F32} (hf : f.val ≠ .nan) :
    ∃ a b, rangeBounds round lo hi loInclusive hiInclusive = .ok (a, b) ∧
      ((InRange a b f.val ↔ Meets lo hi loInclusive hiInclusive f.val) ↔
        f.val ≠ .ninf ∨ (∃ l ∈ lo, loInclusive = true → l ≠ .ninf) ∨
          (hi = some .ninf ∧ hiInclusive = false)) := by
  have hok : rangeBounds round lo hi loInclusive hiInclusive =
      .ok (lowerEnd round lo loInclusive, upperEnd round hi hiInclusive) := by
    have hlo' : lo ≠ some .nan := fun h => hlo .nan h rfl
    have hhi' : hi ≠ some .nan := fun h => hhi .nan h rfl
    unfold rangeBounds
    rw [if_neg hlo', if_neg hhi', if_neg]
    rintro ⟨l, hl, h, hh, hlt⟩
    exact Dbl.not_lt_of_le (hle l hl h hh) hlt
  refine ⟨_, _, hok, ?_⟩
  unfold InRange Meets
  rw [lower_iff hr hlo loInclusive hf]
  by_cases hninf : f.val = .ninf
  · rw [hninf, lower_ninf_iff hlo, upper_ninf_iff hhi]
    simp only [ne_eq, not_true_eq_false, false_and, false_or, false_iff]
    rw [← not_or, not_not]
  · rw [upper_iff hr hhi hiInclusive hf hninf]
    simp [hninf]

end Bounds

/-- With no bound at all negative infinity is left out. -/
theorem not_range_bounds_ninf : ∃ a b, rangeBounds ofDouble none none false true = .ok (a, b) ∧
    ¬ (InRange a b negInf.val ↔ Meets none none false true negInf.val) := by
  refine ⟨.ninf, .pinf, rfl, fun h => ?_⟩
  have hin : InRange .ninf .pinf negInf.val := h.mpr ⟨by simp, by simp⟩
  rw [val_negInf] at hin
  exact Dbl.not_lt_ninf _ hin.1

/-- The range from one tenth on, and the value after it. -/
theorem range_bounds_iff_tenth : ∃ a b,
    rangeBounds ofDouble (some (.fin (1 / 10))) none true true = .ok (a, b) ∧
      (InRange a b (ofDouble (.fin (1 / 10))).val ↔
        Meets (some (.fin (1 / 10))) none true true (ofDouble (.fin (1 / 10))).val) := by
  have hlo : ∀ l ∈ some (Dbl.fin (1 / 10)), l ≠ .nan := by simp
  have hhi : ∀ h ∈ (none : Option Dbl), h ≠ .nan := by simp
  obtain ⟨a, b, hok, h⟩ := range_bounds_iff nearest_ofDouble hlo hhi (by simp) true true
    (nearest_ofDouble.num (1 / 10))
  exact ⟨a, b, hok, h.mpr (Or.inr (Or.inl ⟨_, rfl, by simp⟩))⟩

end SkipZFP.Query.Bounds
