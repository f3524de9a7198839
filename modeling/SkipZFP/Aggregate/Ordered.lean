import SkipZFP.Aggregate.Sound
import SkipZFP.Query.Bounds

/-! # The intervals of an aggregate are ordered

In exact arithmetic the intervals for the count and the sum of the original values are always ordered, and
so is that for the mean as long as some value surely matches. With values that may match only, the mean is
between their least and greatest bound, and each of these is moved to an end of the range on its own.

* `NothingBetween`: the ranges that are accepted, but whose ends come out in the wrong order
  (`reversed_iff`).
* `Kept`: what every value keeps of the totals, for ends in order and for ends that are not.
* `intervals_ordered_iff`: **the intervals are ordered unless the ends are not and some value may match.**
  `not_ordered_one` is a range where they are not. -/

namespace SkipZFP.Aggregate.Ordered

open SkipZFP.Lib.Double SkipZFP.Lib.Float32 SkipZFP.Plan.Classify SkipZFP.Query.Bounds
open SkipZFP.Aggregate.Block SkipZFP.Aggregate.Combine SkipZFP.Aggregate.Sound

/-- A block as it is listed: the range it is classified by, what the planner widens that by, the bound it
is listed with and its decoded values. -/
structure PlannedBlock where
  bmin : Dbl
  bmax : Dbl
  err : ℚ
  eps : ℚ
  values : List F32

/-- The state the planner gives a block. -/
def PlannedBlock.state (lo hi : Dbl) (x : PlannedBlock) : BlockState :=
  stateOf id x.bmin x.bmax (.fin x.err) lo hi

/-- The decoded values are numbers in the widened range, and the bound is not below the planner's. -/
structure PlannedBlock.Right (x : PlannedBlock) : Prop where
  err_nonneg : 0 ≤ x.err
  err_le : x.err ≤ x.eps
  near : ∀ v ∈ x.values, ∃ r, v.val = .fin r ∧ Dbl.sub id x.bmin (.fin x.err) ≤ .fin r ∧
    .fin r ≤ Dbl.add id x.bmax (.fin x.err)

/-- The totals of a read. -/
def totals (lo hi : Dbl) (read : List PlannedBlock) : SzAggregate :=
  read.foldl (fun acc x => aggregateBlock Arith.exact (.fin x.eps) (x.state lo hi = .IN) lo hi acc x.values)
    .init

/-- The intervals of an answer are ordered. -/
def InOrder (c : Combined) : Prop :=
  c.originalCount.1 ≤ c.originalCount.2 ∧ c.originalSum.1 ≤ c.originalSum.2 ∧
    ∀ m ∈ c.originalMean, m.1 ≤ m.2

/-- A value is within its bound of both ends: its original is not below the lower end nor above the upper
one, each by itself. -/
def Possible (lo hi : Dbl) (eps : ℚ) (v : F32) : Prop :=
  lo < Dbl.add id v.val (.fin eps) ∧ Dbl.sub id v.val (.fin eps) ≤ hi

instance (lo hi : Dbl) (eps : ℚ) (v : F32) : Decidable (Possible lo hi eps v) := by
  unfold Possible; infer_instance

/-! ### The ends of a range -/

/-- **The range asked for has two open ends and no float32 from its lower end on below its upper end.** -/
def NothingBetween (lo hi : Option Dbl) (loInclusive hiInclusive : Bool) : Prop :=
  loInclusive = false ∧ hiInclusive = false ∧
    ∃ l ∈ lo, ∃ h ∈ hi, l ≠ .ninf ∧ ∀ g : F32, l ≤ g.val → ¬ g.val < h

section Ends
variable {x y : Dbl}

theorem belowF32_val (hx : x ≠ .nan) : ∃ g : F32, g.val = belowF32 F32.ofDouble x ∧ g.val ≠ .nan ∧
    (x ≤ g.val → g.val = .ninf) := by
  obtain ⟨g, hg⟩ : ∃ g : F32, g.val = belowF32 F32.ofDouble x := by
    unfold belowF32
    dsimp only
    split_ifs
    · exact ⟨_, rfl⟩
    · exact ⟨_, rfl⟩
  have hnan : g.val ≠ .nan := hg ▸ belowF32_ne_nan F32.nearest_ofDouble hx
  refine ⟨g, hg, hnan, fun hle => ?_⟩
  by_contra hninf
  have hlt := (belowF32_lt_iff F32.nearest_ofDouble hx hnan).mpr ⟨hle, hninf⟩
  rw [hg] at hlt
  exact Dbl.not_lt_of_le (Dbl.le_refl (hg ▸ hnan)) hlt

theorem belowF32_mono (hx : x ≠ .nan) (hxy : x ≤ y) :
    ¬ belowF32 F32.ofDouble y < belowF32 F32.ofDouble x := by
  have hy := (Dbl.ne_nan_of_le hxy).2
  obtain ⟨g, hg, hnan, hself⟩ := belowF32_val hx
  rw [← hg]
  intro hlt
  obtain ⟨hyg, hninf⟩ := (belowF32_lt_iff F32.nearest_ofDouble hy hnan).mp hlt
  exact hninf (hself (Dbl.le_trans hxy hyg))

theorem not_lt_belowF32 (hx : x ≠ .nan) : ¬ x < belowF32 F32.ofDouble x := by
  obtain ⟨g, hg, -, hself⟩ := belowF32_val hx
  rw [← hg]
  intro hlt
  rw [hself (Dbl.le_of_lt hlt)] at hlt
  exact Dbl.not_lt_ninf _ hlt

/-- **When the ends come out in the wrong order.** -/
theorem reversed_iff {lo hi : Option Dbl} {loInclusive hiInclusive : Bool} {a b : Dbl}
    (hok : rangeBounds F32.ofDouble lo hi loInclusive hiInclusive = .ok (a, b)) :
    b < a ↔ NothingBetween lo hi loInclusive hiInclusive := by
  unfold rangeBounds at hok
  split_ifs at hok with hlo hhi hle
  obtain ⟨rfl, rfl⟩ := Prod.mk.inj (Except.ok.inj hok)
  unfold NothingBetween
  cases lo with
  | none =>
    refine ⟨fun h => absurd h (Dbl.not_lt_ninf _), ?_⟩
    rintro ⟨-, -, l, hl, -⟩
    cases hl
  | some l =>
    cases hi with
    | none =>
      refine ⟨fun h => absurd h (Dbl.not_pinf_lt _), ?_⟩
      rintro ⟨-, -, l, -, h, hh, -⟩
      cases hh
    | some h =>
      have hl : l ≠ .nan := fun h0 => hlo (by rw [h0])
      have hh : h ≠ .nan := fun h0 => hhi (by rw [h0])
      have hlh : l ≤ h := (Dbl.not_lt hh hl).mp fun hlt => hle ⟨l, rfl, h, rfl, hlt⟩
      unfold lowerEnd upperEnd
      dsimp only
      cases loInclusive <;> cases hiInclusive <;>
        simp only [Bool.false_eq_true, if_false, if_true, Option.mem_def, Option.some.injEq,
          exists_eq_left',
          true_and, false_and, reduceCtorEq, iff_false]
      · -- both ends are open
        obtain ⟨g, hg, hnan, hself⟩ := belowF32_val hh
        constructor
        · intro hlt
          refine ⟨fun h0 => Dbl.not_lt_ninf _ (h0 ▸ hlt), fun g' hlg => ?_⟩
          have hnan' := (Dbl.ne_nan_of_le hlg).2
          have := (belowF32_lt_iff F32.nearest_ofDouble hh hnan').mp (Dbl.lt_of_lt_of_le hlt hlg)
          exact Dbl.not_lt_of_le this.1
        · rintro ⟨hninf, hnone⟩
          by_contra hge
          rw [← hg, Dbl.not_lt hnan hl] at hge
          refine hnone g hge ((Dbl.not_le hh hnan).mp fun hhg => hninf ?_)
          exact Dbl.le_antisymm (hself hhg ▸ hge) (by cases l <;> simp_all)
      · exact Dbl.not_lt_of_le hlh
      · exact belowF32_mono hl hlh
      · exact fun hlt => not_lt_belowF32 hl (Dbl.lt_of_le_of_lt hlh hlt)

end Ends

/-! ### One value -/

/-- **What every value keeps of the totals.** An account stands for them; with the ends in order, so are
the least and the greatest bound; with the ends reversed nothing surely matches, and the bounds are
outside. -/
structure Kept (lo hi : Dbl) (acc : SzAggregate) : Prop where
  covers : ∃ t, Covers acc t
  ordered : lo ≤ hi → acc.maybeCount ≠ 0 → acc.maybeMin ≤ acc.maybeMax
  reversed : hi < lo → acc.sureCount = 0 ∧ lo ≤ acc.maybeMin ∧ acc.maybeMax ≤ hi

section Value
variable {lo hi : Dbl} {acc : SzAggregate} {eps r : ℚ} {inBlock : Bool} {v : F32}

theorem kept_init (hlo : lo ≠ .nan) (hhi : hi ≠ .nan) : Kept lo hi .init where
  covers := ⟨_, covers_init⟩
  ordered _ h := absurd rfl h
  reversed _ := ⟨rfl, Dbl.le_pinf hlo, by cases hi <;> simp_all [SzAggregate.init]⟩

theorem larger_spec {a b : ℚ} (hlo : lo < .fin b) : ∃ low, larger (.fin a) lo = .fin low ∧ lo ≤ .fin low ∧
    (low = a ∨ lo = .fin low) := by
  unfold larger
  by_cases ha : lo < .fin a
  · exact ⟨a, if_pos ha, Dbl.le_of_lt ha, Or.inl rfl⟩
  · rw [if_neg ha]
    cases lo with
    | nan => exact absurd hlo (Dbl.not_nan_lt _)
    | ninf => exact absurd (Dbl.ninf_lt_fin a) ha
    | pinf => exact absurd hlo (Dbl.not_pinf_lt _)
    | fin l => exact ⟨l, rfl, Dbl.le_refl (by simp), Or.inr rfl⟩

theorem smaller_spec {a b : ℚ} (hhi : .fin a ≤ hi) : ∃ high, smaller (.fin b) hi = .fin high ∧
    .fin high ≤ hi ∧ (high = b ∨ hi = .fin high) := by
  unfold smaller
  by_cases hb : .fin b < hi
  · exact ⟨b, if_pos hb, Dbl.le_of_lt hb, Or.inl rfl⟩
  · rw [if_neg hb]
    cases hi with
    | nan => exact absurd hhi (Dbl.not_le_nan _)
    | ninf => exact absurd hhi (Dbl.not_fin_le_ninf a)
    | pinf => exact absurd (Dbl.fin_lt_pinf b) hb
    | fin u => exact ⟨u, rfl, Dbl.le_refl (by simp), Or.inr rfl⟩

theorem known_self (hv : v.val = .fin r) (h0 : 0 ≤ eps) (hin : inBlock = true → InRange lo hi (.fin r)) :
    (Value.mk v v).Known lo hi eps inBlock r r :=
  ⟨hv, hv, by rw [sub_self, abs_zero]; exact h0, fun h => ⟨hin h, hin h⟩⟩

/-- A value that surely matches: with the ends reversed there is none. -/
theorem kept_addSure (h : Kept lo hi acc) (hr : InRange lo hi (.fin r)) {low high : ℚ} (h1 : low ≤ r)
    (h2 : r ≤ high) : Kept lo hi { acc with
      sureCount := acc.sureCount + 1
      sureSumLo := Dbl.add id acc.sureSumLo (.fin low)
      sureSumHi := Dbl.add id acc.sureSumHi (.fin high) } where
  covers := by
    obtain ⟨t, ht⟩ := h.covers
    exact ⟨_, covers_addSure ht h1 h2⟩
  ordered := h.ordered
  reversed hlt := absurd hlt (Dbl.not_lt_of_le (Dbl.le_of_lt (Dbl.lt_of_lt_of_le hr.1 hr.2)))

theorem kept_addMaybe (h : Kept lo hi acc) {low high : ℚ} (h1 : lo ≤ .fin low) (h2 : .fin high ≤ hi)
    (hlh : lo ≤ hi → low ≤ high) : Kept lo hi { acc with
      maybeCount := acc.maybeCount + 1
      maybeSumNeg := Dbl.add id acc.maybeSumNeg (smaller (.fin low) (.fin 0))
      maybeSumPos := Dbl.add id acc.maybeSumPos (larger (.fin high) (.fin 0))
      maybeMin := if .fin low < acc.maybeMin then .fin low else acc.maybeMin
      maybeMax := if acc.maybeMax < .fin high then .fin high else acc.maybeMax } := by
  obtain ⟨⟨t, ht⟩, hord, hrev⟩ := h
  have hno : false = true → low ≤ (0 : ℚ) ∧ 0 ≤ high := fun h => absurd h Bool.false_ne_true
  refine ⟨⟨_, covers_addMaybe ht hno⟩, fun hends _ => ?_, fun hlt => ⟨(hrev hlt).1, ?_, ?_⟩⟩
  · -- with the ends in order the bounds of this value are
    obtain ⟨⟨m, hm⟩, hmin⟩ := minimum_spec (ht.between.min_range.imp And.left id) low
    obtain ⟨⟨m', hm'⟩, hmax⟩ := maximum_spec (ht.between.max_range.imp And.left id) high
    have hml := (hmin m (by rw [hm]; exact Dbl.le_refl (by simp))).2
    have hhm := (hmax m' (by rw [hm']; exact Dbl.le_refl (by simp))).2
    have := hlh hends
    dsimp only
    rw [hm, hm', Dbl.fin_le_fin]
    linarith
  · dsimp only
    split_ifs
    · exact h1
    · exact (hrev hlt).2.1
  · dsimp only
    split_ifs
    · exact h2
    · exact (hrev hlt).2.2

/-- **What a value adds to the bounds.** With the ends reversed it adds to the count of the values that
may match exactly when it is possible. -/
theorem kept_addOriginal (h : Kept lo hi acc) (hlo : lo ≠ .nan) (hhi : hi ≠ .nan) (hv : v.val = .fin r)
    (h0 : 0 ≤ eps) (hin : inBlock = true → InRange lo hi (.fin r)) :
    Kept lo hi (addOriginal Arith.exact (.fin eps) inBlock lo hi acc v) ∧
      (hi < lo → (addOriginal Arith.exact (.fin eps) inBlock lo hi acc v).maybeCount =
        acc.maybeCount + if Possible lo hi eps v then 1 else 0) := by
  have ha : Dbl.sub Arith.exact.bound v.val (.fin eps) = .fin (r - eps) := by
    rw [hv, Dbl.sub_fin]
    rfl
  have hb : Dbl.add Arith.exact.bound v.val (.fin eps) = .fin (r + eps) := by
    rw [hv]
    rfl
  have hposs : Possible lo hi eps v ↔ lo < .fin (r + eps) ∧ .fin (r - eps) ≤ hi := by
    unfold Possible
    rw [hv, Dbl.add_fin, Dbl.sub_fin]
    rfl
  unfold addOriginal
  rw [ha, hb]
  dsimp only
  by_cases hsure : inBlock = true ∨ lo < .fin (r - eps) ∧ .fin (r + eps) ≤ hi
  · -- the value surely matches, so the decoded one does too and the ends are in order
    have hr : InRange lo hi (.fin r) := by
      rcases hsure with hblock | ⟨h1, h2⟩
      · exact hin hblock
      · exact ⟨Dbl.lt_of_lt_of_le h1 (by simpa using h0), Dbl.le_trans (by simpa using h0) h2⟩
    obtain ⟨low, hlow, -, hlow'⟩ := larger_spec (a := r - eps) hr.1
    obtain ⟨high, hhigh, -, hhigh'⟩ := smaller_spec (b := r + eps) hr.2
    have hlr : low ≤ r := by
      rcases hlow' with rfl | heq
      · linarith
      · exact ((Dbl.fin_lt_fin _ _).mp (heq ▸ hr.1)).le
    have hrh : r ≤ high := by
      rcases hhigh' with rfl | heq
      · linarith
      · exact (Dbl.fin_le_fin _ _).mp (heq ▸ hr.2)
    have hends : ¬ hi < lo := Dbl.not_lt_of_le (Dbl.le_of_lt (Dbl.lt_of_lt_of_le hr.1 hr.2))
    rw [if_pos hsure, hlow, hhigh]
    exact ⟨kept_addSure h hr hlr hrh, fun hlt => absurd hlt hends⟩
  rw [if_neg hsure]
  by_cases hout : .fin (r + eps) ≤ lo ∨ hi < .fin (r - eps)
  · have hnot : ¬ Possible lo hi eps v := by
      rw [hposs]
      rintro ⟨h1, h2⟩
      rcases hout with hle | hlt
      · exact Dbl.not_lt_of_le hle h1
      · exact Dbl.not_lt_of_le h2 hlt
    rw [if_neg (not_not.mpr hout), if_neg hnot]
    exact ⟨h, fun _ => rfl⟩
  · rw [not_or, Dbl.not_le (by simp) hlo, Dbl.not_lt hhi (by simp)] at hout
    obtain ⟨hlb, hah⟩ := hout
    obtain ⟨low, hlow, hle_low, hlow'⟩ := larger_spec (a := r - eps) hlb
    obtain ⟨high, hhigh, hhigh_le, hhigh'⟩ := smaller_spec (b := r + eps) hah
    have hlh : lo ≤ hi → low ≤ high := fun hends => by
      rcases hlow' with rfl | rfl <;> rcases hhigh' with rfl | rfl
      · linarith
      · simpa using hah
      · exact ((Dbl.fin_lt_fin _ _).mp hlb).le
      · simpa using hends
    rw [if_pos (not_or.mpr ⟨Dbl.not_le_of_lt hlb, Dbl.not_lt_of_le hah⟩),
      if_pos (hposs.mpr ⟨hlb, hah⟩), hlow,
      hhigh]
    exact ⟨kept_addMaybe h hle_low hhigh_le hlh, fun _ => rfl⟩

theorem kept_addValue (h : Kept lo hi acc) (hlo : lo ≠ .nan) (hhi : hi ≠ .nan) (hv : v.val = .fin r)
    (h0 : 0 ≤ eps) (hin : inBlock = true → InRange lo hi (.fin r)) :
    Kept lo hi (addValue Arith.exact (.fin eps) inBlock lo hi acc v) ∧
      (hi < lo → (addValue Arith.exact (.fin eps) inBlock lo hi acc v).maybeCount =
        acc.maybeCount + if Possible lo hi eps v then 1 else 0) := by
  obtain ⟨⟨t, ht⟩, hord, hrev⟩ := h
  obtain ⟨acc', hacc⟩ : ∃ acc', addRec Arith.exact inBlock lo hi { acc with
    absTotal := Dbl.add id acc.absTotal (Dbl.add id (Dbl.abs v.val) (.fin eps)) } v = acc' := ⟨_, rfl⟩
  have hcov : Covers acc' t := hacc ▸ covers_addRec ht (known_self hv h0 hin)
  -- the exact totals are kept apart
  have hsame : acc'.maybeCount = acc.maybeCount ∧ acc'.sureCount = acc.sureCount ∧
      acc'.maybeMin = acc.maybeMin ∧ acc'.maybeMax = acc.maybeMax := by
    rw [← hacc]
    unfold addRec
    split_ifs <;> exact ⟨rfl, rfl, rfl, rfl⟩
  obtain ⟨h1, h2, h3, h4⟩ := hsame
  have hkept : Kept lo hi acc' :=
    ⟨⟨t, hcov⟩, by rw [h1, h3, h4]; exact hord, by rw [h2, h3, h4]; exact hrev⟩
  have hstep := kept_addOriginal hkept hlo hhi hv h0 hin
  have hvalue : addValue Arith.exact (.fin eps) inBlock lo hi acc v =
      addOriginal Arith.exact (.fin eps) inBlock lo hi acc' v := by
    rw [← hacc]
    rfl
  rw [hvalue, ← h1]
  exact hstep

end Value

/-! ### Blocks and reads -/

section Blocks
variable {lo hi : Dbl} (hlo : lo ≠ .nan) (hhi : hi ≠ .nan)
include hlo hhi

theorem kept_aggregateBlock {x : PlannedBlock} (hx : x.Right) {acc : SzAggregate} (h : Kept lo hi acc) :
    Kept lo hi (aggregateBlock Arith.exact (.fin x.eps) (x.state lo hi = .IN) lo hi acc x.values) ∧
      (hi < lo → (aggregateBlock Arith.exact (.fin x.eps) (x.state lo hi = .IN) lo hi acc
        x.values).maybeCount = acc.maybeCount + x.values.countP fun v => Possible lo hi x.eps v) := by
  have h0 := hx.err_nonneg.trans hx.err_le
  -- the values of an IN block are in the range, for the planner's bounds are
  have hvalues : ∀ v ∈ x.values, ∃ r, v.val = .fin r ∧
      (decide (x.state lo hi = .IN) = true → InRange lo hi (.fin r)) := by
    intro v hv
    obtain ⟨r, hr, h1, h2⟩ := hx.near v hv
    refine ⟨r, hr, fun hin => ?_⟩
    have hst := of_decide_eq_true hin
    unfold PlannedBlock.state stateOf at hst
    split_ifs at hst with hends
    exact ⟨Dbl.lt_of_lt_of_le hends.1 h1, Dbl.le_trans h2 hends.2⟩
  unfold aggregateBlock
  generalize decide (x.state lo hi = .IN) = inBlock at hvalues ⊢
  generalize x.values = l at hvalues ⊢
  induction l generalizing acc with
  | nil => exact ⟨h, fun _ => rfl⟩
  | cons v l ih =>
    obtain ⟨r, hr, hin⟩ := hvalues v List.mem_cons_self
    obtain ⟨hkept, hcount⟩ := kept_addValue h hlo hhi hr h0 hin
    obtain ⟨hkept', hcount'⟩ := ih hkept fun w hw => hvalues w (List.mem_cons_of_mem v hw)
    refine ⟨hkept', fun hlt => ?_⟩
    rw [List.foldl_cons, hcount' hlt, hcount hlt, List.countP_cons]
    simp only [decide_eq_true_eq]
    exact (Nat.add_assoc _ _ _).trans (congrArg _ (Nat.add_comm _ _))

/-- **One read.** With the ends reversed, the values that may match are the possible ones. -/
theorem kept_totals {read : List PlannedBlock} (hread : ∀ x ∈ read, x.Right) :
    Kept lo hi (totals lo hi read) ∧ (hi < lo → ((totals lo hi read).maybeCount = 0 ↔
      ∀ x ∈ read, ∀ v ∈ x.values, ¬ Possible lo hi x.eps v)) := by
  have hfold : ∀ (l : List PlannedBlock), (∀ x ∈ l, x.Right) → ∀ acc, Kept lo hi acc →
      Kept lo hi (l.foldl (fun acc x => aggregateBlock Arith.exact (.fin x.eps) (x.state lo hi = .IN) lo hi
        acc x.values) acc) ∧
      (hi < lo → ((l.foldl (fun acc x => aggregateBlock Arith.exact (.fin x.eps) (x.state lo hi = .IN) lo hi
        acc x.values) acc).maybeCount = 0 ↔
          acc.maybeCount = 0 ∧ ∀ x ∈ l, ∀ v ∈ x.values, ¬ Possible lo hi x.eps v)) := by
    intro l
    induction l with
    | nil => exact fun _ acc h => ⟨h, fun _ => by simp⟩
    | cons x l ih =>
      intro hl acc h
      obtain ⟨hkept, hcount⟩ := kept_aggregateBlock hlo hhi (hl x List.mem_cons_self) h
      obtain ⟨hkept', hcount'⟩ := ih (fun y hy => hl y (List.mem_cons_of_mem x hy)) _ hkept
      refine ⟨hkept', fun hlt => ?_⟩
      rw [List.foldl_cons, hcount' hlt, hcount hlt, Nat.add_eq_zero_iff, List.countP_eq_zero, and_assoc,
        List.forall_mem_cons]
      simp only [decide_eq_true_eq]
  obtain ⟨hkept, hcount⟩ := hfold read hread .init (kept_init hlo hhi)
  exact ⟨hkept, fun hlt => (hcount hlt).trans (and_iff_right rfl)⟩

end Blocks

/-! ### The intervals -/

section Combine
variable {lo hi : Dbl} {parts : List (SzAggregate × ℕ)}

theorem accounts_of_kept (h : ∀ p ∈ parts, Kept lo hi p.1) : ∃ ts, Accounts parts ts := by
  induction parts with
  | nil => exact ⟨[], .nil⟩
  | cons p parts ih =>
    obtain ⟨t, ht⟩ := (h p List.mem_cons_self).covers
    obtain ⟨ts, hts⟩ := ih fun q hq => h q (List.mem_cons_of_mem p hq)
    exact ⟨t :: ts, .cons ht hts⟩

/-- With values that surely match, the mean is ordered whatever the others are. -/
theorem meanBounds_of_sure {t : Account} (hok : t.Ok) {mn mx : Dbl} (hb : t.Between mn mx)
    (hs : t.sure ≠ 0) :
    ∀ m ∈ meanBounds Arith.exact t.sure t.maybe (.fin t.sureLo) (.fin t.sureHi) mn mx, m.1 ≤ m.2 := by
  have hdiv : ∀ (q : ℚ) {n : ℕ}, n ≠ 0 → Dbl.div id (.fin q) (.fin (n : ℚ)) = .fin (q / n) := fun q n hn =>
    Dbl.div_fin _ _ (Nat.cast_ne_zero.mpr hn)
  have hle : t.sureLo / t.sure ≤ t.sureHi / t.sure :=
    div_le_div_of_nonneg_right (hok.sureLo_le.trans hok.le_sureHi) (Nat.cast_nonneg _)
  intro m hm
  unfold meanBounds at hm
  rw [if_pos hs] at hm
  by_cases hmaybe : t.maybe = 0
  · rw [if_neg (not_not.mpr hmaybe)] at hm
    obtain rfl := Option.some.inj hm
    show Dbl.div id (.fin t.sureLo) (.fin (t.sure : ℚ)) ≤ Dbl.div id (.fin t.sureHi) (.fin (t.sure : ℚ))
    rw [hdiv _ hs, hdiv _ hs, Dbl.fin_le_fin]
    exact hle
  · obtain ⟨x, rfl⟩ := hb.min_range.resolve_left fun h => hmaybe h.2
    obtain ⟨y, rfl⟩ := hb.max_range.resolve_left fun h => hmaybe h.2
    have hne : t.sure + t.maybe ≠ 0 := by omega
    rw [if_pos hmaybe] at hm
    obtain rfl := Option.some.inj hm
    show pyMin (Dbl.div id (.fin t.sureLo) (.fin (t.sure : ℚ))) (Dbl.div id (.fin (t.sureLo + t.maybe * x))
        (.fin ((t.sure + t.maybe : ℕ) : ℚ))) ≤ pyMax (Dbl.div id (.fin t.sureHi) (.fin (t.sure : ℚ)))
      (Dbl.div id (.fin (t.sureHi + t.maybe * y)) (.fin ((t.sure + t.maybe : ℕ) : ℚ)))
    rw [hdiv _ hs, hdiv _ hs, hdiv _ hne, hdiv _ hne, pyMin_fin, pyMax_fin, Dbl.fin_le_fin]
    exact (min_le_left _ _).trans (hle.trans (le_max_left _ _))

/-- **The intervals of all reads**: they are ordered if some value surely matches, none may match, or the
least and the greatest bound are in order. -/
theorem ordered_combine_iff (h : ∀ p ∈ parts, Kept lo hi p.1) (valuesPerBlock : ℕ) :
    ∃ c, combine Arith.exact valuesPerBlock parts = .ok c ∧
      (InOrder c ↔ (∃ p ∈ parts, p.1.sureCount ≠ 0) ∨ (∀ p ∈ parts, p.1.maybeCount = 0) ∨
        (parts.map fun p => p.1.maybeMin).foldl pyMin .pinf ≤
          (parts.map fun p => p.1.maybeMax).foldl pyMax .ninf) := by
  obtain ⟨ts, hts⟩ := accounts_of_kept h
  have hok : (Account.sum ts).Ok := ok_sum fun t ht => by
    obtain ⟨p, -, hcov⟩ := exists_part hts ht
    exact hcov.ok
  obtain ⟨c, hc, hoc, hos, hom⟩ := combine_eq id valuesPerBlock hts
  have hzero : ∀ f : SzAggregate × ℕ → ℕ, (∀ p ∈ parts, f p = 0) ↔ (parts.map f).sum = 0 := fun f => by
    rw [List.sum_eq_zero_iff, List.forall_mem_map]
  have hsure : (∃ p ∈ parts, p.1.sureCount ≠ 0) ↔ (Account.sum ts).sure ≠ 0 := by
    rw [Account.sum, ← map_of_accounts (fun p t (hc : Covers p.1 t) => hc.sure) hts, Ne,
      ← hzero fun p => p.1.sureCount]
    push Not
    rfl
  have hmaybe : (∀ p ∈ parts, p.1.maybeCount = 0) ↔ (Account.sum ts).maybe = 0 := by
    rw [Account.sum, ← map_of_accounts (fun p t (hc : Covers p.1 t) => hc.maybe) hts]
    exact hzero fun p => p.1.maybeCount
  refine ⟨c, hc, ?_⟩
  rw [hsure, hmaybe]
  unfold InOrder
  rw [hoc, hos, hom]
  have hcount : (Account.sum ts).sure ≤ (Account.sum ts).sure + (Account.sum ts).maybe :=
    Nat.le_add_right _ _
  have hsum : (.fin ((Account.sum ts).sureLo + (Account.sum ts).neg) : Dbl) ≤
      .fin ((Account.sum ts).sureHi + (Account.sum ts).pos) := by
    rw [Dbl.fin_le_fin]
    linarith [hok.sureLo_le, hok.le_sureHi, hok.neg_le, hok.le_pos]
  rw [and_iff_right hcount, and_iff_right hsum]
  by_cases hs : (Account.sum ts).sure = 0
  · unfold meanBounds
    rw [if_neg (not_not.mpr hs)]
    by_cases hm : (Account.sum ts).maybe = 0
    · rw [if_neg (not_not.mpr hm)]
      simp [hm]
    · rw [if_pos hm]
      simp [hs, hm]
  · exact iff_of_true (meanBounds_of_sure hok (between_sum hts) hs) (Or.inl hs)

end Combine

/-- **When the intervals are ordered.** For every range that is accepted, and whatever blocks are read and
however they are split into reads: the intervals for the count, the sum and the mean are ordered exactly
when the ends of the range are, or no decoded value that is read is within its bound of both of them. -/
theorem intervals_ordered_iff {lo hi : Option Dbl} {loInclusive hiInclusive : Bool} {a b : Dbl}
    (hok : rangeBounds F32.ofDouble lo hi loInclusive hiInclusive = .ok (a, b))
    (reads : List (List PlannedBlock)) (hreads : ∀ read ∈ reads, ∀ x ∈ read, x.Right) (valuesPerBlock : ℕ) :
    ∃ c, combine Arith.exact valuesPerBlock (reads.map fun read => (totals a b read, read.length)) = .ok c ∧
      (InOrder c ↔ ¬ NothingBetween lo hi loInclusive hiInclusive ∨
        ∀ read ∈ reads, ∀ x ∈ read, ∀ v ∈ x.values, ¬ Possible a b x.eps v) := by
  obtain ⟨ha, hb⟩ := rangeBounds_ne_nan F32.nearest_ofDouble hok
  rw [← reversed_iff hok]
  set parts := reads.map fun read => (totals a b read, read.length) with hparts
  have hkept : ∀ p ∈ parts, Kept a b p.1 := fun p hp => by
    obtain ⟨read, hread, rfl⟩ := List.mem_map.mp hp
    exact (kept_totals ha hb (hreads read hread)).1
  obtain ⟨c, hc, hiff⟩ := ordered_combine_iff hkept valuesPerBlock
  refine ⟨c, hc, hiff.trans ?_⟩
  obtain ⟨ts, hts⟩ := accounts_of_kept hkept
  obtain ⟨hle_min, hmin⟩ := foldl_pyMin fun p hp => (extrema_ne_nan hts hp).1
  obtain ⟨hle_max, hmax⟩ := foldl_pyMax fun p hp => (extrema_ne_nan hts hp).2
  by_cases hrev : b < a
  · -- the ends are reversed: nothing surely matches, and the bounds are outside of the ends
    have hsure : ¬ ∃ p ∈ parts, p.1.sureCount ≠ 0 := by
      rintro ⟨p, hp, hne⟩
      exact hne ((hkept p hp).reversed hrev).1
    have hnone : (∀ p ∈ parts, p.1.maybeCount = 0) ↔
        ∀ read ∈ reads, ∀ x ∈ read, ∀ v ∈ x.values, ¬ Possible a b x.eps v := by
      rw [hparts, List.forall_mem_map]
      exact forall₂_congr fun read hread => (kept_totals ha hb (hreads read hread)).2 hrev
    have hout : ¬ (parts.map fun p => p.1.maybeMin).foldl pyMin .pinf ≤
        (parts.map fun p => p.1.maybeMax).foldl pyMax .ninf := by
      refine Dbl.not_le_of_lt (Dbl.lt_of_le_of_lt ?_ (Dbl.lt_of_lt_of_le hrev ?_))
      · rcases hmax with heq | ⟨p, hp, heq⟩
        · rw [heq]
          cases b <;> simp_all
        · rw [heq]
          exact ((hkept p hp).reversed hrev).2.2
      · rcases hmin with heq | ⟨p, hp, heq⟩
        · rw [heq]
          exact Dbl.le_pinf ha
        · rw [heq]
          exact ((hkept p hp).reversed hrev).2.1
    rw [or_iff_right hsure, or_iff_left hout, hnone, or_iff_right (not_not.mpr hrev)]
  · refine iff_of_true (Or.inr ?_) (Or.inl hrev)
    by_cases hnone : ∀ p ∈ parts, p.1.maybeCount = 0
    · exact Or.inl hnone
    · -- a read with a value that may match has its bounds in order
      push Not at hnone
      obtain ⟨p, hp, hne⟩ := hnone
      have hord := (hkept p hp).ordered ((Dbl.not_lt hb ha).mp hrev) hne
      exact Or.inr (Dbl.le_trans (hle_min p hp) (Dbl.le_trans hord (hle_max p hp)))

/-- A block of 64 values that are decoded as 1, and off by at most 1. -/
def onesBlock : PlannedBlock where
  bmin := .fin 1
  bmax := .fin 1
  err := 1
  eps := 1
  values := List.replicate 64 oneF32

theorem onesBlock_right : onesBlock.Right := by
  refine ⟨zero_le_one, le_rfl, fun v hv => ⟨1, ?_, ?_, ?_⟩⟩
  · rw [List.eq_of_mem_replicate hv]
    decide +kernel
  · norm_num [onesBlock]
  · norm_num [onesBlock]

theorem intervals_ordered_iff_ones : ∃ c,
    combine Arith.exact 64 ([[onesBlock]].map fun read =>
      (totals (.fin 1) (.fin 2) read, read.length)) = .ok c ∧
      (InOrder c ↔ ¬ NothingBetween (some (.fin 1)) (some (.fin 2)) false true ∨
        ∀ read ∈ [[onesBlock]], ∀ x ∈ read, ∀ v ∈ x.values, ¬ Possible (.fin 1) (.fin 2) x.eps v) := by
  have hok : rangeBounds F32.ofDouble (some (.fin 1)) (some (.fin 2)) false true =
    .ok (.fin 1, .fin 2) := by
    decide +kernel
  refine intervals_ordered_iff hok [[onesBlock]] (fun read hread x hx => ?_) 64
  rw [List.mem_singleton.mp hread] at hx
  rw [List.mem_singleton.mp hx]
  exact onesBlock_right

/-- The range above 1 and below 1: the mean of what may match is between 1 and the float32 below 1. -/
theorem not_ordered_one :
    rangeBounds F32.ofDouble (some (.fin 1)) (some (.fin 1)) false false =
        .ok (.fin 1, .fin (1 - 1 / 2 ^ 24)) ∧
      onesBlock.Right ∧ onesBlock.state (.fin 1) (.fin (1 - 1 / 2 ^ 24)) = .MAYBE ∧
      ∃ c, combine Arith.exact 64 [(totals (.fin 1) (.fin (1 - 1 / 2 ^ 24)) [onesBlock], 1)] = .ok c ∧
        ¬ InOrder c := by
  refine ⟨by decide +kernel, onesBlock_right, by decide +kernel, ?_⟩
  have hkept : ∀ p ∈ [(totals (.fin 1) (.fin (1 - 1 / 2 ^ 24)) [onesBlock], 1)],
      Kept (.fin 1) (.fin (1 - 1 / 2 ^ 24)) p.1 := fun p hp => by
    rw [List.mem_singleton.mp hp]
    refine (kept_totals (by simp) (by simp) fun x hx => ?_).1
    rw [List.mem_singleton.mp hx]
    exact onesBlock_right
  obtain ⟨c, hc, hiff⟩ := ordered_combine_iff hkept 64
  refine ⟨c, hc, fun hord => ?_⟩
  rcases hiff.mp hord with h | h | h
  · revert h
    decide +kernel
  · revert h
    decide +kernel
  · revert h
    decide +kernel

end SkipZFP.Aggregate.Ordered
