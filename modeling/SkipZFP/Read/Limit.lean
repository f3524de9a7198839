import Mathlib.Algebra.Order.BigOperators.Group.List
import Mathlib.Order.Bounds.Basic
import SkipZFP.Read.Budget

/-! # The limit on the bytes in flight

`Trace` is a run with the states it went through, the newest first. Along every trace:

* `trace_bounded`: the bytes held are within the limit, or one read alone holds them.
* `trace_peak`: the peak is the most that was held.
* `budget_respected`: **the byte budget is kept and nothing deadlocks**. -/

namespace SkipZFP.Read.Budget

section Limit
variable {ζ ρ δ π β ε : Type*} (w : Work ζ ρ δ π β ε)

/-- The states of a run, from the newest to the first. -/
inductive Work.Trace (permits : ℕ) (tasks : List (Task ζ ρ δ π β ε)) :
    List (State ζ ρ δ π β ε) → Prop
  | start : Work.Trace permits tasks [start permits tasks]
  | step {s s' : State ζ ρ δ π β ε} {h : List (State ζ ρ δ π β ε)} :
    Work.Trace permits tasks (s :: h) → w.Step s s' → Work.Trace permits tasks (s' :: s :: h)

def Work.holders (s : State ζ ρ δ π β ε) : ℕ := s.tasks.countP fun t => 0 < w.held t

/-- Within the limit, or one task holds everything. -/
def Work.Bounded (s : State ζ ρ δ π β ε) : Prop :=
  ∀ limit, w.limit = some limit → s.shared.used ≤ limit ∨ w.holders s = 1

variable {w} {permits : ℕ} {tasks : List (Task ζ ρ δ π β ε)} {s s' : State ζ ρ δ π β ε}
  {h : List (State ζ ρ δ π β ε)}

theorem reachable_of_trace (hs : w.Trace permits tasks (s :: h)) : w.Reachable permits tasks s := by
  generalize hl : s :: h = l at hs
  induction hs generalizing s h with
  | start =>
    obtain ⟨rfl, -⟩ := List.cons.inj hl
    exact .refl
  | step _ hstep ih =>
    obtain ⟨rfl, -⟩ := List.cons.inj hl
    exact (ih rfl).tail hstep

theorem exists_trace (hs : w.Reachable permits tasks s) : ∃ h, w.Trace permits tasks (s :: h) := by
  induction hs with
  | refl => exact ⟨[], .start⟩
  | tail _ hstep ih =>
    obtain ⟨h, ht⟩ := ih
    exact ⟨_, ht.step hstep⟩

/-! ### What one action does to the bytes -/

/-- **An action acquires bytes or does not add any**: it leaves the peak as it is, and no task starts to
hold bytes. -/
theorem advance_bytes {t : Task ζ ρ δ π β ε} {m m' : Shared} {ts : List (Task ζ ρ δ π β ε)}
    (ha : w.advance t m = some (ts, m')) :
    (∃ r, t = .waiting r ∧ ts = [.reserved r] ∧ canHold w.limit m.used (w.size r) = true ∧
      m' = m.acquire (w.size r)) ∨
    (m'.peak = m.peak ∧ m'.used ≤ m.used ∧
      ts.countP (fun t => 0 < w.held t) ≤ [t].countP fun t => 0 < w.held t) := by
  cases t with
  | zone z =>
    simp only [Work.advance, Option.ite_none_right_eq_some, Option.some.injEq, Prod.mk.injEq] at ha
    obtain ⟨-, rfl, rfl⟩ := ha
    exact Or.inr ⟨rfl, le_rfl, le_rfl⟩
  | zoneReading z => cases ha; exact Or.inr ⟨rfl, le_rfl, le_rfl⟩
  | zoneArrived z x =>
    cases ha
    refine Or.inr ⟨rfl, le_rfl, ?_⟩
    have h0 : ((w.started (x.bind (w.plan z))).map (Task.waiting : ρ → Task ζ ρ δ π β ε)).countP
        (fun t => 0 < w.held t) = 0 := by
      rw [List.countP_eq_zero]
      intro t ht
      obtain ⟨r, -, rfl⟩ := List.mem_map.mp ht
      simp [Work.held]
    rw [List.countP_cons, h0]
    exact le_rfl
  | zoneDone z x => cases ha
  | waiting r =>
    simp only [Work.advance, Option.ite_none_right_eq_some, Option.some.injEq, Prod.mk.injEq] at ha
    obtain ⟨hc, rfl, rfl⟩ := ha
    exact Or.inl ⟨r, rfl, rfl, hc, rfl⟩
  | reserved r =>
    simp only [Work.advance, Option.ite_none_right_eq_some, Option.some.injEq, Prod.mk.injEq] at ha
    obtain ⟨-, rfl, rfl⟩ := ha
    exact Or.inr ⟨rfl, le_rfl, le_rfl⟩
  | reading r => cases ha; exact Or.inr ⟨rfl, le_rfl, le_rfl⟩
  | arrived r x => cases ha; exact Or.inr ⟨rfl, Nat.sub_le _ _, Nat.zero_le _⟩
  | finished r x => cases ha

theorem used_eq_zero_iff (hs : w.Consistent permits s) : s.shared.used = 0 ↔ w.holders s = 0 := by
  rw [hs.used, Work.holders, List.countP_eq_zero]
  constructor
  · intro h t ht
    have := List.le_sum_of_mem (List.mem_map_of_mem (f := w.held) ht)
    simp only [decide_eq_true_eq]
    omega
  · intro h
    refine List.sum_eq_zero fun n hn => ?_
    obtain ⟨t, ht, rfl⟩ := List.mem_map.mp hn
    have := h t ht
    simpa using this

/-- **One step keeps the bound.** -/
theorem step_bounded (hsize : ∀ r, 0 < w.size r) (hs : w.Consistent permits s)
    (hs' : w.Consistent permits s') (hb : w.Bounded s) (hstep : w.Step s s') : w.Bounded s' := by
  intro limit hlimit
  obtain ⟨before, t, after, ts, m, htasks, ha, rfl⟩ := hstep
  have hold : w.holders s = before.countP (fun t => 0 < w.held t) +
      [t].countP (fun t => 0 < w.held t) + after.countP fun t => 0 < w.held t := by
    unfold Work.holders
    rw [htasks, List.append_cons, List.countP_append, List.countP_append]
  have hnew : w.holders ⟨before ++ ts ++ after, m⟩ = before.countP (fun t => 0 < w.held t) +
      ts.countP (fun t => 0 < w.held t) + after.countP fun t => 0 < w.held t := by
    unfold Work.holders
    rw [List.countP_append, List.countP_append]
  rcases advance_bytes ha with ⟨r, rfl, rfl, hcan, rfl⟩ | ⟨-, hused, hcount⟩
  · -- a read that was admitted: either it is alone, or it fits
    rw [hlimit] at hcan
    rcases of_decide_eq_true hcan with h0 | hfits
    · right
      have h1 := (used_eq_zero_iff hs).mp h0
      have hr : ([Task.reserved r] : List (Task ζ ρ δ π β ε)).countP (fun t => 0 < w.held t) = 1 := by
        simp [Work.held, hsize r]
      omega
    · left
      exact hfits
  · rcases hb limit hlimit with hle | hone
    · left
      exact hused.trans hle
    · by_cases h0 : w.holders ⟨before ++ ts ++ after, m⟩ = 0
      · left
        have := (used_eq_zero_iff hs').mpr h0
        omega
      · right
        omega

section Trace
variable (hfresh : ∀ t ∈ tasks, t.fresh = true)
include hfresh

/-- **The bytes held are within the limit, or one read holds them.** -/
theorem trace_bounded (hsize : ∀ r, 0 < w.size r) (hs : w.Reachable permits tasks s) :
    w.Bounded s := by
  induction hs with
  | refl => exact fun _ _ => Or.inl (Nat.zero_le _)
  | tail hr hstep ih =>
    exact step_bounded hsize (reachable_consistent hfresh hr)
      (reachable_consistent hfresh (hr.tail hstep)) ih hstep

omit hfresh in
/-- **The peak is the most that was held.** -/
theorem trace_peak (hs : w.Trace permits tasks (s :: h)) :
    IsGreatest {n | ∃ u ∈ s :: h, u.shared.used = n} s.shared.peak := by
  generalize hl : s :: h = l at hs
  induction hs generalizing s h with
  | start =>
    obtain ⟨rfl, rfl⟩ := List.cons.inj hl
    refine ⟨⟨_, List.mem_singleton_self _, rfl⟩, ?_⟩
    rintro n ⟨u, hu, rfl⟩
    rw [List.mem_singleton.mp hu]
    exact le_rfl
  | @step v v' h' _ hstep ih =>
    obtain ⟨rfl, rfl⟩ := List.cons.inj hl
    obtain ⟨⟨u, hu, hpeak⟩, hmax⟩ := ih rfl
    obtain ⟨before, t, after, ts, m, -, ha, rfl⟩ := hstep
    rcases advance_bytes ha with ⟨r, rfl, rfl, -, rfl⟩ | ⟨hsame, hused, -⟩
    · refine ⟨?_, ?_⟩
      · -- the new peak is the old one or what is held now
        rcases le_total v.shared.peak (v.shared.used + w.size r) with hle | hle
        · exact ⟨_, List.mem_cons_self, (max_eq_right hle).symm⟩
        · exact ⟨u, List.mem_cons_of_mem _ hu, hpeak.trans (max_eq_left hle).symm⟩
      · rintro n ⟨x, hx, rfl⟩
        rcases List.mem_cons.mp hx with rfl | hx
        · exact le_max_right _ _
        · exact (hmax ⟨x, hx, rfl⟩).trans (le_max_left _ _)
    · refine ⟨⟨u, List.mem_cons_of_mem _ hu, hpeak.trans hsame.symm⟩, ?_⟩
      rintro n ⟨x, hx, rfl⟩
      dsimp only
      rw [hsame]
      rcases List.mem_cons.mp hx with rfl | hx
      · exact hused.trans (hmax ⟨v, List.mem_cons_self, rfl⟩)
      · exact hmax ⟨x, hx, rfl⟩

/-- **The byte budget is kept and nothing deadlocks**, in every state of every run:

* what is held are the bytes of the reads between `acquire` and `release`;
* it is within the limit, or exactly one read holds bytes;
* the peak is the most held so far;
* while a task is unfinished some task can act, and in the end nothing is held. -/
theorem budget_respected (hpermits : 0 < permits) (hsize : ∀ r, 0 < w.size r)
    (hs : w.Trace permits tasks (s :: h)) :
    s.shared.used = (s.tasks.map w.held).sum ∧
    (∀ limit, w.limit = some limit → s.shared.used ≤ limit ∨ w.holders s = 1) ∧
    IsGreatest {n | ∃ u ∈ s :: h, u.shared.used = n} s.shared.peak ∧
    ((∃ t ∈ s.tasks, t.done = false) → ∃ s', w.Step s s') ∧
    ((∀ t ∈ s.tasks, t.done = true) → s.shared.used = 0) := by
  have hreach := reachable_of_trace hs
  have hcons := reachable_consistent hfresh hreach
  refine ⟨hcons.used, trace_bounded hfresh hsize hreach, trace_peak hs, ?_, fun hdone => ?_⟩
  · rintro ⟨t, ht, hnot⟩
    exact exists_step hpermits hcons ht hnot
  · rw [hcons.used]
    refine List.sum_eq_zero fun n hn => ?_
    obtain ⟨t, ht, rfl⟩ := List.mem_map.mp hn
    have := hdone t ht
    cases t <;> first | rfl | cases this

end Trace

end Limit

/-! ### Two reads -/

/-- Reads of `r + 1` bytes with a limit of two; zone map objects start a read each. -/
def workOfTwo : Work ℕ ℕ ℕ ℕ ℕ String where
  readZone z := .ok z
  plan _ x := .ok x
  reads p := [p]
  size r := r + 1
  read r := if r = 0 then .error "short range read" else .ok r
  decode _ x := .ok x
  limit := some 2

/-- A read larger than the limit holds its bytes, and the zone map and another read wait. -/
theorem budget_respected_ofTwo :
    IsGreatest {n | ∃ u ∈ [(⟨[.reserved 4, .waiting 0, .zone 1], ⟨1, 5, 5⟩⟩ : State ℕ ℕ ℕ ℕ ℕ String),
      start 1 [.waiting 4, .waiting 0, .zone 1]], u.shared.used = n} 5 ∧
    ∃ s', workOfTwo.Step ⟨[.reserved 4, .waiting 0, .zone 1], ⟨1, 5, 5⟩⟩ s' := by
  have hfresh : ∀ t ∈ ([.waiting 4, .waiting 0, .zone 1] : List (Task ℕ ℕ ℕ ℕ ℕ String)),
      t.fresh = true := by
    simp [Task.fresh]
  have hstep : workOfTwo.Step (start 1 [.waiting 4, .waiting 0, .zone 1])
      ⟨[.reserved 4, .waiting 0, .zone 1], ⟨1, 5, 5⟩⟩ :=
    ⟨[], _, _, _, _, rfl, rfl, rfl⟩
  have h := budget_respected hfresh Nat.one_pos Nat.succ_pos (Work.Trace.start.step hstep)
  exact ⟨h.2.2.1, h.2.2.2.1 ⟨_, List.mem_cons_self, rfl⟩⟩

end SkipZFP.Read.Budget
