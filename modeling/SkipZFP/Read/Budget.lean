import Mathlib.Algebra.BigOperators.Ring.List
import Mathlib.Algebra.Order.Ring.Nat
import Mathlib.Logic.Relation
import SkipZFP.Lib.Loops

/-! # Reads in flight

The tasks of a query and what they share. A read of a payload reserves its bytes (`ByteBudget.acquire`),
takes a permit of the semaphore, reads, gives the permit back, decodes and gives the bytes back
(`ByteBudget.release`). A zone map task takes a permit, reads its object, gives the permit back, plans
the object and starts the reads it needs. A failed read gives back what it holds like any other.

A state holds the tasks in the order in which their results are gathered; a task that starts others is
followed by them. A step is the next action of any one task (`advance`), so that a run is an arbitrary
interleaving.

* `advance_held`, `advance_final` and `advance_weight`: what one action changes.
* `reachable_consistent`: the shared counters match what the tasks hold, in every reachable state.
* `exists_step`: a state with an unfinished task has a step, whatever the limit.
* `finished_of_reachable`: a run that cannot go on has finished every task, and its results do not depend
  on the order of the steps; `gathered_of_reachable`: what `asyncio.gather` returns is what the tasks
  return one after another. -/

namespace SkipZFP.Read.Budget

open SkipZFP.Lib.Loops

/-- What the tasks share: the semaphore's free permits, the bytes held and the most held so far. -/
structure Shared where
  free : ℕ
  used : ℕ
  peak : ℕ
deriving DecidableEq

/-- A task, by what it does next. -/
inductive Task (ζ ρ δ π β ε : Type*) where
  | zone (z : ζ)
  | zoneReading (z : ζ)
  | zoneArrived (z : ζ) (x : Except ε δ)
  | zoneDone (z : ζ) (x : Except ε π)
  | waiting (r : ρ)
  | reserved (r : ρ)
  | reading (r : ρ)
  | arrived (r : ρ) (x : Except ε δ)
  | finished (r : ρ) (x : Except ε β)

/-- What the tasks of a query do: `readZone` and `read` are the reads of the store, `plan` says which
reads a zone map object leads to. -/
structure Work (ζ ρ δ π β ε : Type*) where
  readZone : ζ → Except ε δ
  plan : ζ → δ → Except ε π
  reads : π → List ρ
  size : ρ → ℕ
  read : ρ → Except ε δ
  decode : ρ → δ → Except ε β
  limit : Option ℕ

/-- The condition that `ByteBudget.acquire` waits for. A read larger than the limit runs once nothing
else is held. -/
def canHold (limit : Option ℕ) (used n : ℕ) : Bool :=
  match limit with
  | none => true
  | some limit => used = 0 ∨ used + n ≤ limit

namespace Shared

/-- `async with sem` is entered. -/
def take (m : Shared) : Shared := { m with free := m.free - 1 }

/-- `async with sem` is left. -/
def give (m : Shared) : Shared := { m with free := m.free + 1 }

/-- `ByteBudget.acquire`, once its condition holds. -/
def acquire (m : Shared) (n : ℕ) : Shared :=
  { m with used := m.used + n, peak := max m.peak (m.used + n) }

/-- `ByteBudget.release`. -/
def release (m : Shared) (n : ℕ) : Shared := { m with used := m.used - n }

end Shared

section Work
variable {ζ ρ δ π β ε : Type*} (w : Work ζ ρ δ π β ε)

/-- The reads that a planned zone map object starts. -/
def Work.started (x : Except ε π) : List ρ :=
  match x with
  | .ok p => w.reads p
  | .error _ => []

/-- **The next action of a task**: what becomes of it and of what is shared; `none` while it waits and
when it is finished. -/
def Work.advance : Task ζ ρ δ π β ε → Shared → Option (List (Task ζ ρ δ π β ε) × Shared)
  | .zone z, m => if 0 < m.free then some ([.zoneReading z], m.take) else none
  | .zoneReading z, m => some ([.zoneArrived z (w.readZone z)], m.give)
  | .zoneArrived z x, m =>
    some (.zoneDone z (x.bind (w.plan z)) :: (w.started (x.bind (w.plan z))).map .waiting, m)
  | .zoneDone _ _, _ => none
  | .waiting r, m =>
    if canHold w.limit m.used (w.size r) then some ([.reserved r], m.acquire (w.size r)) else none
  | .reserved r, m => if 0 < m.free then some ([.reading r], m.take) else none
  | .reading r, m => some ([.arrived r (w.read r)], m.give)
  | .arrived r x, m => some ([.finished r (x.bind (w.decode r))], m.release (w.size r))
  | .finished _ _, _ => none

/-- The tasks and what they share. -/
structure State (ζ ρ δ π β ε : Type*) where
  tasks : List (Task ζ ρ δ π β ε)
  shared : Shared

/-- One task acts. -/
def Work.Step (s s' : State ζ ρ δ π β ε) : Prop :=
  ∃ before t after ts m, s.tasks = before ++ t :: after ∧ w.advance t s.shared = some (ts, m) ∧
    s' = ⟨before ++ ts ++ after, m⟩

def start (permits : ℕ) (tasks : List (Task ζ ρ δ π β ε)) : State ζ ρ δ π β ε :=
  ⟨tasks, ⟨permits, 0, 0⟩⟩

def Task.fresh : Task ζ ρ δ π β ε → Bool
  | .zone _ => true
  | .waiting _ => true
  | _ => false

def Task.done : Task ζ ρ δ π β ε → Bool
  | .zoneDone _ _ => true
  | .finished _ _ => true
  | _ => false

/-! ### What a task holds -/

def Work.held : Task ζ ρ δ π β ε → ℕ
  | .reserved r => w.size r
  | .reading r => w.size r
  | .arrived r _ => w.size r
  | _ => 0

def Task.permits : Task ζ ρ δ π β ε → ℕ
  | .zoneReading _ => 1
  | .reading _ => 1
  | _ => 0

/-- The counters match what the tasks hold. -/
structure Work.Consistent (permits : ℕ) (s : State ζ ρ δ π β ε) : Prop where
  used : s.shared.used = (s.tasks.map w.held).sum
  free : s.shared.free + (s.tasks.map Task.permits).sum = permits

variable {w} {t : Task ζ ρ δ π β ε} {m m' : Shared} {ts : List (Task ζ ρ δ π β ε)}

theorem sum_map_waiting (f : Task ζ ρ δ π β ε → ℕ) (hf : ∀ r, f (.waiting r) = 0) (l : List ρ) :
    ((l.map Task.waiting).map f).sum = 0 := by
  rw [List.map_map]
  exact List.sum_eq_zero (by simp [hf])

/-- **An action moves bytes and permits** between the task and the counters. -/
theorem advance_held (h : w.advance t m = some (ts, m')) (hu : w.held t ≤ m.used) :
    m'.used + w.held t = m.used + (ts.map w.held).sum ∧
      m'.free + (ts.map Task.permits).sum = m.free + t.permits := by
  cases t with
  | zone z =>
    simp only [Work.advance, Option.ite_none_right_eq_some, Option.some.injEq, Prod.mk.injEq] at h
    obtain ⟨hf, rfl, rfl⟩ := h
    simp only [Shared.take, Work.held, Task.permits, List.map_cons, List.map_nil, List.sum_cons,
      List.sum_nil]
    omega
  | zoneReading z => cases h; simp [Shared.give, Work.held, Task.permits]
  | zoneArrived z x =>
    cases h
    simp only [List.map_cons, List.sum_cons, Work.held, Task.permits]
    rw [sum_map_waiting _ fun _ => rfl, sum_map_waiting _ fun _ => rfl]
    omega
  | zoneDone z x => cases h
  | waiting r =>
    simp only [Work.advance, Option.ite_none_right_eq_some, Option.some.injEq, Prod.mk.injEq] at h
    obtain ⟨-, rfl, rfl⟩ := h
    simp [Shared.acquire, Work.held, Task.permits]
  | reserved r =>
    simp only [Work.advance, Option.ite_none_right_eq_some, Option.some.injEq, Prod.mk.injEq] at h
    obtain ⟨hf, rfl, rfl⟩ := h
    simp only [Shared.take, Work.held, Task.permits, List.map_cons, List.map_nil, List.sum_cons,
      List.sum_nil]
    omega
  | reading r => cases h; simp [Shared.give, Work.held, Task.permits]
  | arrived r x =>
    cases h
    simp only [Work.held] at hu
    simp only [Shared.release, Work.held, Task.permits, List.map_cons, List.map_nil, List.sum_cons,
      List.sum_nil]
    omega
  | finished r x => cases h

theorem step_consistent {permits : ℕ} {s s' : State ζ ρ δ π β ε} (hs : w.Consistent permits s)
    (h : w.Step s s') : w.Consistent permits s' := by
  obtain ⟨before, t, after, ts, m', ht, ha, rfl⟩ := h
  have hu := hs.used
  have hf := hs.free
  simp only [ht, List.map_append, List.map_cons, List.sum_append, List.sum_cons] at hu hf
  obtain ⟨h1, h2⟩ := advance_held ha (by omega)
  constructor <;> simp only [List.map_append, List.sum_append] <;> omega

theorem consistent_start (permits : ℕ) {tasks : List (Task ζ ρ δ π β ε)}
    (h : ∀ t ∈ tasks, t.fresh = true) : w.Consistent permits (start permits tasks) := by
  have h0 : ∀ t ∈ tasks, w.held t = 0 ∧ t.permits = 0 := by
    intro t ht
    have := h t ht
    cases t <;> first | exact ⟨rfl, rfl⟩ | cases this
  constructor
  · exact (List.sum_eq_zero fun x hx => by
      obtain ⟨t, ht, rfl⟩ := List.mem_map.mp hx
      exact (h0 t ht).1).symm
  · show permits + _ = permits
    rw [List.sum_eq_zero fun x hx => by
      obtain ⟨t, ht, rfl⟩ := List.mem_map.mp hx
      exact (h0 t ht).2]
    rfl

/-- The states of the runs of some tasks. -/
def Work.Reachable (w : Work ζ ρ δ π β ε) (permits : ℕ) (tasks : List (Task ζ ρ δ π β ε))
    (s : State ζ ρ δ π β ε) : Prop :=
  Relation.ReflTransGen w.Step (start permits tasks) s

/-- **The counters match what is held**, in every reachable state. -/
theorem reachable_consistent {permits : ℕ} {tasks : List (Task ζ ρ δ π β ε)}
    (hfresh : ∀ t ∈ tasks, t.fresh = true) {s : State ζ ρ δ π β ε}
    (h : w.Reachable permits tasks s) : w.Consistent permits s := by
  induction h with
  | refl => exact consistent_start permits hfresh
  | tail _ hst ih => exact step_consistent ih hst

/-! ### Progress -/

theorem step_of_advance {s : State ζ ρ δ π β ε} (ht : t ∈ s.tasks)
    (h : (w.advance t s.shared).isSome = true) : ∃ s', w.Step s s' := by
  obtain ⟨⟨ts, m⟩, hm⟩ := Option.isSome_iff_exists.mp h
  obtain ⟨before, after, hs⟩ := List.append_of_mem ht
  exact ⟨_, before, t, after, ts, m, hs, hm, rfl⟩

/-- A permit is free, or a task holds one and can act. -/
theorem exists_step_of_permit {permits : ℕ} (hp : 0 < permits) {s : State ζ ρ δ π β ε}
    (hs : w.Consistent permits s) (ht : t ∈ s.tasks)
    (h : 0 < s.shared.free → (w.advance t s.shared).isSome = true) : ∃ s', w.Step s s' := by
  rcases Nat.eq_zero_or_pos s.shared.free with h0 | h0
  · have hsum : (s.tasks.map Task.permits).sum ≠ 0 := by have := hs.free; omega
    obtain ⟨n, hn, hn0⟩ : ∃ n ∈ s.tasks.map Task.permits, n ≠ 0 := by
      by_contra hc
      push Not at hc
      exact hsum (List.sum_eq_zero hc)
    obtain ⟨u, hu, rfl⟩ := List.mem_map.mp hn
    refine step_of_advance hu ?_
    cases u <;> first | exact absurd rfl hn0 | rfl
  · exact step_of_advance ht (h h0)

/-- **No deadlock**: with at least one permit, a state with an unfinished task has a step. -/
theorem exists_step {permits : ℕ} (hp : 0 < permits) {s : State ζ ρ δ π β ε}
    (hs : w.Consistent permits s) (ht : t ∈ s.tasks) (hd : t.done = false) : ∃ s', w.Step s s' := by
  have hreserved : ∀ {u}, u ∈ s.tasks → w.held u ≠ 0 → ∃ s', w.Step s s' := by
    intro u hu h0
    cases u with
    | reserved r => exact exists_step_of_permit hp hs hu fun hf => by simp [Work.advance, hf]
    | reading r => exact step_of_advance hu rfl
    | arrived r x => exact step_of_advance hu rfl
    | _ => exact absurd rfl h0
  cases t with
  | zone z => exact exists_step_of_permit hp hs ht fun hf => by simp [Work.advance, hf]
  | zoneReading z => exact step_of_advance ht rfl
  | zoneArrived z x => exact step_of_advance ht rfl
  | zoneDone z x => cases hd
  | waiting r =>
    -- either nothing is held, and the read may start, or a task that holds bytes can go on
    rcases Nat.eq_zero_or_pos s.shared.used with h0 | h0
    · refine step_of_advance ht ?_
      cases hl : w.limit <;> simp [Work.advance, canHold, hl, h0]
    · rw [hs.used] at h0
      obtain ⟨n, hn, hn0⟩ : ∃ n ∈ s.tasks.map w.held, n ≠ 0 := by
        by_contra hc
        push Not at hc
        exact absurd (List.sum_eq_zero hc) (Nat.pos_iff_ne_zero.mp h0)
      obtain ⟨u, hu, rfl⟩ := List.mem_map.mp hn
      exact hreserved hu hn0
  | reserved r => exact exists_step_of_permit hp hs ht fun hf => by simp [Work.advance, hf]
  | reading r => exact step_of_advance ht rfl
  | arrived r x => exact step_of_advance ht rfl
  | finished r x => cases hd

/-! ### Results -/

variable (w) in
/-- What a read returns. -/
def Work.readResult (r : ρ) : Except ε β := (w.read r).bind (w.decode r)

variable (w) in
/-- What a zone map task plans. -/
def Work.zoneResult (z : ζ) : Except ε π := (w.readZone z).bind (w.plan z)

variable (w) in
/-- A planned zone map task and its reads, all finished. -/
def Work.finishZone (z : ζ) (x : Except ε π) : List (Task ζ ρ δ π β ε) :=
  .zoneDone z x :: (w.started x).map fun r => .finished r (w.readResult r)

variable (w) in
/-- What a task ends as, with the tasks it starts. -/
def Work.final : Task ζ ρ δ π β ε → List (Task ζ ρ δ π β ε)
  | .zone z => w.finishZone z (w.zoneResult z)
  | .zoneReading z => w.finishZone z (w.zoneResult z)
  | .zoneArrived z x => w.finishZone z (x.bind (w.plan z))
  | .zoneDone z x => [.zoneDone z x]
  | .waiting r => [.finished r (w.readResult r)]
  | .reserved r => [.finished r (w.readResult r)]
  | .reading r => [.finished r (w.readResult r)]
  | .arrived r x => [.finished r (x.bind (w.decode r))]
  | .finished r x => [.finished r x]

/-- **An action does not change how things end.** -/
theorem advance_final (h : w.advance t m = some (ts, m')) : ts.flatMap w.final = w.final t := by
  cases t with
  | zone z =>
    simp only [Work.advance, Option.ite_none_right_eq_some, Option.some.injEq, Prod.mk.injEq] at h
    obtain ⟨-, rfl, -⟩ := h
    exact List.flatMap_singleton _ _
  | zoneReading z => cases h; exact List.flatMap_singleton _ _
  | zoneArrived z x =>
    cases h
    rw [List.flatMap_cons, List.flatMap_map]
    simp only [Work.final, Work.finishZone, List.singleton_append]
    rw [List.map_eq_flatMap]
  | zoneDone z x => cases h
  | waiting r =>
    simp only [Work.advance, Option.ite_none_right_eq_some, Option.some.injEq, Prod.mk.injEq] at h
    obtain ⟨-, rfl, -⟩ := h
    exact List.flatMap_singleton _ _
  | reserved r =>
    simp only [Work.advance, Option.ite_none_right_eq_some, Option.some.injEq, Prod.mk.injEq] at h
    obtain ⟨-, rfl, -⟩ := h
    exact List.flatMap_singleton _ _
  | reading r => cases h; exact List.flatMap_singleton _ _
  | arrived r x => cases h; exact List.flatMap_singleton _ _
  | finished r x => cases h

theorem step_final {s s' : State ζ ρ δ π β ε} (h : w.Step s s') :
    s'.tasks.flatMap w.final = s.tasks.flatMap w.final := by
  obtain ⟨before, t, after, ts, m', ht, ha, rfl⟩ := h
  simp only [ht, List.flatMap_append, List.flatMap_cons, advance_final ha, List.append_assoc]

theorem reachable_final {permits : ℕ} {tasks : List (Task ζ ρ δ π β ε)} {s : State ζ ρ δ π β ε}
    (h : w.Reachable permits tasks s) : s.tasks.flatMap w.final = tasks.flatMap w.final := by
  induction h with
  | refl => rfl
  | tail _ hst ih => rw [step_final hst, ih]

theorem flatMap_final_of_done : ∀ {ts : List (Task ζ ρ δ π β ε)}, (∀ t ∈ ts, t.done = true) →
    ts.flatMap w.final = ts
  | [], _ => rfl
  | t :: ts, h => by
    have hf : w.final t = [t] := by
      have := h t List.mem_cons_self
      cases t <;> first | rfl | cases this
    rw [List.flatMap_cons, hf, flatMap_final_of_done fun u hu => h u (List.mem_cons_of_mem _ hu)]
    rfl

/-- **Every run ends with the same results**: a reachable state can go on, or every task is finished
with the result that the order of the steps had no part in. -/
theorem finished_of_reachable {permits : ℕ} (hp : 0 < permits) {tasks : List (Task ζ ρ δ π β ε)}
    (hfresh : ∀ t ∈ tasks, t.fresh = true) {s : State ζ ρ δ π β ε}
    (h : w.Reachable permits tasks s) :
    (∃ s', w.Step s s') ∨ s.tasks = tasks.flatMap w.final := by
  by_cases hd : ∀ t ∈ s.tasks, t.done = true
  · refine Or.inr ?_
    rw [← reachable_final h, flatMap_final_of_done hd]
  · push Not at hd
    obtain ⟨t, ht, hnd⟩ := hd
    exact Or.inl (exists_step hp (reachable_consistent hfresh h) ht (by simpa using hnd))

/-! ### Gathering -/

/-- What `asyncio.gather` returns once every task has succeeded: the results of reads that belong to no
zone map object, then each object's plan with the results of its reads. -/
def gathered : List (Task ζ ρ δ π β ε) → Option (List β × List (π × List β))
  | [] => some ([], [])
  | .finished _ (.ok b) :: ts => (gathered ts).map fun g => (b :: g.1, g.2)
  | .zoneDone _ (.ok p) :: ts => (gathered ts).map fun g => ([], (p, g.1) :: g.2)
  | _ :: _ => none

/-- The exception of a task that failed. -/
def Task.failure : Task ζ ρ δ π β ε → Option ε
  | .zoneDone _ (.error e) => some e
  | .finished _ (.error e) => some e
  | _ => none

variable (w) in
def Work.evalZone (z : ζ) : Except ε (π × List β) :=
  (w.zoneResult z).bind fun p => ((w.reads p).mapM w.readResult).map fun bs => (p, bs)

theorem done_of_gathered : ∀ {ts : List (Task ζ ρ δ π β ε)} {g : List β × List (π × List β)},
    gathered ts = some g → ∀ t ∈ ts, t.done = true ∧ t.failure = none
  | [], _, _, _, ht => by cases ht
  | t :: ts, g, h, u, hu => by
    cases t with
    | finished r x =>
      cases x with
      | error e => cases h
      | ok b =>
        obtain ⟨g', hg', -⟩ := Option.map_eq_some_iff.mp h
        rcases List.mem_cons.mp hu with rfl | hu
        · exact ⟨rfl, rfl⟩
        · exact done_of_gathered hg' u hu
    | zoneDone z x =>
      cases x with
      | error e => cases h
      | ok p =>
        obtain ⟨g', hg', -⟩ := Option.map_eq_some_iff.mp h
        rcases List.mem_cons.mp hu with rfl | hu
        · exact ⟨rfl, rfl⟩
        · exact done_of_gathered hg' u hu
    | _ => cases h

/-- Reads that all succeed, before other tasks. -/
theorem gathered_reads : ∀ {rs : List ρ} {bs : List β}, rs.mapM w.readResult = .ok bs →
    ∀ (ts : List (Task ζ ρ δ π β ε)) (g : List β × List (π × List β)), gathered ts = some g →
      gathered (rs.map (fun r => Task.finished r (w.readResult r)) ++ ts) = some (bs ++ g.1, g.2)
  | [], bs, h, ts, g, hg => by
    rw [mapM_nil_ok.mp h]
    exact hg
  | r :: rs, bs, h, ts, g, hg => by
    obtain ⟨b, bs', hr, hrs, rfl⟩ := mapM_cons_ok.mp h
    rw [List.map_cons, List.cons_append, hr, gathered, gathered_reads hrs ts g hg]
    rfl

/-- Reads that are gathered have all succeeded, and so have the tasks behind them. -/
theorem ok_of_gathered_reads : ∀ {rs : List ρ} {ts : List (Task ζ ρ δ π β ε)}
    {g : List β × List (π × List β)},
      gathered (rs.map (fun r => Task.finished r (w.readResult r)) ++ ts) = some g →
        ∃ bs g', rs.mapM w.readResult = .ok bs ∧ gathered ts = some g' ∧ g = (bs ++ g'.1, g'.2)
  | [], ts, g, h => ⟨[], g, rfl, h, rfl⟩
  | r :: rs, ts, g, h => by
    rw [List.map_cons, List.cons_append] at h
    cases hr : w.readResult r with
    | error e => rw [hr] at h; cases h
    | ok b =>
      rw [hr, gathered] at h
      obtain ⟨g1, hg1, rfl⟩ := Option.map_eq_some_iff.mp h
      obtain ⟨bs, g', hbs, hg', rfl⟩ := ok_of_gathered_reads hg1
      exact ⟨b :: bs, g', mapM_cons_ok.mpr ⟨b, bs, hr, hbs, rfl⟩, hg', rfl⟩

theorem flatMap_final_waiting (rs : List ρ) : (rs.map Task.waiting).flatMap w.final =
    rs.map (fun r => Task.finished r (w.readResult r)) ++ [] := by
  rw [List.append_nil, List.flatMap_map, List.map_eq_flatMap]
  rfl

/-- **Payload reads are gathered** in their order, if all of them succeed. -/
theorem gathered_waiting {rs : List ρ} {g : List β × List (π × List β)} :
    gathered ((rs.map Task.waiting).flatMap w.final) = some g ↔
      rs.mapM w.readResult = .ok g.1 ∧ g.2 = [] := by
  rw [flatMap_final_waiting]
  constructor
  · intro h
    obtain ⟨bs, g', hbs, hg', rfl⟩ := ok_of_gathered_reads h
    cases hg'
    exact ⟨by rw [List.append_nil]; exact hbs, rfl⟩
  · rintro ⟨h1, h2⟩
    have := gathered_reads h1 [] ([], []) rfl
    rw [this, List.append_nil, ← h2]

theorem evalZone_ok {z : ζ} {row : π × List β} : w.evalZone z = .ok row ↔
    w.zoneResult z = .ok row.1 ∧ (w.reads row.1).mapM w.readResult = .ok row.2 := by
  unfold Work.evalZone
  constructor
  · intro h
    cases hz : w.zoneResult z with
    | error e => rw [hz] at h; cases h
    | ok p =>
      cases hb : (w.reads p).mapM w.readResult with
      | error e => rw [hz, Except.bind, hb] at h; cases h
      | ok bs =>
        rw [hz, Except.bind, hb] at h
        cases h
        exact ⟨rfl, hb⟩
  · rintro ⟨hz, hb⟩
    rw [hz, Except.bind, hb]
    rfl

/-- **Zone map tasks are gathered** in their order, each with its reads, if all of them succeed. -/
theorem gathered_zones : ∀ {zs : List ζ} {g : List β × List (π × List β)},
    gathered ((zs.map Task.zone).flatMap w.final) = some g ↔
      zs.mapM w.evalZone = .ok g.2 ∧ g.1 = []
  | [], g => by
    constructor
    · intro h
      cases h
      exact ⟨rfl, rfl⟩
    · rintro ⟨h1, h2⟩
      exact congrArg some (Prod.ext h2.symm (mapM_nil_ok.mp h1).symm)
  | z :: zs, g => by
    rw [List.map_cons, List.flatMap_cons, Work.final, Work.finishZone, List.cons_append, mapM_cons_ok]
    constructor
    · intro h
      cases hz : w.zoneResult z with
      | error e => rw [hz] at h; cases h
      | ok p =>
        rw [hz, gathered, Work.started] at h
        obtain ⟨g1, hg1, rfl⟩ := Option.map_eq_some_iff.mp h
        obtain ⟨bs, g', hbs, hg', rfl⟩ := ok_of_gathered_reads hg1
        obtain ⟨h1, h2⟩ := gathered_zones.mp hg'
        refine ⟨⟨(p, bs), g'.2, evalZone_ok.mpr ⟨hz, hbs⟩, h1, ?_⟩, rfl⟩
        rw [h2, List.append_nil]
    · rintro ⟨⟨row, rows, hrow, hrows, hg⟩, h1⟩
      obtain ⟨hz, hbs⟩ := evalZone_ok.mp hrow
      have hrest : gathered ((zs.map Task.zone).flatMap w.final) = some ([], rows) :=
        gathered_zones.mpr ⟨hrows, rfl⟩
      have ih := gathered_reads hbs _ _ hrest
      rw [List.append_nil] at ih
      rw [hz, gathered, Work.started, ih, Option.map_some, ← hg, ← h1]

/-- **What a run gathers**: when the tasks succeed one after another, then no run of them fails, each
goes on until everything is gathered, and what it gathers is the same. -/
theorem gathered_of_reachable {permits : ℕ} (hp : 0 < permits) {tasks : List (Task ζ ρ δ π β ε)}
    (hfresh : ∀ t ∈ tasks, t.fresh = true) {g : List β × List (π × List β)}
    (hg : gathered (tasks.flatMap w.final) = some g) {s : State ζ ρ δ π β ε}
    (h : w.Reachable permits tasks s) : (∀ t ∈ s.tasks, t.failure = none) ∧
      (∀ g', gathered s.tasks = some g' → g' = g) ∧
        ((∃ s', w.Step s s') ∨ gathered s.tasks = some g) := by
  refine ⟨fun t ht => ?_, fun g' hg' => ?_, ?_⟩
  · cases hf : t.failure with
    | none => rfl
    | some e =>
      -- a failed task stays as it is to the end
      have hfin : w.final t = [t] := by
        cases t <;> first | rfl | cases hf
      have hmem : t ∈ tasks.flatMap w.final := by
        rw [← reachable_final h]
        exact List.mem_flatMap.mpr ⟨t, ht, by rw [hfin]; exact List.mem_singleton_self t⟩
      rw [(done_of_gathered hg t hmem).2] at hf
      cases hf
  · have hdone : s.tasks.flatMap w.final = s.tasks :=
      flatMap_final_of_done fun t ht => (done_of_gathered hg' t ht).1
    rw [reachable_final h] at hdone
    rw [hdone, hg'] at hg
    exact Option.some.inj hg
  · exact (finished_of_reachable hp hfresh h).imp_right fun he => by rw [he, hg]

/-! ### Runs end -/

variable (w) in
/-- The actions a task and those it starts have left. -/
def Work.weight : Task ζ ρ δ π β ε → ℕ
  | .zone z => 3 + 4 * (w.started (w.zoneResult z)).length
  | .zoneReading z => 2 + 4 * (w.started (w.zoneResult z)).length
  | .zoneArrived z x => 1 + 4 * (w.started (x.bind (w.plan z))).length
  | .zoneDone _ _ => 0
  | .waiting _ => 4
  | .reserved _ => 3
  | .reading _ => 2
  | .arrived _ _ => 1
  | .finished _ _ => 0

theorem advance_weight (h : w.advance t m = some (ts, m')) :
    (ts.map w.weight).sum + 1 = w.weight t := by
  cases t with
  | zoneArrived z x =>
    cases h
    rw [List.map_cons, List.sum_cons, List.map_map]
    have hc : ∀ l : List ρ, (l.map (w.weight ∘ Task.waiting)).sum = 4 * l.length := by
      intro l
      induction l with
      | nil => rfl
      | cons r l ih =>
        rw [List.map_cons, List.sum_cons, ih, List.length_cons]
        simp only [Function.comp_apply, Work.weight]
        omega
    rw [hc]
    simp only [Work.weight]
    omega
  | zoneReading z => cases h; simp [Work.weight, Work.zoneResult]; omega
  | reading r => cases h; simp [Work.weight]
  | arrived r x => cases h; simp [Work.weight]
  | zoneDone z x => cases h
  | finished r x => cases h
  | _ =>
    simp only [Work.advance, Option.ite_none_right_eq_some, Option.some.injEq, Prod.mk.injEq] at h
    obtain ⟨-, rfl, -⟩ := h
    simp [Work.weight]
    try omega

/-- **Every step is progress.** -/
theorem step_weight {s s' : State ζ ρ δ π β ε} (h : w.Step s s') :
    (s'.tasks.map w.weight).sum + 1 = (s.tasks.map w.weight).sum := by
  obtain ⟨before, t, after, ts, m', ht, ha, rfl⟩ := h
  have := advance_weight ha
  simp only [ht, List.map_append, List.map_cons, List.sum_append, List.sum_cons]
  omega

end Work

end SkipZFP.Read.Budget
