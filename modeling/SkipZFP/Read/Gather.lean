import SkipZFP.Read.Budget

/-! # Programs that gather tasks

A query runs some tasks at once, waits until all of them are done, and goes on with their results: to
more tasks, or to its result. A `Program` says so, and a `Step` of it is the next action of any task, the
gathering of all results, or the failure of one task.

* `acc_enter`: every run ends.
* `run_returns`: **the order does not matter**. A program that returns something with its tasks one after
  another (`Returns`) does so in every run (`Always`).
* `mayReturn_of_reachable`: what a run has returned, the tasks give one after another (`MayReturn`).
* `returns_reads`, `returns_zones`, `returns_bind` and their counterparts for `MayReturn` are the rules
  by which one reasons about a program.
* `sameUpTo_of_returns`: when two programs return the same. -/

namespace SkipZFP.Read.Gather

open SkipZFP.Read.Budget

/-- A program is done, or runs tasks and goes on with what is gathered and the most bytes held. -/
inductive Program (ε R : Type) : Type 1 where
  | done (x : Except ε R)
  | run {ζ ρ δ π β : Type} (w : Work ζ ρ δ π β ε) (permits : ℕ) (tasks : List (Task ζ ρ δ π β ε))
      (ok : 0 < permits ∧ ∀ t ∈ tasks, t.fresh = true)
      (next : List β × List (π × List β) → ℕ → Program ε R)

/-- Where a run is. -/
inductive At (ε R : Type) : Type 1 where
  | returned (x : Except ε R)
  | running {ζ ρ δ π β : Type} (w : Work ζ ρ δ π β ε) (s : State ζ ρ δ π β ε)
      (next : List β × List (π × List β) → ℕ → Program ε R)

section Run
variable {ε R : Type}

/-- The state in which a program waits for the first action of a task. -/
def Program.enter : Program ε R → At ε R
  | .done x => .returned x
  | .run w permits tasks _ next => .running w (start permits tasks) next

/-- **One step**: a task acts, all tasks have succeeded, or one has failed. -/
inductive Step : At ε R → At ε R → Prop where
  | act {ζ ρ δ π β : Type} {w : Work ζ ρ δ π β ε} {s s' : State ζ ρ δ π β ε}
      {next : List β × List (π × List β) → ℕ → Program ε R} :
      w.Step s s' → Step (.running w s next) (.running w s' next)
  | gather {ζ ρ δ π β : Type} {w : Work ζ ρ δ π β ε} {s : State ζ ρ δ π β ε}
      {next : List β × List (π × List β) → ℕ → Program ε R} {g : List β × List (π × List β)} :
      gathered s.tasks = some g → Step (.running w s next) (next g s.shared.peak).enter
  | fail {ζ ρ δ π β : Type} {w : Work ζ ρ δ π β ε} {s : State ζ ρ δ π β ε}
      {next : List β × List (π × List β) → ℕ → Program ε R} {t : Task ζ ρ δ π β ε} {e : ε} :
      t ∈ s.tasks → t.failure = some e → Step (.running w s next) (.returned (.error e))

/-- The states of the runs of a program. -/
def Program.Reachable (p : Program ε R) (q : At ε R) : Prop := Relation.ReflTransGen Step p.enter q

/-! ### Runs end -/

theorem acc_returned (x : Except ε R) : Acc (flip Step) (At.returned x) :=
  .intro _ fun _ h => by cases h

theorem acc_running {ζ ρ δ π β : Type} (w : Work ζ ρ δ π β ε)
    (next : List β × List (π × List β) → ℕ → Program ε R)
    (hnext : ∀ g peak, Acc (flip Step) (next g peak).enter) :
    ∀ (n : ℕ) (s : State ζ ρ δ π β ε), (s.tasks.map w.weight).sum = n →
      Acc (flip Step) (At.running w s next)
  | 0, s, hn => .intro _ fun q' h => by
    cases h with
    | act hs => have := step_weight hs; omega
    | gather hg => exact hnext _ _
    | fail => exact acc_returned _
  | n + 1, s, hn => .intro _ fun q' h => by
    cases h with
    | act hs =>
      have := step_weight hs
      exact acc_running w next hnext n _ (by omega)
    | gather hg => exact hnext _ _
    | fail => exact acc_returned _

/-- **Every run ends**, also one that fails. -/
theorem acc_enter : ∀ p : Program ε R, Acc (flip Step) p.enter
  | .done x => acc_returned x
  | .run w _ _ _ next => acc_running w next (fun g peak => acc_enter (next g peak)) _ _ rfl

/-! ### What a program returns -/

/-- With its tasks one after another the program returns something of which `Q` holds, whatever the most
bytes are that its tasks hold at once. -/
def Program.Returns (Q : R → Prop) : Program ε R → Prop
  | .done x => ∃ v, x = .ok v ∧ Q v
  | .run w _ tasks _ next => ∃ g, gathered (tasks.flatMap w.final) = some g ∧
      ∀ peak, (next g peak).Returns Q

/-- With its tasks one after another the program can return `v`. -/
def Program.MayReturn (v : R) : Program ε R → Prop
  | .done x => x = .ok v
  | .run w _ tasks _ next => ∃ g peak, gathered (tasks.flatMap w.final) = some g ∧
      (next g peak).MayReturn v

theorem returns_mono {Q Q' : R → Prop} (h : ∀ v, Q v → Q' v) : ∀ {p : Program ε R},
    p.Returns Q → p.Returns Q'
  | .done _, ⟨v, hx, hv⟩ => ⟨v, hx, h v hv⟩
  | .run _ _ _ _ _, ⟨g, hg, hnext⟩ => ⟨g, hg, fun peak => returns_mono h (hnext peak)⟩

/-- From here every run returns something of which `Q` holds. -/
def At.Expects (Q : R → Prop) : At ε R → Prop
  | .returned x => ∃ v, x = .ok v ∧ Q v
  | .running w s next => ∃ permits tasks g, (0 < permits ∧ ∀ t ∈ tasks, t.fresh = true) ∧
      gathered (tasks.flatMap w.final) = some g ∧ (∀ peak, (next g peak).Returns Q) ∧
        w.Reachable permits tasks s

theorem expects_enter {Q : R → Prop} {p : Program ε R} (h : p.Returns Q) : p.enter.Expects Q := by
  cases p with
  | done x => exact h
  | run w permits tasks ok next =>
    obtain ⟨g, hg, hnext⟩ := h
    exact ⟨permits, tasks, g, ok, hg, hnext, .refl⟩

theorem expects_step {Q : R → Prop} {q q' : At ε R} (hq : q.Expects Q) (h : Step q q') :
    q'.Expects Q := by
  cases h with
  | act hs =>
    obtain ⟨permits, tasks, g, ok, hg, hnext, hr⟩ := hq
    exact ⟨permits, tasks, g, ok, hg, hnext, hr.tail hs⟩
  | gather hg' =>
    obtain ⟨permits, tasks, g, ok, hg, hnext, hr⟩ := hq
    have := (gathered_of_reachable ok.1 ok.2 hg hr).2.1 _ hg'
    subst this
    exact expects_enter (hnext _)
  | fail ht hf =>
    obtain ⟨permits, tasks, g, ok, hg, hnext, hr⟩ := hq
    have := (gathered_of_reachable ok.1 ok.2 hg hr).1 _ ht
    rw [hf] at this
    cases this

theorem expects_progress {Q : R → Prop} {q : At ε R} (hq : q.Expects Q) :
    (∃ q', Step q q') ∨ ∃ v, q = .returned (.ok v) ∧ Q v := by
  cases q with
  | returned x =>
    obtain ⟨v, rfl, hv⟩ := hq
    exact Or.inr ⟨v, rfl, hv⟩
  | running w s next =>
    obtain ⟨permits, tasks, g, ok, hg, -, hr⟩ := hq
    rcases (gathered_of_reachable ok.1 ok.2 hg hr).2.2 with ⟨s', hs⟩ | hg
    · exact Or.inl ⟨_, .act hs⟩
    · exact Or.inl ⟨_, .gather hg⟩

/-- **The order of the steps does not matter**: every state of every run can go on, or has returned what
the program returns with its tasks one after another. -/
theorem run_returns {Q : R → Prop} {p : Program ε R} (hp : p.Returns Q) {q : At ε R}
    (h : p.Reachable q) : (∃ q', Step q q') ∨ ∃ v, q = .returned (.ok v) ∧ Q v := by
  refine expects_progress ?_
  induction h with
  | refl => exact expects_enter hp
  | tail _ hs ih => exact expects_step ih hs

/-- **Every run of the program ends and returns** something of which `Q` holds: there is no infinite run,
and each state of each run can go on or has returned. -/
def Program.Always (Q : R → Prop) (p : Program ε R) : Prop :=
  Acc (flip Step) p.enter ∧
    ∀ q, p.Reachable q → (∃ q', Step q q') ∨ ∃ v, q = .returned (.ok v) ∧ Q v

theorem always_of_returns {Q : R → Prop} {p : Program ε R} (hp : p.Returns Q) : p.Always Q :=
  ⟨acc_enter p, fun _ h => run_returns hp h⟩

theorem always_mono {Q Q' : R → Prop} (h : ∀ v, Q v → Q' v) {p : Program ε R} (hp : p.Always Q) :
    p.Always Q' :=
  ⟨hp.1, fun q hq => (hp.2 q hq).imp_right fun ⟨v, hv, hQ⟩ => ⟨v, hv, h v hQ⟩⟩

/-- From here a run can return `v`. -/
def At.Allows (v : R) : At ε R → Prop
  | .returned x => x = .ok v
  | .running w s next => ∃ g peak, gathered (s.tasks.flatMap w.final) = some g ∧
      (next g peak).MayReturn v

theorem allows_enter {v : R} {p : Program ε R} : p.enter.Allows v ↔ p.MayReturn v := by
  cases p <;> rfl

theorem allows_of_step {v : R} {q q' : At ε R} (h : Step q q') (hv : q'.Allows v) : q.Allows v := by
  cases h with
  | act hs =>
    obtain ⟨g, peak, hg, hnext⟩ := hv
    rw [step_final hs] at hg
    exact ⟨g, peak, hg, hnext⟩
  | gather hg =>
    refine ⟨_, _, ?_, allows_enter.mp hv⟩
    rw [flatMap_final_of_done fun t ht => (done_of_gathered hg t ht).1, hg]
  | fail => cases hv

/-- **What a run has returned**, the program can return with its tasks one after another. -/
theorem mayReturn_of_reachable {v : R} {p : Program ε R} (h : p.Reachable (.returned (.ok v))) :
    p.MayReturn v := by
  rw [← allows_enter]
  unfold Program.Reachable at h
  generalize p.enter = q at h ⊢
  induction h using Relation.ReflTransGen.head_induction_on with
  | refl => rfl
  | head hs _ ih => exact allows_of_step hs ih

/-- A program whose runs all return has a run that returns. -/
theorem exists_of_always {Q : R → Prop} {p : Program ε R} (hp : p.Always Q) :
    ∃ v, p.Reachable (.returned (.ok v)) ∧ Q v := by
  have h : ∀ q, Acc (flip Step) q → p.Reachable q → ∃ v, p.Reachable (.returned (.ok v)) ∧ Q v := by
    intro q hq
    induction hq with
    | intro q _ ih =>
      intro hr
      rcases hp.2 q hr with ⟨q', hs⟩ | ⟨v, rfl, hv⟩
      · exact ih q' hs (hr.tail hs)
      · exact ⟨v, hr, hv⟩
  exact h _ hp.1 .refl

/-- **Two programs return the same**, up to `r`: what a run of one has returned, every run of the other
returns. -/
def Program.SameUpTo (r : R → R → Prop) (p q : Program ε R) : Prop :=
  (∀ v, p.Reachable (.returned (.ok v)) → q.Always (r v)) ∧
    ∀ v', q.Reachable (.returned (.ok v')) → p.Always fun v => r v v'

theorem sameUpTo_of_returns {r : R → R → Prop} {p q : Program ε R}
    (h1 : ∀ v, p.MayReturn v → q.Returns (r v))
    (h2 : ∀ v', q.MayReturn v' → p.Returns fun v => r v v') : p.SameUpTo r q :=
  ⟨fun v hv => always_of_returns (h1 v (mayReturn_of_reachable hv)),
    fun v' hv' => always_of_returns (h2 v' (mayReturn_of_reachable hv'))⟩

end Run

/-! ### Building programs -/

section Build
variable {ε R A ζ ρ δ π β : Type}

theorem fresh_map_waiting (l : List ρ) :
    ∀ t ∈ l.map (Task.waiting : ρ → Task ζ ρ δ π β ε), t.fresh = true := by
  intro t ht
  obtain ⟨r, -, rfl⟩ := List.mem_map.mp ht
  rfl

theorem fresh_map_zone (l : List ζ) :
    ∀ t ∈ l.map (Task.zone : ζ → Task ζ ρ δ π β ε), t.fresh = true := by
  intro t ht
  obtain ⟨r, -, rfl⟩ := List.mem_map.mp ht
  rfl

def reads (w : Work ζ ρ δ π β ε) {permits : ℕ} (hp : 0 < permits) (rs : List ρ)
    (next : List β → ℕ → Program ε R) : Program ε R :=
  .run w permits (rs.map .waiting) ⟨hp, fresh_map_waiting rs⟩ fun g peak => next g.1 peak

def zones (w : Work ζ ρ δ π β ε) {permits : ℕ} (hp : 0 < permits) (zs : List ζ)
    (next : List (π × List β) → ℕ → Program ε R) : Program ε R :=
  .run w permits (zs.map .zone) ⟨hp, fresh_map_zone zs⟩ fun g peak => next g.2 peak

def Program.bind : Program ε A → (A → Program ε R) → Program ε R
  | .done (.ok x), f => f x
  | .done (.error e), _ => .done (.error e)
  | .run w permits tasks ok next, f => .run w permits tasks ok fun g peak => (next g peak).bind f

variable {w : Work ζ ρ δ π β ε} {permits : ℕ} {hp : 0 < permits} {Q : R → Prop} {v : R}

theorem returns_bind {f : A → Program ε R} : ∀ {p : Program ε A},
    p.Returns (fun x => (f x).Returns Q) → (p.bind f).Returns Q
  | .done (.ok x), h => by
    obtain ⟨y, hy, hf⟩ := h
    cases hy
    exact hf
  | .done (.error e), h => by
    obtain ⟨y, hy, -⟩ := h
    cases hy
  | .run w permits tasks ok next, h => by
    obtain ⟨g, hg, hnext⟩ := h
    exact ⟨g, hg, fun peak => returns_bind (hnext peak)⟩

theorem mayReturn_bind {f : A → Program ε R} : ∀ {p : Program ε A},
    (p.bind f).MayReturn v → ∃ x, p.MayReturn x ∧ (f x).MayReturn v
  | .done (.ok x), h => ⟨x, rfl, h⟩
  | .done (.error e), h => by cases h
  | .run w permits tasks ok next, h => by
    obtain ⟨g, peak, hg, hnext⟩ := h
    obtain ⟨x, hx, hf⟩ := mayReturn_bind hnext
    exact ⟨x, ⟨g, peak, hg, hx⟩, hf⟩

theorem returns_done {x : Except ε R} (hx : x = .ok v) (hv : Q v) : (Program.done x).Returns Q :=
  ⟨v, hx, hv⟩

/-- **Reads that succeed one after another** are gathered in their order. -/
theorem returns_reads {rs : List ρ} {bs : List β} {next : List β → ℕ → Program ε R}
    (h : rs.mapM w.readResult = .ok bs) (hnext : ∀ peak, (next bs peak).Returns Q) :
    (reads w hp rs next).Returns Q :=
  ⟨(bs, []), gathered_waiting.mpr ⟨h, rfl⟩, hnext⟩

/-- **Zone map objects that succeed one after another** are gathered in their order. -/
theorem returns_zones {zs : List ζ} {rows : List (π × List β)}
    {next : List (π × List β) → ℕ → Program ε R} (h : zs.mapM w.evalZone = .ok rows)
    (hnext : ∀ peak, (next rows peak).Returns Q) : (zones w hp zs next).Returns Q :=
  ⟨([], rows), gathered_zones.mpr ⟨h, rfl⟩, hnext⟩

theorem mayReturn_reads {rs : List ρ} {next : List β → ℕ → Program ε R}
    (h : (reads w hp rs next).MayReturn v) :
    ∃ bs peak, rs.mapM w.readResult = .ok bs ∧ (next bs peak).MayReturn v := by
  obtain ⟨g, peak, hg, hnext⟩ := h
  exact ⟨g.1, peak, (gathered_waiting.mp hg).1, hnext⟩

theorem mayReturn_zones {zs : List ζ} {next : List (π × List β) → ℕ → Program ε R}
    (h : (zones w hp zs next).MayReturn v) :
    ∃ rows peak, zs.mapM w.evalZone = .ok rows ∧ (next rows peak).MayReturn v := by
  obtain ⟨g, peak, hg, hnext⟩ := h
  exact ⟨g.2, peak, (gathered_zones.mp hg).1, hnext⟩

end Build

end SkipZFP.Read.Gather
