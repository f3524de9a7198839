import SkipZFP.Read.Gather

/-! # Programs that raise

A program raises when every run of it ends with an exception. As for results, the order of the steps does
not matter to whether it does: a task that fails one after another fails in every run, though another task
may fail before it.

* `live_of_reachable`, `live_progress`: a run that has not returned can go on, whatever its tasks do.
* `raises_of_mayRaise`: **a program that can return nothing raises** what its tasks can raise.
* `mayRaise_bind`, `mayRaise_reads`, `mayRaise_zones`: the rules for what a program can raise. -/

namespace SkipZFP.Read.Raise

open SkipZFP.Lib.Loops SkipZFP.Read.Budget SkipZFP.Read.Gather

/-! ### Progress -/

section Tasks
variable {ζ ρ δ π β ε : Type*}

/-- Tasks that are all done have all succeeded, or one has failed. -/
theorem gathered_or_failure : ∀ {ts : List (Task ζ ρ δ π β ε)}, (∀ t ∈ ts, t.done = true) →
    (∃ g, gathered ts = some g) ∨ ∃ t ∈ ts, ∃ e, t.failure = some e
  | [], _ => Or.inl ⟨_, rfl⟩
  | t :: ts, h => by
    have ih := gathered_or_failure fun u hu => h u (List.mem_cons_of_mem _ hu)
    have ht := h t List.mem_cons_self
    rcases ih with ⟨g, hg⟩ | ⟨u, hu, e, he⟩
    · cases t with
      | finished r x =>
        cases x with
        | error e => exact Or.inr ⟨_, List.mem_cons_self, e, rfl⟩
        | ok b => exact Or.inl ⟨_, by rw [gathered, hg, Option.map_some]⟩
      | zoneDone z x =>
        cases x with
        | error e => exact Or.inr ⟨_, List.mem_cons_self, e, rfl⟩
        | ok p => exact Or.inl ⟨_, by rw [gathered, hg, Option.map_some]⟩
      | _ => cases ht
    · exact Or.inr ⟨u, List.mem_cons_of_mem _ hu, e, he⟩

end Tasks

section Run
variable {ε R : Type}

/-- A run that has returned, or whose tasks are in a state of a run of theirs. -/
def Live : At ε R → Prop
  | .returned _ => True
  | .running w s _ => ∃ permits tasks, (0 < permits ∧ ∀ t ∈ tasks, t.fresh = true) ∧
      w.Reachable permits tasks s

theorem live_enter (p : Program ε R) : Live p.enter := by
  cases p with
  | done x => trivial
  | run w permits tasks ok next => exact ⟨permits, tasks, ok, .refl⟩

theorem live_step {q q' : At ε R} (hq : Live q) (h : Step q q') : Live q' := by
  cases h with
  | act hs =>
    obtain ⟨permits, tasks, ok, hr⟩ := hq
    exact ⟨permits, tasks, ok, hr.tail hs⟩
  | gather hg => exact live_enter _
  | fail ht hf => trivial

theorem live_of_reachable {p : Program ε R} {q : At ε R} (h : p.Reachable q) : Live q := by
  induction h with
  | refl => exact live_enter p
  | tail _ hs ih => exact live_step ih hs

/-- **No run is stuck.** -/
theorem live_progress {q : At ε R} (hq : Live q) : (∃ q', Step q q') ∨ ∃ x, q = .returned x := by
  cases q with
  | returned x => exact Or.inr ⟨x, rfl⟩
  | running w s next =>
    obtain ⟨permits, tasks, ok, hr⟩ := hq
    left
    by_cases hd : ∀ t ∈ s.tasks, t.done = true
    · rcases gathered_or_failure hd with ⟨g, hg⟩ | ⟨t, ht, e, he⟩
      · exact ⟨_, .gather hg⟩
      · exact ⟨_, .fail ht he⟩
    · push Not at hd
      obtain ⟨t, ht, hnd⟩ := hd
      obtain ⟨s', hs⟩ := exists_step ok.1 (reachable_consistent ok.2 hr) ht (by simpa using hnd)
      exact ⟨_, .act hs⟩

/-! ### What a program can raise -/

/-- **Every run of the program ends and raises** an exception of which `P` holds. -/
def Raises (P : ε → Prop) (p : Program ε R) : Prop :=
  Acc (flip Step) p.enter ∧
    ∀ q, p.Reachable q → (∃ q', Step q q') ∨ ∃ e, q = .returned (.error e) ∧ P e

/-- With its tasks one after another the program can raise `e`. -/
def MayRaise (e : ε) : Program ε R → Prop
  | .done x => x = .error e
  | .run w _ tasks _ next => (∃ t ∈ tasks.flatMap w.final, t.failure = some e) ∨
      ∃ g peak, gathered (tasks.flatMap w.final) = some g ∧ MayRaise e (next g peak)

/-- From here a run can raise `e`. -/
def Threatens (e : ε) : At ε R → Prop
  | .returned x => x = .error e
  | .running w s next => (∃ t ∈ s.tasks.flatMap w.final, t.failure = some e) ∨
      ∃ g peak, gathered (s.tasks.flatMap w.final) = some g ∧ MayRaise e (next g peak)

theorem threatens_enter {e : ε} {p : Program ε R} : Threatens e p.enter ↔ MayRaise e p := by
  cases p <;> rfl

theorem threatens_of_step {e : ε} {q q' : At ε R} (h : Step q q') (he : Threatens e q') :
    Threatens e q := by
  cases h with
  | act hs =>
    dsimp only [Threatens] at he ⊢
    rwa [step_final hs] at he
  | gather hg =>
    refine Or.inr ⟨_, _, ?_, threatens_enter.mp he⟩
    rw [flatMap_final_of_done fun t ht => (done_of_gathered hg t ht).1, hg]
  | @fail _ _ _ _ _ w s _ t e' ht hf =>
    -- a failed task stays as it is to the end
    have hfin : w.final t = [t] := by
      cases t <;> first | rfl | cases hf
    cases he
    exact Or.inl ⟨t, List.mem_flatMap.mpr ⟨t, ht, by rw [hfin]; exact List.mem_singleton_self t⟩, hf⟩

/-- **What a run has raised**, the program can raise with its tasks one after another. -/
theorem mayRaise_of_reachable {e : ε} {p : Program ε R} (h : p.Reachable (.returned (.error e))) :
    MayRaise e p := by
  rw [← threatens_enter]
  unfold Program.Reachable at h
  generalize p.enter = q at h ⊢
  induction h using Relation.ReflTransGen.head_induction_on with
  | refl => rfl
  | head hs _ ih => exact threatens_of_step hs ih

/-- **A program that can return nothing raises** what it can raise. -/
theorem raises_of_mayRaise {P : ε → Prop} {p : Program ε R} (hret : ∀ v, ¬ p.MayReturn v)
    (hP : ∀ e, MayRaise e p → P e) : Raises P p := by
  refine ⟨acc_enter p, fun q hq => ?_⟩
  rcases live_progress (live_of_reachable hq) with h | ⟨x, rfl⟩
  · exact Or.inl h
  · right
    cases x with
    | ok v => exact absurd (mayReturn_of_reachable hq) (hret v)
    | error e => exact ⟨e, rfl, hP e (mayRaise_of_reachable hq)⟩

theorem raises_mono {P P' : ε → Prop} (h : ∀ e, P e → P' e) {p : Program ε R} (hp : Raises P p) :
    Raises P' p :=
  ⟨hp.1, fun q hq => (hp.2 q hq).imp_right fun ⟨e, he, hP⟩ => ⟨e, he, h e hP⟩⟩

theorem not_raises_of_returns {P : ε → Prop} {Q : R → Prop} {p : Program ε R} (h : p.Returns Q) :
    ¬ Raises P p := by
  intro hr
  obtain ⟨v, hv, -⟩ := exists_of_always (always_of_returns h)
  rcases hr.2 _ hv with ⟨q', hs⟩ | ⟨e, he, -⟩
  · cases hs
  · cases he

end Run

/-! ### Rules -/

section Build
variable {ε R A ζ ρ δ π β : Type} {w : Work ζ ρ δ π β ε} {permits : ℕ} {hp : 0 < permits} {e : ε}

theorem mayRaise_bind {f : A → Program ε R} : ∀ {p : Program ε A}, MayRaise e (p.bind f) →
    MayRaise e p ∨ ∃ x, p.MayReturn x ∧ MayRaise e (f x)
  | .done (.ok x), h => Or.inr ⟨x, rfl, h⟩
  | .done (.error _), h => by
    cases h
    exact Or.inl rfl
  | .run w permits tasks ok next, h => by
    rcases h with h | ⟨g, peak, hg, hnext⟩
    · exact Or.inl (Or.inl h)
    · rcases mayRaise_bind hnext with h | ⟨x, hx, hf⟩
      · exact Or.inl (Or.inr ⟨g, peak, hg, h⟩)
      · exact Or.inr ⟨x, ⟨g, peak, hg, hx⟩, hf⟩

theorem mayRaise_reads {rs : List ρ} {next : List β → ℕ → Program ε R}
    (h : MayRaise e (reads w hp rs next)) : (∃ r ∈ rs, w.readResult r = .error e) ∨
      ∃ bs peak, rs.mapM w.readResult = .ok bs ∧ MayRaise e (next bs peak) := by
  rcases h with ⟨t, ht, hf⟩ | ⟨g, peak, hg, hnext⟩
  · left
    obtain ⟨u, hu, htu⟩ := List.mem_flatMap.mp ht
    obtain ⟨r, hr, rfl⟩ := List.mem_map.mp hu
    obtain rfl := List.mem_singleton.mp htu
    refine ⟨r, hr, ?_⟩
    cases hres : w.readResult r with
    | ok b => rw [hres] at hf; cases hf
    | error e' => rw [hres] at hf; cases hf; rfl
  · exact Or.inr ⟨g.1, peak, (gathered_waiting.mp hg).1, hnext⟩

theorem mayRaise_zones {zs : List ζ} {next : List (π × List β) → ℕ → Program ε R}
    (h : MayRaise e (zones w hp zs next)) : (∃ z ∈ zs, w.zoneResult z = .error e ∨
        ∃ p, w.zoneResult z = .ok p ∧ ∃ r ∈ w.reads p, w.readResult r = .error e) ∨
      ∃ rows peak, zs.mapM w.evalZone = .ok rows ∧ MayRaise e (next rows peak) := by
  rcases h with ⟨t, ht, hf⟩ | ⟨g, peak, hg, hnext⟩
  · left
    obtain ⟨u, hu, htu⟩ := List.mem_flatMap.mp ht
    obtain ⟨z, hz, rfl⟩ := List.mem_map.mp hu
    refine ⟨z, hz, ?_⟩
    rcases List.mem_cons.mp htu with rfl | htu
    · cases hres : w.zoneResult z with
      | ok p => rw [hres] at hf; cases hf
      | error e' => rw [hres] at hf; cases hf; exact Or.inl rfl
    · obtain ⟨r, hr, rfl⟩ := List.mem_map.mp htu
      cases hres : w.zoneResult z with
      | error e' => rw [hres] at hr; cases hr
      | ok p =>
        rw [hres] at hr
        refine Or.inr ⟨p, rfl, r, hr, ?_⟩
        cases hread : w.readResult r with
        | ok b => rw [hread] at hf; cases hf
        | error e' => rw [hread] at hf; cases hf; rfl
  · exact Or.inr ⟨g.2, peak, (gathered_zones.mp hg).1, hnext⟩

end Build

end SkipZFP.Read.Raise
