import Mathlib.Algebra.BigOperators.Group.List.Basic
import Mathlib.Algebra.Order.Ring.Nat
import Mathlib.Data.List.FinRange
import Mathlib.Data.List.Pairwise
import Mathlib.Data.Set.Lattice
import Mathlib.Logic.Function.Basic
import Mathlib.Order.CompletePartialOrder

/-! # Loops whose iterations run in parallel

A memory has a value for every location, an action changes it in one step, and a thread is a list of
actions. `Interleaving threads trace`: the trace is one order in which all actions of the threads can
happen, those of one thread in their own order.

A thread has a region: the locations it owns, and others that it only reads. `Triple r p as q`: from a
memory with `p`, the actions change nothing outside of what the region owns, depend on the region only,
and leave `q`. Its rules are those of a sequential program: `triple_of_local`, `triple_append`,
`triple_loop`, `triple_range`, and `triple_frame` for what other locations hold.

* `run_of_interleaving`: where no thread reads or writes what another one owns, every interleaving leaves
  in the locations of a thread what the thread alone leaves there.
* `triple_parallel`: so each thread's postcondition holds after every interleaving.
* `interleaving_flatMap`: the threads one after another are an interleaving.
* `Schedule`: iterations dealt to workers, each to one of them; `Schedule.sum_shares` is a reduction. -/

namespace SkipZFP.Lib.Parallel

variable {Loc : Type*} {V : Loc → Type*} {ι α : Type*}

abbrev Memory (V : Loc → Type*) := (l : Loc) → V l

abbrev Action (V : Loc → Type*) := Memory V → Memory V

/-- Actions one after another. -/
def run (as : List (Action V)) (m : Memory V) : Memory V := as.foldl (fun m a => a m) m

/-- The trace has the items of all threads, those of each thread in their order. -/
inductive Interleaving [DecidableEq ι] : (ι → List α) → List α → Prop
  | done {t : ι → List α} (h : ∀ i, t i = []) : Interleaving t []
  | step {t : ι → List α} (i : ι) {a : α} {rest trace : List α} (h : t i = a :: rest)
      (hr : Interleaving (Function.update t i rest) trace) : Interleaving t (a :: trace)

/-- The memories have the same values in `s`. -/
def Agree (s : Set Loc) (m m' : Memory V) : Prop := ∀ l ∈ s, m l = m' l

/-- What a thread may write, and what it only reads. -/
structure Region (Loc : Type*) where
  own : Set Loc
  reads : Set Loc

/-- All that a thread may look at. -/
def Region.view (r : Region Loc) : Set Loc := r.own ∪ r.reads

/-- From `m`, and from every memory that looks the same to the region, the action changes only what the
region owns, in the same way. -/
def Local (r : Region Loc) (a : Action V) (m : Memory V) : Prop :=
  ∀ m', Agree r.view m m' → (∀ l, l ∉ r.own → a m' l = m' l) ∧ Agree r.own (a m) (a m')

/-- Every action is local where it happens. -/
def Confined (r : Region Loc) : List (Action V) → Memory V → Prop
  | [], _ => True
  | a :: as, m => Local r a m ∧ Confined r as (a m)

/-- **A thread with its region**: from `p` it is confined, and leaves `q`. -/
def Triple (r : Region Loc) (p : Memory V → Prop) (as : List (Action V)) (q : Memory V → Prop) : Prop :=
  ∀ m, p m → Confined r as m ∧ q (run as m)

/-- A statement about the locations in `s` only. -/
def About (s : Set Loc) (p : Memory V → Prop) : Prop := ∀ m m', Agree s m m' → p m → p m'

@[simp] theorem run_nil (m : Memory V) : run [] m = m := rfl

@[simp] theorem run_cons (a : Action V) (as : List (Action V)) (m : Memory V) :
    run (a :: as) m = run as (a m) := rfl

theorem run_append (as bs : List (Action V)) (m : Memory V) :
    run (as ++ bs) m = run bs (run as m) := List.foldl_append

theorem Agree.symm {s : Set Loc} {m m' : Memory V} (h : Agree s m m') : Agree s m' m :=
  fun l hl => (h l hl).symm

theorem Agree.trans {s : Set Loc} {m m' m'' : Memory V} (h : Agree s m m') (h' : Agree s m' m'') :
    Agree s m m'' := fun l hl => (h l hl).trans (h' l hl)

section Confined
variable {r : Region Loc} {a : Action V} {as bs : List (Action V)} {m m' : Memory V}

theorem Local.agree (h : Local r a m) (hm : Agree r.view m m') : Agree r.view (a m) (a m') := by
  obtain ⟨hout, -⟩ := h m fun _ _ => rfl
  obtain ⟨hout', hown⟩ := h m' hm
  intro l hl
  by_cases ho : l ∈ r.own
  · exact hown l ho
  · rw [hout l ho, hout' l ho]
    exact hm l hl

theorem Local.congr (h : Local r a m) (hm : Agree r.view m m') : Local r a m' := by
  intro m'' hm''
  obtain ⟨-, hown⟩ := h m' hm
  obtain ⟨hout', hown'⟩ := h m'' (hm.trans hm'')
  exact ⟨hout', hown.symm.trans hown'⟩

theorem Confined.congr : ∀ {as : List (Action V)} {m m' : Memory V}, Confined r as m →
    Agree r.view m m' → Confined r as m'
  | [], _, _, _, _ => trivial
  | _ :: _, _, _, h, hm => ⟨h.1.congr hm, h.2.congr (h.1.agree hm)⟩

theorem agree_run : ∀ {as : List (Action V)} {m m' : Memory V}, Confined r as m →
    Agree r.view m m' → Agree r.view (run as m) (run as m')
  | [], _, _, _, hm => hm
  | a :: as, m, m', h, hm => by
    rw [run_cons, run_cons]
    exact agree_run h.2 (h.1.agree hm)

theorem run_of_not_mem : ∀ {as : List (Action V)} {m : Memory V}, Confined r as m →
    ∀ {l : Loc}, l ∉ r.own → run as m l = m l
  | [], _, _, _, _ => rfl
  | _ :: _, _, h, l, hl =>
    (run_of_not_mem h.2 hl).trans ((h.1 _ fun _ _ => rfl).1 l hl)

theorem confined_append : ∀ {as : List (Action V)} {m : Memory V}, Confined r as m →
    Confined r bs (run as m) → Confined r (as ++ bs) m
  | [], _, _, h => h
  | _ :: _, _, h, h' => ⟨h.1, confined_append h.2 h'⟩

end Confined

theorem About.and {s : Set Loc} {p q : Memory V → Prop} (hp : About s p) (hq : About s q) :
    About s fun m => p m ∧ q m := fun m m' h hm => ⟨hp m m' h hm.1, hq m m' h hm.2⟩

theorem about_eq {s : Set Loc} {l : Loc} (hl : l ∈ s) (v : V l) : About s fun m => m l = v :=
  fun _ _ h hm => (h l hl).symm.trans hm

/-! ### Interleavings -/

section Interleaving
variable [DecidableEq ι] {threads : ι → List (Action V)} {trace : List (Action V)} {r : ι → Region Loc}
  {m : Memory V}

/-- **Every interleaving of threads that keep to themselves** does to each thread's locations what the
thread alone does, and changes no other location. -/
theorem run_of_interleaving (h : Interleaving threads trace)
    (hsep : ∀ i j, i ≠ j → Disjoint (r i).own (r j).view) : ∀ {m : Memory V},
    (∀ i, Confined (r i) (threads i) m) →
      (∀ i, Agree (r i).view (run (threads i) m) (run trace m)) ∧
      ∀ l, (∀ i, l ∉ (r i).own) → run trace m l = m l := by
  induction h with
  | done h =>
    intro m _
    refine ⟨fun i => ?_, fun _ _ => rfl⟩
    rw [h i]
    exact fun _ _ => rfl
  | @step t i a rest trace h hr ih =>
    intro m hc
    have hi := hc i
    rw [h] at hi
    obtain ⟨hloc, hrest⟩ := hi
    have hout := (hloc m fun _ _ => rfl).1
    -- the step is not seen by the other threads
    have hother : ∀ j, j ≠ i → Agree (r j).view m (a m) := by
      intro j hj l hl
      refine (hout l fun ho => ?_).symm
      exact (Set.disjoint_left.mp (hsep i j (Ne.symm hj))) ho hl
    have hc' : ∀ j, Confined (r j) (Function.update t i rest j) (a m) := by
      intro j
      by_cases hj : j = i
      · subst hj
        rw [Function.update_self]
        exact hrest
      · rw [Function.update_of_ne hj]
        exact (hc j).congr (hother j hj)
    obtain ⟨hview, hframe⟩ := ih hc'
    refine ⟨fun j => ?_, fun l hl => ?_⟩
    · by_cases hj : j = i
      · subst hj
        have := hview j
        rw [Function.update_self] at this
        rw [h, run_cons, run_cons]
        exact this
      · have := hview j
        rw [Function.update_of_ne hj] at this
        exact (agree_run (hc j) (hother j hj)).trans this
    · rw [run_cons, hframe l hl, hout l (hl i)]

/-- **Threads in parallel.** Each has its postcondition after every interleaving. -/
theorem triple_parallel {p q : ι → Memory V → Prop} (h : Interleaving threads trace)
    (hsep : ∀ i j, i ≠ j → Disjoint (r i).own (r j).view)
    (ht : ∀ i, Triple (r i) (p i) (threads i) (q i)) (hq : ∀ i, About (r i).view (q i))
    (hp : ∀ i, p i m) :
    (∀ i, q i (run trace m)) ∧ ∀ l, (∀ i, l ∉ (r i).own) → run trace m l = m l := by
  obtain ⟨hview, hframe⟩ := run_of_interleaving h hsep fun i => (ht i m (hp i)).1
  exact ⟨fun i => hq i _ _ (hview i) (ht i m (hp i)).2, hframe⟩

end Interleaving

theorem interleaving_append [DecidableEq ι] {t : ι → List α} {i : ι} {trace : List α} :
    ∀ {as : List α}, t i = as → Interleaving (Function.update t i []) trace →
      Interleaving t (as ++ trace)
  | [], h, hr => by
    rw [← h, Function.update_eq_self] at hr
    exact hr
  | a :: as, h, hr => by
    refine .step i h (interleaving_append (Function.update_self ..) ?_)
    rw [Function.update_idem]
    exact hr

/-- **The threads one after another.** -/
theorem interleaving_flatMap [DecidableEq ι] : ∀ {t : ι → List α} {l : List ι}, l.Nodup →
    (∀ i, i ∉ l → t i = []) → Interleaving t (l.flatMap t)
  | _, [], _, h => .done fun i => h i List.not_mem_nil
  | t, i :: l, hl, h => by
    obtain ⟨hi, hl⟩ := List.nodup_cons.mp hl
    have hsame : l.flatMap t = l.flatMap (Function.update t i []) := by
      refine List.flatMap_congr fun j hj => ?_
      rw [Function.update_of_ne]
      rintro rfl
      exact hi hj
    rw [List.flatMap_cons, hsame]
    refine interleaving_append rfl (interleaving_flatMap hl fun j hj => ?_)
    by_cases hji : j = i
    · rw [hji, Function.update_self]
    · rw [Function.update_of_ne hji]
      refine h j fun hmem => ?_
      rcases List.mem_cons.mp hmem with h | h
      · exact hji h
      · exact hj h

/-! ### The rules of a thread -/

section Rules
variable {r : Region Loc} {p q s : Memory V → Prop} {as bs : List (Action V)}

theorem triple_nil (h : ∀ m, p m → q m) : Triple r p [] q := fun m hm => ⟨trivial, h m hm⟩

/-- **Straight-line code** whose actions are local wherever they happen. -/
theorem triple_of_local (h : ∀ a ∈ as, ∀ m, Local r a m) (hq : ∀ m, p m → q (run as m)) :
    Triple r p as q := by
  refine fun m hm => ⟨?_, hq m hm⟩
  clear hq hm
  induction as generalizing m with
  | nil => trivial
  | cons a as ih =>
    exact ⟨h a List.mem_cons_self m, ih (fun b hb => h b (List.mem_cons_of_mem _ hb)) (a m)⟩

theorem triple_append (h : Triple r p as q) (h' : Triple r q bs s) : Triple r p (as ++ bs) s := by
  intro m hm
  obtain ⟨hc, hq⟩ := h m hm
  obtain ⟨hc', hs⟩ := h' _ hq
  refine ⟨confined_append hc hc', ?_⟩
  rw [run_append]
  exact hs

theorem triple_cons {a : Action V} (h : Triple r p [a] q) (h' : Triple r q bs s) :
    Triple r p (a :: bs) s := triple_append h h'

theorem triple_imp {p' q' : Memory V → Prop} (h : Triple r p as q) (hp : ∀ m, p' m → p m)
    (hq : ∀ m, q m → q' m) : Triple r p' as q' :=
  fun m hm => ⟨(h m (hp m hm)).1, hq _ (h m (hp m hm)).2⟩

/-- **A loop over a list**, with an invariant for what is done. -/
theorem triple_loop {body : α → List (Action V)} (inv : List α → Memory V → Prop) : ∀ rest done : List α,
    (∀ pre x post, done ++ rest = pre ++ x :: post → Triple r (inv pre) (body x) (inv (pre ++ [x]))) →
      Triple r (inv done) (rest.flatMap body) (inv (done ++ rest))
  | [], done, _ => by
    rw [List.append_nil]
    exact triple_nil fun _ h => h
  | x :: rest, done, h => by
    have hrest := triple_loop inv rest (done ++ [x]) fun pre y post heq => h pre y post (by simpa using heq)
    rw [List.append_assoc, List.singleton_append] at hrest
    exact triple_append (h done x rest rfl) hrest

/-- **A loop from 0 to `n - 1`.** -/
theorem triple_range {body : ℕ → List (Action V)} (inv : ℕ → Memory V → Prop) : ∀ n : ℕ,
    (∀ i < n, Triple r (inv i) (body i) (inv (i + 1))) →
      Triple r (inv 0) ((List.range n).flatMap body) (inv n)
  | 0, _ => triple_nil fun _ h => h
  | n + 1, h => by
    rw [List.range_succ, List.flatMap_append, List.flatMap_singleton]
    exact triple_append (triple_range inv n fun i hi => h i (Nat.lt_succ_of_lt hi)) (h n n.lt_succ_self)

/-- **A loop of one action** from 0 to `n - 1`. -/
theorem triple_range_map {a : ℕ → Action V} (inv : ℕ → Memory V → Prop) (n : ℕ)
    (h : ∀ i < n, Triple r (inv i) [a i] (inv (i + 1))) :
    Triple r (inv 0) ((List.range n).map a) (inv n) := by
  rw [List.map_eq_flatMap]
  exact triple_range inv n h

theorem Local.mono {r' : Region Loc} {a : Action V} {m : Memory V} (h : Local r' a m)
    (hown : r'.own ⊆ r.own) (hview : r'.view ⊆ r.view) : Local r a m := by
  intro m' hm'
  obtain ⟨hout, -⟩ := h m fun _ _ => rfl
  obtain ⟨hout', hag⟩ := h m' fun l hl => hm' l (hview hl)
  refine ⟨fun l hl => hout' l fun hl' => hl (hown hl'), fun l hl => ?_⟩
  by_cases hl' : l ∈ r'.own
  · exact hag l hl'
  · rw [hout l hl', hout' l hl']
    exact hm' l (Or.inl hl)

theorem Confined.mono {r' : Region Loc} (hown : r'.own ⊆ r.own) (hview : r'.view ⊆ r.view) :
    ∀ {as : List (Action V)} {m : Memory V}, Confined r' as m → Confined r as m
  | [], _, _ => trivial
  | _ :: _, _, h => ⟨h.1.mono hown hview, h.2.mono hown hview⟩

theorem triple_mono {r' : Region Loc} (h : Triple r' p as q) (hown : r'.own ⊆ r.own)
    (hview : r'.view ⊆ r.view) : Triple r p as q :=
  fun m hm => ⟨(h m hm).1.mono hown hview, (h m hm).2⟩

/-- **The frame rule**: a smaller region leaves alone what is said about other locations. -/
theorem triple_frame {r' : Region Loc} {f : Memory V → Prop} (h : Triple r' p as q)
    (hown : r'.own ⊆ r.own) (hview : r'.view ⊆ r.view) (hf : About (r'.own)ᶜ f) :
    Triple r (fun m => p m ∧ f m) as (fun m => q m ∧ f m) := by
  rintro m ⟨hm, hfm⟩
  obtain ⟨hc, hq⟩ := h m hm
  exact ⟨hc.mono hown hview, hq, hf m _ (fun l hl => (run_of_not_mem hc hl).symm) hfm⟩

end Rules

/-! ### Actions -/

section Actions
variable [DecidableEq Loc] {r : Region Loc} {m : Memory V}

/-- An action that writes one location the region owns, the same value from every memory alike. -/
theorem local_write {a : Action V} {l : Loc} (hl : l ∈ r.own) (v : V l)
    (h : ∀ m', Agree r.view m m' → a m' = Function.update m' l v) : Local r a m := by
  intro m' hm'
  rw [h m fun _ _ => rfl, h m' hm']
  refine ⟨fun k hk => Function.update_of_ne ?_ _ _, fun k hk => ?_⟩
  · rintro rfl
    exact hk hl
  by_cases hkl : k = l
  · subst hkl
    rw [Function.update_self, Function.update_self]
  · rw [Function.update_of_ne hkl, Function.update_of_ne hkl]
    exact hm' k (Or.inl hk)

/-- A write whose cell and value are known from what holds before. -/
theorem triple_write {p q : Memory V → Prop} {a : Action V} {l : Loc} (hl : l ∈ r.own) (v : V l)
    (hp : About r.view p) (h : ∀ m, p m → a m = Function.update m l v)
    (hq : ∀ m, p m → q (Function.update m l v)) : Triple r p [a] q := by
  intro m hm
  refine ⟨⟨local_write hl v fun m' hm' => h m' (hp m m' hm' hm), trivial⟩, ?_⟩
  rw [run_cons, run_nil, h m hm]
  exact hq m hm

omit [DecidableEq Loc] in
theorem triple_skip {p : Memory V → Prop} (hp : About r.view p) : ∀ {as : List (Action V)},
    (∀ a ∈ as, ∀ m, p m → a m = m) → Triple r p as p
  | [], _ => triple_nil fun _ h => h
  | a :: as, h => by
    have ha := h a List.mem_cons_self
    intro m hm
    obtain ⟨hc, hq⟩ := triple_skip hp (fun b hb => h b (List.mem_cons_of_mem _ hb)) m hm
    rw [← ha m hm] at hc hq
    refine ⟨⟨fun m' hm' => ?_, hc⟩, hq⟩
    rw [ha m hm, ha m' (hp m m' hm' hm)]
    exact ⟨fun _ _ => rfl, fun k hk => hm' k (Or.inl hk)⟩

end Actions

/-! ### Iterations dealt to workers -/

/-- Which worker does which of `n` iterations, and in which order: every iteration once. -/
structure Schedule (n : ℕ) where
  workers : ℕ
  share : Fin workers → List ℕ
  perm : ((List.finRange workers).flatMap share).Perm (List.range n)

namespace Schedule

variable {n : ℕ} (s : Schedule n)

theorem nodup_flatMap : ((List.finRange s.workers).flatMap s.share).Nodup :=
  s.perm.nodup_iff.mpr List.nodup_range

theorem lt_of_mem {w : Fin s.workers} {c : ℕ} (h : c ∈ s.share w) : c < n :=
  List.mem_range.mp (s.perm.mem_iff.mp (List.mem_flatMap.mpr ⟨w, List.mem_finRange w, h⟩))

theorem exists_mem {c : ℕ} (h : c < n) : ∃ w, c ∈ s.share w := by
  obtain ⟨w, -, hw⟩ := List.mem_flatMap.mp (s.perm.mem_iff.mpr (List.mem_range.mpr h))
  exact ⟨w, hw⟩

theorem nodup_share (w : Fin s.workers) : (s.share w).Nodup :=
  (List.nodup_flatMap.mp s.nodup_flatMap).1 w (List.mem_finRange w)

/-- **No iteration is done by two workers.** -/
theorem eq_of_mem {w w' : Fin s.workers} {c : ℕ} (h : c ∈ s.share w) (h' : c ∈ s.share w') : w = w' := by
  by_contra hne
  have hp := (List.nodup_flatMap.mp s.nodup_flatMap).2
  have hsymm : Std.Symm (Function.onFun List.Disjoint s.share) := ⟨fun _ _ h => List.disjoint_comm.mp h⟩
  exact hp.forall (List.mem_finRange w) (List.mem_finRange w') hne h h'

/-- **A reduction**: the workers' sums make the sum over all iterations, in whichever order they are
added. -/
theorem sum_shares (f : ℕ → ℕ) {order : List (Fin s.workers)} (h : order.Perm (List.finRange s.workers)) :
    (order.map fun w => ((s.share w).map f).sum).sum = ((List.range n).map f).sum := by
  rw [(h.map _).sum_eq, ← (s.perm.map f).sum_eq, List.map_flatMap, List.flatMap_def, List.sum_flatten,
    List.map_map]
  rfl

/-- Every iteration is done by a worker of its own. -/
def each (n : ℕ) : Schedule n where
  workers := n
  share w := [w.val]
  perm := by
    rw [← List.map_eq_flatMap, List.map_coe_finRange_eq_range]

end Schedule

end SkipZFP.Lib.Parallel
