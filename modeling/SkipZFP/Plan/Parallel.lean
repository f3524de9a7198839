import SkipZFP.Lib.Parallel
import SkipZFP.Plan.Blocks

/-! # The planner's two parallel loops

`plan_blocks` runs both of its passes over the chunks in parallel. Here every store of the two loops is an
action on a memory of cells: the arrays `states` and `n_maybe_chunk`, the output arrays, the private
counters of the workers, and the variables of one iteration. A run of the planner deals the chunks to
workers in some way, once for each pass, and interleaves what the workers do in some order.

* `triple_pass1Body`, `triple_pass2Body`: what one iteration leaves in its own cells.
* `separate_pass1`, `separate_pass2`: the workers do not touch the same cells. In the second pass, this is
  because the prefix sums give every chunk cells of its own.
* `planBlocks_of_run`: **every run computes what `planBlocks` computes**, whatever the memory held
  before. -/

namespace SkipZFP.Plan.Parallel

open SkipZFP.Lib.Parallel SkipZFP.Lib.Grid SkipZFP.Lib.Rows SkipZFP.Lib.Double SkipZFP.Lib.Float32
open SkipZFP.Codec.Config SkipZFP.Plan.Classify SkipZFP.Plan.Blocks

/-- The cells of the memory: the two work arrays, the output arrays, the private copies of the counters
of worker `w`, and the variables `m` and `k` of the iteration of chunk `cid`. -/
inductive Cell where
  | states (i : ℕ)
  | nMaybeChunk (i : ℕ)
  | maybeChunks (k : ℕ)
  | maybeBlocks (k : ℕ)
  | statesOut (k : ℕ)
  | epsOut (k : ℕ)
  | nIn (w : ℕ)
  | nOut (w : ℕ)
  | m (cid : ℕ)
  | k (cid : ℕ)
deriving DecidableEq

abbrev Held : Cell → Type
  | .states _ => BlockState
  | .statesOut _ => BlockState
  | .epsOut _ => F32
  | _ => ℕ

/-- `cell = value`. -/
def store (c : Cell) (v : Memory Held → Held c) : Action Held := fun m => Function.update m c (v m)

section Loops
variable (fl : ℚ → ℚ) (zm : List UInt8) (p : PlanArgs) (lo hi : Dbl) (keepIn : Bool)

/-- The calls of `classify_unit` for the units of a chunk. -/
def classifyUnits (cid : ℕ) : List (Action Held) :=
  (List.range p.nSub).flatMap fun sub => (List.range p.blocksPerUnit).map fun bid =>
    store (.states (cid * p.blocksPerChunk + sub * p.blocksPerUnit + bid)) fun _ =>
      classifyBlock fl (recordAt zm p cid sub) p.blocksPerUnit p.hasCodes bid
        (unitSlack fl (recordAt zm p cid sub)) lo hi

def countStates (w cid : ℕ) : List (Action Held) :=
  (List.range p.blocksPerChunk).flatMap fun b =>
    [store (.nIn w) fun m =>
        m (.nIn w) + if m (.states (cid * p.blocksPerChunk + b)) = .IN then 1 else 0,
      store (.nOut w) fun m =>
        m (.nOut w) + if m (.states (cid * p.blocksPerChunk + b)) = .OUT then 1 else 0,
      store (.m cid) fun m =>
        m (.m cid) + if isListed keepIn (m (.states (cid * p.blocksPerChunk + b))) then 1 else 0]

def pass1Body (w cid : ℕ) : List (Action Held) :=
  store (.m cid) (fun _ => 0) :: (classifyUnits fl zm p lo hi cid ++ (countStates p keepIn w cid ++
    [store (.nMaybeChunk (cid + 1)) fun m => m (.m cid)]))

def pass1 (w : ℕ) (share : List ℕ) : List (Action Held) :=
  store (.nIn w) (fun _ => 0) :: store (.nOut w) (fun _ => 0) ::
    share.flatMap (pass1Body fl zm p lo hi keepIn w)

/-- The prefix sums, by one thread. -/
def prefixSums : List (Action Held) :=
  store (.nMaybeChunk 0) (fun _ => 0) :: (List.range p.nChunk).map fun cid =>
    store (.nMaybeChunk (cid + 1)) fun m => m (.nMaybeChunk (cid + 1)) + m (.nMaybeChunk cid)

variable (statesOut epsOut : Bool)

/-- What is written for block `b` where it is listed. The last two arrays may be `NULL`. -/
def listBlock (cid b : ℕ) : List (Action Held) :=
  [fun m => store (.maybeChunks (m (.k cid))) (fun _ => cid % 2 ^ 32) m,
    fun m => store (.maybeBlocks (m (.k cid))) (fun _ => b % 2 ^ 32) m,
    fun m => if statesOut then
      store (.statesOut (m (.k cid))) (fun m => m (.states (cid * p.blocksPerChunk + b))) m else m,
    fun m => if epsOut then store (.epsOut (m (.k cid))) (fun _ =>
      listedError fl (recordAt zm p cid (b / p.blocksPerUnit)) p.blocksPerUnit p.hasCodes
        (b % p.blocksPerUnit)) m else m,
    store (.k cid) fun m => m (.k cid) + 1]

/-- Steps that are done where the state of block `b` says so. -/
def whenListed (cid b : ℕ) (as : List (Action Held)) : List (Action Held) :=
  as.map fun a m => if isListed keepIn (m (.states (cid * p.blocksPerChunk + b))) then a m else m

def pass2Body (cid : ℕ) : List (Action Held) :=
  store (.k cid) (fun m => m (.nMaybeChunk cid)) :: (List.range p.blocksPerChunk).flatMap fun b =>
    whenListed p keepIn cid b (listBlock fl zm p statesOut epsOut cid b)

def pass2 (share : List ℕ) : List (Action Held) :=
  share.flatMap (pass2Body fl zm p keepIn statesOut epsOut)

/-- **A run of the planner**, after its checks: how the chunks are dealt to workers in each pass, the
order in which the workers' steps happen, and the order in which their counters are added. -/
structure Run where
  sched1 : Schedule p.nChunk
  trace1 : List (Action Held)
  inter1 : Interleaving (fun w => pass1 fl zm p lo hi keepIn w.val (sched1.share w)) trace1
  sched2 : Schedule p.nChunk
  trace2 : List (Action Held)
  inter2 : Interleaving (fun w => pass2 fl zm p keepIn statesOut epsOut (sched2.share w)) trace2
  order : List (Fin sched1.workers)
  permOrder : order.Perm (List.finRange sched1.workers)

end Loops

namespace Run

variable {fl : ℚ → ℚ} {zm : List UInt8} {p : PlanArgs} {lo hi : Dbl} {keepIn statesOut epsOut : Bool}
  (R : Run fl zm p lo hi keepIn statesOut epsOut) (m : Memory Held)

/-- The memory after the first pass. -/
def counted : Memory Held := run R.trace1 m

/-- The memory at the end. -/
def final : Memory Held := run R.trace2 (run (prefixSums p) (R.counted m))

/-- `*out_in`. -/
def outIn : ℕ := (R.order.map fun w : Fin R.sched1.workers => R.counted m (.nIn w.val)).sum

/-- `*out_out`. -/
def outOut : ℕ := (R.order.map fun w : Fin R.sched1.workers => R.counted m (.nOut w.val)).sum

/-- `*out_maybe`. -/
def outMaybe : ℕ := R.final m (.nMaybeChunk p.nChunk)

/-- The run in which the workers of each pass work one after another. -/
def sequential (fl : ℚ → ℚ) (zm : List UInt8) (p : PlanArgs) (lo hi : Dbl)
    (keepIn statesOut epsOut : Bool) (s1 s2 : Schedule p.nChunk) :
    Run fl zm p lo hi keepIn statesOut epsOut where
  sched1 := s1
  trace1 := (List.finRange s1.workers).flatMap fun w => pass1 fl zm p lo hi keepIn w.val (s1.share w)
  inter1 := interleaving_flatMap (List.nodup_finRange _) fun w h => absurd (List.mem_finRange w) h
  sched2 := s2
  trace2 := (List.finRange s2.workers).flatMap fun w =>
    pass2 fl zm p keepIn statesOut epsOut (s2.share w)
  inter2 := interleaving_flatMap (List.nodup_finRange _) fun w h => absurd (List.mem_finRange w) h
  order := List.finRange s1.workers
  permOrder := .refl _

end Run

/-! ### What the actions do -/

@[simp] theorem store_self (c : Cell) (v : Memory Held → Held c) (m : Memory Held) :
    store c v m c = v m := Function.update_self ..

@[simp] theorem store_of_ne {c d : Cell} (h : d ≠ c) (v : Memory Held → Held c) (m : Memory Held) :
    store c v m d = m d := Function.update_of_ne h ..

/-- A store to a cell the region owns, of a value that depends on the region. -/
theorem local_store {r : Region Cell} {c : Cell} {v : Memory Held → Held c} (hc : c ∈ r.own)
    (hv : ∀ m m' : Memory Held, Agree r.view m m' → v m = v m') (m : Memory Held) :
    Local r (store c v) m := by
  refine local_write hc (v m) fun m' hm' => ?_
  unfold store
  rw [hv m m' hm']

section First
variable (fl : ℚ → ℚ) (zm : List UInt8) (p : PlanArgs) (lo hi : Dbl) (keepIn : Bool)

def stateCells (cid : ℕ) : Set Cell :=
  {c | ∃ b < p.blocksPerChunk, c = .states (cid * p.blocksPerChunk + b)}

def StatesOf (cid : ℕ) (m : Memory Held) : Prop :=
  ∀ b < p.blocksPerChunk, m (.states (cid * p.blocksPerChunk + b)) = stateAt fl zm p lo hi cid b

def listedCount (cid : ℕ) : ℕ := (chunkListing fl zm p lo hi keepIn cid).length

theorem classifyUnits_eq (cid : ℕ) : classifyUnits fl zm p lo hi cid =
    (List.range p.blocksPerChunk).map fun b =>
      store (.states (cid * p.blocksPerChunk + b)) fun _ => stateAt fl zm p lo hi cid b := by
  unfold classifyUnits PlanArgs.blocksPerChunk
  rw [flatMap_range_mul]
  refine List.map_congr_left fun b _ => ?_
  rw [Nat.add_assoc, Nat.div_add_mod']
  rfl

theorem triple_classifyUnits (cid : ℕ) : Triple ⟨stateCells p cid, ∅⟩ (fun _ => True)
    (classifyUnits fl zm p lo hi cid) (StatesOf fl zm p lo hi cid) := by
  rw [classifyUnits_eq]
  refine triple_imp (triple_range_map (fun i (m : Memory Held) =>
    ∀ b < i, m (.states (cid * p.blocksPerChunk + b)) = stateAt fl zm p lo hi cid b) _ fun i hi => ?_)
    (fun _ _ b hb => absurd hb b.not_lt_zero) fun _ h => h
  refine triple_of_local (fun a ha m => ?_) fun m hm b hb => ?_
  · rw [List.mem_singleton.mp ha]
    exact local_store (r := ⟨stateCells p cid, ∅⟩) ⟨i, hi, rfl⟩ (fun _ _ _ => rfl) m
  rw [run_cons, run_nil]
  by_cases hbi : b = i
  · subst hbi
    exact store_self ..
  · rw [store_of_ne (by simpa using hbi)]
    exact hm b (by omega)

/-- Blocks below `i` of a chunk whose state has a property. -/
def countBelow (q : BlockState → Bool) (cid i : ℕ) : ℕ :=
  (List.range i).countP fun b => q (stateAt fl zm p lo hi cid b)

theorem countBelow_succ (q : BlockState → Bool) (cid i : ℕ) :
    countBelow fl zm p lo hi q cid (i + 1) =
      countBelow fl zm p lo hi q cid i + if q (stateAt fl zm p lo hi cid i) then 1 else 0 := by
  unfold countBelow
  rw [List.range_succ, List.countP_append, List.countP_singleton]

/-- What a worker of the first pass writes while it counts the states of a chunk. -/
def counterCells (w cid : ℕ) : Set Cell := {.nIn w, .nOut w, .m cid}

/-- The counters after `i` blocks. -/
structure Counters (w cid a b i : ℕ) (m : Memory Held) : Prop where
  states : StatesOf fl zm p lo hi cid m
  nIn : m (.nIn w) = a + countBelow fl zm p lo hi (· = .IN) cid i
  nOut : m (.nOut w) = b + countBelow fl zm p lo hi (· = .OUT) cid i
  listed : m (.m cid) = countBelow fl zm p lo hi (isListed keepIn) cid i

theorem triple_countStates (w cid a b : ℕ) : Triple ⟨counterCells w cid, stateCells p cid⟩
    (Counters fl zm p lo hi keepIn w cid a b 0) (countStates p keepIn w cid)
    (Counters fl zm p lo hi keepIn w cid a b p.blocksPerChunk) := by
  refine triple_range (Counters fl zm p lo hi keepIn w cid a b) _ fun i hi => ?_
  refine triple_of_local (fun a ha m => ?_) fun m hm => ?_
  · simp only [List.mem_cons, List.not_mem_nil, or_false] at ha
    rcases ha with rfl | rfl | rfl
    · refine local_store (by simp [counterCells]) (fun m m' h => ?_) m
      rw [h (.nIn w) (Or.inl (by simp [counterCells])), h (.states _) (Or.inr ⟨i, hi, rfl⟩)]
    · refine local_store (by simp [counterCells]) (fun m m' h => ?_) m
      rw [h (.nOut w) (Or.inl (by simp [counterCells])), h (.states _) (Or.inr ⟨i, hi, rfl⟩)]
    · refine local_store (by simp [counterCells]) (fun m m' h => ?_) m
      rw [h (.m cid) (Or.inl (by simp [counterCells])), h (.states _) (Or.inr ⟨i, hi, rfl⟩)]
  · have hs := hm.states i hi
    refine ⟨fun b hb => ?_, ?_, ?_, ?_⟩
    · simpa using hm.states b hb
    · simp [hs, hm.nIn, countBelow_succ, Nat.add_assoc]
    · simp [hs, hm.nOut, countBelow_succ, Nat.add_assoc]
    · simp [hs, hm.listed, countBelow_succ]

def chunkCells (w cid : ℕ) : Set Cell :=
  stateCells p cid ∪ counterCells w cid ∪ {.nMaybeChunk (cid + 1)}

structure Classified (cid : ℕ) (m : Memory Held) : Prop where
  states : StatesOf fl zm p lo hi cid m
  count : m (.nMaybeChunk (cid + 1)) = (chunkListing fl zm p lo hi keepIn cid).length

theorem view_counter_subset (w cid : ℕ) :
    Region.view ⟨counterCells w cid, stateCells p cid⟩ ⊆ Region.view ⟨chunkCells p w cid, ∅⟩ := by
  rintro c (hc | hc)
  · exact Or.inl (Or.inl (Or.inr hc))
  · exact Or.inl (Or.inl (Or.inl hc))

theorem triple_pass1Body (w cid a b : ℕ) : Triple ⟨chunkCells p w cid, ∅⟩
    (fun m => m (.nIn w) = a ∧ m (.nOut w) = b) (pass1Body fl zm p lo hi keepIn w cid)
    (fun m => Classified fl zm p lo hi keepIn cid m ∧
      m (.nIn w) = a + countState fl zm p lo hi .IN cid ∧
      m (.nOut w) = b + countState fl zm p lo hi .OUT cid) := by
  have hm : Cell.m cid ∈ chunkCells p w cid := Or.inl (Or.inr (by simp [counterCells]))
  have hn : Cell.nMaybeChunk (cid + 1) ∈ chunkCells p w cid := Or.inr rfl
  have hinit : Triple ⟨chunkCells p w cid, ∅⟩ (fun m => m (.nIn w) = a ∧ m (.nOut w) = b)
      [store (.m cid) fun _ => 0]
      (fun m => True ∧ m (.nIn w) = a ∧ m (.nOut w) = b ∧ m (.m cid) = 0) := by
    refine triple_of_local (fun x hx m => ?_) fun m h => ?_
    · rw [List.mem_singleton.mp hx]
      exact local_store hm (fun _ _ _ => rfl) m
    · simpa using h
  have hclass := triple_frame (r := ⟨chunkCells p w cid, ∅⟩)
    (f := fun m => m (.nIn w) = a ∧ m (.nOut w) = b ∧ m (.m cid) = 0)
    (triple_classifyUnits fl zm p lo hi cid) (fun c hc => Or.inl (Or.inl hc))
    (fun c hc => hc.elim (fun hc => Or.inl (Or.inl (Or.inl hc))) fun hc => hc.elim) (by
      rintro m m' h ⟨h1, h2, h3⟩
      rw [← h (.nIn w) (by simp [stateCells]), ← h (.nOut w) (by simp [stateCells]),
        ← h (.m cid) (by simp [stateCells])]
      exact ⟨h1, h2, h3⟩)
  have hcount := triple_mono (r := ⟨chunkCells p w cid, ∅⟩)
    (triple_countStates fl zm p lo hi keepIn w cid a b) (fun c hc => Or.inl (Or.inr hc))
    (view_counter_subset p w cid)
  refine triple_cons hinit (triple_append hclass (triple_append (triple_imp hcount ?_ fun _ h => h) ?_))
  · rintro m ⟨hst, h1, h2, h3⟩
    exact ⟨hst, by rw [h1]; rfl, by rw [h2]; rfl, by rw [h3]; rfl⟩
  · refine triple_of_local (fun x hx m => ?_) fun m h => ?_
    · rw [List.mem_singleton.mp hx]
      exact local_store (r := ⟨chunkCells p w cid, ∅⟩) hn (fun m m' h => h (.m cid) (Or.inl hm)) m
    · refine ⟨⟨fun k hk => ?_, ?_⟩, ?_, ?_⟩
      · simpa using h.states k hk
      · rw [length_chunkListing]
        simpa [countBelow] using h.listed
      · simpa [countBelow, countState] using h.nIn
      · simpa [countBelow, countState] using h.nOut

def workerCells (w : ℕ) (share : List ℕ) : Set Cell :=
  {.nIn w, .nOut w} ∪ {c | ∃ cid ∈ share, c ∈ chunkCells p w cid}

/-- The chunks that worker `w` has done. -/
structure Done (w : ℕ) (done : List ℕ) (m : Memory Held) : Prop where
  chunks : ∀ cid ∈ done, Classified fl zm p lo hi keepIn cid m
  nIn : m (.nIn w) = (done.map (countState fl zm p lo hi .IN)).sum
  nOut : m (.nOut w) = (done.map (countState fl zm p lo hi .OUT)).sum

theorem states_mem_iff {cid i b : ℕ} (hb : b < p.blocksPerChunk) :
    Cell.states (i * p.blocksPerChunk + b) ∈ stateCells p cid ↔ i = cid := by
  constructor
  · rintro ⟨b', hb', h⟩
    have h : (i * p.blocksPerChunk + b) / p.blocksPerChunk =
        (cid * p.blocksPerChunk + b') / p.blocksPerChunk := congrArg (· / _) (Cell.states.inj h)
    rwa [mul_add_div_of_lt hb, mul_add_div_of_lt hb'] at h
  · rintro rfl
    exact ⟨b, hb, rfl⟩

variable {fl zm p lo hi keepIn} in
/-- Another iteration leaves a classified chunk alone. -/
theorem Classified.of_agree {w cid i : ℕ} (hne : i ≠ cid) {m m' : Memory Held}
    (h : Classified fl zm p lo hi keepIn i m) (hm : Agree (chunkCells p w cid)ᶜ m m') :
    Classified fl zm p lo hi keepIn i m' := by
  refine ⟨fun b hb => ?_, ?_⟩
  · rw [← hm _ fun hmem => ?_]
    · exact h.states b hb
    · rcases hmem with (hmem | hmem) | hmem
      · exact hne ((states_mem_iff p hb).mp hmem)
      · simp [counterCells] at hmem
      · simp at hmem
  · rw [← hm _ fun hmem => ?_]
    · exact h.count
    · rcases hmem with (hmem | hmem) | hmem
      · simp [stateCells] at hmem
      · simp [counterCells] at hmem
      · exact hne (by simpa using hmem)

theorem triple_pass1 (w : ℕ) {share : List ℕ} (hn : share.Nodup) :
    Triple ⟨workerCells p w share, ∅⟩ (fun _ => True) (pass1 fl zm p lo hi keepIn w share)
      (Done fl zm p lo hi keepIn w share) := by
  have hstart : Triple ⟨workerCells p w share, ∅⟩ (fun _ => True)
      [store (.nIn w) fun _ => 0, store (.nOut w) fun _ => 0] (Done fl zm p lo hi keepIn w []) := by
    refine triple_of_local (fun x hx m => ?_) fun m _ => ⟨by simp, by simp, by simp⟩
    rcases List.mem_cons.mp hx with rfl | hx
    · exact local_store (Or.inl (by simp)) (fun _ _ _ => rfl) m
    · rw [List.mem_singleton.mp hx]
      exact local_store (Or.inl (by simp)) (fun _ _ _ => rfl) m
  refine triple_append hstart (triple_loop (Done fl zm p lo hi keepIn w) share []
    fun pre cid post heq => ?_)
  rw [List.nil_append] at heq
  have hcid : cid ∉ pre := by
    rw [heq] at hn
    exact fun h => List.disjoint_of_nodup_append hn h List.mem_cons_self
  have hmem : cid ∈ share := by simp [heq]
  intro m hm
  have hbody := triple_frame (r := ⟨workerCells p w share, ∅⟩)
    (f := fun m => ∀ i ∈ pre, Classified fl zm p lo hi keepIn i m)
    (triple_pass1Body fl zm p lo hi keepIn w cid (m (.nIn w)) (m (.nOut w)))
    (fun c hc => Or.inr ⟨cid, hmem, hc⟩)
    (fun c hc => hc.elim (fun hc => Or.inl (Or.inr ⟨cid, hmem, hc⟩)) fun hc => hc.elim)
    (fun m m' h hp i hi => (hp i hi).of_agree (ne_of_mem_of_not_mem hi hcid) h)
  obtain ⟨hc, ⟨hnew, h1, h2⟩, hold⟩ := hbody m ⟨⟨rfl, rfl⟩, hm.chunks⟩
  refine ⟨hc, fun i hi => ?_, ?_, ?_⟩
  · rcases List.mem_append.mp hi with hi | hi
    · exact hold i hi
    · rw [List.mem_singleton.mp hi]
      exact hnew
  · rw [h1, hm.nIn]
    simp
  · rw [h2, hm.nOut]
    simp

variable {fl zm p lo hi keepIn} in
theorem about_done {w : ℕ} {share done : List ℕ} (hd : ∀ cid ∈ done, cid ∈ share) :
    About (Region.view ⟨workerCells p w share, ∅⟩) (Done fl zm p lo hi keepIn w done) := by
  intro m m' h hm
  refine ⟨fun cid hcid => ⟨fun b hb => ?_, ?_⟩, ?_, ?_⟩
  · rw [← h _ (Or.inl (Or.inr ⟨cid, hd cid hcid, Or.inl (Or.inl ⟨b, hb, rfl⟩)⟩))]
    exact (hm.chunks cid hcid).states b hb
  · rw [← h _ (Or.inl (Or.inr ⟨cid, hd cid hcid, Or.inr rfl⟩))]
    exact (hm.chunks cid hcid).count
  · rw [← h (.nIn w) (Or.inl (Or.inl (by simp)))]
    exact hm.nIn
  · rw [← h (.nOut w) (Or.inl (Or.inl (by simp)))]
    exact hm.nOut

/-- The cells of an iteration of the first pass, besides the counters of its worker. -/
def iterationCells (cid : ℕ) : Set Cell := stateCells p cid ∪ {.m cid, .nMaybeChunk (cid + 1)}

theorem mem_workerCells {w : ℕ} {share : List ℕ} {c : Cell} (h : c ∈ workerCells p w share) :
    c = .nIn w ∨ c = .nOut w ∨ ∃ cid ∈ share, c ∈ iterationCells p cid := by
  rcases h with (h | h) | ⟨cid, hcid, (h | h | h | h) | h⟩
  · exact Or.inl h
  · exact Or.inr (Or.inl h)
  · exact Or.inr (Or.inr ⟨cid, hcid, Or.inl h⟩)
  · exact Or.inl h
  · exact Or.inr (Or.inl h)
  · exact Or.inr (Or.inr ⟨cid, hcid, Or.inr (Or.inl h)⟩)
  · exact Or.inr (Or.inr ⟨cid, hcid, Or.inr (Or.inr h)⟩)

theorem not_mem_iterationCells {cid i : ℕ} (hne : cid ≠ i) {c : Cell} (h : c ∈ iterationCells p cid) :
    c ∉ iterationCells p i := by
  rcases h with ⟨b, hb, rfl⟩ | h | h
  · rintro (h | h | h)
    · exact hne ((states_mem_iff p hb).mp h)
    · cases h
    · cases h
  · subst h
    rintro (⟨b, hb, h⟩ | h | h)
    · cases h
    · exact hne (Cell.m.inj h)
    · cases h
  · rw [Set.mem_singleton_iff.mp h]
    rintro (⟨b, hb, h⟩ | h | h)
    · cases h
    · cases h
    · exact hne (Nat.succ.inj (Cell.nMaybeChunk.inj h))

theorem counter_not_mem {w cid : ℕ} {c : Cell} (h : c = .nIn w ∨ c = .nOut w) :
    c ∉ iterationCells p cid := by
  rcases h with rfl | rfl <;> simp [iterationCells, stateCells]

theorem separate_pass1 (s : Schedule p.nChunk) {w w' : Fin s.workers} (hne : w ≠ w') :
    Disjoint (workerCells p w (s.share w)) (Region.view ⟨workerCells p w' (s.share w'), ∅⟩) := by
  refine Set.disjoint_left.mpr fun c hc hc' => ?_
  rcases hc' with hc' | hc'
  · have hv : (w : ℕ) ≠ w' := fun h => hne (Fin.ext h)
    rcases mem_workerCells p hc with h | h | ⟨cid, hcid, h⟩ <;>
      rcases mem_workerCells p hc' with h' | h' | ⟨i, hi, h'⟩
    · exact hv (Cell.nIn.inj (h.symm.trans h'))
    · cases h.symm.trans h'
    · exact counter_not_mem p (Or.inl h) h'
    · cases h.symm.trans h'
    · exact hv (Cell.nOut.inj (h.symm.trans h'))
    · exact counter_not_mem p (Or.inr h) h'
    · exact counter_not_mem p (Or.inl h') h
    · exact counter_not_mem p (Or.inr h') h
    · refine not_mem_iterationCells p (fun heq => hne (s.eq_of_mem hcid ?_)) h h'
      rw [heq]
      exact hi
  · exact hc'

end First

/-! ### The second pass -/

section Second
variable (fl : ℚ → ℚ) (zm : List UInt8) (p : PlanArgs) (lo hi : Dbl) (keepIn statesOut epsOut : Bool)

/-- Where the entries of a chunk start. -/
def startOf (cid : ℕ) : ℕ :=
  ((List.range cid).map fun c => (chunkListing fl zm p lo hi keepIn c).length).sum

/-- What the second pass reads of the first one. -/
structure Ready (cid : ℕ) (m : Memory Held) : Prop where
  states : StatesOf fl zm p lo hi cid m
  start : m (.nMaybeChunk cid) = startOf fl zm p lo hi keepIn cid

/-- Entry `k` of the output arrays. -/
def entryCells (k : ℕ) : Set Cell := {.maybeChunks k, .maybeBlocks k, .statesOut k, .epsOut k}

/-- Entry `k` is `l`, in the arrays that are there. -/
structure Entry (k : ℕ) (l : Listed) (m : Memory Held) : Prop where
  chunk : m (.maybeChunks k) = l.chunk
  block : m (.maybeBlocks k) = l.block
  state : statesOut → m (.statesOut k) = l.state
  eps : epsOut → m (.epsOut k) = l.eps

/-- The listed blocks of a chunk among its first `i`. -/
def listingBelow (cid i : ℕ) : List Listed :=
  ((List.range i).filter fun b => isListed keepIn (stateAt fl zm p lo hi cid b)).map
    fun b => ⟨cid, b, stateAt fl zm p lo hi cid b, errorAt fl zm p cid b⟩

theorem listingBelow_succ (cid i : ℕ) : listingBelow fl zm p lo hi keepIn cid (i + 1) =
    listingBelow fl zm p lo hi keepIn cid i ++
      if isListed keepIn (stateAt fl zm p lo hi cid i) then
        [⟨cid, i, stateAt fl zm p lo hi cid i, errorAt fl zm p cid i⟩] else [] := by
  unfold listingBelow
  rw [List.range_succ, List.filter_append, List.map_append]
  split_ifs with h <;> simp [h]

/-- The stores of a listed block before the `n`-th are done. -/
structure Stored (cid k n : ℕ) (l : Listed) (m : Memory Held) : Prop where
  states : StatesOf fl zm p lo hi cid m
  next : m (.k cid) = k
  chunk : 0 < n → m (.maybeChunks k) = l.chunk
  block : 1 < n → m (.maybeBlocks k) = l.block
  state : 2 < n → statesOut → m (.statesOut k) = l.state
  eps : 3 < n → epsOut → m (.epsOut k) = l.eps

/-- What the stores of a block write and read. -/
def listRegion (cid k : ℕ) : Region Cell := ⟨entryCells k ∪ {.k cid}, stateCells p cid⟩

theorem about_stored (cid k n : ℕ) (l : Listed) : About (listRegion p cid k).view
    (Stored fl zm p lo hi statesOut epsOut cid k n l) := by
  intro m m' h hm
  have hown : ∀ c ∈ entryCells k, m c = m' c := fun c hc => h c (Or.inl (Or.inl hc))
  refine ⟨fun b hb => ?_, ?_, fun hn => ?_, fun hn => ?_, fun hn hs => ?_, fun hn hs => ?_⟩
  · rw [← h _ (Or.inr ⟨b, hb, rfl⟩)]
    exact hm.states b hb
  · rw [← h (.k cid) (Or.inl (Or.inr rfl))]
    exact hm.next
  · rw [← hown _ (by simp [entryCells])]
    exact hm.chunk hn
  · rw [← hown _ (by simp [entryCells])]
    exact hm.block hn
  · rw [← hown _ (by simp [entryCells])]
    exact hm.state hn hs
  · rw [← hown _ (by simp [entryCells])]
    exact hm.eps hn hs

section Block
variable {fl zm p lo hi keepIn} {cid b k : ℕ} (hc : cid < 2 ^ 32) (hb : b < 2 ^ 32)
  (hbc : b < p.blocksPerChunk) (hl : isListed keepIn (stateAt fl zm p lo hi cid b))
include hc hb hbc hl

theorem triple_listBlock : Triple (listRegion p cid k)
    (fun m => StatesOf fl zm p lo hi cid m ∧ m (.k cid) = k)
    (whenListed p keepIn cid b (listBlock fl zm p statesOut epsOut cid b))
    (fun m => Entry statesOut epsOut k ⟨cid, b, stateAt fl zm p lo hi cid b, errorAt fl zm p cid b⟩ m ∧
      m (.k cid) = k + 1) := by
  set l : Listed := ⟨cid, b, stateAt fl zm p lo hi cid b, errorAt fl zm p cid b⟩ with hldef
  have hat := about_stored fl zm p lo hi statesOut epsOut cid k
  have hguard : ∀ m, StatesOf fl zm p lo hi cid m →
      isListed keepIn (m (.states (cid * p.blocksPerChunk + b))) := fun m hm => by rw [hm b hbc]; exact hl
  have hmem : ∀ c ∈ entryCells k, c ∈ (listRegion p cid k).own := fun c hc => Or.inl hc
  have h0 : ∀ m, StatesOf fl zm p lo hi cid m ∧ m (.k cid) = k →
      Stored fl zm p lo hi statesOut epsOut cid k 0 l m :=
    fun m h => ⟨h.1, h.2, by simp, by simp, by simp, by simp⟩
  refine triple_imp ?_ h0 fun _ h => h
  unfold whenListed listBlock
  simp only [List.map_cons, List.map_nil]
  refine triple_cons (triple_write (hmem (.maybeChunks k) (by simp [entryCells])) cid (hat 0 l)
    (fun m hm => ?_) (q := Stored fl zm p lo hi statesOut epsOut cid k 1 l) fun m hm => ?_) <|
    triple_cons (triple_write (hmem (.maybeBlocks k) (by simp [entryCells])) b (hat 1 l)
    (fun m hm => ?_) (q := Stored fl zm p lo hi statesOut epsOut cid k 2 l) fun m hm => ?_) <|
    triple_cons (q := Stored fl zm p lo hi statesOut epsOut cid k 3 l) ?_ <|
    triple_cons (q := Stored fl zm p lo hi statesOut epsOut cid k 4 l) ?_ <|
    triple_write (Or.inr rfl) (k + 1) (hat 4 l) (fun m hm => ?_) fun m hm => ?_
  · rw [if_pos (hguard m hm.states), hm.next, store, Nat.mod_eq_of_lt hc]
  · exact ⟨fun i hi => by simpa using hm.states i hi, by simpa using hm.next, by simp [hldef],
      by simp, by simp, by simp⟩
  · rw [if_pos (hguard m hm.states), hm.next, store, Nat.mod_eq_of_lt hb]
  · exact ⟨fun i hi => by simpa using hm.states i hi, by simpa using hm.next, by simpa using hm.chunk,
      by simp [hldef], by simp, by simp⟩
  · -- the array of states may be missing
    cases statesOut with
    | false =>
      refine triple_imp (triple_skip (hat 2 l) fun a ha m hm => ?_) (fun _ h => h) fun m hm =>
        ⟨hm.states, hm.next, fun _ => hm.chunk (by omega), fun _ => hm.block (by omega), by simp, by simp⟩
      rw [List.mem_singleton.mp ha]
      exact ite_self _
    | true =>
      refine triple_write (hmem (.statesOut k) (by simp [entryCells])) l.state (hat 2 l)
        (fun m hm => ?_) fun m hm => ⟨fun i hi => by simpa using hm.states i hi, by simpa using hm.next,
          by simpa using hm.chunk, by simpa using hm.block, by simp, by simp⟩
      rw [if_pos (hguard m hm.states), if_pos rfl, hm.next, store, hm.states b hbc]
  · cases epsOut with
    | false =>
      refine triple_imp (triple_skip (hat 3 l) fun a ha m hm => ?_) (fun _ h => h) fun m hm =>
        ⟨hm.states, hm.next, fun _ => hm.chunk (by omega), fun _ => hm.block (by omega),
          fun _ => hm.state (by omega), by simp⟩
      rw [List.mem_singleton.mp ha]
      exact ite_self _
    | true =>
      refine triple_write (hmem (.epsOut k) (by simp [entryCells])) l.eps (hat 3 l)
        (fun m hm => ?_) fun m hm => ⟨fun i hi => by simpa using hm.states i hi, by simpa using hm.next,
          by simpa using hm.chunk, by simpa using hm.block, by simpa using hm.state, by simp⟩
      rw [if_pos (hguard m hm.states), if_pos rfl, hm.next, store]
      rfl
  · rw [if_pos (hguard m hm.states), store, hm.next]
  · exact ⟨⟨by simpa using hm.chunk, by simpa using hm.block, by simpa using hm.state,
      by simpa using hm.eps⟩, by simp⟩

end Block

/-- What one iteration of the second pass writes: its variable, and the entries of its chunk. -/
def chunkEntries (cid : ℕ) : Set Cell :=
  {.k cid} ∪ {c | ∃ j < (chunkListing fl zm p lo hi keepIn cid).length,
    c ∈ entryCells (startOf fl zm p lo hi keepIn cid + j)}

/-- What one iteration of the second pass reads of the first one. -/
def readyCells (cid : ℕ) : Set Cell := stateCells p cid ∪ {.nMaybeChunk cid}

/-- The entries of the first `i` blocks of a chunk are written. -/
structure Listing (cid i : ℕ) (m : Memory Held) : Prop where
  states : StatesOf fl zm p lo hi cid m
  next : m (.k cid) = startOf fl zm p lo hi keepIn cid + (listingBelow fl zm p lo hi keepIn cid i).length
  entries : ∀ j l, (listingBelow fl zm p lo hi keepIn cid i)[j]? = some l →
    Entry statesOut epsOut (startOf fl zm p lo hi keepIn cid + j) l m

theorem length_listingBelow_le (cid : ℕ) {i : ℕ} (hle : i ≤ p.blocksPerChunk) :
    (listingBelow fl zm p lo hi keepIn cid i).length ≤
      (chunkListing fl zm p lo hi keepIn cid).length := by
  unfold listingBelow chunkListing
  rw [List.length_map, List.length_map]
  exact ((List.range_sublist.mpr hle).filter _).length_le

variable {statesOut epsOut} in
theorem Entry.of_agree {k : ℕ} {l : Listed} {m m' : Memory Held} (h : Entry statesOut epsOut k l m)
    (hm : Agree (entryCells k) m m') : Entry statesOut epsOut k l m' := by
  refine ⟨?_, ?_, fun hs => ?_, fun hs => ?_⟩
  · rw [← hm _ (by simp [entryCells])]
    exact h.chunk
  · rw [← hm _ (by simp [entryCells])]
    exact h.block
  · rw [← hm _ (by simp [entryCells])]
    exact h.state hs
  · rw [← hm _ (by simp [entryCells])]
    exact h.eps hs

theorem not_mem_entryCells {j k : ℕ} (h : j ≠ k) {c : Cell} (hc : c ∈ entryCells j) : c ∉ entryCells k := by
  simp only [entryCells, Set.mem_insert_iff, Set.mem_singleton_iff] at hc ⊢
  rcases hc with rfl | rfl | rfl | rfl <;> simpa using h

theorem about_listing {cid i : ℕ} (hle : i ≤ p.blocksPerChunk) :
    About (Region.view ⟨chunkEntries fl zm p lo hi keepIn cid, readyCells p cid⟩)
      (Listing fl zm p lo hi keepIn statesOut epsOut cid i) := by
  intro m m' h hm
  refine ⟨fun b hb => ?_, ?_, fun j l hj => (hm.entries j l hj).of_agree fun c hc =>
    h c (Or.inl (Or.inr ?_))⟩
  · rw [← h _ (Or.inr (Or.inl ⟨b, hb, rfl⟩))]
    exact hm.states b hb
  · rw [← h (.k cid) (Or.inl (Or.inl rfl))]
    exact hm.next
  · have hlen := length_listingBelow_le fl zm p lo hi keepIn cid hle
    obtain ⟨hj, -⟩ := List.getElem?_eq_some_iff.mp hj
    exact ⟨j, by omega, hc⟩

/-- What an iteration of the second pass writes and reads. -/
def chunkRegion (cid : ℕ) : Region Cell := ⟨chunkEntries fl zm p lo hi keepIn cid, readyCells p cid⟩

section Step
variable {cid b : ℕ} (hc : cid < 2 ^ 32) (hb : p.blocksPerChunk < 2 ^ 32) (hbc : b < p.blocksPerChunk)
include hbc

include hc hb in
theorem triple_listed (hl : isListed keepIn (stateAt fl zm p lo hi cid b)) :
    Triple (chunkRegion fl zm p lo hi keepIn cid)
      (Listing fl zm p lo hi keepIn statesOut epsOut cid b)
      (whenListed p keepIn cid b (listBlock fl zm p statesOut epsOut cid b))
      (Listing fl zm p lo hi keepIn statesOut epsOut cid (b + 1)) := by
  intro m hm
  have hsucc := listingBelow_succ fl zm p lo hi keepIn cid b
  rw [if_pos hl] at hsucc
  set before := listingBelow fl zm p lo hi keepIn cid b with hbefore
  set k := startOf fl zm p lo hi keepIn cid + before.length with hkdef
  have hlen : before.length < (chunkListing fl zm p lo hi keepIn cid).length := by
    have := length_listingBelow_le fl zm p lo hi keepIn cid hbc
    rw [hsucc, List.length_append, List.length_singleton] at this
    omega
  have hown : (listRegion p cid k).own ⊆ (chunkRegion fl zm p lo hi keepIn cid).own := by
    rintro c (hc | hc)
    · exact Or.inr ⟨_, hlen, hc⟩
    · exact Or.inl hc
  have hframe := triple_frame (r := chunkRegion fl zm p lo hi keepIn cid)
    (f := fun m => StatesOf fl zm p lo hi cid m ∧ ∀ j l, before[j]? = some l →
      Entry statesOut epsOut (startOf fl zm p lo hi keepIn cid + j) l m)
    (triple_listBlock statesOut epsOut hc (hbc.trans hb) hbc hl (k := k)) hown ?_ ?_
  · obtain ⟨hcf, ⟨hnew, hnext⟩, hst, hold⟩ := hframe m ⟨⟨hm.states, hm.next⟩, hm.states, hm.entries⟩
    refine ⟨hcf, hst, ?_, fun j l hj => ?_⟩
    · rw [hnext, hsucc, hkdef]
      simp [Nat.add_assoc]
    · rw [hsucc] at hj
      rcases Nat.lt_or_ge j before.length with hlt | hge
      · rw [List.getElem?_append_left hlt] at hj
        exact hold j l hj
      · rw [List.getElem?_append_right hge, List.getElem?_singleton] at hj
        split_ifs at hj with h0
        have hjk : j = before.length := by omega
        rw [hjk, ← hkdef, ← Option.some.inj hj]
        exact hnew
  · rintro c (hc | hc)
    · exact Or.inl (hown hc)
    · exact Or.inr (Or.inl hc)
  · -- the earlier entries are at other positions
    rintro m m' h ⟨hst, hold⟩
    refine ⟨fun i hi => ?_, fun j l hj => (hold j l hj).of_agree fun c hc => h c ?_⟩
    · rw [← h _ (by simp [listRegion, entryCells])]
      exact hst i hi
    · obtain ⟨hj, -⟩ := List.getElem?_eq_some_iff.mp hj
      rintro (hc' | hc')
      · exact not_mem_entryCells (by omega) hc hc'
      · rw [Set.mem_singleton_iff.mp hc'] at hc
        simp [entryCells] at hc

theorem triple_not_listed (hl : ¬ isListed keepIn (stateAt fl zm p lo hi cid b)) :
    Triple (chunkRegion fl zm p lo hi keepIn cid)
      (Listing fl zm p lo hi keepIn statesOut epsOut cid b)
      (whenListed p keepIn cid b (listBlock fl zm p statesOut epsOut cid b))
      (Listing fl zm p lo hi keepIn statesOut epsOut cid (b + 1)) := by
  have hsucc := listingBelow_succ fl zm p lo hi keepIn cid b
  rw [if_neg hl, List.append_nil] at hsucc
  refine triple_imp (triple_skip (about_listing fl zm p lo hi keepIn statesOut epsOut hbc.le)
    fun a ha m hm => ?_) (fun _ h => h) fun m hm =>
      ⟨hm.states, by rw [hsucc]; exact hm.next, by rw [hsucc]; exact hm.entries⟩
  obtain ⟨a', -, rfl⟩ := List.mem_map.mp ha
  exact if_neg (by rw [hm.states b hbc]; exact hl)

end Step

theorem triple_pass2Body {cid : ℕ} (hc : cid < 2 ^ 32) (hb : p.blocksPerChunk < 2 ^ 32) :
    Triple (chunkRegion fl zm p lo hi keepIn cid) (Ready fl zm p lo hi keepIn cid)
      (pass2Body fl zm p keepIn statesOut epsOut cid)
      (Listing fl zm p lo hi keepIn statesOut epsOut cid p.blocksPerChunk) := by
  have hstart : Triple (chunkRegion fl zm p lo hi keepIn cid) (Ready fl zm p lo hi keepIn cid)
      [store (.k cid) fun m => m (.nMaybeChunk cid)]
      (Listing fl zm p lo hi keepIn statesOut epsOut cid 0) := by
    refine triple_of_local (fun x hx m => ?_) fun m h => ⟨fun i hi => ?_, ?_, fun j l hj => ?_⟩
    · rw [List.mem_singleton.mp hx]
      exact local_store (r := chunkRegion fl zm p lo hi keepIn cid) (Or.inl rfl)
        (fun m m' h => h (.nMaybeChunk cid) (Or.inr (Or.inr rfl))) m
    · simpa using h.states i hi
    · simpa [listingBelow] using h.start
    · simp [listingBelow] at hj
  refine triple_cons hstart (triple_range (Listing fl zm p lo hi keepIn statesOut epsOut cid) _
    fun b hbc => ?_)
  by_cases hl : isListed keepIn (stateAt fl zm p lo hi cid b)
  · exact triple_listed fl zm p lo hi keepIn statesOut epsOut hc hb hbc hl
  · exact triple_not_listed fl zm p lo hi keepIn statesOut epsOut hbc hl

/-- What a worker of the second pass writes and reads. -/
def listerRegion (share : List ℕ) : Region Cell where
  own := {c | ∃ cid ∈ share, c ∈ chunkEntries fl zm p lo hi keepIn cid}
  reads := {c | ∃ cid, c ∈ readyCells p cid}

theorem startOf_mono {c d : ℕ} (h : c < d) : startOf fl zm p lo hi keepIn c +
    (chunkListing fl zm p lo hi keepIn c).length ≤ startOf fl zm p lo hi keepIn d := by
  have hsucc : startOf fl zm p lo hi keepIn c + (chunkListing fl zm p lo hi keepIn c).length =
      startOf fl zm p lo hi keepIn (c + 1) := by simp [startOf, List.range_succ]
  rw [hsucc]
  exact ((List.range_sublist.mpr h).map _).sum_le_sum fun _ _ => Nat.zero_le _

/-- **No cell is written by the iterations of two chunks**: the prefix sums give them different
entries. -/
theorem not_mem_chunkEntries {cid i : ℕ} (h : cid ≠ i) {c : Cell}
    (hc : c ∈ chunkEntries fl zm p lo hi keepIn cid) : c ∉ chunkEntries fl zm p lo hi keepIn i := by
  rcases hc with hc | ⟨j, hj, hc⟩
  · rw [Set.mem_singleton_iff.mp hc]
    rintro (hc' | ⟨j, -, hc'⟩)
    · exact h (Cell.k.inj hc')
    · simp [entryCells] at hc'
  · rintro (hc' | ⟨j', hj', hc'⟩)
    · rw [Set.mem_singleton_iff.mp hc'] at hc
      simp [entryCells] at hc
    · refine not_mem_entryCells ?_ hc hc'
      rcases Nat.lt_or_gt_of_ne h with hlt | hlt
      · have := startOf_mono fl zm p lo hi keepIn hlt
        omega
      · have := startOf_mono fl zm p lo hi keepIn hlt
        omega

theorem readyCells_not_mem {cid i : ℕ} {c : Cell} (hc : c ∈ readyCells p cid) :
    c ∉ chunkEntries fl zm p lo hi keepIn i := by
  rintro (h | ⟨j, -, h⟩)
  · rw [Set.mem_singleton_iff.mp h] at hc
    simp [readyCells, stateCells] at hc
  · rcases hc with ⟨b, -, rfl⟩ | hc
    · simp [entryCells] at h
    · rw [Set.mem_singleton_iff.mp hc] at h
      simp [entryCells] at h

variable {fl zm p lo hi keepIn} in
theorem Ready.of_agree {cid : ℕ} {s : Set Cell} (hs : readyCells p cid ⊆ s) {m m' : Memory Held}
    (h : Ready fl zm p lo hi keepIn cid m) (hm : Agree s m m') : Ready fl zm p lo hi keepIn cid m' := by
  refine ⟨fun b hb => ?_, ?_⟩
  · rw [← hm _ (hs (Or.inl ⟨b, hb, rfl⟩))]
    exact h.states b hb
  · rw [← hm (.nMaybeChunk cid) (hs (Or.inr rfl))]
    exact h.start

theorem triple_pass2 {share : List ℕ} (hn : share.Nodup) (hc : ∀ cid ∈ share, cid < 2 ^ 32)
    (hb : p.blocksPerChunk < 2 ^ 32) : Triple (listerRegion fl zm p lo hi keepIn share)
      (fun m => ∀ cid ∈ share, Ready fl zm p lo hi keepIn cid m)
      (pass2 fl zm p keepIn statesOut epsOut share)
      (fun m => ∀ cid ∈ share, Listing fl zm p lo hi keepIn statesOut epsOut cid p.blocksPerChunk m) := by
  refine triple_imp (triple_loop (fun done m => (∀ cid ∈ share, Ready fl zm p lo hi keepIn cid m) ∧
    ∀ cid ∈ done, Listing fl zm p lo hi keepIn statesOut epsOut cid p.blocksPerChunk m) share []
    fun pre cid post heq => ?_) (fun m hm => ⟨hm, by simp⟩) fun m hm => hm.2
  rw [List.nil_append] at heq
  have hcid : cid ∉ pre := by
    rw [heq] at hn
    exact fun h => List.disjoint_of_nodup_append hn h List.mem_cons_self
  have hmem : cid ∈ share := by simp [heq]
  have hown : (chunkRegion fl zm p lo hi keepIn cid).own ⊆ (listerRegion fl zm p lo hi keepIn share).own :=
    fun c hc => ⟨cid, hmem, hc⟩
  have hbody := triple_frame (r := listerRegion fl zm p lo hi keepIn share)
    (f := fun m => (∀ i ∈ share, Ready fl zm p lo hi keepIn i m) ∧
      ∀ i ∈ pre, Listing fl zm p lo hi keepIn statesOut epsOut i p.blocksPerChunk m)
    (triple_pass2Body fl zm p lo hi keepIn statesOut epsOut (hc cid hmem) hb) hown
    (fun c hc => hc.elim (fun hc => Or.inl (hown hc)) fun hc => Or.inr ⟨cid, hc⟩) ?_
  · refine triple_imp hbody (fun m hm => ⟨hm.1 cid hmem, hm⟩) fun m hm => ⟨hm.2.1, fun i hi => ?_⟩
    rcases List.mem_append.mp hi with hi | hi
    · exact hm.2.2 i hi
    · rw [List.mem_singleton.mp hi]
      exact hm.1
  · rintro m m' h ⟨hready, hold⟩
    refine ⟨fun i h' => (hready i h').of_agree (fun c hc => ?_) h, fun i h' => ?_⟩
    · exact readyCells_not_mem fl zm p lo hi keepIn hc
    · refine about_listing fl zm p lo hi keepIn statesOut epsOut le_rfl m m'
        (fun c hc => h c ?_) (hold i h')
      rcases hc with hc | hc
      · exact not_mem_chunkEntries fl zm p lo hi keepIn (ne_of_mem_of_not_mem h' hcid) hc
      · exact readyCells_not_mem fl zm p lo hi keepIn hc

def sumRegion : Region Cell := ⟨{c | ∃ i, c = .nMaybeChunk i}, ∅⟩

/-- The prefix sums leave the start of every chunk, and the total. -/
theorem triple_prefixSums : Triple sumRegion
    (fun m => ∀ cid < p.nChunk,
      m (.nMaybeChunk (cid + 1)) = (chunkListing fl zm p lo hi keepIn cid).length)
    (prefixSums p) (fun m => ∀ cid ≤ p.nChunk, m (.nMaybeChunk cid) =
      startOf fl zm p lo hi keepIn cid) := by
  refine triple_cons (q := fun m => m (.nMaybeChunk 0) = 0 ∧ ∀ cid < p.nChunk,
    m (.nMaybeChunk (cid + 1)) = (chunkListing fl zm p lo hi keepIn cid).length)
    (triple_of_local (fun x hx m => ?_) fun m h => ?_) ?_
  · rw [List.mem_singleton.mp hx]
    exact local_store (r := sumRegion) ⟨0, rfl⟩ (fun _ _ _ => rfl) m
  · simpa using h
  refine triple_imp (triple_range_map (fun i m =>
    (∀ cid ≤ i, m (.nMaybeChunk cid) = startOf fl zm p lo hi keepIn cid) ∧ ∀ cid, i ≤ cid → cid < p.nChunk →
      m (.nMaybeChunk (cid + 1)) = (chunkListing fl zm p lo hi keepIn cid).length) _ fun i hi => ?_) ?_
      fun m hm => hm.1
  · refine triple_of_local (fun x hx m => ?_) fun m hm => ⟨fun cid hcid => ?_, fun cid hle hlt => ?_⟩
    · rw [List.mem_singleton.mp hx]
      refine local_store (r := sumRegion) ⟨i + 1, rfl⟩ (fun m m' h => ?_) m
      rw [h (.nMaybeChunk (i + 1)) (Or.inl ⟨_, rfl⟩), h (.nMaybeChunk i) (Or.inl ⟨_, rfl⟩)]
    · rw [run_cons, run_nil]
      by_cases heq : cid = i + 1
      · subst heq
        rw [store_self, hm.1 i le_rfl, hm.2 i le_rfl hi]
        simp [startOf, List.range_succ, Nat.add_comm]
      · rw [store_of_ne (by simpa using heq)]
        exact hm.1 cid (by omega)
    · rw [run_cons, run_nil, store_of_ne (by simp; omega)]
      exact hm.2 cid (by omega) hlt
  · rintro m ⟨h0, h⟩
    refine ⟨fun cid hcid => ?_, fun cid _ hlt => h cid hlt⟩
    rw [Nat.le_zero.mp hcid]
    exact h0

theorem separate_pass2 (s : Schedule p.nChunk) {w w' : Fin s.workers} (hne : w ≠ w') :
    Disjoint (listerRegion fl zm p lo hi keepIn (s.share w)).own
      (listerRegion fl zm p lo hi keepIn (s.share w')).view := by
  refine Set.disjoint_left.mpr fun c ⟨cid, hcid, hc⟩ hc' => ?_
  rcases hc' with ⟨i, hmem, hc'⟩ | ⟨i, hc'⟩
  · refine not_mem_chunkEntries fl zm p lo hi keepIn (fun heq => hne (s.eq_of_mem hcid ?_)) hc hc'
    rw [heq]
    exact hmem
  · exact readyCells_not_mem fl zm p lo hi keepIn hc' hc

theorem about_listings (share : List ℕ) : About (listerRegion fl zm p lo hi keepIn share).view
    fun m => ∀ cid ∈ share, Listing fl zm p lo hi keepIn statesOut epsOut cid p.blocksPerChunk m := by
  intro m m' h hm cid hcid
  refine about_listing fl zm p lo hi keepIn statesOut epsOut le_rfl m m' (fun c hc => h c ?_) (hm cid hcid)
  rcases hc with hc | hc
  · exact Or.inl ⟨cid, hcid, hc⟩
  · exact Or.inr ⟨cid, hc⟩

theorem getElem?_listing {k : ℕ} {l : Listed} : ∀ {n : ℕ},
    ((List.range n).flatMap (chunkListing fl zm p lo hi keepIn))[k]? = some l →
      ∃ cid < n, ∃ j, k = startOf fl zm p lo hi keepIn cid + j ∧
        (chunkListing fl zm p lo hi keepIn cid)[j]? = some l
  | 0, h => by simp at h
  | n + 1, h => by
    have hlen : ((List.range n).flatMap (chunkListing fl zm p lo hi keepIn)).length =
        startOf fl zm p lo hi keepIn n := List.length_flatMap
    rw [List.range_succ, List.flatMap_append, List.flatMap_singleton] at h
    rcases Nat.lt_or_ge k ((List.range n).flatMap (chunkListing fl zm p lo hi keepIn)).length with hk | hk
    · rw [List.getElem?_append_left hk] at h
      obtain ⟨cid, hcid, j, hj⟩ := getElem?_listing h
      exact ⟨cid, by omega, j, hj⟩
    · rw [List.getElem?_append_right hk] at h
      exact ⟨n, by omega, _, by omega, h⟩

end Second

/-! ### A run -/

section Run
variable {fl : ℚ → ℚ} {zm : List UInt8} {p : PlanArgs} {lo hi : Dbl} {keepIn statesOut epsOut : Bool}
  (R : Run fl zm p lo hi keepIn statesOut epsOut) (m : Memory Held)

/-- **After the first pass**, every worker has classified and counted its chunks, and no other cell is
changed. -/
theorem counted_spec : (∀ w : Fin R.sched1.workers,
      Done fl zm p lo hi keepIn w (R.sched1.share w) (R.counted m)) ∧
    ∀ c, (∀ w : Fin R.sched1.workers, c ∉ workerCells p w (R.sched1.share w)) → R.counted m c = m c :=
  triple_parallel (r := fun w : Fin R.sched1.workers => ⟨workerCells p w (R.sched1.share w), ∅⟩)
    (p := fun _ _ => True) R.inter1 (fun _ _ => separate_pass1 p R.sched1)
    (fun w => triple_pass1 fl zm p lo hi keepIn w (R.sched1.nodup_share w))
    (fun _ => about_done fun _ h => h) fun _ => trivial

theorem classified {cid : ℕ} (h : cid < p.nChunk) : Classified fl zm p lo hi keepIn cid (R.counted m) := by
  obtain ⟨w, hw⟩ := R.sched1.exists_mem h
  exact ((counted_spec R m).1 w).chunks cid hw

/-- **Between the passes**, every chunk is ready for the second one. -/
theorem ready_spec : (∀ cid < p.nChunk,
      Ready fl zm p lo hi keepIn cid (run (prefixSums p) (R.counted m))) ∧
    run (prefixSums p) (R.counted m) (.nMaybeChunk p.nChunk) = startOf fl zm p lo hi keepIn p.nChunk ∧
    ∀ c, c ∉ sumRegion.own → run (prefixSums p) (R.counted m) c = R.counted m c := by
  obtain ⟨hc, hsums⟩ := triple_prefixSums fl zm p lo hi keepIn (R.counted m)
    fun cid h => (classified R m h).count
  refine ⟨fun cid h => ⟨fun b hb => ?_, hsums cid h.le⟩, hsums _ le_rfl, fun c => run_of_not_mem hc⟩
  rw [run_of_not_mem hc (by simp [sumRegion])]
  exact (classified R m h).states b hb

section Sizes
variable (hc : p.nChunk ≤ uint32Max) (hb : p.blocksPerChunk ≤ uint32Max)
include hc hb

/-- **After the second pass**, every chunk is listed, and no cell outside of the chunks' entries is
changed. -/
theorem final_spec : (∀ cid < p.nChunk,
      Listing fl zm p lo hi keepIn statesOut epsOut cid p.blocksPerChunk (R.final m)) ∧
    ∀ c, (∀ cid < p.nChunk, c ∉ chunkEntries fl zm p lo hi keepIn cid) →
      R.final m c = run (prefixSums p) (R.counted m) c := by
  unfold uint32Max at hc hb
  obtain ⟨hq, hframe⟩ := triple_parallel R.inter2
    (r := fun w : Fin R.sched2.workers => listerRegion fl zm p lo hi keepIn (R.sched2.share w))
    (m := run (prefixSums p) (R.counted m))
    (fun _ _ => separate_pass2 fl zm p lo hi keepIn R.sched2)
    (fun w => triple_pass2 fl zm p lo hi keepIn statesOut epsOut (R.sched2.nodup_share w)
      (fun cid h => by have := R.sched2.lt_of_mem h; omega) (by omega))
    (fun w => about_listings fl zm p lo hi keepIn statesOut epsOut (R.sched2.share w))
    fun w cid h => (ready_spec R m).1 cid (R.sched2.lt_of_mem h)
  refine ⟨fun cid h => ?_, fun c h => hframe c ?_⟩
  · obtain ⟨w, hw⟩ := R.sched2.exists_mem h
    exact hq w cid hw
  · rintro w ⟨cid, hcid, hmem⟩
    exact h cid (R.sched2.lt_of_mem hcid) hmem

end Sizes

theorem outIn_eq : R.outIn m = countAll fl zm p lo hi .IN := by
  unfold Run.outIn countAll
  rw [← R.sched1.sum_shares _ R.permOrder]
  exact congrArg List.sum (List.map_congr_left fun w _ => ((counted_spec R m).1 w).nIn)

theorem outOut_eq : R.outOut m = countAll fl zm p lo hi .OUT := by
  unfold Run.outOut countAll
  rw [← R.sched1.sum_shares _ R.permOrder]
  exact congrArg List.sum (List.map_congr_left fun w _ => ((counted_spec R m).1 w).nOut)

end Run

/-- **Every run of the two parallel loops is `plan_blocks`.** However the chunks are dealt to the workers,
in whichever order the workers take their steps and their counters are added, and whatever the memory held
before: the counts are those of the planner, the output arrays that are there have its list, entry by
entry, and nothing is written after the list. -/
theorem planBlocks_of_run {fl : ℚ → ℚ} {zm : List UInt8} {p : PlanArgs} {lo hi : Dbl}
    {keepIn statesOut epsOut : Bool} {out : List Listed} (h1 : p.shapeOk) (h2 : p.sizeOk out.length)
    (R : Run fl zm p lo hi keepIn statesOut epsOut) (m : Memory Held) :
    ∃ r, planBlocks fl zm p lo hi keepIn out = .ok r ∧
      R.outMaybe m = r.nListed ∧ R.outIn m = r.nIn ∧ R.outOut m = r.nOut ∧
      (∀ k l, (r.listed.take r.nListed)[k]? = some l → Entry statesOut epsOut k l (R.final m)) ∧
      ∀ k, r.nListed ≤ k → Agree (entryCells k) m (R.final m) := by
  have hb := h2.2.2.2.2.1
  have hc := h2.2.2.2.2.2
  obtain ⟨r, hr, hlist, hn, hin, hout⟩ := planBlocks_eq fl zm lo hi keepIn out h1 h2
  obtain ⟨hlisted, hframe⟩ := final_spec R m hc hb
  have hstart : startOf fl zm p lo hi keepIn p.nChunk = r.nListed := by
    rw [hn]
    exact List.length_flatMap.symm
  refine ⟨r, hr, ?_, (outIn_eq R m).trans hin.symm, (outOut_eq R m).trans hout.symm, fun k l hk => ?_,
    fun k hk c hmem => ?_⟩
  · rw [← hstart, ← (ready_spec R m).2.1]
    refine hframe _ fun cid _ hmem => readyCells_not_mem fl zm p lo hi keepIn
      (show _ ∈ readyCells p p.nChunk from Or.inr rfl) hmem
  · rw [hlist] at hk
    obtain ⟨cid, hcid, j, rfl, hj⟩ := getElem?_listing fl zm p lo hi keepIn hk
    exact (hlisted cid hcid).entries j l hj
  · have hout2 : ∀ cid < p.nChunk, c ∉ chunkEntries fl zm p lo hi keepIn cid := by
      rintro cid hcid (hmem' | ⟨j, hj, hmem'⟩)
      · rw [Set.mem_singleton_iff.mp hmem'] at hmem
        simp [entryCells] at hmem
      · have := startOf_mono fl zm p lo hi keepIn hcid
        exact not_mem_entryCells (by omega) hmem' hmem
    have hcell : c ∉ sumRegion.own ∧ (∀ w, c ≠ .nIn w ∧ c ≠ .nOut w) ∧ ∀ cid, c ∉ iterationCells p cid := by
      rcases hmem with rfl | rfl | rfl | rfl <;> simp [sumRegion, iterationCells, stateCells]
    rw [hframe c hout2, (ready_spec R m).2.2 c hcell.1, (counted_spec R m).2 c fun w hw => ?_]
    rcases mem_workerCells p hw with h | h | ⟨cid, -, h⟩
    · exact (hcell.2.1 w).1 h
    · exact (hcell.2.1 w).2 h
    · exact hcell.2.2 cid h

/-- Two chunks of one block each, planned by a worker for each. -/
def twoChunks : PlanArgs := ⟨14, ![2, 1, 1], ![1, 1, 1], 1⟩

def leftovers : Memory Held
  | .states _ => .MAYBE
  | .statesOut _ => .OUT
  | .epsOut _ => F32.inf
  | .nMaybeChunk i => i
  | .maybeChunks _ => 7
  | .maybeBlocks _ => 7
  | .nIn _ => 7
  | .nOut _ => 7
  | .m _ => 7
  | .k _ => 7

/-- The two chunks one after the other, with a zone map of zeros. -/
def runOfTwoChunks : Run id [] twoChunks (.fin 0) .pinf true true true :=
  Run.sequential id [] twoChunks (.fin 0) .pinf true true true (.each _) (.each _)

/-- The run counts and lists what `plan_blocks` does, and leaves the entries after the list as they were. -/
theorem planBlocks_of_run_twoChunks : ∃ r, planBlocks id [] twoChunks (.fin 0) .pinf true
      (List.replicate 2 default) = .ok r ∧
    runOfTwoChunks.outMaybe leftovers = r.nListed ∧ runOfTwoChunks.outIn leftovers = r.nIn ∧
    runOfTwoChunks.outOut leftovers = r.nOut ∧
    (∀ k l, (r.listed.take r.nListed)[k]? = some l → Entry true true k l (runOfTwoChunks.final leftovers)) ∧
    runOfTwoChunks.final leftovers (.maybeBlocks r.nListed) = 7 := by
  have hsize : twoChunks.sizeOk (List.replicate 2 (default : Listed)).length := by decide +kernel
  obtain ⟨r, hr, hn, hin, hout, hentries, hframe⟩ :=
    planBlocks_of_run (by decide +kernel) hsize runOfTwoChunks leftovers
  have hafter := hframe r.nListed le_rfl (.maybeBlocks r.nListed) (by simp [entryCells])
  exact ⟨r, hr, hn, hin, hout, hentries, hafter.symm⟩

end SkipZFP.Plan.Parallel
