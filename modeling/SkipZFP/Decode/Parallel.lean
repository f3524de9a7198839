import SkipZFP.Lib.Parallel
import SkipZFP.Read.Stream

/-! # The parallel loops that decode blocks

`szfp_decode_blocks` decodes blocks into an array, and `szfp_count_range_blocks` decodes each block into
the scratch space of its worker and counts it. `BlockDecoder` is `decode_block`: a code, and what is in
the target afterwards, also where the code is an error.

* `decoded_of_run`: what `szfp_decode_blocks` leaves, in every run.
* `counted_of_run`: what `szfp_count_range_blocks` counts, in every run, though each worker uses its
  scratch space for one block after another.
* `count_is_decode`: **so the one counts what the other decodes**, which is what a query is given. -/

namespace SkipZFP.Decode.Parallel

open SkipZFP.Lib.Parallel SkipZFP.Lib.Grid SkipZFP.Lib.Rows SkipZFP.Lib.Double SkipZFP.Lib.Float32
open SkipZFP.Codec.Config SkipZFP.Plan.Classify SkipZFP.Plan.Blocks SkipZFP.Read.Stream

/-- The cells of the memory: the array, the scratch space of all workers, and the private copies of the
count and of the flag of worker `w`. -/
inductive Cell where
  | out (i : ℕ)
  | scratch (i : ℕ)
  | count (w : ℕ)
  | failed (w : ℕ)
deriving DecidableEq

abbrev Held : Cell → Type
  | .out _ => F32
  | .scratch _ => F32
  | .count _ => ℕ
  | .failed _ => Bool

/-- `cell = value`. -/
def store (c : Cell) (v : Memory Held → Held c) : Action Held := fun m => Function.update m c (v m)

/-- **`decode_block`**: is the code `SZ_OK`, and the values in the target. -/
structure BlockDecoder where
  ok : List UInt8 → Bool
  value : List UInt8 → ℕ → F32

section Loops
variable (d : BlockDecoder) (blocks : List UInt8) (nbytes nval : ℕ)

def blockAt (bid : ℕ) : List UInt8 := slice blocks (bid * nbytes) (bid * nbytes + nbytes)

/-- The stores of `decode_block` into a target. -/
def decodeInto (target : ℕ → Cell) (v : ∀ j, Held (target j)) : List (Action Held) :=
  (List.range nval).map fun j => store (target j) fun _ => v j

/-- One iteration of `szfp_decode_blocks`. -/
def decodeBody (w bid : ℕ) : List (Action Held) :=
  decodeInto nval (fun j => .out (bid * nval + j)) (d.value (blockAt blocks nbytes bid)) ++
    if d.ok (blockAt blocks nbytes bid) then [] else [store (.failed w) fun _ => true]

def scratchOf (w : ℕ) (m : Memory Held) : List F32 :=
  (List.range nval).map fun j => m (.scratch (w * nval + j))

variable (lo hi : Dbl)

/-- One iteration of `szfp_count_range_blocks`. -/
def countBody (w bid : ℕ) : List (Action Held) :=
  decodeInto nval (fun j => .scratch (w * nval + j)) (d.value (blockAt blocks nbytes bid)) ++
    if d.ok (blockAt blocks nbytes bid) then
      [store (.count w) fun m => m (.count w) + countInRange (scratchOf nval w m) lo hi]
    else [store (.failed w) fun _ => true]

/-- A worker of a loop. Its private counters start at 0. -/
def worker (body : ℕ → ℕ → List (Action Held)) (w : ℕ) (share : List ℕ) : List (Action Held) :=
  store (.count w) (fun _ => (0 : ℕ)) :: store (.failed w) (fun _ => false) :: share.flatMap (body w)

end Loops

/-- **A run of a loop** over `n` blocks: how the blocks are dealt to workers, the order in which the
workers' steps happen, and the order in which their private counters are combined. -/
structure Run (body : ℕ → ℕ → List (Action Held)) (n : ℕ) where
  sched : Schedule n
  trace : List (Action Held)
  inter : Interleaving (fun w => worker body w.val (sched.share w)) trace
  order : List (Fin sched.workers)
  permOrder : order.Perm (List.finRange sched.workers)

namespace Run

variable {body : ℕ → ℕ → List (Action Held)} {n : ℕ} (R : Run body n) (m : Memory Held)

/-- The memory at the end. -/
def final : Memory Held := run R.trace m

/-- The `+` reduction. -/
def total : ℕ := (R.order.map fun w : Fin R.sched.workers => R.final m (.count w.val)).sum

/-- The `|` reduction. -/
def anyFailed : Bool := R.order.any fun w : Fin R.sched.workers => R.final m (.failed w.val)

/-- The run in which the workers work one after another. -/
def sequential (body : ℕ → ℕ → List (Action Held)) (s : Schedule n) : Run body n where
  sched := s
  trace := (List.finRange s.workers).flatMap fun w => worker body w.val (s.share w)
  inter := interleaving_flatMap (List.nodup_finRange _) fun w h => absurd (List.mem_finRange w) h
  order := List.finRange s.workers
  permOrder := .refl _

end Run

/-! ### What the actions do -/

@[simp] theorem store_self (c : Cell) (v : Memory Held → Held c) (m : Memory Held) :
    store c v m c = v m := Function.update_self ..

@[simp] theorem store_of_ne {c d : Cell} (h : d ≠ c) (v : Memory Held → Held c) (m : Memory Held) :
    store c v m d = m d := Function.update_of_ne h ..

theorem local_store {r : Region Cell} {c : Cell} {v : Memory Held → Held c} (hc : c ∈ r.own)
    (hv : ∀ m m' : Memory Held, Agree r.view m m' → v m = v m') (m : Memory Held) :
    Local r (store c v) m := by
  refine local_write hc (v m) fun m' hm' => ?_
  unfold store
  rw [hv m m' hm']

theorem triple_decodeInto {nval : ℕ} {target : ℕ → Cell} (ht : Function.Injective target)
    (v : ∀ j, Held (target j)) : Triple ⟨{c | ∃ j < nval, c = target j}, ∅⟩ (fun _ => True)
      (decodeInto nval target v) (fun m => ∀ j < nval, m (target j) = v j) := by
  refine triple_imp (triple_range_map (fun i (m : Memory Held) => ∀ j < i, m (target j) = v j) _
    fun i hi => ?_) (fun _ _ j hj => absurd hj j.not_lt_zero) fun _ h => h
  refine triple_of_local (fun a ha m => ?_) fun m hm j hj => ?_
  · rw [List.mem_singleton.mp ha]
    exact local_store (r := ⟨{c | ∃ j < nval, c = target j}, ∅⟩) ⟨i, hi, rfl⟩ (fun _ _ _ => rfl) m
  rw [run_cons, run_nil]
  by_cases hji : j = i
  · subst hji
    exact store_self ..
  · rw [store_of_ne fun h => hji (ht h)]
    exact hm j (by omega)

section Specs
variable (d : BlockDecoder) (blocks : List UInt8) (nbytes nval : ℕ) (lo hi : Dbl)

/-- Does the block fail to decode? -/
def fails (bid : ℕ) : Bool := !d.ok (blockAt blocks nbytes bid)

def valuesAt (bid : ℕ) : List F32 := (List.range nval).map (d.value (blockAt blocks nbytes bid))

def countAt (bid : ℕ) : ℕ :=
  if d.ok (blockAt blocks nbytes bid) then countInRange (valuesAt d blocks nbytes nval bid) lo hi else 0

def counterCells (w : ℕ) : Set Cell := {.count w, .failed w}

def outCells (bid : ℕ) : Set Cell := {c | ∃ j < nval, c = .out (bid * nval + j)}

def scratchCells (w : ℕ) : Set Cell := {c | ∃ j < nval, c = .scratch (w * nval + j)}

def Decoded (bid : ℕ) (m : Memory Held) : Prop :=
  ∀ j < nval, m (.out (bid * nval + j)) = d.value (blockAt blocks nbytes bid) j

/-- A store to one counter of a worker, of a value that depends on a region. -/
theorem triple_counter {r : Region Cell} {c : Cell} (hc : c ∈ r.own) {v : Memory Held → Held c}
    (hv : ∀ m m' : Memory Held, Agree r.view m m' → v m = v m') {p q : Memory Held → Prop}
    (h : ∀ m, p m → q (store c v m)) : Triple r p [store c v] q := by
  refine triple_of_local (fun a ha m => ?_) fun m hm => ?_
  · rw [List.mem_singleton.mp ha]
    exact local_store hc hv m
  · rw [run_cons, run_nil]
    exact h m hm

theorem triple_decodeInto_counters {target : ℕ → Cell} (ht : Function.Injective target)
    (hne : ∀ w j, Cell.count w ≠ target j ∧ Cell.failed w ≠ target j) (v : ∀ j, Held (target j))
    (w n : ℕ) (f : Bool) : Triple ⟨counterCells w ∪ {c | ∃ j < nval, c = target j}, ∅⟩
      (fun m => m (.count w) = n ∧ m (.failed w) = f) (decodeInto nval target v)
      (fun m => (∀ j < nval, m (target j) = v j) ∧ m (.count w) = n ∧ m (.failed w) = f) := by
  have hc : Cell.count w ∈ {c | ∃ j < nval, c = target j}ᶜ := fun ⟨j, _, h⟩ => (hne w j).1 h
  have hf : Cell.failed w ∈ {c | ∃ j < nval, c = target j}ᶜ := fun ⟨j, _, h⟩ => (hne w j).2 h
  refine triple_imp (triple_frame (triple_decodeInto ht v) (fun c hc => Or.inr hc) ?_
    ((about_eq hc n).and (about_eq hf f))) (fun m h => ⟨trivial, h⟩) fun _ h => h
  exact fun c hc => hc.elim (fun hc => Or.inl (Or.inr hc)) fun hc => hc.elim

theorem triple_decodeBody (w bid n : ℕ) (f : Bool) : Triple ⟨counterCells w ∪ outCells nval bid, ∅⟩
    (fun m => m (.count w) = n ∧ m (.failed w) = f) (decodeBody d blocks nbytes nval w bid)
    (fun m => Decoded d blocks nbytes nval bid m ∧ m (.count w) = n ∧
      m (.failed w) = (f || fails d blocks nbytes bid)) := by
  have hinj : Function.Injective fun j => Cell.out (bid * nval + j) := by
    intro j k h
    simpa using h
  have hdec := triple_decodeInto_counters nval hinj (by simp) (d.value (blockAt blocks nbytes bid)) w n f
  refine triple_append hdec ?_
  unfold fails
  split_ifs with hok
  · rw [hok]
    exact triple_nil fun m h => ⟨h.1, h.2.1, by simpa using h.2.2⟩
  · refine triple_counter (Or.inl (by simp [counterCells])) (fun _ _ _ => rfl) fun m h =>
      ⟨fun j hj => ?_, ?_, ?_⟩
    · simpa using h.1 j hj
    · simpa using h.2.1
    · simp [hok]

theorem triple_countBody (w bid n : ℕ) (f : Bool) : Triple ⟨counterCells w ∪ scratchCells nval w, ∅⟩
    (fun m => m (.count w) = n ∧ m (.failed w) = f) (countBody d blocks nbytes nval lo hi w bid)
    (fun m => m (.count w) = n + countAt d blocks nbytes nval lo hi bid ∧
      m (.failed w) = (f || fails d blocks nbytes bid)) := by
  have hinj : Function.Injective fun j => Cell.scratch (w * nval + j) := by
    intro j k h
    simpa using h
  have hdec := triple_decodeInto_counters nval hinj (by simp) (d.value (blockAt blocks nbytes bid)) w n f
  refine triple_append hdec ?_
  unfold countAt fails
  split_ifs with hok
  · rw [hok]
    refine triple_counter (Or.inl (by simp [counterCells])) (fun m m' h => ?_) fun m h => ⟨?_, ?_⟩
    · have hs : scratchOf nval w m = scratchOf nval w m' := List.map_congr_left fun j hj =>
        h _ (Or.inl (Or.inr ⟨j, List.mem_range.mp hj, rfl⟩))
      rw [hs, h (.count w) (Or.inl (Or.inl (by simp [counterCells])))]
    · have hs : scratchOf nval w m = valuesAt d blocks nbytes nval bid := List.map_congr_left fun j hj =>
        h.1 j (List.mem_range.mp hj)
      rw [store_self, hs, h.2.1]
    · simpa using h.2.2
  · refine triple_counter (Or.inl (by simp [counterCells])) (fun _ _ _ => rfl) fun m h => ⟨?_, ?_⟩
    · simpa using h.2.1
    · simp [hok]

theorem triple_start {r : Region Cell} {w : ℕ} (h : counterCells w ⊆ r.own) : Triple r (fun _ => True)
    [store (.count w) fun _ => (0 : ℕ), store (.failed w) fun _ => false]
    (fun m => m (.count w) = 0 ∧ m (.failed w) = false) := by
  refine triple_of_local (fun a ha m => ?_) fun m _ => by simp
  rcases List.mem_cons.mp ha with rfl | ha
  · exact local_store (h (by simp [counterCells])) (fun _ _ _ => rfl) m
  · rw [List.mem_singleton.mp ha]
    exact local_store (h (by simp [counterCells])) (fun _ _ _ => rfl) m

/-- The blocks that a worker of `szfp_decode_blocks` has done. -/
structure DecodedAll (w : ℕ) (done : List ℕ) (m : Memory Held) : Prop where
  values : ∀ bid ∈ done, Decoded d blocks nbytes nval bid m
  failed : m (.failed w) = done.any (fails d blocks nbytes)

/-- What a worker of `szfp_decode_blocks` writes. -/
def decoderRegion (w : ℕ) (share : List ℕ) : Region Cell :=
  ⟨counterCells w ∪ {c | ∃ bid ∈ share, c ∈ outCells nval bid}, ∅⟩

variable {nval} in
theorem not_mem_outCells {bid i : ℕ} (h : bid ≠ i) {c : Cell} (hc : c ∈ outCells nval bid) :
    c ∉ outCells nval i := by
  obtain ⟨j, hj, rfl⟩ := hc
  rintro ⟨k, hk, heq⟩
  have heq : (bid * nval + j) / nval = (i * nval + k) / nval := congrArg (· / nval) (Cell.out.inj heq)
  rw [mul_add_div_of_lt hj, mul_add_div_of_lt hk] at heq
  exact h heq

theorem triple_decoder (w : ℕ) {share : List ℕ} (hn : share.Nodup) :
    Triple (decoderRegion nval w share) (fun _ => True) (worker (decodeBody d blocks nbytes nval) w share)
      (DecodedAll d blocks nbytes nval w share) := by
  have hstart := triple_start (r := decoderRegion nval w share) fun c hc => Or.inl hc
  refine triple_append (triple_imp hstart (fun _ h => h) fun m h => ?_)
    (triple_loop (DecodedAll d blocks nbytes nval w) share [] fun pre bid post heq m hm => ?_)
  · exact ⟨by simp, h.2⟩
  rw [List.nil_append] at heq
  have hbid : bid ∉ pre := by
    rw [heq] at hn
    exact fun h => List.disjoint_of_nodup_append hn h List.mem_cons_self
  have hmem : bid ∈ share := by simp [heq]
  have hown : counterCells w ∪ outCells nval bid ⊆ (decoderRegion nval w share).own :=
    Set.union_subset_union_right _ fun c hc => ⟨bid, hmem, hc⟩
  have hbody := triple_frame (r := decoderRegion nval w share)
    (f := fun m => ∀ i ∈ pre, Decoded d blocks nbytes nval i m)
    (triple_decodeBody d blocks nbytes nval w bid (m (.count w)) (m (.failed w))) hown
    (fun c hc => hc.elim (fun hc => Or.inl (hown hc)) fun hc => hc.elim) ?_
  · obtain ⟨hc, ⟨hnew, -, hf⟩, hold⟩ := hbody m ⟨⟨rfl, rfl⟩, hm.values⟩
    refine ⟨hc, fun i hi => ?_, ?_⟩
    · rcases List.mem_append.mp hi with hi | hi
      · exact hold i hi
      · rw [List.mem_singleton.mp hi]
        exact hnew
    · rw [hf, hm.failed, List.any_append, List.any_cons, List.any_nil, Bool.or_false]
  · intro m m' h hp i hi j hj
    rw [← h _ fun hc => ?_]
    · exact hp i hi j hj
    · rcases hc with hc | hc
      · simp [counterCells] at hc
      · exact not_mem_outCells (ne_of_mem_of_not_mem hi hbid) ⟨j, hj, rfl⟩ hc

/-- What a worker of `szfp_count_range_blocks` has counted. -/
structure Counted (w : ℕ) (done : List ℕ) (m : Memory Held) : Prop where
  count : m (.count w) = (done.map (countAt d blocks nbytes nval lo hi)).sum
  failed : m (.failed w) = done.any (fails d blocks nbytes)

/-- What a worker of `szfp_count_range_blocks` writes. -/
def counterRegion (w : ℕ) : Region Cell := ⟨counterCells w ∪ scratchCells nval w, ∅⟩

/-- **A worker of `szfp_count_range_blocks`.** Nothing of a block is left in the scratch space that the
next one reads. -/
theorem triple_counterWorker (w : ℕ) (share : List ℕ) : Triple (counterRegion nval w) (fun _ => True)
    (worker (countBody d blocks nbytes nval lo hi) w share)
    (Counted d blocks nbytes nval lo hi w share) := by
  have hstart := triple_start (r := counterRegion nval w) fun c hc => Or.inl hc
  refine triple_append (triple_imp hstart (fun _ h => h) fun m h => ?_)
    (triple_loop (Counted d blocks nbytes nval lo hi w) share [] fun pre bid post _ m hm => ?_)
  · exact ⟨h.1, h.2⟩
  obtain ⟨hc, hcount, hf⟩ := triple_countBody d blocks nbytes nval lo hi w bid (m (.count w))
    (m (.failed w)) m ⟨rfl, rfl⟩
  refine ⟨hc, ?_, ?_⟩
  · rw [hcount, hm.count]
    simp
  · rw [hf, hm.failed, List.any_append, List.any_cons, List.any_nil, Bool.or_false]

end Specs

/-! ### Runs -/

section Runs
variable {d : BlockDecoder} {blocks : List UInt8} {nbytes nval n : ℕ} {lo hi : Dbl}

theorem any_shares (s : Schedule n) (q : ℕ → Bool) {order : List (Fin s.workers)}
    (h : order.Perm (List.finRange s.workers)) :
    (order.any fun w => (s.share w).any q) = (List.range n).any q := by
  rw [Bool.eq_iff_iff]
  simp only [List.any_eq_true, h.mem_iff, List.mem_finRange, true_and, List.mem_range]
  constructor
  · rintro ⟨w, bid, hmem, hq⟩
    exact ⟨bid, s.lt_of_mem hmem, hq⟩
  · rintro ⟨bid, hlt, hq⟩
    obtain ⟨w, hw⟩ := s.exists_mem hlt
    exact ⟨w, bid, hw, hq⟩

theorem counterCells_disjoint {w v : ℕ} (h : w ≠ v) {c : Cell} (hc : c ∈ counterCells w) :
    c ∉ counterCells v := by
  simp only [counterCells, Set.mem_insert_iff, Set.mem_singleton_iff] at hc ⊢
  rcases hc with rfl | rfl <;> simpa using h

theorem about_decodedAll (w : ℕ) (share : List ℕ) : About (decoderRegion nval w share).view
    (DecodedAll d blocks nbytes nval w share) := by
  intro m m' h hm
  refine ⟨fun bid hbid j hj => ?_, ?_⟩
  · rw [← h _ (Or.inl (Or.inr ⟨bid, hbid, j, hj, rfl⟩))]
    exact hm.values bid hbid j hj
  · rw [← h (.failed w) (Or.inl (Or.inl (by simp [counterCells])))]
    exact hm.failed

theorem separate_decoders (s : Schedule n) {w v : Fin s.workers} (hne : w ≠ v) :
    Disjoint (decoderRegion nval w (s.share w)).own (decoderRegion nval v (s.share v)).view := by
  refine Set.disjoint_left.mpr fun c hc hc' => ?_
  rcases hc' with hc' | hc'
  · rcases hc with hc | ⟨bid, hbid, hc⟩ <;> rcases hc' with hc' | ⟨i, hi, hc'⟩
    · exact counterCells_disjoint (fun h => hne (Fin.ext h)) hc hc'
    · obtain ⟨j, -, rfl⟩ := hc'
      simp [counterCells] at hc
    · obtain ⟨j, -, rfl⟩ := hc
      simp [counterCells] at hc'
    · refine not_mem_outCells (fun h => hne (s.eq_of_mem hbid ?_)) hc hc'
      rw [h]
      exact hi
  · exact hc'

/-- **Every run of `szfp_decode_blocks`** leaves the values of all blocks, each in its place, writes
nothing after them, and says whether a block failed. -/
theorem decoded_of_run (R : Run (decodeBody d blocks nbytes nval) n) (m : Memory Held) :
    (∀ bid < n, Decoded d blocks nbytes nval bid (R.final m)) ∧
      R.anyFailed m = (List.range n).any (fails d blocks nbytes) ∧
      ∀ i, n * nval ≤ i → R.final m (.out i) = m (.out i) := by
  obtain ⟨hq, hframe⟩ := triple_parallel (m := m) (p := fun _ _ => True)
    (r := fun w : Fin R.sched.workers => decoderRegion nval w (R.sched.share w))
    (q := fun w => DecodedAll d blocks nbytes nval w (R.sched.share w)) R.inter
    (fun _ _ => separate_decoders R.sched)
    (fun w => triple_decoder d blocks nbytes nval w (R.sched.nodup_share w))
    (fun w => about_decodedAll w (R.sched.share w)) fun _ => trivial
  refine ⟨fun bid hbid => ?_, ?_, fun i hi => hframe _ ?_⟩
  · obtain ⟨w, hw⟩ := R.sched.exists_mem hbid
    exact (hq w).values bid hw
  · rw [← any_shares R.sched _ R.permOrder]
    exact congrArg (List.any R.order) (funext fun w => (hq w).failed)
  · rintro w (hc | ⟨bid, hbid, j, hj, hc⟩)
    · simp [counterCells] at hc
    · have hb := R.sched.lt_of_mem hbid
      have hi' : i = bid * nval + j := Cell.out.inj hc
      have hle : (bid + 1) * nval ≤ n * nval := Nat.mul_le_mul_right _ hb
      rw [Nat.succ_mul] at hle
      omega

theorem about_counted (w : ℕ) (share : List ℕ) : About (counterRegion nval w).view
    (Counted d blocks nbytes nval lo hi w share) := by
  intro m m' h hm
  refine ⟨?_, ?_⟩
  · rw [← h (.count w) (Or.inl (Or.inl (by simp [counterCells])))]
    exact hm.count
  · rw [← h (.failed w) (Or.inl (Or.inl (by simp [counterCells])))]
    exact hm.failed

theorem separate_counters {w v : ℕ} (hne : w ≠ v) :
    Disjoint (counterRegion nval w).own (counterRegion nval v).view := by
  refine Set.disjoint_left.mpr fun c hc hc' => ?_
  rcases hc' with hc' | hc'
  · rcases hc with hc | ⟨j, hj, rfl⟩ <;> rcases hc' with hc' | ⟨k, hk, hc'⟩
    · exact counterCells_disjoint hne hc hc'
    · rw [hc'] at hc
      simp [counterCells] at hc
    · simp [counterCells] at hc'
    · -- the scratch space of a worker ends where the next one's starts
      have heq : (w * nval + j) / nval = (v * nval + k) / nval := congrArg (· / nval) (Cell.scratch.inj hc')
      rw [mul_add_div_of_lt hj, mul_add_div_of_lt hk] at heq
      exact hne heq
  · exact hc'

/-- **Every run of `szfp_count_range_blocks`** counts every block that decodes once, and says whether a
block failed. -/
theorem counted_of_run (R : Run (countBody d blocks nbytes nval lo hi) n) (m : Memory Held) :
    R.total m = ((List.range n).map (countAt d blocks nbytes nval lo hi)).sum ∧
      R.anyFailed m = (List.range n).any (fails d blocks nbytes) := by
  obtain ⟨hq, -⟩ := triple_parallel (m := m) (p := fun _ _ => True)
    (r := fun w : Fin R.sched.workers => counterRegion nval w)
    (q := fun w => Counted d blocks nbytes nval lo hi w (R.sched.share w)) R.inter
    (fun _ _ hne => separate_counters fun h => hne (Fin.ext h))
    (fun w => triple_counterWorker d blocks nbytes nval lo hi w (R.sched.share w))
    (fun w => about_counted w (R.sched.share w)) fun _ => trivial
  constructor
  · rw [← R.sched.sum_shares _ R.permOrder]
    exact congrArg List.sum (List.map_congr_left fun w _ => (hq w).count)
  · rw [← any_shares R.sched _ R.permOrder]
    exact congrArg (List.any R.order) (funext fun w => (hq w).failed)

/-- The array that a run of `szfp_decode_blocks` leaves. -/
def decodedArray (R : Run (decodeBody d blocks nbytes nval) n) (m : Memory Held) : List F32 :=
  (List.range (n * nval)).map fun i => R.final m (.out i)

theorem decodedArray_eq (R : Run (decodeBody d blocks nbytes nval) n) (m : Memory Held) :
    decodedArray R m = (List.range n).flatMap (valuesAt d blocks nbytes nval) := by
  unfold decodedArray valuesAt
  rw [flatMap_range_mul fun bid => d.value (blockAt blocks nbytes bid)]
  refine List.map_congr_left fun i hi => ?_
  have hi : i < n * nval := List.mem_range.mp hi
  have hpos : 0 < nval := Nat.pos_of_ne_zero fun h => by simp [h] at hi
  have h := (decoded_of_run R m).1 (i / nval) (Nat.div_lt_of_lt_mul (by rwa [Nat.mul_comm])) (i % nval)
    (Nat.mod_lt _ hpos)
  rwa [Nat.div_add_mod'] at h

theorem countInRange_flatMap (f : ℕ → List F32) : ∀ l : List ℕ,
    countInRange (l.flatMap f) lo hi = (l.map fun i => countInRange (f i) lo hi).sum
  | [] => by simp [countInRange]
  | i :: l => by
    have ih := countInRange_flatMap f l
    rw [countInRange_eq] at ih
    rw [List.flatMap_cons, countInRange_eq, List.countP_append, ih, List.map_cons, List.sum_cons,
      countInRange_eq]

/-- A run counts what the native call of a query returns, if libzfp decodes every block. -/
theorem countBlocks_of_run {decode : ℚ → List UInt8 → Values} {rate : ℚ}
    (hrate : 0 < rate ∧ Int.fract (8 * rate) = 0) (hok : ∀ bytes, d.ok bytes = true)
    (hvalue : ∀ bytes (j : Fin 64), d.value bytes j = decode rate bytes j)
    (R : Run (countBody d blocks (blockBytes rate) 64 lo hi) n) (m : Memory Held) :
    nativeCount decode blocks n (blockBytes rate) rate blockDim lo hi = .ok (R.total m) := by
  rw [nativeCount_eq decode hrate, (counted_of_run R m).1]
  refine congrArg Except.ok (congrArg List.sum (List.map_congr_left fun bid _ => ?_))
  unfold countAt countValues valuesAt blockAt
  rw [if_pos (hok _)]
  congr 1
  refine List.ext_getElem (by simp) fun j h1 h2 => ?_
  rw [List.getElem_ofFn, List.getElem_map, List.getElem_range]
  exact (hvalue _ _).symm

/-- **Counting blocks is decoding them and then counting**: a run of `szfp_count_range_blocks` fails where
a run of `szfp_decode_blocks` over the same blocks fails, and else counts the values that the other one
leaves, however the blocks are dealt to the workers of either, and in whichever order these work. With
blocks of libzfp that all decode, that is what the native call of a query returns. -/
theorem count_is_decode (Rc : Run (countBody d blocks nbytes nval lo hi) n)
    (Rd : Run (decodeBody d blocks nbytes nval) n) (mc md : Memory Held) :
    (Rc.anyFailed mc = Rd.anyFailed md ∧
      (Rd.anyFailed md = false → Rc.total mc = countInRange (decodedArray Rd md) lo hi)) ∧
    ∀ (decode : ℚ → List UInt8 → Values) (rate : ℚ), 0 < rate ∧ Int.fract (8 * rate) = 0 →
      (∀ bytes, d.ok bytes = true) → (∀ bytes (j : Fin 64), d.value bytes j = decode rate bytes j) →
      nbytes = blockBytes rate → nval = 64 →
        nativeCount decode blocks n nbytes rate blockDim lo hi = .ok (Rc.total mc) := by
  obtain ⟨htotal, hfc⟩ := counted_of_run Rc mc
  obtain ⟨-, hfd, -⟩ := decoded_of_run Rd md
  refine ⟨⟨hfc.trans hfd.symm, fun h => ?_⟩, fun decode rate hrate hok hvalue hbytes hval => ?_⟩
  · rw [hfd] at h
    rw [htotal, decodedArray_eq, countInRange_flatMap]
    refine congrArg List.sum (List.map_congr_left fun bid hbid => if_pos ?_)
    simpa [fails] using List.any_eq_false.mp h bid hbid
  · subst hbytes hval
    exact countBlocks_of_run hrate hok hvalue Rc mc

end Runs

/-- A decoder of blocks of one float32. -/
def wholeF32 : BlockDecoder := ⟨fun bytes => bytes.length = 4, fun bytes _ => F32.ofBytes bytes⟩

/-- The blocks 1.0 and 0.0. -/
def oneAndZero : List UInt8 := [0, 0, 128, 63, 0, 0, 0, 0]

/-- One worker, which takes the last block first. -/
def backwards : Schedule 2 := ⟨1, fun _ => [1, 0], by decide⟩

def emptyMemory : Memory Held
  | .out _ => F32.inf
  | .scratch _ => F32.inf
  | .count _ => 7
  | .failed _ => true

/-- Two workers count what one decodes: one value is above zero. -/
theorem count_is_decode_two :
    (Run.sequential (countBody wholeF32 oneAndZero 4 1 (.fin 0) .pinf) (.each 2)).total emptyMemory =
      countInRange (decodedArray (Run.sequential (decodeBody wholeF32 oneAndZero 4 1) backwards)
        emptyMemory) (.fin 0) .pinf ∧
    (Run.sequential (countBody wholeF32 oneAndZero 4 1 (.fin 0) .pinf) (.each 2)).total emptyMemory =
      1 := by
  have h := count_is_decode (Run.sequential (countBody wholeF32 oneAndZero 4 1 (.fin 0) .pinf) (.each 2))
    (Run.sequential (decodeBody wholeF32 oneAndZero 4 1) backwards) emptyMemory emptyMemory
  have hok : (Run.sequential (decodeBody wholeF32 oneAndZero 4 1) backwards).anyFailed emptyMemory =
      false := by decide +kernel
  refine ⟨h.1.2 hok, ?_⟩
  rw [h.1.2 hok, decodedArray_eq]
  decide +kernel

end SkipZFP.Decode.Parallel
