import SkipZFP.Aggregate.Answers

/-! # The public queries

`query_gt`, `query_lt` and `query_range` check their bounds and make one count query of them. A call is an
error, or the program of that query.

* `rangeBounds_ok`: what bounds are accepted.
* `counts_query`: every run of a count query returns the exact count, or every one raises
  `FileNotFoundError`.
* `calls_exact`: **a public query counts exactly the finite values it is asked for.**
* `histogram`: **the bins of a histogram account for every finite value once**, whatever its cut points
  and the options of its queries.

Both need a zone map that is right, and values that are decoded as finite numbers: minus infinity is not
in the range of a query without a lower bound, and NaN is in no bin. -/

namespace SkipZFP.Api.Calls

open SkipZFP.Lib.Grid SkipZFP.Lib.Double SkipZFP.Lib.Float32 SkipZFP.Codec.Config SkipZFP.Codec.Pack
open SkipZFP.Lib.Next (isRounding_id)
open SkipZFP.Plan.Classify SkipZFP.Plan.Blocks SkipZFP.Plan.Shapes SkipZFP.Plan.Layers SkipZFP.Read.Gather
open SkipZFP.Read.Raise SkipZFP.Read.Store SkipZFP.Query.Run SkipZFP.Query.Count SkipZFP.Query.Pipelined
open SkipZFP.Query.Layers SkipZFP.Query.Reading SkipZFP.Query.Absent SkipZFP.Query.Bounds
open SkipZFP.Aggregate.Answers (readAt_storeMeta written_storeMeta exists_readMeta arrayOfZeros
  writtenOfZeros envOfZeros zeroValue metaRecords_zeros setup_zeros written_zeros wellDecoded_zeros
  key_zeros injective_zeros blockwise_firstValue)
open SkipZFP.Query.Written (markFirst getLayout_ofTwo writeMeta_of_metaRecords)
open SkipZFP.Lib.Float32.F32 (Nearest nearest_ofDouble ofDouble)

/-- What a call raises before it queries anything. -/
inductive CallError where
  | TypeError (msg : String)
  | ValueError (msg : String)

section Calls
variable {κ : Type} [LinearOrder κ] (round : Dbl → F32) (E : Env) (a : ZarrArray κ)

/-- `range_bounds`, and the query of its range. -/
def countBetween (lower upper : Option Dbl) (loInclusive hiInclusive : Bool) (opts : QueryOptions) :
    Except CallError (Program (QueryError κ) QueryResult) :=
  match rangeBounds round lower upper loInclusive hiInclusive with
  | .error msg => .error (.ValueError msg)
  | .ok (lo, hi) => .ok (queryAsync E a lo hi opts)

/-- **`query_gt`**. -/
def queryGt (threshold : Dbl) (inclusive : Bool) (opts : QueryOptions) :=
  countBetween round E a (some threshold) none inclusive true opts

/-- **`query_lt`**. -/
def queryLt (threshold : Dbl) (inclusive : Bool) (opts : QueryOptions) :=
  countBetween round E a none (some threshold) false inclusive opts

/-- **`query_range`**. -/
def queryRange (lower upper : Option Dbl) (loInclusive hiInclusive : Bool) (opts : QueryOptions) :
    Except CallError (Program (QueryError κ) QueryResult) :=
  if lower = none ∨ upper = none then
    .error (.TypeError "query_range needs both bounds; use query_gt or query_lt for one side")
  else countBetween round E a lower upper loInclusive hiInclusive opts

/-- **Every run of the query returns the count `n`, or every one raises** `FileNotFoundError` for a chunk
that is not stored. -/
def Counts (st : Setup) (n : ℕ) (p : Program (QueryError κ) QueryResult) : Prop :=
  (p.Always fun r => r.count = n) ∨
    Raises (fun e => ∃ cid < st.lt.planArgs.nChunk, a.get (a.keyOf st.lt cid) = none ∧
      e = .FileNotFoundError (a.keyOf st.lt cid)) p

/-- A run of the call has returned the count `n`. -/
def Answers (call : Except CallError (Program (QueryError κ) QueryResult)) (n : ℕ) : Prop :=
  ∃ p r, call = .ok p ∧ p.Reachable (.returned (.ok r)) ∧ r.count = n

end Calls

theorem rangeBounds_ok {round : Dbl → F32} {lower upper : Option Dbl} {li ui : Bool} {lo hi : Dbl}
    (h : rangeBounds round lower upper li ui = .ok (lo, hi)) :
    (∀ l ∈ lower, l ≠ .nan) ∧ (∀ u ∈ upper, u ≠ .nan) ∧ ∀ l ∈ lower, ∀ u ∈ upper, l ≤ u := by
  unfold rangeBounds at h
  split_ifs at h with h1 h2 h3
  have hl : ∀ l ∈ lower, l ≠ .nan := fun l hl hn => h1 (by rw [← hn]; exact hl)
  have hu : ∀ u ∈ upper, u ≠ .nan := fun u hu hn => h2 (by rw [← hn]; exact hu)
  refine ⟨hl, hu, fun l hl' u hu' => ?_⟩
  by_contra hle
  exact h3 ⟨l, hl', u, hu', (Dbl.not_le (hl l hl') (hu u hu')).mp hle⟩

theorem accepted_of_ok {κ : Type} [LinearOrder κ] {round : Dbl → F32} {E : Env} {a : ZarrArray κ}
    {lower upper : Option Dbl} {li ui : Bool} {opts : QueryOptions}
    {p : Program (QueryError κ) QueryResult} (h : countBetween round E a lower upper li ui opts = .ok p) :
    ∃ lo hi, rangeBounds round lower upper li ui = .ok (lo, hi) ∧ p = queryAsync E a lo hi opts := by
  unfold countBetween at h
  cases hb : rangeBounds round lower upper li ui with
  | error msg => rw [hb] at h; cases h
  | ok ends =>
    rw [hb] at h
    exact ⟨ends.1, ends.2, rfl, (Except.ok.inj h).symm⟩

theorem count_of_counts {κ : Type} {a : ZarrArray κ} {st : Setup} {n : ℕ}
    {p : Program (QueryError κ) QueryResult} (h : Counts a st n p) {r : QueryResult}
    (hr : p.Reachable (.returned (.ok r))) : r.count = n := by
  rcases h with h | h
  · rcases h.2 _ hr with ⟨q', hstep⟩ | ⟨v, hv, hcount⟩
    · cases hstep
    · cases hv
      exact hcount
  · rcases h.2 _ hr with ⟨q', hstep⟩ | ⟨e, he, -⟩
    · cases hstep
    · cases he

instance decidableMeets (lower upper : Option Dbl) (li ui : Bool) (x : Dbl) :
    Decidable (Meets lower upper li ui x) :=
  inferInstanceAs (Decidable (_ ∧ _))

theorem ends_of_rangeBounds {round : Dbl → F32} {lower upper : Option Dbl} {li ui : Bool} {lo hi : Dbl}
    (h : rangeBounds round lower upper li ui = .ok (lo, hi)) :
    lo = lowerEnd round lower li ∧ hi = upperEnd round upper ui := by
  unfold rangeBounds at h
  split_ifs at h
  cases h
  exact ⟨rfl, rfl⟩

section Exact
variable {κ : Type} [LinearOrder κ] {E : Env} {nat : Native F32} {a : ZarrArray κ} {st : Setup}
  {data : Tri → F32} {fill : F32} {zm : List UInt8}

variable (E a st zm) in
/-- Options with which the array is queried at the layer of `st` and its zone map is read. A pipelined
query adds up its counts as doubles. -/
structure Usable (opts : QueryOptions) : Prop where
  setup : setup a opts = .ok st
  zones : ∃ m, (readMeta E a opts st).Returns (· = m) ∧ m.1 = zm
  small : ∀ mo, st.pipelined opts = some mo →
    FixesIntegers E.fl ∧ 64 * st.lt.planArgs.totalBlocks < 2 ^ 53

variable {l : List ℕ} (hchunk : a.codec.chunkShape l = .ok a.chunk) (hfits : st.lt.planArgs.fits)
  (hW : Written nat a st.lt data fill) (hdec : Blockwise nat E.decode st.rate)
  (hpre : Prefixed nat a.codec st.layer) (hright : ∀ lo hi, RightStates E nat a st data fill zm lo hi)
include hchunk hfits hW hdec hpre hright

/-- **What a count query does**: with a needed chunk that is not stored it is an error. -/
theorem counts_query {opts : QueryOptions} (hu : Usable E a st zm opts) (lo hi : Dbl) :
    Counts a st ((indices a.shape).countP fun i => InRange lo hi (readAt nat a data fill st.layer i).val)
      (queryAsync E a lo hi opts) := by
  obtain ⟨m, hm, rfl⟩ := hu.zones
  by_cases hmiss : ∃ cid, Missing E a st m.1 lo hi false cid
  · refine Or.inr (raises_mono (fun e he => ?_) (raises_query hu.setup hW hchunk hfits hm hmiss))
    obtain ⟨cid, ⟨hlt, hnone, -⟩, rfl⟩ := he
    exact ⟨cid, hlt, hnone, rfl⟩
  · exact Or.inl (always_query hu.setup hW hchunk hfits hm hmiss hdec hpre hu.small (hright lo hi))

variable (hnum : ∀ i, Inside a.shape i → ∃ q, (readAt nat a data fill st.layer i).val = .fin q)
  {round : Dbl → F32} (hround : Nearest round)
include hnum hround

theorem counts_between {opts : QueryOptions} (hu : Usable E a st zm opts) {lower upper : Option Dbl}
    {li ui : Bool} {p : Program (QueryError κ) QueryResult}
    (h : countBetween round E a lower upper li ui opts = .ok p) :
    Counts a st ((indices a.shape).countP fun i =>
      Meets lower upper li ui (readAt nat a data fill st.layer i).val) p := by
  obtain ⟨lo, hi, hb, rfl⟩ := accepted_of_ok h
  obtain ⟨rfl, rfl⟩ := ends_of_rangeBounds hb
  obtain ⟨hl, hu', -⟩ := rangeBounds_ok hb
  convert counts_query hchunk hfits hW hdec hpre hright hu (lowerEnd round lower li)
    (upperEnd round upper ui) using 1
  refine List.countP_congr fun i hi => ?_
  obtain ⟨q, hq⟩ := hnum i (mem_indices.mp hi)
  have hfin : (readAt nat a data fill st.layer i).val ≠ .nan ∧
      (readAt nat a data fill st.layer i).val ≠ .ninf := by rw [hq]; simp
  simp only [decide_eq_true_eq]
  unfold InRange Meets
  rw [lower_iff hround hl li hfin.1, upper_iff hround hu' ui hfin.1 hfin.2]
  exact (and_congr_left fun _ => and_iff_right hfin.2).symm

theorem answers_between {opts : QueryOptions} (hu : Usable E a st zm opts) {lower upper : Option Dbl}
    {li ui : Bool} {n : ℕ} (h : Answers (countBetween round E a lower upper li ui opts) n) :
    n = (indices a.shape).countP fun i =>
      Meets lower upper li ui (readAt nat a data fill st.layer i).val := by
  obtain ⟨p, r, hcall, hrun, rfl⟩ := h
  exact count_of_counts (counts_between hchunk hfits hW hdec hpre hright hnum hround hu hcall) hrun

omit hnum hround hchunk hfits hW hdec hpre hright in
theorem queryRange_error (lower upper : Option Dbl) (li ui : Bool) (opts : QueryOptions) :
    (∀ p, queryRange round E a lower upper li ui opts ≠ .ok p) ↔ lower = none ∨ upper = none ∨
      lower = some .nan ∨ upper = some .nan ∨ ∃ l ∈ lower, ∃ u ∈ upper, u < l := by
  unfold queryRange countBetween rangeBounds
  by_cases h0 : lower = none ∨ upper = none
  · rw [if_pos h0]
    exact ⟨fun _ => by tauto, fun _ p h => by cases h⟩
  rw [if_neg h0]
  split_ifs with h1 h2 h3
  · exact ⟨fun _ => by tauto, fun _ p h => by cases h⟩
  · exact ⟨fun _ => by tauto, fun _ p h => by cases h⟩
  · exact ⟨fun _ => by tauto, fun _ p h => by cases h⟩
  · refine ⟨fun h => absurd rfl (h _), fun h => ?_⟩
    rcases h with h | h | h | h | h
    · exact absurd (Or.inl h) h0
    · exact absurd (Or.inr h) h0
    · exact absurd h h1
    · exact absurd h h2
    · exact absurd h h3

/-- **A public query counts exactly the values it is asked for.** For every array written chunk by chunk
whose zone map is right and whose values are decoded as finite numbers, whatever chunks full of the fill
value are left out, and all options:

* every run of a `query_gt`, `query_lt` or `query_range` that accepts its bounds returns the number of
  values, among those decoded at the layer queried, that meet these bounds, each inclusive or not as asked
  for; with a needed chunk that is not stored, every run raises `FileNotFoundError` for such a chunk;
* `query_range` is an error, before anything is read, exactly where a bound is missing or not a number or
  the lower exceeds the upper. -/
theorem calls_exact {opts : QueryOptions} (hu : Usable E a st zm opts) :
    (∀ threshold inclusive p, queryGt round E a threshold inclusive opts = .ok p →
      Counts a st ((indices a.shape).countP fun i =>
        Meets (some threshold) none inclusive true (readAt nat a data fill st.layer i).val) p) ∧
    (∀ threshold inclusive p, queryLt round E a threshold inclusive opts = .ok p →
      Counts a st ((indices a.shape).countP fun i =>
        Meets none (some threshold) false inclusive (readAt nat a data fill st.layer i).val) p) ∧
    (∀ lower upper li ui p, queryRange round E a lower upper li ui opts = .ok p →
      Counts a st ((indices a.shape).countP fun i =>
        Meets lower upper li ui (readAt nat a data fill st.layer i).val) p) ∧
    ∀ lower upper li ui, (∀ p, queryRange round E a lower upper li ui opts ≠ .ok p) ↔
      lower = none ∨ upper = none ∨ lower = some .nan ∨ upper = some .nan ∨
        ∃ l ∈ lower, ∃ u ∈ upper, u < l := by
  have hbetween := @counts_between κ _ E nat a st data fill zm l hchunk hfits hW hdec hpre hright hnum
    round hround opts hu
  refine ⟨fun t incl p h => hbetween h, fun t incl p h => hbetween h, fun lower upper li ui p h => ?_,
    fun lower upper li ui => queryRange_error lower upper li ui opts⟩
  unfold queryRange at h
  split_ifs at h
  exact hbetween h

/-! ### Histograms -/

omit [LinearOrder κ] hchunk hfits hW hdec hpre hright hnum hround in
theorem countP_add {α : Type*} {p q r : α → Bool} : ∀ {xs : List α},
    (∀ x ∈ xs, ((p x).toNat + (q x).toNat) = (r x).toNat) → xs.countP p + xs.countP q = xs.countP r
  | [], _ => rfl
  | x :: xs, h => by
    have hx := h x List.mem_cons_self
    have ih := countP_add fun y hy => h y (List.mem_cons_of_mem _ hy)
    rw [List.countP_cons, List.countP_cons, List.countP_cons, ← ih]
    cases hp : p x <;> cases hq : q x <;> cases hr : r x <;> simp [hp, hq, hr] at hx ⊢ <;> omega

end Exact

section Bins
variable {κ : Type} [LinearOrder κ] (round : Dbl → F32) (E : Env) (a : ZarrArray κ) (st : Setup)
  (zm : List UInt8)

/-- A run of `query_lt` has returned `n` for the values up to `t`, with some options. -/
def Below (t : Dbl) (n : ℕ) : Prop :=
  ∃ opts, Usable E a st zm opts ∧ Answers (queryLt round E a t true opts) n

/-- A run of `query_gt` has returned `n` for the values above `t`, with some options. -/
def Above (t : Dbl) (n : ℕ) : Prop :=
  ∃ opts, Usable E a st zm opts ∧ Answers (queryGt round E a t false opts) n

/-- **The bins of a histogram** that starts at `t`: each has its upper cut point and what a run of
`query_range` has returned for it, with some options. -/
def Bins : Dbl → List (Dbl × ℕ) → Prop
  | _, [] => True
  | t, (t', n) :: bins => (∃ opts, Usable E a st zm opts ∧
      Answers (queryRange round E a (some t) (some t') false true opts) n) ∧ Bins t' bins

/-- The last cut point. -/
def lastCut : Dbl → List (Dbl × ℕ) → Dbl
  | t, [] => t
  | _, (t', _) :: bins => lastCut t' bins

end Bins

section Histogram
variable {κ : Type} [LinearOrder κ] {E : Env} {nat : Native F32} {a : ZarrArray κ} {st : Setup}
  {data : Tri → F32} {fill : F32} {zm : List UInt8} {l : List ℕ} {round : Dbl → F32}
  (hchunk : a.codec.chunkShape l = .ok a.chunk) (hfits : st.lt.planArgs.fits)
  (hW : Written nat a st.lt data fill) (hdec : Blockwise nat E.decode st.rate)
  (hpre : Prefixed nat a.codec st.layer) (hright : ∀ lo hi, RightStates E nat a st data fill zm lo hi)
  (hnum : ∀ i, Inside a.shape i → ∃ q, (readAt nat a data fill st.layer i).val = .fin q)
  (hround : Nearest round)
include hchunk hfits hW hdec hpre hright hnum hround

theorem below_eq {t : Dbl} {n : ℕ} (h : Below round E a st zm t n) :
    n = (indices a.shape).countP fun i => (readAt nat a data fill st.layer i).val ≤ t := by
  obtain ⟨opts, hu, h⟩ := h
  rw [answers_between hchunk hfits hW hdec hpre hright hnum hround hu h]
  simp [Meets]

/-- **The bins count the values between the first and the last cut point.** -/
theorem bins_eq : ∀ {bins : List (Dbl × ℕ)} {t : Dbl}, Bins round E a st zm t bins →
    (indices a.shape).countP (fun i => (readAt nat a data fill st.layer i).val ≤ t) +
        (bins.map Prod.snd).sum =
      (indices a.shape).countP fun i => (readAt nat a data fill st.layer i).val ≤ lastCut t bins
  | [], t, _ => rfl
  | (t', n) :: bins, t, h => by
    obtain ⟨⟨opts, hu, h⟩, hbins⟩ := h
    have ih := bins_eq hbins
    have h : Answers (countBetween round E a (some t) (some t') false true opts) n := by
      unfold queryRange at h
      rwa [if_neg (by simp)] at h
    have hcount := answers_between hchunk hfits hW hdec hpre hright hnum hround hu h
    obtain ⟨p, -, hcall, -⟩ := h
    obtain ⟨lo, hi, hb, -⟩ := accepted_of_ok hcall
    obtain ⟨ht, -, hle⟩ := rangeBounds_ok hb
    have ht := ht t rfl
    have hle := hle t rfl t' rfl
    rw [List.map_cons, List.sum_cons, ← Nat.add_assoc]
    show _ = (indices a.shape).countP fun i => _ ≤ lastCut t' bins
    rw [← ih, hcount]
    congr 1
    refine countP_add fun i hi => ?_
    obtain ⟨q, hq⟩ := hnum i (mem_indices.mp hi)
    have hv : (readAt nat a data fill st.layer i).val ≠ .nan := by rw [hq]; simp
    simp only [Meets, Option.mem_def, Option.some.injEq, forall_eq', if_true, Bool.false_eq_true, if_false]
    by_cases hcut : (readAt nat a data fill st.layer i).val ≤ t
    · have hlt := Dbl.not_lt_of_le hcut
      have hle' := Dbl.le_trans hcut hle
      simp [hcut, hlt, hle']
    · have hlt := (Dbl.not_le hv ht).mp hcut
      simp [hcut, hlt]

/-- **The bins of a histogram account for every value once.** For every array written chunk by chunk whose
zone map is right and whose values are decoded as finite numbers, every list of cut points and all
options, each query with its own: what runs of `query_lt` up to the first cut point, of `query_range`
between any two of them, and of `query_gt` above the last have returned adds up to the number of values of
the array. -/
theorem histogram {bins : List (Dbl × ℕ)} {t : Dbl} {n n' : ℕ} (hbelow : Below round E a st zm t n)
    (hbins : Bins round E a st zm t bins) (habove : Above round E a st zm (lastCut t bins) n') :
    n + (bins.map Prod.snd).sum + n' = volume a.shape := by
  have hsum := bins_eq hchunk hfits hW hdec hpre hright hnum hround hbins
  obtain ⟨opts, hu, h⟩ := habove
  have hcount := answers_between hchunk hfits hW hdec hpre hright hnum hround hu h
  obtain ⟨p, -, hcall, -⟩ := h
  obtain ⟨lo, hi, hb, -⟩ := accepted_of_ok hcall
  have hlast := (rangeBounds_ok hb).1 _ rfl
  rw [below_eq hchunk hfits hW hdec hpre hright hnum hround hbelow, hsum, hcount]
  have hall : (indices a.shape).countP (fun _ => true) = volume a.shape := by
    rw [List.countP_true, length_indices]
  rw [← hall]
  refine countP_add fun i hi => ?_
  obtain ⟨q, hq⟩ := hnum i (mem_indices.mp hi)
  have hv : (readAt nat a data fill st.layer i).val ≠ .nan := by rw [hq]; simp
  simp only [Meets, Option.mem_def, Option.some.injEq, forall_eq', Bool.false_eq_true, if_false,
    reduceCtorEq, false_imp_iff, implies_true, and_true]
  by_cases hcut : (readAt nat a data fill st.layer i).val ≤ lastCut t bins
  · simp [hcut, Dbl.not_lt_of_le hcut]
  · simp [hcut, (Dbl.not_le hv hlast).mp hcut]

end Histogram

/-! ### An array of zeros -/

def zonesOfZeros : List UInt8 := [List.replicate 14 0, List.replicate 14 0].flatten

theorem usable_zeros : Usable envOfZeros writtenOfZeros setupOfTwo zonesOfZeros optionsOfTwo where
  setup := setup_zeros
  zones := exists_readMeta (Z := markFirst) (fun _ => rfl) rfl (a := arrayOfZeros) chunkShape_oneLayer
    (by decide) getLayout_ofTwo injective_zeros Nat.one_pos metaRecords_zeros setup_zeros
  small mo hmo := by cases hmo

theorem writtenZeros : Written (firstValue F32.bytes F32.ofBytes) writtenOfZeros setupOfTwo.lt
    (fun _ => zeroValue) zeroValue := written_storeMeta key_zeros 1 false _ written_zeros

theorem right_zeros (lo hi : Dbl) : RightStates envOfZeros (firstValue F32.bytes F32.ofBytes) writtenOfZeros
    setupOfTwo (fun _ => zeroValue) zeroValue zonesOfZeros lo hi :=
  (right_of_wellDecoded (E := envOfZeros) (a := writtenOfZeros)
    (oneLayer.chunkOk_of_chunkShape chunkShape_oneLayer) setup_zeros writtenZeros (isRounding_id 53)
    (writeMeta_of_metaRecords (by decide) metaRecords_zeros) wellDecoded_zeros).1 lo hi

theorem readAt_zeros (i : Tri) : (readAt (firstValue F32.bytes F32.ofBytes) writtenOfZeros
    (fun _ => zeroValue) zeroValue 0 i).val = .fin 0 := by
  have h : readAt (firstValue F32.bytes F32.ofBytes) writtenOfZeros (fun _ => zeroValue) zeroValue 0 =
      readAt _ arrayOfZeros _ _ 0 := readAt_storeMeta key_zeros 1 false _ _ _ _ _
  rw [h]
  show zeroValue.val = .fin 0
  decide +kernel

/-- A query that finds no MAYBE block returns. -/
theorem exists_run (lo hi : Dbl) (h : ∀ b < setupOfTwo.lt.planArgs.blocksPerChunk,
    isListed false (blockState envOfZeros writtenOfZeros setupOfTwo zonesOfZeros lo hi 0 b) = false) :
    ∃ r, (queryAsync envOfZeros writtenOfZeros lo hi optionsOfTwo).Reachable (.returned (.ok r)) := by
  obtain ⟨m, hm, hz⟩ := usable_zeros.zones
  have hn : setupOfTwo.lt.planArgs.nChunk = 1 := by decide +kernel
  have hmiss : ¬ ∃ cid, Missing envOfZeros writtenOfZeros setupOfTwo m.1 lo hi false cid := by
    rintro ⟨cid, hlt, -, b, hb, hlisted⟩
    obtain rfl : cid = 0 := by omega
    rw [hz, h b hb] at hlisted
    cases hlisted
  obtain ⟨r, hr, -⟩ := exists_of_always (always_query setup_zeros writtenZeros chunkShape_oneLayer
    (by decide +kernel) hm hmiss (blockwise_firstValue (by decide +kernel))
    (prefixed_firstValue F32.bytes F32.ofBytes oneLayer (by decide)) (fun mo hmo => by cases hmo)
    (by rw [hz]; exact right_zeros lo hi))
  exact ⟨r, hr⟩

/-- All values are above minus one, and every run says so. -/
theorem calls_exact_zeros : ∃ p,
    queryGt ofDouble envOfZeros writtenOfZeros (.fin (-1)) false optionsOfTwo = .ok p ∧
      (p.Always fun r => r.count = 128) := by
  obtain ⟨r, hr⟩ := exists_run (.fin (-1)) .pinf (by decide +kernel)
  have h := (calls_exact (E := envOfZeros) (a := writtenOfZeros) chunkShape_oneLayer (by decide +kernel)
    writtenZeros (blockwise_firstValue (by decide +kernel))
    (prefixed_firstValue F32.bytes F32.ofBytes oneLayer (by decide)) right_zeros
    (fun i _ => ⟨0, readAt_zeros i⟩) nearest_ofDouble usable_zeros).1 (.fin (-1)) false _ rfl
  rw [List.countP_eq_length.mpr fun i _ => ?_] at h
  · refine ⟨_, rfl, h.resolve_right fun hraises => ?_⟩
    rcases hraises.2 _ hr with ⟨q', hstep⟩ | ⟨e, he, -⟩
    · cases hstep
    · cases he
  · show decide (Meets _ _ _ _ (readAt _ _ _ _ 0 i).val) = true
    rw [readAt_zeros i]
    decide +kernel

/-- The bin from minus one to one, and what is on either side of it. -/
theorem histogram_zeros : ∃ n n' n'',
    Below ofDouble envOfZeros writtenOfZeros setupOfTwo zonesOfZeros (.fin (-1)) n ∧
      Bins ofDouble envOfZeros writtenOfZeros setupOfTwo zonesOfZeros (.fin (-1)) [(.fin 1, n')] ∧
      Above ofDouble envOfZeros writtenOfZeros setupOfTwo zonesOfZeros (.fin 1) n'' ∧
      n + n' + n'' = 128 := by
  obtain ⟨r, hr⟩ := exists_run .ninf (.fin (-1)) (by decide +kernel)
  obtain ⟨r', hr'⟩ := exists_run (.fin (-1)) (.fin 1) (by decide +kernel)
  obtain ⟨r'', hr''⟩ := exists_run (.fin 1) .pinf (by decide +kernel)
  have hbelow : Below ofDouble envOfZeros writtenOfZeros setupOfTwo zonesOfZeros (.fin (-1)) r.count :=
    ⟨_, usable_zeros, _, r, rfl, hr, rfl⟩
  have hb : rangeBounds ofDouble (some (.fin (-1))) (some (.fin 1)) false true =
      .ok (.fin (-1), .fin 1) := by
    unfold rangeBounds
    rw [if_neg (by simp), if_neg (by simp), if_neg (by simp)]
    rfl
  have hcall : queryRange ofDouble envOfZeros writtenOfZeros (some (.fin (-1))) (some (.fin 1)) false true
      optionsOfTwo = .ok (queryAsync envOfZeros writtenOfZeros (.fin (-1)) (.fin 1) optionsOfTwo) := by
    unfold queryRange countBetween
    rw [if_neg (by simp), hb]
  have hbins : Bins ofDouble envOfZeros writtenOfZeros setupOfTwo zonesOfZeros (.fin (-1))
      [(.fin 1, r'.count)] := ⟨⟨_, usable_zeros, _, r', hcall, hr', rfl⟩, trivial⟩
  have habove : Above ofDouble envOfZeros writtenOfZeros setupOfTwo zonesOfZeros (.fin 1) r''.count :=
    ⟨_, usable_zeros, _, r'', rfl, hr'', rfl⟩
  have h := histogram (a := writtenOfZeros) chunkShape_oneLayer (by decide +kernel) writtenZeros
    (blockwise_firstValue (by decide +kernel))
    (prefixed_firstValue F32.bytes F32.ofBytes oneLayer (by decide)) right_zeros
    (fun i _ => ⟨0, readAt_zeros i⟩) nearest_ofDouble hbelow hbins habove
  exact ⟨_, _, _, hbelow, hbins, habove, h⟩

end SkipZFP.Api.Calls
