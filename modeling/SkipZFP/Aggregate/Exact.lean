import SkipZFP.Aggregate.Run
import SkipZFP.Aggregate.Sound

/-! # The exact totals of an aggregate

Beside the intervals an aggregate reports the count, the sum and the mean of the decoded values in a
range. `Totals` says that what was added up are these totals for a list of values, and that every other
sum is a number, in any arithmetic; the sum of the values is exact where no sum is rounded.

* `totals_addValue`, `totals_items`: a value, and the blocks of a read.
* `readGroup_aggRead`: **a merged read adds up the values of its group**.
* `combine_totals`: **what is combined out of the reads** are the totals of all values. -/

namespace SkipZFP.Aggregate.Exact

open SkipZFP.Lib.Grid SkipZFP.Lib.Rows SkipZFP.Lib.Double SkipZFP.Lib.Float32 SkipZFP.Codec.Config
open SkipZFP.Plan.Classify SkipZFP.Plan.Blocks SkipZFP.Plan.Shapes SkipZFP.Read.Merge
open SkipZFP.Read.Store SkipZFP.Read.Stream SkipZFP.Query.Run SkipZFP.Aggregate.Block
open SkipZFP.Aggregate.Combine SkipZFP.Aggregate.Run
open SkipZFP.Aggregate.Sound (matching matching_append larger_fin smaller_fin smaller_zero larger_zero
  fsum_fin fsum_of_exists)

/-- **The totals of values**, of those in the range, in any arithmetic. -/
structure Totals (A : Arith) (lo hi : Dbl) (vs : List F32) (acc : SzAggregate) : Prop where
  count : acc.recCount = (matching lo hi vs).length
  recSum : ∃ q, acc.recSum = .fin q ∧ (A.fl = id → q = (matching lo hi vs).sum)
  sureLo : ∃ q, acc.sureSumLo = .fin q
  sureHi : ∃ q, acc.sureSumHi = .fin q
  neg : ∃ q, acc.maybeSumNeg = .fin q
  pos : ∃ q, acc.maybeSumPos = .fin q
  absTotal : ∃ q, acc.absTotal = .fin q

/-- What is known of a value that is read: it is a number, and in the range in an IN block. -/
def Known (lo hi : Dbl) (inBlock : Bool) (v : F32) : Prop :=
  ∃ r, v.val = .fin r ∧ (inBlock = true → InRange lo hi (.fin r))

theorem totals_init (A : Arith) (lo hi : Dbl) : Totals A lo hi [] .init where
  count := rfl
  recSum := ⟨0, rfl, fun _ => rfl⟩
  sureLo := ⟨0, rfl⟩
  sureHi := ⟨0, rfl⟩
  neg := ⟨0, rfl⟩
  pos := ⟨0, rfl⟩
  absTotal := ⟨0, rfl⟩

section Blocks
variable {A : Arith} {lo hi : Dbl} {vs : List F32} {acc : SzAggregate} {e : ℚ} {inBlock : Bool}

theorem totals_addRec {v : F32} (h : Totals A lo hi vs acc) (hv : Known lo hi inBlock v) :
    Totals A lo hi (vs ++ [v]) (addRec A inBlock lo hi { acc with
      absTotal := Dbl.add A.fl acc.absTotal (Dbl.add A.fl (Dbl.abs v.val) (.fin e)) } v) := by
  obtain ⟨r, hr, hin⟩ := hv
  obtain ⟨q, hq, hsum⟩ := h.recSum
  obtain ⟨t, ht⟩ := h.absTotal
  have habs : ∃ q, Dbl.add A.fl acc.absTotal (Dbl.add A.fl (Dbl.abs v.val) (.fin e)) = Dbl.fin q := by
    rw [ht, hr]
    exact ⟨_, rfl⟩
  unfold addRec
  by_cases hmatch : InRange lo hi (.fin r)
  · have hone : matching lo hi [v] = [r] := by
      unfold matching
      rw [List.filter_cons_of_pos (by rw [hr]; exact decide_eq_true hmatch), List.filter_nil,
        List.map_singleton, hr, Dbl.toRat_fin]
    rw [if_pos (Or.inr (by rwa [hr]))]
    refine { h with
      count := ?_
      recSum := ⟨A.fl (q + r), by rw [hq, hr]; rfl, fun hfl => ?_⟩
      absTotal := habs }
    · rw [matching_append, hone, List.length_append, ← h.count]
      rfl
    · rw [matching_append, hone, List.sum_append, List.sum_singleton, ← hsum hfl, hfl]
      rfl
  · have hnone : matching lo hi (vs ++ [v]) = matching lo hi vs := by
      rw [matching_append]
      unfold matching
      rw [List.filter_cons_of_neg (by rw [hr]; simpa using hmatch), List.filter_nil, List.map_nil,
        List.append_nil]
    rw [if_neg (by rw [hr]; exact not_or.mpr ⟨fun hblock => hmatch (hin hblock), hmatch⟩)]
    exact
      { h with
        count := by rw [hnone]; exact h.count
        recSum := ⟨q, hq, by rw [hnone]; exact hsum⟩
        absTotal := habs }

variable (hlo : lo ≠ .nan) (hhi : hi ≠ .nan)
include hlo hhi

/-- The bounds of a value are numbers, and the exact totals stay as they are. -/
theorem totals_addOriginal {v : F32} (h : Totals A lo hi vs acc) (hv : Known lo hi inBlock v) :
    Totals A lo hi vs (addOriginal A (.fin e) inBlock lo hi acc v) := by
  obtain ⟨r, hr, hin⟩ := hv
  have ha : Dbl.sub A.bound v.val (.fin e) = .fin (A.bound (r - e)) := by rw [hr, Dbl.sub_fin]
  have hb : Dbl.add A.bound v.val (.fin e) = .fin (A.bound (r + e)) := by rw [hr, Dbl.add_fin]
  unfold addOriginal
  rw [ha, hb]
  dsimp only
  by_cases hsure : inBlock = true ∨ lo < .fin (A.bound (r - e)) ∧ .fin (A.bound (r + e)) ≤ hi
  · have hends : lo ≠ .pinf ∧ hi ≠ .ninf := by
      constructor <;> rintro rfl <;> rcases hsure with hblock | ⟨h1, h2⟩
      · exact Dbl.not_pinf_lt _ (hin hblock).1
      · exact Dbl.not_pinf_lt _ h1
      · exact Dbl.not_fin_le_ninf _ (hin hblock).2
      · exact Dbl.not_fin_le_ninf _ h2
    obtain ⟨low, hlow, -⟩ := larger_fin hlo hends.1 (A.bound (r - e))
    obtain ⟨high, hhigh, -⟩ := smaller_fin hhi hends.2 (A.bound (r + e))
    obtain ⟨x, hx⟩ := h.sureLo
    obtain ⟨y, hy⟩ := h.sureHi
    rw [if_pos hsure, hlow, hhigh, hx, hy]
    exact { h with sureLo := ⟨_, rfl⟩, sureHi := ⟨_, rfl⟩ }
  rw [if_neg hsure]
  by_cases hout : .fin (A.bound (r + e)) ≤ lo ∨ hi < .fin (A.bound (r - e))
  · rw [if_neg (not_not.mpr hout)]
    exact h
  · obtain ⟨low, hlow, -⟩ := larger_fin hlo (fun h => hout (Or.inl (by rw [h]; exact Dbl.fin_le_pinf _)))
      (A.bound (r - e))
    obtain ⟨high, hhigh, -⟩ := smaller_fin hhi (fun h => hout (Or.inr (by rw [h]; exact Dbl.ninf_lt_fin _)))
      (A.bound (r + e))
    obtain ⟨x, hx⟩ := h.neg
    obtain ⟨y, hy⟩ := h.pos
    rw [if_pos hout, hlow, hhigh, hx, hy, smaller_zero, larger_zero]
    exact { h with neg := ⟨_, rfl⟩, pos := ⟨_, rfl⟩ }

theorem totals_addValue {v : F32} (h : Totals A lo hi vs acc) (hv : Known lo hi inBlock v) :
    Totals A lo hi (vs ++ [v]) (addValue A (.fin e) inBlock lo hi acc v) :=
  totals_addOriginal hlo hhi (totals_addRec h hv) hv

theorem totals_block {values : List F32} (h : Totals A lo hi vs acc)
    (hv : ∀ v ∈ values, Known lo hi inBlock v) :
    Totals A lo hi (vs ++ values) (aggregateBlock A (.fin e) inBlock lo hi acc values) := by
  unfold aggregateBlock
  induction values generalizing vs acc with
  | nil =>
    rw [List.append_nil]
    exact h
  | cons v values ih =>
    have hstep := totals_addValue hlo hhi (e := e) h (hv v List.mem_cons_self)
    have hrest := ih hstep fun w hw => hv w (List.mem_cons_of_mem v hw)
    rwa [List.append_assoc] at hrest

theorem totals_items {items : List Item} {values : Item → List F32} (h : Totals A lo hi vs acc)
    (hitems : ∀ x ∈ items, (∃ e, x.eps.val = .fin e) ∧ ∀ v ∈ values x, Known lo hi x.inBlock v) :
    Totals A lo hi (vs ++ items.flatMap values) (items.foldl (fun acc x =>
      aggregateBlock A x.eps.val x.inBlock lo hi acc (values x)) acc) := by
  induction items generalizing vs acc with
  | nil =>
    rw [List.flatMap_nil, List.append_nil]
    exact h
  | cons x items ih =>
    obtain ⟨⟨e, he⟩, hv⟩ := hitems x List.mem_cons_self
    have hstep := totals_block hlo hhi (e := e) h hv
    rw [← he] at hstep
    have hrest := ih hstep fun y hy => hitems y (List.mem_cons_of_mem x hy)
    rwa [List.append_assoc, ← List.flatMap_cons] at hrest

end Blocks

/-! ### A read -/

theorem checkItems_ok {size n : ℕ} : ∀ {items : List Item},
    (∀ x ∈ items, x.offset + n ≤ size ∧ .fin 0 ≤ x.eps.val ∧ x.eps.val ≠ .pinf) →
      checkItems size n items = .ok ()
  | [], _ => rfl
  | x :: items, h => by
    obtain ⟨h1, h2, h3⟩ := h x List.mem_cons_self
    unfold checkItems
    rw [if_neg (by omega), if_neg (not_or.mpr ⟨not_not.mpr h2, h3⟩)]
    exact checkItems_ok fun y hy => h y (List.mem_cons_of_mem x hy)

/-- **What is added up**, when every block is in the buffer and has a bound. -/
theorem aggregateOffsets_eq (decode : ℚ → List UInt8 → Values) (A : Arith) {rate : ℚ}
    (hr : 0 < rate ∧ Int.fract (8 * rate) = 0) {buf : List UInt8} {items : List Item}
    (h : ∀ x ∈ items, x.offset + blockBytes rate ≤ buf.length ∧ .fin 0 ≤ x.eps.val ∧ x.eps.val ≠ .pinf)
    (lo hi : Dbl) : aggregateOffsets decode A buf items (blockBytes rate) rate blockDim lo hi =
      .ok (items.foldl (fun acc x => aggregateBlock A x.eps.val x.inBlock lo hi acc
        (List.ofFn (decode rate (slice buf x.offset (x.offset + blockBytes rate))))) .init) := by
  unfold aggregateOffsets
  by_cases h0 : items = []
  · subst h0
    rfl
  · rw [if_neg h0, blockLayout_eq hr]
    dsimp only
    rw [if_neg (by decide), if_neg (not_not.mpr rfl), checkItems_ok h]
    rfl

section Read
variable {κ : Type} {E : Env} {A : Arith} {a : ZarrArray κ} {st : Setup} {lo hi : Dbl}
  {g : List (ℕ × ℕ)} {entry : ℕ × ℕ → Listed} {values : ℕ × ℕ → List F32}

/-- What the C function gets for a listed block of a read that starts at block `firstBlock`. -/
def itemOf (blockSize firstBlock : ℕ) (l : Listed) : Item :=
  ⟨(l.block - firstBlock) * blockSize, l.eps, l.state = .IN⟩

theorem readGroup_aggRead (hlo : lo ≠ .nan) (hhi : hi ≠ .nan)
    (hr : 0 < st.rate ∧ Int.fract (8 * st.rate) = 0) (hbytes : st.layerBytes 0 = blockBytes st.rate)
    (hrate : st.lt.layers.getD 0 0 = st.rate) (hdim : st.lt.blockDim = blockDim)
    (hg : Stored a (a.keyOf st.lt) (blockBytes st.rate) 0 g) (hentry : ∀ id, (entry id).block = id.2)
    (hvalues : ∀ id ∈ g, List.ofFn (E.decode st.rate
      (storedBlock a (a.keyOf st.lt) (blockBytes st.rate) 0 id)) = values id)
    (heps : ∀ id ∈ g, ∃ e, (entry id).eps.val = .fin e ∧ 0 ≤ e) :
    ∃ acc, readGroup a (a.keyOf st.lt) (st.layerBytes 0) 0 (aggRead E A lo hi st) g (g.map entry) =
      .ok ((acc, g.length), groupBytes (blockBytes st.rate) g) ∧
        ((∀ id ∈ g, ∀ v ∈ values id, Known lo hi ((entry id).state = .IN) v) →
          Totals A lo hi (g.flatMap values) acc) := by
  obtain ⟨data, hdata, hid⟩ := readOne_group hg 0
  set n := blockBytes st.rate with hn
  set items := (g.map entry).map (itemOf n (g.headD (0, 0)).2) with hitems
  set decoded : Item → List F32 := fun x =>
    List.ofFn (E.decode st.rate (slice data x.offset (x.offset + n))) with hdecoded
  -- every item is the one of a block of the group
  have hitem : ∀ x ∈ items, ∃ id ∈ g, x = itemOf n (g.headD (0, 0)).2 (entry id) ∧
      x.offset = (id.2 - (g.headD (0, 0)).2) * n := by
    intro x hx
    obtain ⟨l, hl, rfl⟩ := List.mem_map.mp hx
    obtain ⟨id, hmem, rfl⟩ := List.mem_map.mp hl
    refine ⟨id, hmem, rfl, ?_⟩
    show ((entry id).block - _) * n = _
    rw [hentry]
  have hdecode : ∀ id ∈ g, decoded (itemOf n (g.headD (0, 0)).2 (entry id)) = values id := by
    intro id hmem
    rw [← hvalues id hmem, ← (hid id hmem).2, ← hentry id]
    rfl
  have hcheck : ∀ x ∈ items, x.offset + n ≤ data.length ∧ .fin 0 ≤ x.eps.val ∧ x.eps.val ≠ .pinf := by
    intro x hx
    obtain ⟨id, hmem, rfl, hoffset⟩ := hitem x hx
    obtain ⟨e, he, hpos⟩ := heps id hmem
    have heps : (itemOf n (g.headD (0, 0)).2 (entry id)).eps.val = .fin e := he
    rw [hoffset, heps, Dbl.fin_le_fin]
    exact ⟨(hid id hmem).1, hpos, by simp⟩
  have hagg := aggregateOffsets_eq E.decode A hr hcheck lo hi
  have hvals : items.flatMap decoded = g.flatMap values := by
    rw [hitems, List.map_map, List.flatMap_map]
    exact List.flatMap_congr fun id hmem => hdecode id hmem
  have htotals : (∀ id ∈ g, ∀ v ∈ values id, Known lo hi ((entry id).state = .IN) v) →
      Totals A lo hi (g.flatMap values) (items.foldl (fun acc x =>
        aggregateBlock A x.eps.val x.inBlock lo hi acc (decoded x)) .init) := by
    intro hknown
    have h := totals_items hlo hhi (totals_init A lo hi) fun x hx => by
      obtain ⟨id, hmem, rfl, -⟩ := hitem x hx
      obtain ⟨e, he, -⟩ := heps id hmem
      exact ⟨⟨e, he⟩, fun v hv => hknown id hmem v (by rw [← hdecode id hmem]; exact hv)⟩
    rwa [List.nil_append, hvals] at h
  refine ⟨_, ?_, htotals⟩
  unfold readGroup
  rw [hbytes]
  dsimp only
  rw [hdata, Except.bind, size_groupRead]
  unfold aggRead
  dsimp only [groupRead]
  rw [hbytes, hrate, hdim, List.length_map]
  exact congrArg (fun x => ((checked "szfp_aggregate_offsets_range" x).map fun out =>
    (out, g.length)).map fun out => (out, groupBytes n g)) hagg

end Read

/-! ### All reads -/

section Parts
variable {A : Arith} {lo hi : Dbl} {parts : List (SzAggregate × ℕ)} {vss : List (List F32)}

/-- Every read has the totals of its values. -/
abbrev AllTotals (A : Arith) (lo hi : Dbl) (parts : List (SzAggregate × ℕ)) (vss : List (List F32)) :
    Prop := List.Forall₂ (fun p vs => Totals A lo hi vs p.1) parts vss

theorem exists_totals (h : AllTotals A lo hi parts vss) {p : SzAggregate × ℕ} (hp : p ∈ parts) :
    ∃ vs, Totals A lo hi vs p.1 := by
  induction h with
  | nil => cases hp
  | cons ht _ ih =>
    rcases List.mem_cons.mp hp with rfl | hp
    · exact ⟨_, ht⟩
    · exact ih hp

theorem sum_recCount (h : AllTotals A lo hi parts vss) :
    (parts.map fun p => p.1.recCount).sum = (matching lo hi vss.flatten).length := by
  induction h with
  | nil => rfl
  | cons ht _ ih =>
    rw [List.map_cons, List.sum_cons, ih, ht.count, List.flatten_cons, matching_append, List.length_append]

theorem sum_recSum (hfl : A.fl = id) (h : AllTotals A lo hi parts vss) :
    (parts.map fun p => p.1.recSum.toRat).sum = (matching lo hi vss.flatten).sum := by
  induction h with
  | nil => rfl
  | cons ht _ ih =>
    obtain ⟨q, hq, hsum⟩ := ht.recSum
    rw [List.map_cons, List.sum_cons, ih, hq, Dbl.toRat_fin, hsum hfl, List.flatten_cons, matching_append,
      List.sum_append]

/-- **What an aggregate reports for values in the range**: their number, and where no sum is rounded their
sum and mean. -/
structure Reports (A : Arith) (vs : List ℚ) (c : Combined) : Prop where
  count : c.count = vs.length
  sum : A.fl = id → c.sum = .fin vs.sum
  mean : A.fl = id → c.mean = if vs = [] then none else some (.fin (vs.sum / vs.length))

theorem Reports.perm {vs vs' : List ℚ} {c : Combined} (h : Reports A vs c) (hp : vs.Perm vs') :
    Reports A vs' c where
  count := h.count.trans hp.length_eq
  sum hfl := by rw [← hp.sum_eq]; exact h.sum hfl
  mean hfl := by
    have hnil : vs' = [] ↔ vs = [] := by
      rw [← List.length_eq_zero_iff, ← List.length_eq_zero_iff, hp.length_eq]
    rw [if_congr hnil rfl rfl, ← hp.sum_eq, ← hp.length_eq]
    exact h.mean hfl

/-- **What is combined out of the totals of the reads.** -/
theorem combine_totals (valuesPerBlock : ℕ) (h : AllTotals A lo hi parts vss) :
    ∃ c, combine A valuesPerBlock parts = .ok c ∧ Reports A (matching lo hi vss.flatten) c := by
  have htotal : fsum A.fl (parts.map fun p => p.1.recSum) =
      .ok (.fin (A.fl (parts.map fun p => p.1.recSum.toRat).sum)) := by
    rw [← fsum_fin, List.map_map]
    refine congrArg (fsum A.fl) (List.map_congr_left fun p hp => ?_)
    obtain ⟨vs, ht⟩ := exists_totals h hp
    obtain ⟨q, hq, -⟩ := ht.recSum
    rw [Function.comp_apply, hq, Dbl.toRat_fin]
  obtain ⟨slack, hslack⟩ := fsum_of_exists A.fl (f := slackOf A valuesPerBlock) fun p hp => by
    obtain ⟨vs, ht⟩ := exists_totals h hp
    obtain ⟨q, hq⟩ := ht.absTotal
    unfold slackOf
    rw [hq]
    exact ⟨_, rfl⟩
  obtain ⟨sureLo, hsureLo⟩ := fsum_of_exists A.fl (f := fun p : SzAggregate × ℕ => p.1.sureSumLo)
    fun p hp => (exists_totals h hp).elim fun _ ht => ht.sureLo
  obtain ⟨sureHi, hsureHi⟩ := fsum_of_exists A.fl (f := fun p : SzAggregate × ℕ => p.1.sureSumHi)
    fun p hp => (exists_totals h hp).elim fun _ ht => ht.sureHi
  obtain ⟨neg, hneg⟩ := fsum_of_exists A.fl (f := fun p : SzAggregate × ℕ => p.1.maybeSumNeg)
    fun p hp => (exists_totals h hp).elim fun _ ht => ht.neg
  obtain ⟨pos, hpos⟩ := fsum_of_exists A.fl (f := fun p : SzAggregate × ℕ => p.1.maybeSumPos)
    fun p hp => (exists_totals h hp).elim fun _ ht => ht.pos
  unfold combine
  rw [htotal, hslack, hsureLo, hsureHi, hneg, hpos]
  refine ⟨_, rfl, sum_recCount h, fun hfl => ?_, fun hfl => ?_⟩ <;> dsimp only
  · rw [sum_recSum hfl h, hfl, id_eq]
  rw [sum_recCount h, sum_recSum hfl h, hfl]
  by_cases h0 : matching lo hi vss.flatten = []
  · rw [if_pos h0, h0]
    rfl
  · have hne : (matching lo hi vss.flatten).length ≠ 0 := fun hlen => h0 (List.length_eq_zero_iff.mp hlen)
    unfold ofNat
    rw [if_neg h0, if_pos hne, hfl, id_eq, id_eq, Dbl.div_fin _ _ (by exact_mod_cast hne)]
    rfl

end Parts

end SkipZFP.Aggregate.Exact
