import SkipZFP.Aggregate.Answers
import SkipZFP.Query.Stored

/-! # Aggregates and queries of any store

An aggregate counts too. It reads the IN blocks as well, which a query counts unread, and it adds up the
values of the blocks one read at a time. On any store, with any zone map, the two agree.

* `Counts`: **the invariant of the totals**, the exact count between the sure and the possible matches;
  `counts_addValue`, `counts_items`, `counts_readGroup` keep it.
* `mayReturn_whole`: what an aggregate has returned counts the stored bytes of all listed blocks.
* `aggregate_agrees`: **where an aggregate has returned, every query returns its count**. -/

namespace SkipZFP.Aggregate.Stored

open SkipZFP.Lib.Grid SkipZFP.Lib.Rows SkipZFP.Lib.Loops SkipZFP.Lib.Double SkipZFP.Lib.Float32
open SkipZFP.Codec.Config SkipZFP.Codec.Pack SkipZFP.Codec.Meta SkipZFP.Plan.Classify SkipZFP.Plan.Blocks
open SkipZFP.Plan.Shapes
open SkipZFP.Plan.Records SkipZFP.Plan.Slabs SkipZFP.Read.Merge SkipZFP.Read.Budget SkipZFP.Read.Gather
open SkipZFP.Read.Missing SkipZFP.Read.Store SkipZFP.Read.Stream SkipZFP.Query.Run SkipZFP.Query.Count
open SkipZFP.Query.Slabs SkipZFP.Query.Layers SkipZFP.Query.Pipelined SkipZFP.Query.Absent
open SkipZFP.Query.Stored SkipZFP.Aggregate.Block
open SkipZFP.Aggregate.Combine SkipZFP.Aggregate.Run SkipZFP.Aggregate.Pipelined SkipZFP.Aggregate.Absent
open SkipZFP.Aggregate.Damaged SkipZFP.Query.Reading
open SkipZFP.Aggregate.Exact (itemOf)
open SkipZFP.Aggregate.Answers (layer_of_setup)

/-! ### The counts of an aggregate -/

/-- The exact count is `n`, at least the sure matches and at most the sure and the possible ones. -/
structure Counts (n : ℕ) (acc : SzAggregate) : Prop where
  exact : acc.recCount = n
  sure_le : acc.sureCount ≤ n
  le_possible : n ≤ acc.sureCount + acc.maybeCount

/-- What the values of a block add to the exact count. -/
def matchCount (lo hi : Dbl) (inBlock : Bool) (values : List F32) : ℕ :=
  values.countP fun v => inBlock = true ∨ InRange lo hi v.val

section Values
variable {A : Arith} {lo hi : Dbl} {e : ℚ} {inBlock : Bool} {acc : SzAggregate} {n : ℕ}

theorem counts_init : Counts 0 .init := ⟨rfl, le_rfl, le_rfl⟩

variable (A lo hi inBlock) in
theorem counts_addRec (acc : SzAggregate) (v : F32) :
    (addRec A inBlock lo hi acc v).recCount = acc.recCount +
        (if inBlock = true ∨ InRange lo hi v.val then 1 else 0) ∧
      (addRec A inBlock lo hi acc v).sureCount = acc.sureCount ∧
        (addRec A inBlock lo hi acc v).maybeCount = acc.maybeCount := by
  unfold addRec
  split_ifs <;> simp

variable (hmono : ∀ x y, x ≤ y → A.bound x ≤ A.bound y)
  (hfix : ∀ (f : F32) (q : ℚ), f.val = .fin q → A.bound q = q) (he : 0 ≤ e)
include hmono hfix he

/-- The rounded bounds of a value enclose it, unless it is not a number. -/
theorem bounds_enclose {v : F32} (hv : v.val ≠ .nan) :
    Dbl.sub A.bound v.val (.fin e) ≤ v.val ∧ v.val ≤ Dbl.add A.bound v.val (.fin e) := by
  cases h : v.val with
  | nan => exact absurd h hv
  | fin q =>
    rw [Dbl.sub_fin, Dbl.add_fin, Dbl.fin_le_fin, Dbl.fin_le_fin]
    have h1 := hmono (q - e) q (by linarith)
    have h2 := hmono q (q + e) (by linarith)
    rw [hfix v q h] at h1 h2
    exact ⟨h1, h2⟩
  | ninf => exact ⟨Dbl.ninf_le_ninf, Dbl.ninf_le_ninf⟩
  | pinf => exact ⟨Dbl.pinf_le_pinf, Dbl.pinf_le_pinf⟩

theorem inRange_of_sure {v : F32} (h : lo < Dbl.sub A.bound v.val (.fin e) ∧
    Dbl.add A.bound v.val (.fin e) ≤ hi) : InRange lo hi v.val := by
  have hv : v.val ≠ .nan := by
    intro hv
    rw [hv] at h
    exact Dbl.not_lt_nan _ h.1
  obtain ⟨h1, h2⟩ := bounds_enclose hmono hfix he hv
  exact ⟨Dbl.lt_of_lt_of_le h.1 h1, Dbl.le_trans h2 h.2⟩

theorem possible_of_inRange {v : F32} (h : InRange lo hi v.val) :
    ¬ (Dbl.add A.bound v.val (.fin e) ≤ lo ∨ hi < Dbl.sub A.bound v.val (.fin e)) := by
  obtain ⟨h1, h2⟩ := bounds_enclose hmono hfix he (Dbl.ne_nan_of_lt h.1).2
  rintro (hout | hout)
  · exact Dbl.not_le_of_lt (Dbl.lt_of_lt_of_le h.1 h2) hout
  · exact Dbl.not_lt_of_le (Dbl.le_trans h1 h.2) hout

theorem counts_addValue (h : Counts n acc) (v : F32) :
    Counts (n + if inBlock = true ∨ InRange lo hi v.val then 1 else 0)
      (addValue A (.fin e) inBlock lo hi acc v) := by
  obtain ⟨hexact, hsure, hpossible⟩ := h
  have hin := @inRange_of_sure A lo hi e hmono hfix he v
  have hnot := @possible_of_inRange A lo hi e hmono hfix he v
  unfold addValue
  obtain ⟨hr, hs, hm⟩ := counts_addRec A lo hi inBlock
    { acc with absTotal := Dbl.add A.fl acc.absTotal (Dbl.add A.fl (Dbl.abs v.val) (.fin e)) } v
  set acc' := addRec A inBlock lo hi { acc with
    absTotal := Dbl.add A.fl acc.absTotal (Dbl.add A.fl (Dbl.abs v.val) (.fin e)) } v
  dsimp only at hr hs hm
  unfold addOriginal
  by_cases hmatch : inBlock = true ∨ InRange lo hi v.val
  · rw [if_pos hmatch] at hr ⊢
    by_cases h1 : inBlock = true ∨
        lo < Dbl.sub A.bound v.val (.fin e) ∧ Dbl.add A.bound v.val (.fin e) ≤ hi
    · rw [if_pos h1]
      constructor <;> dsimp only <;> omega
    · -- not an IN block, so the value itself is in the range
      rw [not_or] at h1
      rw [if_neg (not_or.mpr h1), if_pos (hnot (hmatch.resolve_left h1.1))]
      constructor <;> dsimp only <;> omega
  · rw [if_neg hmatch] at hr ⊢
    rw [not_or] at hmatch
    have h1 : ¬ (inBlock = true ∨
        lo < Dbl.sub A.bound v.val (.fin e) ∧ Dbl.add A.bound v.val (.fin e) ≤ hi) :=
      fun h => h.elim hmatch.1 fun h => hmatch.2 (hin h)
    rw [if_neg h1]
    by_cases hout : Dbl.add A.bound v.val (.fin e) ≤ lo ∨ hi < Dbl.sub A.bound v.val (.fin e)
    · rw [if_neg (not_not.mpr hout)]
      constructor <;> omega
    · rw [if_pos hout]
      constructor <;> dsimp only <;> omega

theorem counts_block {values : List F32} (h : Counts n acc) :
    Counts (n + matchCount lo hi inBlock values)
      (aggregateBlock A (.fin e) inBlock lo hi acc values) := by
  unfold aggregateBlock
  induction values generalizing n acc with
  | nil => exact h
  | cons v values ih =>
    have hone : Counts _ (addValue A (.fin e) inBlock lo hi acc v) :=
      counts_addValue hmono hfix he h v
    have hrest := ih hone
    unfold matchCount at hrest ⊢
    rw [List.countP_cons, Nat.add_comm (List.countP _ _), ← Nat.add_assoc]
    simp only [decide_eq_true_eq]
    exact hrest

omit he in
theorem counts_items {values : Item → List F32} {items : List Item}
    (hitems : ∀ x ∈ items, ∃ e, x.eps.val = .fin e ∧ 0 ≤ e) (h : Counts n acc) :
    Counts (n + (items.map fun x => matchCount lo hi x.inBlock (values x)).sum)
      (items.foldl (fun acc x => aggregateBlock A x.eps.val x.inBlock lo hi acc (values x)) acc) := by
  induction items generalizing n acc with
  | nil => exact h
  | cons x items ih =>
    obtain ⟨e, hx, he⟩ := hitems x List.mem_cons_self
    have hone : Counts (n + matchCount lo hi x.inBlock (values x))
        (aggregateBlock A x.eps.val x.inBlock lo hi acc (values x)) := by
      rw [hx]
      exact counts_block hmono hfix he h
    rw [List.map_cons, List.sum_cons, ← Nat.add_assoc]
    exact ih (fun y hy => hitems y (List.mem_cons_of_mem x hy)) hone

end Values

theorem eps_of_checkItems {size n : ℕ} : ∀ {items : List Item}, checkItems size n items = .ok () →
    ∀ x ∈ items, ∃ e, x.eps.val = .fin e ∧ 0 ≤ e
  | [], _ => by simp
  | x :: items, h => by
    unfold checkItems at h
    split_ifs at h with h1 h2
    rw [not_or, not_not] at h2
    intro y hy
    rcases List.mem_cons.mp hy with rfl | hy
    · cases hval : y.eps.val with
      | fin e =>
        rw [hval, Dbl.fin_le_fin] at h2
        exact ⟨e, rfl, h2.1⟩
      | _ => simp [hval] at h2
    · exact eps_of_checkItems h y hy

/-- **What is aggregated** when nothing is refused. -/
theorem aggregateOffsets_ok {decode : ℚ → List UInt8 → Values} {A : Arith} {buf : List UInt8}
    {items : List Item} {n dim : ℕ} {rate : ℚ} {lo hi : Dbl} {acc : SzAggregate}
    (h : aggregateOffsets decode A buf items n rate dim lo hi = .ok acc) :
    (∀ x ∈ items, ∃ e, x.eps.val = .fin e ∧ 0 ≤ e) ∧ acc = items.foldl (fun acc x =>
      aggregateBlock A x.eps.val x.inBlock lo hi acc
        (List.ofFn (decode rate (slice buf x.offset (x.offset + n))))) .init := by
  unfold aggregateOffsets at h
  by_cases h0 : items = []
  · rw [if_pos h0] at h
    subst h0
    exact ⟨by simp, (Except.ok.inj h).symm⟩
  rw [if_neg h0] at h
  cases hlayout : blockLayout dim rate with
  | none => rw [hlayout] at h; cases h
  | some size =>
    rw [hlayout] at h
    dsimp only at h
    split_ifs at h
    cases hcheck : checkItems buf.length n items with
    | error e => rw [hcheck] at h; cases h
    | ok u =>
      rw [hcheck] at h
      exact ⟨eps_of_checkItems hcheck, (Except.ok.inj h).symm⟩

/-! ### Reads -/

section Reads
variable {κ : Type} {E : Env} {A : Arith} {a : ZarrArray κ} {st : Setup} {lo hi : Dbl}
  {g : List (ℕ × ℕ)} {entry : ℕ × ℕ → Listed} {x : (SzAggregate × ℕ) × ℕ}
  (hmono : ∀ x y, x ≤ y → A.bound x ≤ A.bound y)
  (hfix : ∀ (f : F32) (q : ℚ), f.val = .fin q → A.bound q = q)

variable (E a st lo hi) in
/-- What the stored bytes of a listed block add to the exact count. -/
def blockMatches (entry : ℕ × ℕ → Listed) (id : ℕ × ℕ) : ℕ :=
  matchCount lo hi ((entry id).state = .IN)
    (List.ofFn (E.decode st.rate (storedBlock a (a.keyOf st.lt) (blockBytes st.rate) 0 id)))

include hmono hfix in
/-- **A merged read counts the stored bytes of its group.** -/
theorem counts_readGroup (hbytes : st.layerBytes 0 = blockBytes st.rate)
    (hrate : st.lt.layers.getD 0 0 = st.rate) (hg : Stored a (a.keyOf st.lt) (blockBytes st.rate) 0 g)
    (hentry : ∀ id, (entry id).block = id.2)
    (h : readGroup a (a.keyOf st.lt) (st.layerBytes 0) 0 (aggRead E A lo hi st) g (g.map entry) = .ok x) :
    Counts (g.map (blockMatches E a st lo hi entry)).sum x.1.1 := by
  obtain ⟨data, hdata, hid⟩ := readOne_group hg 0
  set n := blockBytes st.rate with hn
  set items := (g.map entry).map (itemOf n (g.headD (0, 0)).2) with hitems
  set values : Item → List F32 := fun y =>
    List.ofFn (E.decode st.rate (slice data y.offset (y.offset + n))) with hvalues
  have hread : ((checked "szfp_aggregate_offsets_range" (aggregateOffsets E.decode A data items n
      st.rate st.lt.blockDim lo hi) : Except (QueryError κ) SzAggregate).map fun out =>
        (out, (g.map entry).length)).map (fun y => (y, groupBytes n g)) = .ok x := by
    unfold readGroup at h
    rw [hbytes] at h
    dsimp only at h
    rw [hdata, Except.bind, size_groupRead] at h
    unfold aggRead at h
    rw [hbytes, hrate] at h
    exact h
  cases hagg : aggregateOffsets E.decode A data items n st.rate st.lt.blockDim lo hi with
  | error e =>
    rw [hagg] at hread
    cases hread
  | ok acc =>
    rw [hagg] at hread
    obtain rfl := Except.ok.inj hread
    obtain ⟨heps, hacc⟩ := aggregateOffsets_ok hagg
    have hcounts : Counts (0 + (items.map fun y => matchCount lo hi y.inBlock (values y)).sum) acc := by
      rw [hacc]
      exact counts_items hmono hfix heps counts_init
    have hsum : (items.map fun y => matchCount lo hi y.inBlock (values y)) =
        g.map (blockMatches E a st lo hi entry) := by
      rw [hitems, List.map_map, List.map_map]
      refine List.map_congr_left fun id hmem => ?_
      have hblock : values (itemOf n (g.headD (0, 0)).2 (entry id)) =
          List.ofFn (E.decode st.rate (storedBlock a (a.keyOf st.lt) n 0 id)) := by
        rw [← (hid id hmem).2, ← hentry id]
        rfl
      show matchCount lo hi _ (values (itemOf n _ (entry id))) = _
      rw [hblock]
      rfl
    rwa [hsum, Nat.zero_add] at hcounts

theorem counts_sum {f : List (ℕ × ℕ) → ℕ} {gs : List (List (ℕ × ℕ))}
    {parts : List ((SzAggregate × ℕ) × ℕ)} (h : List.Forall₂ (fun g p => Counts (f g) p.1.1) gs parts) :
    ((parts.map Prod.fst).map fun p => p.1.recCount).sum = (gs.map f).sum ∧
      ((parts.map Prod.fst).map fun p => p.1.sureCount).sum ≤ (gs.map f).sum ∧
        (gs.map f).sum ≤ ((parts.map Prod.fst).map fun p => p.1.sureCount).sum +
          ((parts.map Prod.fst).map fun p => p.1.maybeCount).sum := by
  induction h with
  | nil => simp
  | cons hone _ ih =>
    obtain ⟨h1, h2, h3⟩ := hone
    obtain ⟨ih1, ih2, ih3⟩ := ih
    simp only [List.map_cons, List.sum_cons]
    omega

end Reads

theorem combine_counts {A : Arith} {k : ℕ} {parts : List (SzAggregate × ℕ)} {c : Combined}
    (h : combine A k parts = .ok c) : c.count = (parts.map fun p => p.1.recCount).sum ∧
      c.originalCount = ((parts.map fun p => p.1.sureCount).sum,
        (parts.map fun p => p.1.sureCount).sum + (parts.map fun p => p.1.maybeCount).sum) := by
  unfold combine at h
  obtain ⟨_, -, h⟩ := bind_ok.mp h
  obtain ⟨_, -, h⟩ := bind_ok.mp h
  obtain ⟨_, -, h⟩ := bind_ok.mp h
  obtain ⟨_, -, h⟩ := bind_ok.mp h
  obtain ⟨_, -, h⟩ := bind_ok.mp h
  obtain ⟨_, -, h⟩ := bind_ok.mp h
  obtain rfl := Except.ok.inj h
  exact ⟨rfl, rfl⟩

/-! ### Every run of every aggregate -/

section Whole
variable {κ : Type} [LinearOrder κ] {E : Env} {A : Arith} {a : ZarrArray κ} {st : Setup} {lo hi : Dbl}
  {opts : QueryOptions} {returnBlocks : Bool} {m : List UInt8 × ℕ × ℕ} {r : AggregateResult}
  (hmono : ∀ x y, x ≤ y → A.bound x ≤ A.bound y)
  (hfix : ∀ (f : F32) (q : ℚ), f.val = .fin q → A.bound q = q)

variable (E a st lo hi m) in
/-- What the stored bytes of all listed blocks add to the exact count. -/
def listedCount : ℕ :=
  ((listedIds E a st m.1 lo hi).map (blockMatches E a st lo hi (entryOf E a st m.1 lo hi))).sum

variable (E a st lo hi m) in
/-- **An answer from the store**: the listed blocks are all stored, and what is counted are their
bytes. -/
structure FromStore (r : AggregateResult) : Prop where
  inside : ∀ id ∈ listedIds E a st m.1 lo hi, ∃ obj, a.get (a.keyOf st.lt id.1) = some obj ∧
    (id.2 + 1) * blockBytes st.rate ≤ obj.length
  count : r.combined.count = listedCount E a st lo hi m
  sure_le : r.combined.originalCount.1 ≤ r.combined.count
  le_possible : r.combined.count ≤ r.combined.originalCount.2
  inBlocks : r.inBlocks = countAll E.fl (planMeta a.codec st.layer st.lt.unitShape m.1)
    st.lt.planArgs lo hi .IN
  outBlocks : r.outBlocks =
    countAll E.fl (planMeta a.codec st.layer st.lt.unitShape m.1) st.lt.planArgs lo hi .OUT
  maybeBlocks : r.maybeBlocks = ((listedIds E a st m.1 lo hi).length : ℤ) - r.inBlocks

variable (hc : a.codec.ChunkOk a.chunk) (hst : Query.Run.setup a opts = .ok st) (h0 : st.layer = 0)
  (hfits : st.lt.planArgs.fits)

include hmono hfix hc hst h0 hfits in
omit [LinearOrder κ] in
/-- **What an aggregate with the whole zone map has returned** on any store. -/
theorem mayReturn_whole (hm : (readMeta E a opts st).Returns (· = m))
    (h : (wholeAggregate E A a lo hi opts returnBlocks st).MayReturn r) :
    FromStore E a st lo hi m r := by
  have hzero : planMeta a.codec 0 st.lt.unitShape m.1 = planMeta a.codec st.layer st.lt.unitShape m.1 := by
    rw [h0]
  have hplan : planAggregate E a lo hi opts st m = _ := planAggregate_eq (shapeOk_setup hc hst) hfits m
  rw [hzero, map_idOf, listing_eq] at hplan
  have h := mayReturn_of_bind (returns_done hplan rfl) (mayReturn_of_bind hm h)
  obtain ⟨parts, peak, hparts, hres⟩ := mayReturn_reads h
  set ids := listedIds E a st m.1 lo hi with hids
  set gs := groups (opts.mergeGapBlocks % 2 ^ 64) ids with hgs
  unfold aggregateTasks at hparts
  rw [mapM_readsOf, List.drop_zero, deal_groups, List.mapM_map] at hparts
  obtain ⟨hbytes, -⟩ := layer_zero hst h0
  have hrate : st.lt.layers.getD 0 0 = st.rate := by
    unfold Setup.rate
    rw [h0]
  -- a group that is read is stored, and its totals are those of its bytes
  have hread : List.Forall₂ (fun g p => (∀ id ∈ g, ∃ obj, a.get (a.keyOf st.lt id.1) = some obj ∧
      (id.2 + 1) * blockBytes st.rate ≤ obj.length) ∧
        Counts (g.map (blockMatches E a st lo hi (entryOf E a st m.1 lo hi))).sum p.1.1) gs parts := by
    refine forall₂_mapM_ok (fun g hg p hp => ?_) hparts
    obtain ⟨data, hdata, -⟩ := bind_ok.mp hp
    have hdata : readOne a (rangeOf (groupRead (a.keyOf st.lt) (blockBytes st.rate) 0 0 g)) = .ok data := by
      rw [← hbytes]
      exact hdata
    have hin : ∀ id ∈ g, ∃ obj, a.get (a.keyOf st.lt id.1) = some obj ∧
        (id.2 + 1) * blockBytes st.rate ≤ obj.length := by
      intro id hid
      have hend := end_le_of_readGroup (blockBytes_pos (rate_ok hst)) pairwise_listedIds hg hdata hid
      rwa [Nat.zero_add] at hend
    obtain ⟨-, hhead, hlast⟩ := mem_group hg
    have hjoins := joins_group pairwise_listedIds hg
    have hstored : Stored a (a.keyOf st.lt) (blockBytes st.rate) 0 g := by
      refine ⟨hjoins, (hjoins _ hhead).2.2, ?_⟩
      rw [Nat.zero_add, ← (hjoins _ hlast).1]
      exact hin _ hlast
    exact ⟨hin, counts_readGroup hmono hfix hbytes hrate hstored (fun _ => rfl) hp⟩
  obtain ⟨hinside, hcounts⟩ := (List.forall₂_and_left _ _).mp hread
  obtain ⟨hexact, hsure, hpossible⟩ := counts_sum hcounts
  have hsum : (gs.map fun g => (g.map (blockMatches E a st lo hi (entryOf E a st m.1 lo hi))).sum).sum =
      listedCount E a st lo hi m := sum_groups _ _ _
  rw [hsum] at hexact hsure hpossible
  have hinside : ∀ id ∈ ids, ∃ obj, a.get (a.keyOf st.lt id.1) = some obj ∧
      (id.2 + 1) * blockBytes st.rate ≤ obj.length := by
    intro id hid
    obtain ⟨g, hg, hmem, -⟩ := exists_group (opts.mergeGapBlocks % 2 ^ 64) pairwise_listedIds hid
    exact hinside g hg id hmem
  have hres : wholeResult A returnBlocks st m _ parts peak = .ok r := hres
  unfold wholeResult combined at hres
  cases hcomb : combine A st.lt.valuesPerBlock (parts.map Prod.fst) with
  | error msg =>
    rw [hcomb] at hres
    cases hres
  | ok c =>
    rw [hcomb] at hres
    obtain rfl := Except.ok.inj hres
    obtain ⟨hcount, horiginal⟩ := combine_counts hcomb
    have hlen : (ids.map (entryOf E a st m.1 lo hi)).length = ids.length := List.length_map _
    refine ⟨hinside, hcount.trans hexact, ?_, ?_, rfl, rfl, ?_⟩
    · show c.originalCount.1 ≤ c.count
      rw [hcount, horiginal, hexact]
      exact hsure
    · show c.count ≤ c.originalCount.2
      rw [hcount, horiginal, hexact]
      exact hpossible
    · exact congrArg (fun n : ℕ => (n : ℤ) - _) hlen

omit [LinearOrder κ] in
theorem sum_listedIds (f : ℕ × ℕ → ℕ) : ((listedIds E a st m.1 lo hi).map f).sum =
    ((List.range st.lt.planArgs.nChunk).map fun cid => ((List.range st.lt.planArgs.blocksPerChunk).map
      fun b => if isListed true (blockState E a st m.1 lo hi cid b) then f (cid, b) else 0).sum).sum := by
  have hsum := sum_blockIds st.lt.planArgs.nChunk st.lt.planArgs.blocksPerChunk
    fun id => if isListed true (blockState E a st m.1 lo hi id.1 id.2) then f id else 0
  dsimp only at hsum
  rw [hsum, List.sum_map_ite, List.map_const', List.sum_replicate, nsmul_zero, Nat.add_zero]
  unfold listedIds
  simp only [Bool.decide_eq_true]

omit [LinearOrder κ] in
/-- The listed blocks are the IN and the MAYBE blocks. -/
theorem length_listedIds : (listedIds E a st m.1 lo hi).length =
    countAll E.fl (planMeta a.codec st.layer st.lt.unitShape m.1) st.lt.planArgs lo hi .IN +
      countAll E.fl (planMeta a.codec st.layer st.lt.unitShape m.1) st.lt.planArgs lo hi .MAYBE := by
  set zm := planMeta a.codec st.layer st.lt.unitShape m.1 with hzm
  have hone : (listedIds E a st m.1 lo hi).length = ((listedIds E a st m.1 lo hi).map fun _ => 1).sum := by
    rw [List.map_const', List.sum_replicate, nsmul_eq_mul, Nat.cast_id, Nat.mul_one]
  have hstates := sum_states (n := 1) (p := st.lt.planArgs)
    (f := fun id => if isListed true (stateAt E.fl zm st.lt.planArgs lo hi id.1 id.2) then 1 else 0)
    (fun cid _ b _ h => by dsimp only; rw [h]; rfl) fun cid _ b _ h => by dsimp only; rw [h]; rfl
  have hmaybe : ((maybeIds E.fl zm st.lt.planArgs lo hi).map fun id =>
      if isListed true (stateAt E.fl zm st.lt.planArgs lo hi id.1 id.2) then 1 else 0) =
        (maybeIds E.fl zm st.lt.planArgs lo hi).map fun _ => 1 := by
    refine List.map_congr_left fun id hid => ?_
    rw [(mem_maybeIds.mp hid).2.2]
    rfl
  rw [hmaybe, List.map_const', List.sum_replicate, nsmul_eq_mul, Nat.cast_id, Nat.mul_one, Nat.mul_one,
    length_maybeIds] at hstates
  rw [hone, sum_listedIds]
  exact hstates

include hst h0 in
omit [LinearOrder κ] in
/-- **An aggregate counts what a query counts.** -/
theorem listedCount_eq : listedCount E a st lo hi m = ((List.range st.lt.planArgs.nChunk).map fun cid =>
    ((List.range st.lt.planArgs.blocksPerChunk).map fun b =>
      blockCount (blockState E a st m.1 lo hi cid b)
        (countValues E.decode st.rate lo hi (storedRow a st (cid, b)))).sum).sum := by
  unfold listedCount
  rw [sum_listedIds]
  refine congrArg List.sum (List.map_congr_left fun cid _ => congrArg List.sum
    (List.map_congr_left fun b _ => ?_))
  rw [storedRow_zero hst h0]
  unfold blockMatches entryOf matchCount isListed
  dsimp only
  cases hstate : blockState E a st m.1 lo hi cid b with
  | IN =>
    show List.countP _ (List.ofFn _) = 64
    rw [List.countP_eq_length.mpr fun v _ => by simp, List.length_ofFn]
  | OUT => rfl
  | MAYBE =>
    show List.countP _ (List.ofFn _) = countValues _ _ _ _ _
    unfold countValues
    rw [countInRange_eq]
    exact List.countP_congr fun v _ => by simp

include hmono hfix hfits in
omit hc hst h0 [LinearOrder κ] in
/-- **What any run of an aggregate has returned**, pipelined or not. -/
theorem fromStore_of_reachable {l : List ℕ} (hchunk : a.codec.chunkShape l = .ok a.chunk)
    (hagg : Aggregate.Run.setup a opts = .ok st) (hm : (readMeta E a opts st).Returns (· = m))
    (h : (aggregateAsync E A a lo hi opts returnBlocks).Reachable (.returned (.ok r))) :
    FromStore E a st lo hi m r := by
  have hc := a.codec.chunkOk_of_chunkShape hchunk
  have h0 := layer_of_setup hagg
  have hst := query_setup_of_aggregate hagg
  unfold aggregateAsync aggregate at h
  rw [hagg] at h
  dsimp only at h
  cases hmo : st.pipelined opts with
  | none =>
    rw [hmo] at h
    exact mayReturn_whole hmono hfix hc hst h0 hfits hm (mayReturn_of_reachable h)
  | some mo =>
    rw [hmo] at h
    have hsame : (wholeAggregate E A a lo hi opts returnBlocks st).SameUpTo _ _ :=
      same_aggregate (slabbed_of_setup hchunk hst hmo hfits) hmo
    obtain ⟨v, hv, hpeak⟩ := exists_of_always (hsame.2 r h)
    have hwhole := mayReturn_whole hmono hfix hc hst h0 hfits hm (mayReturn_of_reachable hv)
    rw [hpeak]
    exact ⟨hwhole.1, hwhole.2, hwhole.3, hwhole.4, hwhole.5, hwhole.6, hwhole.7⟩

include hmono hfix hfits in
omit hc hst h0 in
/-- **Where an aggregate has returned, every query of the same zone map returns its count.** For every
array, whatever its store and its zone map hold, and all options of both with which they read the same zone
map: when a run of an aggregate has returned, every run of a query of layer 0 for the same range returns,
with the count of the aggregate, which is in the interval that the aggregate gives for the original values,
and with as many IN, OUT and MAYBE blocks. Where an object of the zone map is missing they do not read the
same: by key it is an error, and opened as an array it is zeros. -/
theorem aggregate_agrees {l : List ℕ} {opts' : QueryOptions} {m' : List UInt8 × ℕ × ℕ}
    (hchunk : a.codec.chunkShape l = .ok a.chunk) (hkeys : DistinctKeys a st)
    (hagg : Aggregate.Run.setup a opts = .ok st) (hst' : Query.Run.setup a opts' = .ok st)
    (hm : (readMeta E a opts st).Returns (· = m)) (hm' : (readMeta E a opts' st).Returns (· = m'))
    (hzm : m'.1 = m.1) (hpipe : ∀ mo, st.pipelined opts' = some mo →
      FixesIntegers E.fl ∧ 64 * st.lt.planArgs.totalBlocks < 2 ^ 53)
    (h : (aggregateAsync E A a lo hi opts returnBlocks).Reachable (.returned (.ok r))) :
    (queryAsync E a lo hi opts').Always fun q => q.count = r.combined.count ∧
      (r.combined.originalCount.1 ≤ q.count ∧ q.count ≤ r.combined.originalCount.2) ∧
      q.inBlocks = r.inBlocks ∧ q.outBlocks = r.outBlocks ∧ (q.maybeBlocks : ℤ) = r.maybeBlocks := by
  have hstore := fromStore_of_reachable hmono hfix hfits hchunk hagg hm h
  have h0 := layer_of_setup hagg
  obtain ⟨hbytes, hstart⟩ := layer_zero hst' h0
  have hin : AllIn E a st lo hi opts' m' := by
    intro id hid j hj
    obtain ⟨hcid, hb, hlisted⟩ := mem_planned.mp hid
    rw [hzm] at hlisted
    have hmem : id ∈ listedIds E a st m.1 lo hi := by
      refine mem_listedIds.mpr ⟨hcid, hb, ?_⟩
      unfold isListed at hlisted ⊢
      simp_all
    obtain ⟨obj, hget, hlen⟩ := hstore.inside id hmem
    obtain rfl : j = 0 := by omega
    refine ⟨obj, hget, ?_⟩
    rwa [hstart, hbytes, Nat.zero_add]
  refine always_mono (fun q hq => ?_)
    (always_stored hchunk hst' hkeys hfits hm' hpipe hin fun hpos => absurd h0 (by omega))
  rw [storedCounts_eq, hzm] at hq
  unfold counts at hq
  simp only [List.cons.injEq, and_true] at hq
  obtain ⟨hcount, hnIn, hnOut, hnMaybe⟩ := hq
  have hsame : q.count = r.combined.count := by
    rw [hcount, hstore.count, listedCount_eq hst' h0]
    rfl
  refine ⟨hsame, ?_, hnIn.trans hstore.inBlocks.symm, hnOut.trans hstore.outBlocks.symm, ?_⟩
  · rw [hsame]
    exact ⟨hstore.sure_le, hstore.le_possible⟩
  · rw [hnMaybe, hstore.maybeBlocks, hstore.inBlocks, length_listedIds]
    omega

end Whole

/-! ### Two blocks -/

theorem exists_ok {ε α : Type} : ∀ {x : Except ε α}, x.toOption.isSome → ∃ y, x = .ok y
  | .ok y, _ => ⟨y, rfl⟩

/-- A zone map of zeros, which says that all values are zero. The second block has ones. -/
def arrayOfOnes : ZarrArray ℕ := onStore arrayOfTwo fun k =>
  if k = 0 then arrayOfTwo.get 0 else some (List.replicate 28 0)

theorem setup_ones : Query.Run.setup arrayOfOnes optionsOfTwo = .ok setupOfTwo := setup_ofTwo

theorem readMeta_ones : (readMeta envOfTwo arrayOfOnes optionsOfTwo setupOfTwo).Returns
    (· = (List.replicate 28 0, 28, 1)) := by
  unfold readMeta
  exact returns_zones rfl fun _ => returns_done rfl rfl

theorem exists_aggregate_ones : ∃ r, (aggregateAsync envOfTwo .exact arrayOfOnes (.fin (-1)) .pinf
    optionsOfTwo false).Reachable (.returned (.ok r)) := by
  obtain ⟨c, h⟩ : ∃ c, (planAggregate envOfTwo arrayOfOnes (.fin (-1)) .pinf optionsOfTwo setupOfTwo
      (List.replicate 28 0, 28, 1)).bind (fun p => ((p.2.2.2.map fun req => (req, p.1)).mapM (aggregateTasks
        envOfTwo .exact arrayOfOnes (.fin (-1)) .pinf optionsOfTwo setupOfTwo).readResult).bind fun parts =>
          combined .exact setupOfTwo (parts.map Prod.fst)) = .ok c := exists_ok (by decide +kernel)
  obtain ⟨p, hplan, h⟩ := bind_ok.mp h
  obtain ⟨parts, hparts, hcomb⟩ := bind_ok.mp h
  have hwhole : (wholeAggregate envOfTwo .exact arrayOfOnes (.fin (-1)) .pinf optionsOfTwo false
      setupOfTwo).Returns fun _ => True := by
    refine returns_bind (returns_mono (fun m hm => ?_) readMeta_ones)
    subst hm
    refine returns_bind (returns_done hplan (returns_reads hparts fun peak => ?_))
    have hres : ∃ r, wholeResult .exact false setupOfTwo (List.replicate 28 0, 28, 1) p parts peak =
        (.ok r : Except (QueryError ℕ) AggregateResult) := by
      unfold wholeResult
      rw [hcomb]
      exact ⟨_, rfl⟩
    obtain ⟨r, hr⟩ := hres
    exact returns_done hr trivial
  obtain ⟨r, hr, -⟩ := exists_of_always (always_of_returns hwhole)
  refine ⟨r, ?_⟩
  unfold aggregateAsync
  rw [setup_of_query setup_ones rfl]
  exact hr

/-- Every query of that range counts what an aggregate of it has counted. -/
theorem aggregate_agrees_ones : ∃ r, (aggregateAsync envOfTwo .exact arrayOfOnes (.fin (-1)) .pinf
    optionsOfTwo false).Reachable (.returned (.ok r)) ∧
      (queryAsync envOfTwo arrayOfOnes (.fin (-1)) .pinf optionsOfTwo).Always fun q =>
        q.count = r.combined.count ∧
          (r.combined.originalCount.1 ≤ q.count ∧ q.count ≤ r.combined.originalCount.2) ∧
          q.inBlocks = r.inBlocks ∧ q.outBlocks = r.outBlocks ∧ (q.maybeBlocks : ℤ) = r.maybeBlocks := by
  obtain ⟨r, hr⟩ := exists_aggregate_ones
  have hkeys : DistinctKeys arrayOfOnes setupOfTwo := by
    unfold DistinctKeys
    decide +kernel
  exact ⟨r, hr, aggregate_agrees (fun _ _ h => h) (fun _ _ _ => rfl)
    (by decide +kernel) chunkShape_oneLayer hkeys (setup_of_query setup_ones rfl) setup_ones readMeta_ones
    readMeta_ones rfl (fun mo hmo => by cases hmo) hr⟩

end SkipZFP.Aggregate.Stored
