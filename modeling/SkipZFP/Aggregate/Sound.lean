import SkipZFP.Aggregate.Combine
import SkipZFP.Lib.Means

/-! # The intervals of an aggregate contain the truth

An aggregate reports intervals for the count, the sum and the mean of the original values in a range,
knowing for each value that was read its decoded value and a bound of its error. The bounds are rounded by
any monotone function that keeps float32 values; sums, products and quotients are exact.

An `Account` says what the totals of some values stand for: which of them surely match, how many of the
others do, and their sums. `Covers` relates the totals of the code to it.

* `covers_addSure`, `covers_addMaybe`: a value that surely is in the range, and one that may be.
* `covers_addValue`, `covers_aggregateBlock`, `covers_readTotals`: a value, a block and a read.
* `aggregateOffsets_readTotals`: the totals of a read are what the C function returns.
* `combine_eq`: what is combined out of the accounts of the reads.
* `original_intervals`: **the intervals contain the count, the sum and the mean of the original
  values.** -/

namespace SkipZFP.Aggregate.Sound

open SkipZFP.Lib.Double SkipZFP.Lib.Float32 SkipZFP.Lib.Means SkipZFP.Lib.Rows SkipZFP.Plan.Classify
open SkipZFP.Read.Stream
open SkipZFP.Aggregate.Block SkipZFP.Aggregate.Combine

/-- Exact sums, products and quotients, with bounds that are rounded. -/
def exactSums (bound : ℚ → ℚ) : Arith := { Arith.exact with bound := bound }

/-- A value of a block that is read: decoded, and as it was written. -/
structure Value where
  decoded : F32
  original : F32

structure ReadBlock where
  eps : ℚ
  inBlock : Bool
  values : List Value

/-- What is known of a value: it is within `eps` of the decoded one, and in the range in an IN block. -/
structure Value.Known (lo hi : Dbl) (eps : ℚ) (inBlock : Bool) (v : Value) (r o : ℚ) : Prop where
  decoded : v.decoded.val = .fin r
  original : v.original.val = .fin o
  near : |o - r| ≤ eps
  inRange : inBlock = true → InRange lo hi (.fin o) ∧ InRange lo hi (.fin r)

/-- What is known of the values of a block. -/
def ReadBlock.Known (lo hi : Dbl) (b : ReadBlock) : Prop :=
  0 ≤ b.eps ∧ ∀ v ∈ b.values, ∃ r o, v.Known lo hi b.eps b.inBlock r o

/-- What totals stand for. Some values surely match, and `hits` of the others do. -/
structure Account where
  sure : ℕ
  maybe : ℕ
  hits : ℕ
  sureLo : ℚ
  sureHi : ℚ
  sureSum : ℚ
  neg : ℚ
  pos : ℚ
  hitSum : ℚ

def Account.count (t : Account) : ℕ := t.sure + t.hits

def Account.total (t : Account) : ℚ := t.sureSum + t.hitSum

structure Account.Ok (t : Account) : Prop where
  hits_le : t.hits ≤ t.maybe
  no_sure : t.sure = 0 → t.sureSum = 0
  sureLo_le : t.sureLo ≤ t.sureSum
  le_sureHi : t.sureSum ≤ t.sureHi
  neg_le : t.neg ≤ t.hitSum
  le_pos : t.hitSum ≤ t.pos

/-- Bounds of the values that may match, from the least and the greatest of their bounds. -/
structure Account.Between (t : Account) (mn mx : Dbl) : Prop where
  min_range : mn = .pinf ∧ t.maybe = 0 ∨ ∃ m, mn = .fin m
  max_range : mx = .ninf ∧ t.maybe = 0 ∨ ∃ m, mx = .fin m
  min_le : ∀ q, .fin q ≤ mn → t.hits * q ≤ t.hitSum
  le_max : ∀ q, mx ≤ .fin q → t.hitSum ≤ t.hits * q

/-- **Totals of values** that an account stands for. -/
structure Covers (acc : SzAggregate) (t : Account) : Prop where
  sure : acc.sureCount = t.sure
  maybe : acc.maybeCount = t.maybe
  sureLo : acc.sureSumLo = .fin t.sureLo
  sureHi : acc.sureSumHi = .fin t.sureHi
  neg : acc.maybeSumNeg = .fin t.neg
  pos : acc.maybeSumPos = .fin t.pos
  recSum : ∃ q, acc.recSum = .fin q
  absTotal : ∃ q, acc.absTotal = .fin q
  ok : t.Ok
  between : t.Between acc.maybeMin acc.maybeMax

def Account.zero : Account := ⟨0, 0, 0, 0, 0, 0, 0, 0, 0⟩

theorem covers_init : Covers .init .zero where
  sure := rfl
  maybe := rfl
  sureLo := rfl
  sureHi := rfl
  neg := rfl
  pos := rfl
  recSum := ⟨0, rfl⟩
  absTotal := ⟨0, rfl⟩
  ok := ⟨le_rfl, fun _ => rfl, le_rfl, le_rfl, le_rfl, le_rfl⟩
  between :=
    { min_range := Or.inl ⟨rfl, rfl⟩
      max_range := Or.inl ⟨rfl, rfl⟩
      min_le := fun _ _ => by simp [Account.zero]
      le_max := fun _ _ => by simp [Account.zero] }

section Value
variable {bound : ℚ → ℚ} {lo hi : Dbl} {eps : ℚ} {inBlock : Bool} {v : Value} {r o : ℚ}

theorem between (hmono : ∀ x y, x ≤ y → bound x ≤ bound y)
    (hfix : ∀ (f : F32) (q : ℚ), f.val = .fin q → bound q = q) (h : v.Known lo hi eps inBlock r o) :
    bound (r - eps) ≤ o ∧ o ≤ bound (r + eps) := by
  have hnear := abs_le.mp h.near
  have hkeep := hfix v.original o h.original
  have h1 := hmono (r - eps) o (by linarith)
  have h2 := hmono o (r + eps) (by linarith)
  exact ⟨h1.trans_eq hkeep, hkeep.symm.trans_le h2⟩

theorem larger_fin (hnan : lo ≠ .nan) (htop : lo ≠ .pinf) (a : ℚ) :
    ∃ q, larger (.fin a) lo = .fin q ∧ ∀ x, lo < .fin x → a ≤ x → q ≤ x := by
  unfold larger
  split_ifs with ha
  · exact ⟨a, rfl, fun _ _ => id⟩
  · rcases lo with _ | _ | l | _
    · exact absurd rfl hnan
    · exact absurd (Dbl.ninf_lt_fin a) ha
    · exact ⟨l, rfl, fun x hx _ => (by simpa using hx : l < x).le⟩
    · exact absurd rfl htop

theorem smaller_fin (hnan : hi ≠ .nan) (hbot : hi ≠ .ninf) (b : ℚ) :
    ∃ q, smaller (.fin b) hi = .fin q ∧ ∀ x, .fin x ≤ hi → x ≤ b → x ≤ q := by
  unfold smaller
  split_ifs with hb
  · exact ⟨b, rfl, fun _ _ => id⟩
  · rcases hi with _ | _ | u | _
    · exact absurd rfl hnan
    · exact absurd rfl hbot
    · exact ⟨u, rfl, fun x hx _ => by simpa using hx⟩
    · exact absurd (Dbl.fin_lt_pinf b) hb

theorem smaller_zero (a : ℚ) : smaller (.fin a) (.fin 0) = .fin (min a 0) := by
  unfold smaller
  by_cases h : a < 0
  · rw [if_pos (by simpa using h), min_eq_left h.le]
  · rw [if_neg (by simpa using h), min_eq_right (not_lt.mp h)]

theorem larger_zero (a : ℚ) : larger (.fin a) (.fin 0) = .fin (max a 0) := by
  unfold larger
  by_cases h : 0 < a
  · rw [if_pos (by simpa using h), max_eq_left h.le]
  · rw [if_neg (by simpa using h), max_eq_right (not_lt.mp h)]

theorem minimum_spec {m : Dbl} (hm : m = .pinf ∨ ∃ q, m = .fin q) (low : ℚ) :
    (∃ q, (if .fin low < m then .fin low else m) = Dbl.fin q) ∧
      ∀ q, .fin q ≤ (if .fin low < m then .fin low else m) → .fin q ≤ m ∧ q ≤ low := by
  rcases hm with rfl | ⟨x, rfl⟩
  · rw [if_pos (Dbl.fin_lt_pinf low)]
    exact ⟨⟨low, rfl⟩, fun q hq => ⟨Dbl.fin_le_pinf q, by simpa using hq⟩⟩
  · by_cases h : low < x
    · rw [if_pos (by simpa using h)]
      refine ⟨⟨low, rfl⟩, fun q hq => ?_⟩
      have hq' : q ≤ low := by simpa using hq
      exact ⟨by simpa using hq'.trans h.le, hq'⟩
    · rw [if_neg (by simpa using h)]
      refine ⟨⟨x, rfl⟩, fun q hq => ⟨hq, ?_⟩⟩
      have hq' : q ≤ x := by simpa using hq
      exact hq'.trans (not_lt.mp h)

theorem maximum_spec {m : Dbl} (hm : m = .ninf ∨ ∃ q, m = .fin q) (high : ℚ) :
    (∃ q, (if m < .fin high then .fin high else m) = Dbl.fin q) ∧
      ∀ q, (if m < .fin high then .fin high else m) ≤ .fin q → m ≤ .fin q ∧ high ≤ q := by
  rcases hm with rfl | ⟨x, rfl⟩
  · rw [if_pos (Dbl.ninf_lt_fin high)]
    exact ⟨⟨high, rfl⟩, fun q hq => ⟨Dbl.ninf_le_fin q, by simpa using hq⟩⟩
  · by_cases h : x < high
    · rw [if_pos (by simpa using h)]
      refine ⟨⟨high, rfl⟩, fun q hq => ?_⟩
      have hq' : high ≤ q := by simpa using hq
      exact ⟨by simpa using h.le.trans hq', hq'⟩
    · rw [if_neg (by simpa using h)]
      refine ⟨⟨x, rfl⟩, fun q hq => ⟨hq, ?_⟩⟩
      have hq' : x ≤ q := by simpa using hq
      exact (not_lt.mp h).trans hq'

end Value

/-! ### One value -/

/-- The account with a value that surely matches, between `low` and `high`. -/
def Account.addSure (t : Account) (low high o : ℚ) : Account :=
  { t with
    sure := t.sure + 1
    sureLo := t.sureLo + low
    sureHi := t.sureHi + high
    sureSum := t.sureSum + o }

/-- The account with a value that may match, and does if it is a hit. -/
def Account.addMaybe (t : Account) (low high o : ℚ) (hit : Bool) : Account :=
  { t with
    maybe := t.maybe + 1
    hits := t.hits + hit.toNat
    neg := t.neg + min low 0
    pos := t.pos + max high 0
    hitSum := t.hitSum + if hit then o else 0 }

section Step
variable {bound : ℚ → ℚ} {lo hi : Dbl} {eps : ℚ} {inBlock : Bool} {v : Value} {r o : ℚ}
variable {acc : SzAggregate} {t : Account}

theorem covers_addSure (h : Covers acc t) {low high : ℚ} (h1 : low ≤ o) (h2 : o ≤ high) :
    Covers { acc with
      sureCount := acc.sureCount + 1
      sureSumLo := Dbl.add id acc.sureSumLo (.fin low)
      sureSumHi := Dbl.add id acc.sureSumHi (.fin high) } (t.addSure low high o) where
  sure := congrArg (· + 1) h.sure
  maybe := h.maybe
  sureLo := by rw [h.sureLo]; rfl
  sureHi := by rw [h.sureHi]; rfl
  neg := h.neg
  pos := h.pos
  recSum := h.recSum
  absTotal := h.absTotal
  ok := ⟨h.ok.hits_le, fun h0 => absurd h0 (Nat.succ_ne_zero _), add_le_add h.ok.sureLo_le h1,
    add_le_add h.ok.le_sureHi h2, h.ok.neg_le, h.ok.le_pos⟩
  between := ⟨h.between.min_range, h.between.max_range, h.between.min_le, h.between.le_max⟩

theorem covers_addMaybe (h : Covers acc t) {low high : ℚ} {hit : Bool}
    (hhit : hit = true → low ≤ o ∧ o ≤ high) :
    Covers { acc with
      maybeCount := acc.maybeCount + 1
      maybeSumNeg := Dbl.add id acc.maybeSumNeg (smaller (.fin low) (.fin 0))
      maybeSumPos := Dbl.add id acc.maybeSumPos (larger (.fin high) (.fin 0))
      maybeMin := if .fin low < acc.maybeMin then .fin low else acc.maybeMin
      maybeMax := if acc.maybeMax < .fin high then .fin high else acc.maybeMax }
      (t.addMaybe low high o hit) := by
  obtain ⟨hmin, hminle⟩ := minimum_spec (h.between.min_range.imp And.left id) low
  obtain ⟨hmax, hlemax⟩ := maximum_spec (h.between.max_range.imp And.left id) high
  refine
    { sure := h.sure
      maybe := congrArg (· + 1) h.maybe
      sureLo := h.sureLo
      sureHi := h.sureHi
      neg := by rw [h.neg, smaller_zero]; rfl
      pos := by rw [h.pos, larger_zero]; rfl
      recSum := h.recSum
      absTotal := h.absTotal
      ok := ⟨?_, h.ok.no_sure, h.ok.sureLo_le, h.ok.le_sureHi, ?_, ?_⟩
      between := ⟨Or.inr hmin, Or.inr hmax, fun q hq => ?_, fun q hq => ?_⟩ }
  · have := h.ok.hits_le
    have := hit.toNat_le
    show t.hits + hit.toNat ≤ t.maybe + 1
    omega
  · refine add_le_add h.ok.neg_le ?_
    rcases hit
    · exact min_le_right _ _
    · exact (min_le_left _ _).trans (hhit rfl).1
  · refine add_le_add h.ok.le_pos ?_
    rcases hit
    · exact le_max_right _ _
    · exact (hhit rfl).2.trans (le_max_left _ _)
  · obtain ⟨hqm, hql⟩ := hminle q hq
    have hle := h.between.min_le q hqm
    show ((t.hits + hit.toNat : ℕ) : ℚ) * q ≤ t.hitSum + _
    rcases hit
    · simpa using hle
    · have ho := (hhit rfl).1
      push_cast
      simp only [Bool.toNat_true, Nat.cast_one, if_true]
      linarith
  · obtain ⟨hqm, hqh⟩ := hlemax q hq
    have hle := h.between.le_max q hqm
    show t.hitSum + _ ≤ ((t.hits + hit.toNat : ℕ) : ℚ) * q
    rcases hit
    · simpa using hle
    · have ho := (hhit rfl).2
      push_cast
      simp only [Bool.toNat_true, Nat.cast_one, if_true]
      linarith

theorem covers_addRec (h : Covers acc t) (hv : v.Known lo hi eps inBlock r o) :
    Covers (addRec (exactSums bound) inBlock lo hi { acc with
      absTotal := Dbl.add id acc.absTotal (Dbl.add id (Dbl.abs v.decoded.val) (.fin eps)) }
        v.decoded) t := by
  obtain ⟨qrec, hrec⟩ := h.recSum
  obtain ⟨qabs, habs⟩ := h.absTotal
  have hsum : ∃ q, Dbl.add id acc.recSum v.decoded.val = Dbl.fin q := by
    rw [hrec, hv.decoded]
    exact ⟨_, rfl⟩
  have htotal : ∃ q, Dbl.add id acc.absTotal (Dbl.add id (Dbl.abs v.decoded.val) (.fin eps)) =
      Dbl.fin q := by
    rw [habs, hv.decoded]
    exact ⟨_, rfl⟩
  unfold addRec
  split_ifs
  · exact { h with recSum := hsum, absTotal := htotal }
  · exact { h with absTotal := htotal }

/-- What a value adds to the count and the sum of those that match. -/
structure Adds (lo hi : Dbl) (o : ℚ) (t t' : Account) : Prop where
  count : t'.count = t.count + if InRange lo hi (.fin o) then 1 else 0
  total : t'.total = t.total + if InRange lo hi (.fin o) then o else 0

theorem adds_addSure (hin : InRange lo hi (.fin o)) (low high : ℚ) :
    Adds lo hi o t (t.addSure low high o) := by
  constructor
  · rw [if_pos hin]
    exact Nat.add_right_comm _ _ _
  · rw [if_pos hin]
    exact add_right_comm _ _ _

theorem adds_addMaybe (low high : ℚ) :
    Adds lo hi o t (t.addMaybe low high o (decide (InRange lo hi (.fin o)))) := by
  by_cases hin : InRange lo hi (.fin o)
  · constructor
    · rw [if_pos hin, decide_eq_true hin]
      exact (Nat.add_assoc _ _ _).symm
    · rw [if_pos hin, decide_eq_true hin]
      exact (add_assoc _ _ _).symm
  · constructor
    · rw [if_neg hin, decide_eq_false hin]
      rfl
    · rw [if_neg hin, decide_eq_false hin]
      exact (add_assoc _ _ _).symm

theorem adds_self (hin : ¬ InRange lo hi (.fin o)) : Adds lo hi o t t := by
  constructor
  · rw [if_neg hin]
    rfl
  · rw [if_neg hin]
    exact (add_zero _).symm

theorem covers_addValue (hmono : ∀ x y, x ≤ y → bound x ≤ bound y)
    (hfix : ∀ (f : F32) (q : ℚ), f.val = .fin q → bound q = q) (hlohi : lo < hi) (h : Covers acc t)
    (hv : v.Known lo hi eps inBlock r o) : ∃ t', Adds lo hi o t t' ∧
      Covers (addValue (exactSums bound) (.fin eps) inBlock lo hi acc v.decoded) t' := by
  obtain ⟨hao, hob⟩ := between hmono hfix hv
  have hrec : Covers (addRec (exactSums bound) inBlock lo hi _ v.decoded) t := covers_addRec h hv
  have ha : Dbl.sub (exactSums bound).bound v.decoded.val (.fin eps) = .fin (bound (r - eps)) := by
    rw [hv.decoded, Dbl.sub_fin]
    rfl
  have hb : Dbl.add (exactSums bound).bound v.decoded.val (.fin eps) = .fin (bound (r + eps)) := by
    rw [hv.decoded]
    rfl
  obtain ⟨hlo, hhi⟩ := Dbl.ne_nan_of_lt hlohi
  obtain ⟨low, hlow, hlow_le⟩ := larger_fin hlo (fun h => Dbl.not_pinf_lt _ (h ▸ hlohi)) (bound (r - eps))
  obtain ⟨high, hhigh, hle_high⟩ := smaller_fin hhi (fun h => Dbl.not_lt_ninf _ (h ▸ hlohi))
    (bound (r + eps))
  unfold addValue addOriginal
  rw [ha, hb]
  dsimp only
  rw [hlow, hhigh]
  by_cases hsure : inBlock = true ∨ lo < .fin (bound (r - eps)) ∧ .fin (bound (r + eps)) ≤ hi
  · -- the original value matches
    have hin : InRange lo hi (.fin o) := by
      rcases hsure with hblock | ⟨h1, h2⟩
      · exact (hv.inRange hblock).1
      · exact ⟨Dbl.lt_of_lt_of_le h1 (by simpa using hao), Dbl.le_trans (by simpa using hob) h2⟩
    rw [if_pos hsure]
    exact ⟨_, adds_addSure hin low high, covers_addSure hrec (hlow_le o hin.1 hao) (hle_high o hin.2 hob)⟩
  rw [if_neg hsure]
  by_cases hout : .fin (bound (r + eps)) ≤ lo ∨ hi < .fin (bound (r - eps))
  · -- it does not
    have hin : ¬ InRange lo hi (.fin o) := by
      rintro ⟨h1, h2⟩
      rcases hout with hle | hlt
      · exact Dbl.not_lt_of_le (Dbl.le_trans (by simpa using hob) hle) h1
      · exact Dbl.not_lt_of_le h2 (Dbl.lt_of_lt_of_le hlt (by simpa using hao))
    rw [if_neg (not_not.mpr hout)]
    exact ⟨t, adds_self hin, hrec⟩
  · rw [if_pos hout]
    refine ⟨_, adds_addMaybe low high, covers_addMaybe hrec fun hhit => ?_⟩
    have hin := of_decide_eq_true hhit
    exact ⟨hlow_le o hin.1 hao, hle_high o hin.2 hob⟩

end Step

/-! ### Blocks and reads -/

/-- The original values, of those in the range. -/
def matching (lo hi : Dbl) (os : List F32) : List ℚ :=
  (os.filter fun o => InRange lo hi o.val).map fun o => o.val.toRat

theorem matching_append (lo hi : Dbl) (l l' : List F32) :
    matching lo hi (l ++ l') = matching lo hi l ++ matching lo hi l' := by
  rw [matching, List.filter_append, List.map_append]
  rfl

def originals (read : List ReadBlock) : List F32 := read.flatMap fun b => b.values.map Value.original

/-- What values add to the count and the sum of those that match. -/
structure AddsAll (lo hi : Dbl) (os : List F32) (t t' : Account) : Prop where
  count : t'.count = t.count + (matching lo hi os).length
  total : t'.total = t.total + (matching lo hi os).sum

section Blocks
variable {bound : ℚ → ℚ} {lo hi : Dbl} {acc : SzAggregate} {t t' t'' : Account} {os os' : List F32}

theorem AddsAll.nil : AddsAll lo hi [] t t := ⟨rfl, (add_zero _).symm⟩

theorem AddsAll.append (h : AddsAll lo hi os t t') (h' : AddsAll lo hi os' t' t'') :
    AddsAll lo hi (os ++ os') t t'' := by
  constructor
  · rw [matching_append, List.length_append, h'.count, h.count, Nat.add_assoc]
  · rw [matching_append, List.sum_append, h'.total, h.total, add_assoc]

theorem Adds.all {f : F32} {o : ℚ} (hf : f.val = .fin o) (h : Adds lo hi o t t') :
    AddsAll lo hi [f] t t' := by
  have hcount := h.count
  have htotal := h.total
  by_cases hin : InRange lo hi (.fin o)
  · have hm : matching lo hi [f] = [o] := by
      unfold matching
      rw [List.filter_cons_of_pos (by rw [hf]; exact decide_eq_true hin), List.filter_nil,
        List.map_singleton, hf, Dbl.toRat_fin]
    rw [if_pos hin] at hcount htotal
    constructor
    · rw [hm]
      exact hcount
    · rw [hm, List.sum_singleton]
      exact htotal
  · have hm : matching lo hi [f] = [] := by
      unfold matching
      rw [List.filter_cons_of_neg (by rw [hf]; simpa using hin), List.filter_nil, List.map_nil]
    rw [if_neg hin] at hcount htotal
    constructor
    · rw [hm]
      exact hcount
    · rw [hm]
      exact htotal

variable (hmono : ∀ x y, x ≤ y → bound x ≤ bound y)
  (hfix : ∀ (f : F32) (q : ℚ), f.val = .fin q → bound q = q) (hlohi : lo < hi)
include hmono hfix hlohi

theorem covers_aggregateBlock {b : ReadBlock} (hb : b.Known lo hi) (h : Covers acc t) :
    ∃ t', AddsAll lo hi (b.values.map Value.original) t t' ∧
      Covers (aggregateBlock (exactSums bound) (.fin b.eps) b.inBlock lo hi acc
        (b.values.map Value.decoded)) t' := by
  have hvalues := hb.2
  unfold aggregateBlock
  generalize b.values = l at hvalues ⊢
  induction l generalizing acc t with
  | nil => exact ⟨t, .nil, h⟩
  | cons v l ih =>
    obtain ⟨r, o, hv⟩ := hvalues v List.mem_cons_self
    obtain ⟨t₁, hadd, hcov⟩ := covers_addValue hmono hfix hlohi h hv
    obtain ⟨t₂, hadd', hcov'⟩ := ih hcov fun w hw => hvalues w (List.mem_cons_of_mem v hw)
    exact ⟨t₂, (hadd.all hv.original).append hadd', hcov'⟩

def readTotals (bound : ℚ → ℚ) (lo hi : Dbl) (read : List ReadBlock) : SzAggregate :=
  read.foldl (fun acc b => aggregateBlock (exactSums bound) (.fin b.eps) b.inBlock lo hi acc
    (b.values.map Value.decoded)) .init

omit hmono hfix hlohi in
/-- **What the C function returns for a read** are its totals, when its items are the blocks. -/
theorem aggregateOffsets_readTotals {decode : ℚ → List UInt8 → Values} {buf : List UInt8}
    {items : List Item} {n : ℕ} {rate : ℚ} {blockDim : ℕ} {blocks : List ReadBlock}
    (hitems : List.Forall₂ (fun x b => x.eps.val = .fin b.eps ∧ x.inBlock = b.inBlock ∧
      List.ofFn (decode rate (slice buf x.offset (x.offset + n))) =
        b.values.map Value.decoded) items blocks)
    (h : aggregateOffsets decode (exactSums bound) buf items n rate blockDim lo hi = .ok acc) :
    acc = readTotals bound lo hi blocks := by
  have hfold : ∀ acc, items.foldl (fun acc x =>
    aggregateBlock (exactSums bound) x.eps.val x.inBlock lo hi acc
      (List.ofFn (decode rate (slice buf x.offset (x.offset + n))))) acc =
      blocks.foldl (fun acc b => aggregateBlock (exactSums bound) (.fin b.eps) b.inBlock lo hi acc
        (b.values.map Value.decoded)) acc := by
    clear h
    induction hitems with
    | nil => exact fun _ => rfl
    | cons hx _ ih =>
      intro acc
      rw [List.foldl_cons, List.foldl_cons, ih, hx.1, hx.2.1, hx.2.2]
  unfold aggregateOffsets at h
  by_cases h0 : items = []
  · subst h0
    rw [if_pos rfl] at h
    cases h
    cases hitems
    rfl
  rw [if_neg h0] at h
  rcases hl : blockLayout blockDim rate with _ | ⟨nval, need⟩
  · rw [hl] at h
    cases h
  rw [hl] at h
  dsimp only at h
  split_ifs at h
  rcases hchk : checkItems buf.length n items with e | u
  · rw [hchk] at h
    cases h
  rw [hchk] at h
  cases h
  exact hfold .init

theorem covers_readTotals {read : List ReadBlock} (hread : ∀ b ∈ read, b.Known lo hi) :
    ∃ t, AddsAll lo hi (originals read) .zero t ∧ Covers (readTotals bound lo hi read) t := by
  have hfold : ∀ (l : List ReadBlock), (∀ b ∈ l, b.Known lo hi) → ∀ acc t, Covers acc t → ∃ t',
      AddsAll lo hi (originals l) t t' ∧ Covers (l.foldl (fun acc b =>
        aggregateBlock (exactSums bound) (.fin b.eps) b.inBlock lo hi acc
          (b.values.map Value.decoded)) acc) t' := by
    intro l
    induction l with
    | nil => exact fun _ acc t h => ⟨t, .nil, h⟩
    | cons b l ih =>
      intro hl acc t h
      obtain ⟨t₁, hadd, hcov⟩ := covers_aggregateBlock hmono hfix hlohi (hl b List.mem_cons_self) h
      obtain ⟨t₂, hadd', hcov'⟩ := ih (fun b' hb' => hl b' (List.mem_cons_of_mem b hb')) _ t₁ hcov
      exact ⟨t₂, hadd.append hadd', hcov'⟩
  exact hfold read hread .init .zero covers_init

end Blocks

/-! ### Combining -/

theorem fsum_fin (fl : ℚ → ℚ) (qs : List ℚ) : fsum fl (qs.map Dbl.fin) = .ok (.fin (fl qs.sum)) := by
  have hno : ∀ x, (∀ q, x ≠ Dbl.fin q) → x ∉ qs.map Dbl.fin := by
    intro x hx hmem
    obtain ⟨q, -, rfl⟩ := List.mem_map.mp hmem
    exact hx q rfl
  have hp : Dbl.pinf ∉ qs.map Dbl.fin := hno _ (by simp)
  have hn : Dbl.ninf ∉ qs.map Dbl.fin := hno _ (by simp)
  have hnan : Dbl.nan ∉ qs.map Dbl.fin := hno _ (by simp)
  have hrat : (qs.map Dbl.fin).map Dbl.toRat = qs := by
    rw [List.map_map]
    exact (List.map_congr_left fun q _ => rfl).trans (List.map_id qs)
  unfold fsum
  rw [if_neg (fun h => hp h.1), if_neg hp, if_neg hn, if_neg hnan, hrat]

theorem foldl_pyMin {β : Type*} {f : β → Dbl} {l : List β} (hnum : ∀ b ∈ l, f b ≠ .nan) :
    (∀ b ∈ l, (l.map f).foldl pyMin .pinf ≤ f b) ∧
      ((l.map f).foldl pyMin .pinf = .pinf ∨ ∃ b ∈ l, (l.map f).foldl pyMin .pinf = f b) := by
  refine foldl_best_map (· ≤ ·) (· ≠ .nan) (fun _ _ _ => Dbl.le_trans) (fun _ => Dbl.le_refl)
    (fun y z hy hz => ?_) (by simp) hnum
  unfold pyMin
  split_ifs with h
  · exact ⟨Or.inr rfl, Dbl.le_of_lt h, Dbl.le_refl hz⟩
  · exact ⟨Or.inl rfl, Dbl.le_refl hy, (Dbl.not_lt hz hy).mp h⟩

theorem foldl_pyMax {β : Type*} {f : β → Dbl} {l : List β} (hnum : ∀ b ∈ l, f b ≠ .nan) :
    (∀ b ∈ l, f b ≤ (l.map f).foldl pyMax .ninf) ∧
      ((l.map f).foldl pyMax .ninf = .ninf ∨ ∃ b ∈ l, (l.map f).foldl pyMax .ninf = f b) := by
  refine foldl_best_map (fun y z => z ≤ y) (· ≠ .nan) (fun _ _ _ h1 h2 => Dbl.le_trans h2 h1)
    (fun _ => Dbl.le_refl) (fun y z hy hz => ?_) (by simp) hnum
  unfold pyMax
  split_ifs with h
  · exact ⟨Or.inr rfl, Dbl.le_of_lt h, Dbl.le_refl hz⟩
  · exact ⟨Or.inl rfl, Dbl.le_refl hy, (Dbl.not_lt hy hz).mp h⟩

def Account.sum (ts : List Account) : Account where
  sure := (ts.map Account.sure).sum
  maybe := (ts.map Account.maybe).sum
  hits := (ts.map Account.hits).sum
  sureLo := (ts.map Account.sureLo).sum
  sureHi := (ts.map Account.sureHi).sum
  sureSum := (ts.map Account.sureSum).sum
  neg := (ts.map Account.neg).sum
  pos := (ts.map Account.pos).sum
  hitSum := (ts.map Account.hitSum).sum

section Parts
variable {parts : List (SzAggregate × ℕ)} {ts : List Account}

/-- Every read has its account. -/
abbrev Accounts (parts : List (SzAggregate × ℕ)) (ts : List Account) : Prop :=
  List.Forall₂ (fun p t => Covers p.1 t) parts ts

theorem map_of_accounts {β : Type} {f : SzAggregate × ℕ → β} {g : Account → β}
    (hfg : ∀ p t, Covers p.1 t → f p = g t) (h : Accounts parts ts) : parts.map f = ts.map g := by
  induction h with
  | nil => rfl
  | cons hp _ ih => rw [List.map_cons, List.map_cons, hfg _ _ hp, ih]

theorem fsum_of_accounts {f : SzAggregate × ℕ → Dbl} {g : Account → ℚ}
    (hfg : ∀ p t, Covers p.1 t → f p = .fin (g t)) (h : Accounts parts ts) :
    fsum id (parts.map f) = .ok (.fin (ts.map g).sum) := by
  have hsum := fsum_fin id (ts.map g)
  rw [List.map_map] at hsum
  rw [map_of_accounts (g := fun t => Dbl.fin (g t)) hfg h]
  exact hsum

theorem fsum_of_exists (fl : ℚ → ℚ) {f : SzAggregate × ℕ → Dbl} (hf : ∀ p ∈ parts, ∃ q, f p = .fin q) :
    ∃ q, fsum fl (parts.map f) = .ok (.fin q) := by
  have hmap : parts.map f = (parts.map fun p => (f p).toRat).map Dbl.fin := by
    rw [List.map_map]
    refine List.map_congr_left fun p hp => ?_
    obtain ⟨q, hq⟩ := hf p hp
    rw [Function.comp, hq, Dbl.toRat_fin]
  rw [hmap, fsum_fin]
  exact ⟨_, rfl⟩

theorem exists_account (h : Accounts parts ts) {p : SzAggregate × ℕ} (hp : p ∈ parts) :
    ∃ t ∈ ts, Covers p.1 t := by
  induction h with
  | nil => cases hp
  | cons hc _ ih =>
    rcases List.mem_cons.mp hp with rfl | hp
    · exact ⟨_, List.mem_cons_self, hc⟩
    · obtain ⟨t, ht, hcov⟩ := ih hp
      exact ⟨t, List.mem_cons_of_mem _ ht, hcov⟩

theorem exists_part (h : Accounts parts ts) {t : Account} (ht : t ∈ ts) :
    ∃ p ∈ parts, Covers p.1 t := by
  induction h with
  | nil => cases ht
  | cons hc _ ih =>
    rcases List.mem_cons.mp ht with rfl | ht
    · exact ⟨_, List.mem_cons_self, hc⟩
    · obtain ⟨p, hp, hcov⟩ := ih ht
      exact ⟨p, List.mem_cons_of_mem _ hp, hcov⟩

/-- No slack where nothing is rounded. -/
theorem slack_eq (bound : ℚ → ℚ) (valuesPerBlock : ℕ) (h : Accounts parts ts) :
    fsum id (parts.map (slackOf (exactSums bound) valuesPerBlock)) = .ok (.fin 0) := by
  have hzero : ∀ p t, Covers p.1 t → slackOf (exactSums bound) valuesPerBlock p = .fin 0 := by
    intro p t hc
    obtain ⟨q, hq⟩ := hc.absTotal
    unfold slackOf
    rw [hq]
    show Dbl.fin (_ * 0 * q) = _
    rw [mul_zero, zero_mul]
  rw [fsum_of_accounts (g := fun _ => 0) hzero h]
  simp

theorem ok_sum (h : ∀ t ∈ ts, t.Ok) : (Account.sum ts).Ok where
  hits_le := List.sum_le_sum fun t ht => (h t ht).hits_le
  no_sure h0 := List.sum_eq_zero fun q hq => by
    obtain ⟨t, ht, rfl⟩ := List.mem_map.mp hq
    exact (h t ht).no_sure (List.sum_eq_zero_iff.mp h0 _ (List.mem_map_of_mem ht))
  sureLo_le := List.sum_le_sum fun t ht => (h t ht).sureLo_le
  le_sureHi := List.sum_le_sum fun t ht => (h t ht).le_sureHi
  neg_le := List.sum_le_sum fun t ht => (h t ht).neg_le
  le_pos := List.sum_le_sum fun t ht => (h t ht).le_pos

theorem hits_mul (ts : List Account) (q : ℚ) :
    (ts.map fun t => (t.hits : ℚ) * q).sum = ((Account.sum ts).hits : ℚ) * q := by
  rw [List.sum_map_mul_right]
  congr 1
  show _ = (((ts.map Account.hits).sum : ℕ) : ℚ)
  rw [Nat.cast_list_sum, List.map_map]
  rfl

theorem maybe_sum_eq_zero (h : ∀ t ∈ ts, t.maybe = 0) : (Account.sum ts).maybe = 0 :=
  List.sum_eq_zero fun n hn => by
    obtain ⟨t, ht, rfl⟩ := List.mem_map.mp hn
    exact h t ht

/-- The bounds of a read are numbers, or the values they start from. -/
theorem extrema_ne_nan (h : Accounts parts ts) {p : SzAggregate × ℕ} (hp : p ∈ parts) :
    p.1.maybeMin ≠ .nan ∧ p.1.maybeMax ≠ .nan := by
  obtain ⟨t, -, hc⟩ := exists_account h hp
  constructor
  · rcases hc.between.min_range with ⟨heq, -⟩ | ⟨m, heq⟩ <;> rw [heq] <;> simp
  · rcases hc.between.max_range with ⟨heq, -⟩ | ⟨m, heq⟩ <;> rw [heq] <;> simp

theorem min_of_accounts (h : Accounts parts ts) {mn : Dbl}
    (hmn : mn = (parts.map fun p => p.1.maybeMin).foldl pyMin .pinf) :
    (mn = .pinf ∧ (Account.sum ts).maybe = 0 ∨ ∃ m, mn = .fin m) ∧ ∀ p ∈ parts, mn ≤ p.1.maybeMin := by
  obtain ⟨hle, hone⟩ := foldl_pyMin fun p hp => (extrema_ne_nan h hp).1
  rw [← hmn] at hle hone
  have hrange : mn = .pinf ∨ ∃ m, mn = .fin m := by
    rcases hone with heq | ⟨p, hp, heq⟩
    · exact Or.inl heq
    · obtain ⟨t, -, hc⟩ := exists_account h hp
      rw [heq]
      exact hc.between.min_range.imp And.left id
  refine ⟨hrange.imp (fun heq => ⟨heq, maybe_sum_eq_zero fun t ht => ?_⟩) id, hle⟩
  obtain ⟨p, hp, hc⟩ := exists_part h ht
  rcases hc.between.min_range with ⟨-, h0⟩ | ⟨m, hm⟩
  · exact h0
  · have := hle p hp
    rw [heq, hm] at this
    exact absurd this (Dbl.not_pinf_le_fin m)

theorem max_of_accounts (h : Accounts parts ts) {mx : Dbl}
    (hmx : mx = (parts.map fun p => p.1.maybeMax).foldl pyMax .ninf) :
    (mx = .ninf ∧ (Account.sum ts).maybe = 0 ∨ ∃ m, mx = .fin m) ∧ ∀ p ∈ parts, p.1.maybeMax ≤ mx := by
  obtain ⟨hle, hone⟩ := foldl_pyMax fun p hp => (extrema_ne_nan h hp).2
  rw [← hmx] at hle hone
  have hrange : mx = .ninf ∨ ∃ m, mx = .fin m := by
    rcases hone with heq | ⟨p, hp, heq⟩
    · exact Or.inl heq
    · obtain ⟨t, -, hc⟩ := exists_account h hp
      rw [heq]
      exact hc.between.max_range.imp And.left id
  refine ⟨hrange.imp (fun heq => ⟨heq, maybe_sum_eq_zero fun t ht => ?_⟩) id, hle⟩
  obtain ⟨p, hp, hc⟩ := exists_part h ht
  rcases hc.between.max_range with ⟨-, h0⟩ | ⟨m, hm⟩
  · exact h0
  · have := hle p hp
    rw [heq, hm] at this
    exact absurd this (Dbl.not_fin_le_ninf m)

/-- **The extrema of all reads** bound the hits of all. -/
theorem between_sum (h : Accounts parts ts) : (Account.sum ts).Between
    ((parts.map fun p => p.1.maybeMin).foldl pyMin .pinf)
    ((parts.map fun p => p.1.maybeMax).foldl pyMax .ninf) := by
  obtain ⟨hmin, hlemin⟩ := min_of_accounts h rfl
  obtain ⟨hmax, hlemax⟩ := max_of_accounts h rfl
  refine ⟨hmin, hmax, fun q hq => ?_, fun q hq => ?_⟩
  · rw [← hits_mul]
    refine List.sum_le_sum fun t ht => ?_
    obtain ⟨p, hp, hc⟩ := exists_part h ht
    exact hc.between.min_le q (Dbl.le_trans hq (hlemin p hp))
  · rw [← hits_mul]
    refine List.sum_le_sum fun t ht => ?_
    obtain ⟨p, hp, hc⟩ := exists_part h ht
    exact hc.between.le_max q (Dbl.le_trans (hlemax p hp) hq)

end Parts

/-! ### The intervals -/

section Intervals
variable {bound : ℚ → ℚ} {t : Account} {mn mx : Dbl}

theorem pyMin_fin (a b : ℚ) : pyMin (.fin a) (.fin b) = .fin (min a b) := by
  unfold pyMin
  by_cases h : b < a
  · rw [if_pos (by simpa using h), min_eq_right h.le]
  · rw [if_neg (by simpa using h), min_eq_left (not_lt.mp h)]

theorem pyMax_fin (a b : ℚ) : pyMax (.fin a) (.fin b) = .fin (max a b) := by
  unfold pyMax
  by_cases h : a < b
  · rw [if_pos (by simpa using h), max_eq_right h.le]
  · rw [if_neg (by simpa using h), max_eq_left (not_lt.mp h)]

/-- With values that surely match, the mean is above the least of two bounds. -/
theorem min_le_total_div (hok : t.Ok) (hs : 0 < t.sure) {m : ℚ} (hm : t.hits * m ≤ t.hitSum) :
    min (t.sureLo / t.sure) ((t.sureLo + t.maybe * m) / (t.sure + t.maybe)) ≤ t.total / t.count := by
  have hs' : (0 : ℚ) < t.sure := by exact_mod_cast hs
  have hhits : (t.hits : ℚ) ≤ t.maybe := by exact_mod_cast hok.hits_le
  have hcount : (t.count : ℚ) = t.sure + t.hits := by
    unfold Account.count
    push_cast
    rfl
  rw [hcount]
  refine (min_le_mean hs' (Nat.cast_nonneg _) hhits t.sureLo m).trans ?_
  exact div_le_div_of_nonneg_right (add_le_add hok.sureLo_le hm) (by positivity)

theorem total_div_le_max (hok : t.Ok) (hs : 0 < t.sure) {m : ℚ} (hm : t.hitSum ≤ t.hits * m) :
    t.total / t.count ≤ max (t.sureHi / t.sure) ((t.sureHi + t.maybe * m) / (t.sure + t.maybe)) := by
  have hs' : (0 : ℚ) < t.sure := by exact_mod_cast hs
  have hhits : (t.hits : ℚ) ≤ t.maybe := by exact_mod_cast hok.hits_le
  have hcount : (t.count : ℚ) = t.sure + t.hits := by
    unfold Account.count
    push_cast
    rfl
  rw [hcount]
  refine le_trans ?_ (mean_le_max hs' (Nat.cast_nonneg _) hhits t.sureHi m)
  exact div_le_div_of_nonneg_right (add_le_add hok.le_sureHi hm) (by positivity)

theorem hitSum_eq_zero (hok : t.Ok) (hb : t.Between mn mx) (hm : t.maybe = 0) : t.hitSum = 0 := by
  have hhits : t.hits = 0 := by
    have := hok.hits_le
    omega
  have hzero : ∀ q : ℚ, (t.hits : ℚ) * q = 0 := fun q => by rw [hhits, Nat.cast_zero, zero_mul]
  refine le_antisymm ?_ ?_
  · rcases hb.max_range with ⟨rfl, -⟩ | ⟨m, rfl⟩
    · exact (hb.le_max 0 (Dbl.ninf_le_fin 0)).trans_eq (hzero 0)
    · exact (hb.le_max m (Dbl.le_refl (by simp))).trans_eq (hzero m)
  · rcases hb.min_range with ⟨rfl, -⟩ | ⟨m, rfl⟩
    · exact (hzero 0).symm.trans_le (hb.min_le 0 (Dbl.fin_le_pinf 0))
    · exact (hzero m).symm.trans_le (hb.min_le m (Dbl.le_refl (by simp)))

/-- **The mean of what matches** is in the interval. -/
theorem meanBounds_spec (hok : t.Ok) (hb : t.Between mn mx) (hcount : t.count ≠ 0) :
    ∃ a b, meanBounds (exactSums bound) t.sure t.maybe (.fin t.sureLo) (.fin t.sureHi) mn mx = some (a, b) ∧
      a ≤ .fin (t.total / t.count) ∧ .fin (t.total / t.count) ≤ b := by
  unfold meanBounds
  by_cases hs : t.sure = 0
  · -- only values that may match
    have hm : t.maybe ≠ 0 := fun h0 => hcount (by
      have := hok.hits_le
      show t.sure + t.hits = 0
      omega)
    obtain ⟨x, rfl⟩ := hb.min_range.resolve_left fun h => hm h.2
    obtain ⟨y, rfl⟩ := hb.max_range.resolve_left fun h => hm h.2
    rw [if_neg (not_not.mpr hs), if_pos hm]
    have hpos : (0 : ℚ) < t.count := by exact_mod_cast Nat.pos_of_ne_zero hcount
    have hc : t.count = t.hits := by rw [Account.count, hs, Nat.zero_add]
    have htotal : t.total = t.hitSum := by rw [Account.total, hok.no_sure hs, zero_add]
    refine ⟨_, _, rfl, ?_, ?_⟩
    · rw [Dbl.fin_le_fin, le_div_iff₀ hpos, htotal, hc, mul_comm]
      exact hb.min_le x (Dbl.le_refl (by simp))
    · rw [Dbl.fin_le_fin, div_le_iff₀ hpos, htotal, hc, mul_comm]
      exact hb.le_max y (Dbl.le_refl (by simp))
  have hs' := Nat.pos_of_ne_zero hs
  have hdiv : ∀ (q : ℚ) {n : ℕ}, n ≠ 0 → Dbl.div id (.fin q) (.fin (n : ℚ)) = .fin (q / n) := fun q n hn =>
    Dbl.div_fin _ _ (Nat.cast_ne_zero.mpr hn)
  rw [if_pos hs]
  by_cases hm : t.maybe = 0
  · -- only values that surely match
    have hc : t.count = t.sure := by
      have := hok.hits_le
      show t.sure + t.hits = t.sure
      omega
    have htotal : t.total = t.sureSum := by rw [Account.total, hitSum_eq_zero hok hb hm, add_zero]
    rw [if_neg (not_not.mpr hm)]
    refine ⟨_, _, rfl, ?_, ?_⟩
    · show Dbl.div id (.fin t.sureLo) (.fin (t.sure : ℚ)) ≤ _
      rw [hdiv _ hs, Dbl.fin_le_fin, htotal, hc]
      exact div_le_div_of_nonneg_right hok.sureLo_le (Nat.cast_nonneg _)
    · show _ ≤ Dbl.div id (.fin t.sureHi) (.fin (t.sure : ℚ))
      rw [hdiv _ hs, Dbl.fin_le_fin, htotal, hc]
      exact div_le_div_of_nonneg_right hok.le_sureHi (Nat.cast_nonneg _)
  · obtain ⟨x, rfl⟩ := hb.min_range.resolve_left fun h => hm h.2
    obtain ⟨y, rfl⟩ := hb.max_range.resolve_left fun h => hm h.2
    have hne : t.sure + t.maybe ≠ 0 := by omega
    rw [if_pos hm]
    refine ⟨_, _, rfl, ?_, ?_⟩
    · show pyMin (Dbl.div id (.fin t.sureLo) (.fin (t.sure : ℚ))) (Dbl.div id
        (.fin (t.sureLo + t.maybe * x)) (.fin ((t.sure + t.maybe : ℕ) : ℚ))) ≤ _
      rw [hdiv _ hs, hdiv _ hne, pyMin_fin, Dbl.fin_le_fin, Nat.cast_add]
      exact min_le_total_div hok hs' (hb.min_le x (Dbl.le_refl (by simp)))
    · show _ ≤ pyMax (Dbl.div id (.fin t.sureHi) (.fin (t.sure : ℚ))) (Dbl.div id
        (.fin (t.sureHi + t.maybe * y)) (.fin ((t.sure + t.maybe : ℕ) : ℚ)))
      rw [hdiv _ hs, hdiv _ hne, pyMax_fin, Dbl.fin_le_fin, Nat.cast_add]
      exact total_div_le_max hok hs' (hb.le_max y (Dbl.le_refl (by simp)))

/-- **What is combined** out of the totals of the reads. -/
theorem combine_eq (bound : ℚ → ℚ) (valuesPerBlock : ℕ) {parts : List (SzAggregate × ℕ)}
    {ts : List Account} (h : Accounts parts ts) :
    ∃ c, combine (exactSums bound) valuesPerBlock parts = .ok c ∧
      c.originalCount = ((Account.sum ts).sure, (Account.sum ts).sure + (Account.sum ts).maybe) ∧
      c.originalSum = (.fin ((Account.sum ts).sureLo + (Account.sum ts).neg),
        .fin ((Account.sum ts).sureHi + (Account.sum ts).pos)) ∧
      c.originalMean = meanBounds (exactSums bound) (Account.sum ts).sure (Account.sum ts).maybe
        (.fin (Account.sum ts).sureLo) (.fin (Account.sum ts).sureHi)
        ((parts.map fun p => p.1.maybeMin).foldl pyMin .pinf)
        ((parts.map fun p => p.1.maybeMax).foldl pyMax .ninf) := by
  have hfl : (exactSums bound).fl = id := rfl
  obtain ⟨total, htotal⟩ := fsum_of_exists id (f := fun p : SzAggregate × ℕ => p.1.recSum) fun p hp => by
    obtain ⟨t, -, hc⟩ := exists_account h hp
    exact hc.recSum
  have hslack := slack_eq bound valuesPerBlock h
  have hlo := fsum_of_accounts (fun p t (hc : Covers p.1 t) => hc.sureLo) h
  have hhi := fsum_of_accounts (fun p t (hc : Covers p.1 t) => hc.sureHi) h
  have hneg := fsum_of_accounts (fun p t (hc : Covers p.1 t) => hc.neg) h
  have hpos := fsum_of_accounts (fun p t (hc : Covers p.1 t) => hc.pos) h
  have hsure := map_of_accounts (fun p t (hc : Covers p.1 t) => hc.sure) h
  have hmaybe := map_of_accounts (fun p t (hc : Covers p.1 t) => hc.maybe) h
  have hsub : Dbl.sub id (.fin (ts.map Account.sureLo).sum) (.fin 0) = .fin (Account.sum ts).sureLo := by
    rw [Dbl.sub_fin, sub_zero]
    rfl
  have hadd : Dbl.add id (.fin (ts.map Account.sureHi).sum) (.fin 0) = .fin (Account.sum ts).sureHi := by
    rw [Dbl.add_fin, add_zero]
    rfl
  unfold combine
  rw [hfl, htotal, hslack, hlo, hhi, hneg, hpos]
  refine ⟨_, rfl, ?_, ?_, ?_⟩
  · dsimp only
    rw [hsure, hmaybe]
    rfl
  · dsimp only
    rw [hsub, hadd]
    rfl
  · dsimp only
    rw [hsub, hadd, hsure, hmaybe]
    rfl

end Intervals

theorem count_sum_cons (t : Account) (ts : List Account) :
    (Account.sum (t :: ts)).count = t.count + (Account.sum ts).count := by
  simp only [Account.count, Account.sum, List.map_cons, List.sum_cons]
  omega

theorem total_sum_cons (t : Account) (ts : List Account) :
    (Account.sum (t :: ts)).total = t.total + (Account.sum ts).total := by
  simp only [Account.total, Account.sum, List.map_cons, List.sum_cons]
  ring

/-- **The accounts of all reads**, which add up to what matches in all of them. -/
theorem exists_accounts {bound : ℚ → ℚ} {lo hi : Dbl} (hmono : ∀ x y, x ≤ y → bound x ≤ bound y)
    (hfix : ∀ (f : F32) (q : ℚ), f.val = .fin q → bound q = q) (hlohi : lo < hi)
    (reads : List (List ReadBlock)) (hreads : ∀ read ∈ reads, ∀ b ∈ read, b.Known lo hi) :
    ∃ ts, Accounts (reads.map fun read => (readTotals bound lo hi read, read.length)) ts ∧
      (Account.sum ts).count = (matching lo hi (reads.flatMap originals)).length ∧
      (Account.sum ts).total = (matching lo hi (reads.flatMap originals)).sum := by
  induction reads with
  | nil => exact ⟨[], .nil, rfl, add_zero 0⟩
  | cons read reads ih =>
    obtain ⟨t, hadd, hc⟩ := covers_readTotals hmono hfix hlohi (hreads read List.mem_cons_self)
    obtain ⟨ts, hts, hcount, htotal⟩ := ih fun r hr => hreads r (List.mem_cons_of_mem read hr)
    refine ⟨t :: ts, .cons hc hts, ?_, ?_⟩
    · rw [count_sum_cons, hcount, hadd.count, List.flatMap_cons, matching_append, List.length_append]
      show 0 + _ + _ = _
      omega
    · rw [total_sum_cons, htotal, hadd.total, List.flatMap_cons, matching_append, List.sum_append]
      show (0 + 0 : ℚ) + _ + _ = _
      ring

/-- **The intervals contain the truth.** With bounds rounded by any monotone function that keeps float32
values, and exact sums: whatever blocks are read, however they are split into reads, `combine` of their
totals has an interval for the number of original values in the range, for their sum, and, when there are
any, for their mean. Blocks that are not read have none of them. -/
theorem original_intervals {bound : ℚ → ℚ} (hmono : ∀ x y, x ≤ y → bound x ≤ bound y)
    (hfix : ∀ (f : F32) (q : ℚ), f.val = .fin q → bound q = q) {lo hi : Dbl} (hlohi : lo < hi)
    (reads : List (List ReadBlock)) (hreads : ∀ read ∈ reads, ∀ b ∈ read, b.Known lo hi)
    (unread : List (List F32)) (hunread : ∀ os ∈ unread, ∀ o ∈ os, ¬ InRange lo hi o.val)
    (valuesPerBlock : ℕ) : ∃ c,
    combine (exactSums bound) valuesPerBlock
      (reads.map fun read => (readTotals bound lo hi read, read.length)) = .ok c ∧
    let os := matching lo hi (reads.flatMap originals ++ unread.flatten)
    (c.originalCount.1 ≤ os.length ∧ os.length ≤ c.originalCount.2) ∧
    (c.originalSum.1 ≤ .fin os.sum ∧ .fin os.sum ≤ c.originalSum.2) ∧
    (os ≠ [] → ∃ a b, c.originalMean = some (a, b) ∧
      a ≤ .fin (os.sum / os.length) ∧ .fin (os.sum / os.length) ≤ b) := by
  obtain ⟨ts, hts, hcount, htotal⟩ := exists_accounts hmono hfix hlohi reads hreads
  obtain ⟨c, hc, hoc, hos, hom⟩ := combine_eq bound valuesPerBlock hts
  have hnone : matching lo hi unread.flatten = [] := by
    unfold matching
    rw [List.filter_eq_nil_iff.mpr, List.map_nil]
    intro o ho
    obtain ⟨os, hos, ho⟩ := List.mem_flatten.mp ho
    simpa using hunread os hos o ho
  have hok : (Account.sum ts).Ok := ok_sum fun t ht => by
    obtain ⟨p, -, hcov⟩ := exists_part hts ht
    exact hcov.ok
  have hcount' : (Account.sum ts).count = (Account.sum ts).sure + (Account.sum ts).hits := rfl
  have htotal' : (Account.sum ts).total = (Account.sum ts).sureSum + (Account.sum ts).hitSum := rfl
  refine ⟨c, hc, ?_⟩
  dsimp only
  rw [matching_append, hnone, List.append_nil, hoc, hos, hom, ← hcount, ← htotal, Dbl.fin_le_fin,
    Dbl.fin_le_fin]
  refine ⟨⟨?_, ?_⟩, ⟨?_, ?_⟩, fun hne => ?_⟩
  · omega
  · have := hok.hits_le
    dsimp only
    omega
  · rw [htotal']
    exact add_le_add hok.sureLo_le hok.neg_le
  · rw [htotal']
    exact add_le_add hok.le_sureHi hok.le_pos
  · refine meanBounds_spec hok (between_sum hts) ?_
    rw [hcount]
    exact fun h0 => hne (List.length_eq_zero_iff.mp h0)

/-- The float `1.0f`. -/
def oneF32 : F32 := ⟨0x3f800000#32⟩

/-- The float `2.0f`. -/
def twoF32 : F32 := ⟨0x40000000#32⟩

def sampleBlock : ReadBlock where
  eps := 1
  inBlock := false
  values := [⟨oneF32, oneF32⟩, ⟨oneF32, twoF32⟩]

theorem known_sampleBlock : sampleBlock.Known (.fin 1) .pinf := by
  have h1 : oneF32.val = .fin 1 := by decide +kernel
  have h2 : twoF32.val = .fin 2 := by decide +kernel
  refine ⟨zero_le_one, fun v hv => ?_⟩
  simp only [sampleBlock, List.mem_cons, List.not_mem_nil, or_false] at hv
  rcases hv with rfl | rfl
  · exact ⟨1, 1, h1, h1, by norm_num [sampleBlock], fun h => absurd h Bool.false_ne_true⟩
  · exact ⟨1, 2, h1, h2, by norm_num [sampleBlock], fun h => absurd h Bool.false_ne_true⟩

/-- Values above one, where one of two is. -/
theorem original_intervals_sampleBlock : ∃ c,
    combine (exactSums id) 64 ([[sampleBlock]].map fun read =>
      (readTotals id (.fin 1) .pinf read, read.length)) = .ok c ∧
    let os := matching (.fin 1) .pinf ([[sampleBlock]].flatMap originals ++ [[oneF32]].flatten)
    (c.originalCount.1 ≤ os.length ∧ os.length ≤ c.originalCount.2) ∧
    (c.originalSum.1 ≤ .fin os.sum ∧ .fin os.sum ≤ c.originalSum.2) ∧
    (os ≠ [] → ∃ a b, c.originalMean = some (a, b) ∧
      a ≤ .fin (os.sum / os.length) ∧ .fin (os.sum / os.length) ≤ b) :=
  original_intervals (fun _ _ h => h) (fun _ _ _ => rfl) (Dbl.fin_lt_pinf 1) [[sampleBlock]]
    (fun read hread b hb => by
      rw [List.mem_singleton.mp hread] at hb
      rw [List.mem_singleton.mp hb]
      exact known_sampleBlock)
    [[oneF32]] (fun os hos o ho => by
      rw [List.mem_singleton.mp hos] at ho
      rw [List.mem_singleton.mp ho]
      decide +kernel) 64

end SkipZFP.Aggregate.Sound
