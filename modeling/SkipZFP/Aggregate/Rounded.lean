import SkipZFP.Aggregate.Sound
import SkipZFP.Lib.Next
import SkipZFP.Lib.Summation

/-! # The intervals of an aggregate, with rounded sums

The C code adds up in doubles, and every sum is rounded. `combine` therefore widens the bounds by a slack,
which it computes in doubles too. Here nothing is exact but the count: the sums, the slack, products and
quotients are rounded with a relative error, as doubles are where they neither overflow nor underflow.

A run of the rounded code is compared with a run of the same code in exact arithmetic (`Near`): it takes
the same branch for every value, so its counts and extrema are the same, and its sums are close.

* `near_addValue`, `near_block`, `near_roundedTotals`: **the two runs stay close**.
* `close_of_near`: the slack of a read covers the errors of its sums.
* `within_rounded`: **the intervals contain the truth**, as they are computed in doubles. -/

namespace SkipZFP.Aggregate.Rounded

open SkipZFP.Lib.Double SkipZFP.Lib.Float32 SkipZFP.Lib.Rounding SkipZFP.Lib.Summation
open SkipZFP.Lib.Precision
open SkipZFP.Lib.Next SkipZFP.Lib.Means SkipZFP.Plan.Classify SkipZFP.Aggregate.Block
open SkipZFP.Aggregate.Combine SkipZFP.Aggregate.Sound

/-! ### The arithmetic -/

/-- **Arithmetic that rounds as doubles do**: to within a fraction `u`, monotone, and exact for float32
values and integers below `2 ^ 53`. `down` and `up` make up for one rounding. -/
structure Doubles (A : Arith) : Prop where
  bound : A.bound = A.fl
  u_nonneg : 0 ≤ A.u
  u_le : A.u ≤ 1
  rounds : Rounds A.u A.fl
  mono : ∀ x y, x ≤ y → A.fl x ≤ A.fl y
  fl_fl : ∀ x, A.fl (A.fl x) = A.fl x
  float32 : ∀ (f : F32) q, f.val = .fin q → A.fl q = q
  nat : ∀ n : ℕ, n ≤ 2 ^ 53 → A.fl n = n
  down : ∀ x, ∃ q, A.down (.fin (A.fl x)) = .fin q ∧ q ≤ x
  up : ∀ x, ∃ q, A.up (.fin (A.fl x)) = .fin q ∧ x ≤ q

/-- `math.nextafter(x, -math.inf)`, of a number. -/
def nextDown : Dbl → Dbl
  | .fin q => .fin (nextBelow 53 q)
  | x => x

/-- `math.nextafter(x, math.inf)`, of a number. -/
def nextUp : Dbl → Dbl
  | .fin q => .fin (nextAbove 53 q)
  | x => x

/-- Doubles: 53 bits and `nextafter`. -/
def doubles : Arith where
  bound := roundEven 53
  fl := roundEven 53
  u := 1 / 2 ^ 53
  down := nextDown
  up := nextUp

theorem doubles_spec : Doubles doubles := by
  have h : ToNearest 53 (roundEven 53) := toNearest_roundEven (by norm_num)
  exact
    { bound := rfl
      u_nonneg := by norm_num [doubles]
      u_le := by norm_num [doubles]
      rounds := rounds_of_toNearest h
      mono := fun x y hxy => h.mono hxy
      fl_fl := fun x => h.eq_self (h.bits x)
      float32 := fun f q hq => h.eq_self ((hasBits_val hq).mono (by norm_num))
      nat := fun n hn => h.eq_self (by
        have : HasBits 53 ((n : ℤ) : ℚ) := hasBits_intCast (by
          rw [abs_of_nonneg (Int.natCast_nonneg n)]
          exact_mod_cast hn)
        exact_mod_cast this)
      down := fun x => ⟨_, rfl, nextBelow_le h (by norm_num) x⟩
      up := fun x => ⟨_, rfl, le_nextAbove h (by norm_num) x⟩ }

/-- An end of a range is a double. -/
def IsDouble (A : Arith) (x : Dbl) : Prop := ∀ q, x = .fin q → A.fl q = q

section Arith
variable {A : Arith} (hA : Doubles A)
include hA

theorem Doubles.zero : A.fl 0 = 0 := by exact_mod_cast hA.nat 0 (Nat.zero_le _)

theorem Doubles.bound_mono (x y : ℚ) (h : x ≤ y) : A.bound x ≤ A.bound y := by
  rw [hA.bound]
  exact hA.mono x y h

theorem Doubles.bound_float32 (f : F32) (q : ℚ) (h : f.val = .fin q) : A.bound q = q := by
  rw [hA.bound]
  exact hA.float32 f q h

theorem Doubles.abs_bound_le {x b : ℚ} (h : |x| ≤ b) : |A.bound x| ≤ (1 + A.u) * b := by
  rw [hA.bound]
  have h1 : |A.fl x| ≤ |A.fl x - x| + |x| := by simpa using abs_add_le (A.fl x - x) x
  have h2 := mul_le_mul_of_nonneg_left h hA.u_nonneg
  linarith [hA.rounds x]

end Arith

/-! ### One value -/

/-- A rounded sum of `n` numbers, beside the exact one. -/
def IsSum (u : ℚ) (n : ℕ) (d d' : Dbl) (t : ℚ) : Prop :=
  ∃ x s, d = .fin x ∧ d' = .fin s ∧ Summed u n x s t

/-- **The bounds of two runs are close**: the counts and the extrema are the same. -/
structure CloseBounds (u : ℚ) (n : ℕ) (t : ℚ) (acc acc' : SzAggregate) : Prop where
  sure : acc.sureCount = acc'.sureCount
  maybe : acc.maybeCount = acc'.maybeCount
  least : acc.maybeMin = acc'.maybeMin
  greatest : acc.maybeMax = acc'.maybeMax
  count_le : acc.sureCount + acc.maybeCount ≤ n
  sums : ∃ ts tm, ts + tm ≤ (1 + u) * t ∧ IsSum u acc.sureCount acc.sureSumLo acc'.sureSumLo ts ∧
    IsSum u acc.sureCount acc.sureSumHi acc'.sureSumHi ts ∧
    IsSum u acc.maybeCount acc.maybeSumNeg acc'.maybeSumNeg tm ∧
    IsSum u acc.maybeCount acc.maybeSumPos acc'.maybeSumPos tm

/-- **A run and an exact run of the same values**, `n` of them with magnitudes and bounds that add up to
`t`. -/
structure Near (u : ℚ) (n : ℕ) (t : ℚ) (acc acc' : SzAggregate) : Prop where
  bounds : CloseBounds u n t acc acc'
  nonneg : 0 ≤ t
  recSum : ∃ q, acc.recSum = .fin q
  absTotal : ∃ q, acc.absTotal = .fin q ∧ (1 - u) ^ (n + 1) * t ≤ q

theorem near_init (u : ℚ) : Near u 0 0 .init .init where
  bounds :=
    { sure := rfl
      maybe := rfl
      least := rfl
      greatest := rfl
      count_le := le_rfl
      sums := by
        have h : IsSum u 0 (.fin 0) (.fin 0) 0 := ⟨0, 0, rfl, rfl, .zero u⟩
        exact ⟨0, 0, by simp, h, h, h, h⟩ }
  nonneg := le_rfl
  recSum := ⟨0, rfl⟩
  absTotal := ⟨0, rfl, by simp⟩

section Value
variable {A : Arith} (hA : Doubles A) {lo hi : Dbl} {e : ℚ} {inBlock : Bool} {v : Value} {r o : ℚ}
  {acc acc' : SzAggregate} {n : ℕ} {t : ℚ}
include hA

theorem IsSum.add {d d' : Dbl} {y b : ℚ} (h : IsSum A.u n d d' t) (hy : A.fl y = y) (hb : |y| ≤ b) :
    IsSum A.u (n + 1) (Dbl.add A.fl d (.fin y)) (Dbl.add id d' (.fin y)) (t + b) := by
  obtain ⟨x, s, rfl, rfl, hsum⟩ := h
  exact ⟨_, _, rfl, rfl, hsum.add hA.rounds hA.u_nonneg hy hb⟩

omit hA in
theorem larger_double (hlo : IsDouble A lo) {a b m : ℚ} (ha : A.fl a = a) (h1 : |a| ≤ m) (h2 : |b| ≤ m)
    (hlt : lo < .fin b) : ∃ q, larger (.fin a) lo = .fin q ∧ A.fl q = q ∧ |q| ≤ m := by
  unfold larger
  split_ifs with h
  · exact ⟨a, rfl, ha, h1⟩
  rcases lo with _ | _ | l | _
  · exact absurd hlt (Dbl.not_nan_lt _)
  · exact absurd (Dbl.ninf_lt_fin a) h
  · have hal : a ≤ l := by simpa using h
    have hlb : l < b := by simpa using hlt
    exact ⟨l, rfl, hlo l rfl, abs_le.mpr ⟨(abs_le.mp h1).1.trans hal, hlb.le.trans (abs_le.mp h2).2⟩⟩
  · exact absurd hlt (Dbl.not_pinf_lt _)

omit hA in
theorem smaller_double (hhi : IsDouble A hi) {a b m : ℚ} (hb : A.fl b = b) (h1 : |a| ≤ m) (h2 : |b| ≤ m)
    (hle : .fin a ≤ hi) : ∃ q, smaller (.fin b) hi = .fin q ∧ A.fl q = q ∧ |q| ≤ m := by
  unfold smaller
  split_ifs with h
  · exact ⟨b, rfl, hb, h2⟩
  rcases hi with _ | _ | l | _
  · exact absurd hle (Dbl.not_le_nan _)
  · exact absurd hle (Dbl.not_fin_le_ninf _)
  · have hlb : l ≤ b := by simpa using h
    have hal : a ≤ l := by simpa using hle
    exact ⟨l, rfl, hhi l rfl, abs_le.mpr ⟨(abs_le.mp h1).1.trans hal, hlb.trans (abs_le.mp h2).2⟩⟩
  · exact absurd (Dbl.fin_lt_pinf b) h

theorem fl_min_zero {q : ℚ} (hq : A.fl q = q) : A.fl (min q 0) = min q 0 ∧ |min q 0| ≤ |q| := by
  rcases min_cases q 0 with ⟨h, -⟩ | ⟨h, -⟩ <;> rw [h]
  · exact ⟨hq, le_rfl⟩
  · exact ⟨hA.zero, by simp⟩

theorem fl_max_zero {q : ℚ} (hq : A.fl q = q) : A.fl (max q 0) = max q 0 ∧ |max q 0| ≤ |q| := by
  rcases max_cases q 0 with ⟨h, -⟩ | ⟨h, -⟩ <;> rw [h]
  · exact ⟨hq, le_rfl⟩
  · exact ⟨hA.zero, by simp⟩

variable (hlo : IsDouble A lo) (hhi : IsDouble A hi) (hlohi : lo < hi) (he : 0 ≤ e)
  (hv : v.Known lo hi e inBlock r o)
include hlo hhi hlohi he hv

/-- **The bounds of one value**: both runs take the same branch. -/
theorem closeBounds_addOriginal (h : CloseBounds A.u n t acc acc') :
    CloseBounds A.u (n + 1) (t + (|r| + e)) (addOriginal A (.fin e) inBlock lo hi acc v.decoded)
      (addOriginal (exactSums A.bound) (.fin e) inBlock lo hi acc' v.decoded) := by
  obtain ⟨ts, tm, hle, hsl, hsh, hmn, hmp⟩ := h.sums
  obtain ⟨hao, hob⟩ := between hA.bound_mono hA.bound_float32 hv
  obtain ⟨hlo', hhi'⟩ := Dbl.ne_nan_of_lt hlohi
  have hu := hA.u_nonneg
  have ha : Dbl.sub A.bound v.decoded.val (.fin e) =
    .fin (A.bound (r - e)) := by rw [hv.decoded, Dbl.sub_fin]
  have hb : Dbl.add A.bound v.decoded.val (.fin e) =
    .fin (A.bound (r + e)) := by rw [hv.decoded, Dbl.add_fin]
  have hfix : ∀ x, A.fl (A.bound x) = A.bound x := fun x => by rw [hA.bound, hA.fl_fl]
  set m := (1 + A.u) * (|r| + e) with hm
  have hma : |A.bound (r - e)| ≤ m := hA.abs_bound_le (by
    have := abs_sub r e
    rwa [abs_of_nonneg he] at this)
  have hmb : |A.bound (r + e)| ≤ m := hA.abs_bound_le (by
    have := abs_add_le r e
    rwa [abs_of_nonneg he] at this)
  -- the ends of the value in the range
  have hends : lo < .fin (A.bound (r + e)) → .fin (A.bound (r - e)) ≤ hi →
      (∃ q, larger (.fin (A.bound (r - e))) lo = .fin q ∧ A.fl q = q ∧ |q| ≤ m) ∧
        ∃ q, smaller (.fin (A.bound (r + e))) hi = .fin q ∧ A.fl q = q ∧ |q| ≤ m := fun h1 h2 =>
    ⟨larger_double hlo (hfix _) hma hmb h1, smaller_double hhi (hfix _) hma hmb h2⟩
  have hab : (Dbl.fin (A.bound (r - e))) ≤ .fin (A.bound (r + e)) := by simpa using hao.trans hob
  have hsum : ts + m + tm ≤ (1 + A.u) * (t + (|r| + e)) := by
    rw [mul_add, ← hm]
    linarith
  have ha' : Dbl.sub (exactSums A.bound).bound v.decoded.val (.fin e) = .fin (A.bound (r - e)) := ha
  have hb' : Dbl.add (exactSums A.bound).bound v.decoded.val (.fin e) = .fin (A.bound (r + e)) := hb
  unfold addOriginal
  rw [ha, hb, ha', hb']
  dsimp only
  by_cases hsure : inBlock = true ∨ lo < .fin (A.bound (r - e)) ∧ .fin (A.bound (r + e)) ≤ hi
  · have hin : lo < .fin (A.bound (r + e)) ∧ .fin (A.bound (r - e)) ≤ hi := by
      rcases hsure with hblock | ⟨h1, h2⟩
      · obtain ⟨h1, h2⟩ := (hv.inRange hblock).1
        exact ⟨Dbl.lt_of_lt_of_le h1 (by simpa using hob), Dbl.le_trans (by simpa using hao) h2⟩
      · exact ⟨Dbl.lt_of_lt_of_le h1 hab, Dbl.le_trans hab h2⟩
    obtain ⟨⟨low, hlow, hfl, hml⟩, high, hhigh, hfh, hmh⟩ := hends hin.1 hin.2
    rw [if_pos hsure, if_pos hsure, hlow, hhigh]
    exact
      { sure := congrArg (· + 1) h.sure
        maybe := h.maybe
        least := h.least
        greatest := h.greatest
        count_le := by
          have := h.count_le
          dsimp only
          omega
        sums := ⟨ts + m, tm, hsum, hsl.add hA hfl hml, hsh.add hA hfh hmh, hmn, hmp⟩ }
  rw [if_neg hsure, if_neg hsure]
  by_cases hout : .fin (A.bound (r + e)) ≤ lo ∨ hi < .fin (A.bound (r - e))
  · rw [if_neg (not_not.mpr hout), if_neg (not_not.mpr hout)]
    have hm0 : 0 ≤ m := (abs_nonneg _).trans hma
    exact
      { h with
        count_le := h.count_le.trans (Nat.le_succ n)
        sums := ⟨ts, tm, by linarith, hsl, hsh, hmn, hmp⟩ }
  · obtain ⟨h1, h2⟩ := not_or.mp hout
    obtain ⟨⟨low, hlow, hfl, hml⟩, high, hhigh, hfh, hmh⟩ :=
      hends ((Dbl.not_le (by simp) hlo').mp h1) ((Dbl.not_lt hhi' (by simp)).mp h2)
    obtain ⟨hfn, hn⟩ := fl_min_zero hA hfl
    obtain ⟨hfp, hp⟩ := fl_max_zero hA hfh
    rw [if_pos hout, if_pos hout, hlow, hhigh, smaller_zero, larger_zero, h.least, h.greatest]
    exact
      { sure := h.sure
        maybe := congrArg (· + 1) h.maybe
        least := rfl
        greatest := rfl
        count_le := by
          have := h.count_le
          dsimp only
          omega
        sums := ⟨ts, tm + m, by linarith, hsl, hsh, hmn.add hA hfn (hn.trans hml),
          hmp.add hA hfp (hp.trans hmh)⟩ }

omit hlo hhi hlohi he in
theorem near_addRec (bound : ℚ → ℚ) (h : Near A.u n t acc acc') (hb : 0 ≤ |r| + e) :
    let x := addRec A inBlock lo hi { acc with
      absTotal := Dbl.add A.fl acc.absTotal (Dbl.add A.fl (Dbl.abs v.decoded.val) (.fin e)) } v.decoded
    let x' := addRec (exactSums bound) inBlock lo hi { acc' with
      absTotal := Dbl.add id acc'.absTotal (Dbl.add id (Dbl.abs v.decoded.val) (.fin e)) } v.decoded
    CloseBounds A.u n t x x' ∧ (∃ q, x.recSum = .fin q) ∧
      ∃ q, x.absTotal = .fin q ∧ (1 - A.u) ^ (n + 1 + 1) * (t + (|r| + e)) ≤ q := by
  obtain ⟨q, hq⟩ := h.recSum
  obtain ⟨y, hy, hlow⟩ := h.absTotal
  have htotal : Dbl.add A.fl acc.absTotal (Dbl.add A.fl (Dbl.abs v.decoded.val) (.fin e)) =
      .fin (A.fl (y + A.fl (|r| + e))) := by
    rw [hy, hv.decoded]
    rfl
  have hsum : ∃ q, Dbl.add A.fl acc.recSum v.decoded.val = .fin q := by
    rw [hq, hv.decoded]
    exact ⟨_, rfl⟩
  have hle := lower_add hA.rounds hA.u_nonneg hA.u_le (Nat.le_add_left 1 n) h.nonneg hb hlow
  have hbounds := h.bounds
  unfold addRec
  dsimp only
  split_ifs
  · exact ⟨{ hbounds with }, hsum, _, htotal, hle⟩
  · exact ⟨{ hbounds with }, ⟨q, hq⟩, _, htotal, hle⟩

theorem near_addValue (h : Near A.u n t acc acc') :
    Near A.u (n + 1) (t + (|r| + e)) (addValue A (.fin e) inBlock lo hi acc v.decoded)
      (addValue (exactSums A.bound) (.fin e) inBlock lo hi acc' v.decoded) := by
  have hb : 0 ≤ |r| + e := add_nonneg (abs_nonneg r) he
  obtain ⟨hbounds, hsum, htotal⟩ :=
    near_addRec hA hv A.bound h hb
  have hkeep : ∀ acc v, (addOriginal A (.fin e) inBlock lo hi acc v).recSum = acc.recSum ∧
      (addOriginal A (.fin e) inBlock lo hi acc v).absTotal = acc.absTotal := by
    intro acc v
    unfold addOriginal
    dsimp only
    split_ifs <;> exact ⟨rfl, rfl⟩
  unfold addValue
  refine ⟨closeBounds_addOriginal hA hlo hhi hlohi he hv hbounds, add_nonneg h.nonneg hb, ?_, ?_⟩
  · rw [(hkeep _ _).1]
    exact hsum
  · rw [(hkeep _ _).2]
    exact htotal

end Value

/-! ### Blocks and reads -/

def roundedTotals (A : Arith) (lo hi : Dbl) (read : List ReadBlock) : SzAggregate :=
  read.foldl (fun acc b => aggregateBlock A (.fin b.eps) b.inBlock lo hi acc
    (b.values.map Value.decoded)) .init

def sizeOf (read : List ReadBlock) : ℕ := (read.map fun b => b.values.length).sum

section Read
variable {A : Arith} (hA : Doubles A) {lo hi : Dbl} (hlo : IsDouble A lo)
  (hhi : IsDouble A hi) (hlohi : lo < hi) {acc acc' : SzAggregate} {n : ℕ} {t : ℚ}
include hA hlo hhi hlohi

theorem near_block {b : ReadBlock} (hb : b.Known lo hi) (h : Near A.u n t acc acc') :
    ∃ t', Near A.u (n + b.values.length) t'
      (aggregateBlock A (.fin b.eps) b.inBlock lo hi acc (b.values.map Value.decoded))
      (aggregateBlock (exactSums A.bound) (.fin b.eps) b.inBlock lo hi acc'
        (b.values.map Value.decoded)) := by
  obtain ⟨he, hvalues⟩ := hb
  unfold aggregateBlock
  generalize b.values = l at hvalues ⊢
  induction l generalizing acc acc' n t with
  | nil => exact ⟨t, h⟩
  | cons v l ih =>
    obtain ⟨r, o, hv⟩ := hvalues v List.mem_cons_self
    have hstep := near_addValue hA hlo hhi hlohi he hv h
    obtain ⟨t', hrest⟩ := ih hstep fun w hw => hvalues w (List.mem_cons_of_mem v hw)
    rw [Nat.add_assoc, Nat.add_comm 1] at hrest
    exact ⟨t', hrest⟩

theorem near_roundedTotals {read : List ReadBlock} (hread : ∀ b ∈ read, b.Known lo hi) :
    ∃ t, Near A.u (sizeOf read) t (roundedTotals A lo hi read) (readTotals A.bound lo hi read) := by
  have hfold : ∀ (l : List ReadBlock), (∀ b ∈ l, b.Known lo hi) → ∀ n t acc acc', Near A.u n t acc acc' →
      ∃ t', Near A.u (n + sizeOf l) t'
        (l.foldl (fun acc b => aggregateBlock A (.fin b.eps) b.inBlock lo hi acc
          (b.values.map Value.decoded)) acc)
        (l.foldl (fun acc b => aggregateBlock (exactSums A.bound) (.fin b.eps) b.inBlock lo hi acc
          (b.values.map Value.decoded)) acc') := by
    intro l
    induction l with
    | nil => exact fun _ n t acc acc' h => ⟨t, h⟩
    | cons b l ih =>
      intro hl n t acc acc' h
      obtain ⟨t₁, hone⟩ := near_block hA hlo hhi hlohi (hl b List.mem_cons_self) h
      obtain ⟨t₂, hrest⟩ := ih (fun b' hb' => hl b' (List.mem_cons_of_mem b hb')) _ _ _ _ hone
      rw [Nat.add_assoc] at hrest
      exact ⟨t₂, hrest⟩
  obtain ⟨t, h⟩ := hfold read hread 0 0 .init .init (near_init A.u)
  rw [Nat.zero_add] at h
  exact ⟨t, h⟩

end Read

/-! ### The slack -/

/-- **The totals of a read, beside an account** of what they stand for, with the slack of the read. -/
structure Close (A : Arith) (k : ℕ) (p : SzAggregate × ℕ) (a : Account) (l xl xh yn yp : ℚ) : Prop where
  sure : p.1.sureCount = a.sure
  maybe : p.1.maybeCount = a.maybe
  count_le : a.sure + a.maybe ≤ p.2 * k
  recSum : ∃ q, p.1.recSum = .fin q
  slack : slackOf A k p = .fin l
  sureLo : p.1.sureSumLo = .fin xl
  sureHi : p.1.sureSumHi = .fin xh
  neg : p.1.maybeSumNeg = .fin yn
  pos : p.1.maybeSumPos = .fin yp
  lower : Widened A.u xl a.sureLo yn a.neg l
  upper : Widened A.u xh a.sureHi yp a.pos l

/-- **The slack of a read covers the errors of its sums.** -/
theorem close_of_near {A : Arith} (hA : Doubles A) {k m n : ℕ} {t : ℚ}
    {acc acc' : SzAggregate} {a : Account}
    (h : Near A.u n t acc acc') (hc : Covers acc' a) (hn : n ≤ m * k) (hnat : m * k + 2 ≤ 2 ^ 53)
    (hsmall : 2 * (((m * k : ℕ) : ℚ) + 3) ^ 2 * A.u ≤ 1) :
    ∃ l xl xh yn yp, Close A k (acc, m) a l xl xh yn yp := by
  have hu := hA.u_nonneg
  have hu1 := hA.u_le
  obtain ⟨q, hq, hlow⟩ := h.absTotal
  obtain ⟨ts, tm, hle, ⟨xl, sl, hxl, hsl, hsuml⟩, ⟨xh, sh, hxh, hsh, hsumh⟩, ⟨yn, sn, hyn, hsn, hsumn⟩,
    ⟨yp, sp, hyp, hsp, hsump⟩⟩ := h.bounds.sums
  obtain rfl : sl = a.sureLo := Dbl.fin.inj (hsl.symm.trans hc.sureLo)
  obtain rfl : sh = a.sureHi := Dbl.fin.inj (hsh.symm.trans hc.sureHi)
  obtain rfl : sn = a.neg := Dbl.fin.inj (hsn.symm.trans hc.neg)
  obtain rfl : sp = a.pos := Dbl.fin.inj (hsp.symm.trans hc.pos)
  have hcount := h.bounds.count_le
  -- the slack, rounded twice
  set l := A.fl (A.fl (((m * k : ℕ) + 2 : ℚ) * A.u) * q) with hl
  have hslack : slackOf A k (acc, m) = .fin l := by
    have hnat' := hA.nat _ hnat
    push_cast at hnat'
    unfold slackOf ofNat
    rw [hq]
    push_cast
    rw [hnat', hl]
    push_cast
    rfl
  have h0 : 0 ≤ ((m * k : ℕ) + 2 : ℚ) * A.u := mul_nonneg (by positivity) hu
  have hpow : 0 ≤ (1 - A.u) ^ (m * k + 1) * t := mul_nonneg (pow_nonneg (by linarith) _) h.nonneg
  have hq0 : (1 - A.u) ^ (m * k + 1) * t ≤ q := by
    refine le_trans (mul_le_mul_of_nonneg_right ?_ h.nonneg) hlow
    exact pow_le_pow_of_le_one (by linarith) (by linarith) (by omega)
  obtain ⟨hfac, -, hfac0⟩ := hA.rounds.bounds hu hu1 h0 le_rfl le_rfl
  have hprod : (1 - A.u) * (((m * k : ℕ) + 2 : ℚ) * A.u) * ((1 - A.u) ^ (m * k + 1) * t) ≤
      A.fl (((m * k : ℕ) + 2 : ℚ) * A.u) * q := mul_le_mul hfac hq0 hpow hfac0
  have hprod0 : 0 ≤ (1 - A.u) * (((m * k : ℕ) + 2 : ℚ) * A.u) * ((1 - A.u) ^ (m * k + 1) * t) :=
    mul_nonneg (mul_nonneg (by linarith) h0) hpow
  have hslackle : (((m * k : ℕ) : ℚ) + 2) * A.u * (1 - A.u) ^ (m * k + 3) * t ≤ l :=
    calc (((m * k : ℕ) : ℚ) + 2) * A.u * (1 - A.u) ^ (m * k + 3) * t
        = (1 - A.u) * ((1 - A.u) * (((m * k : ℕ) + 2 : ℚ) * A.u) * ((1 - A.u) ^ (m * k + 1) * t)) := by ring
      _ ≤ l := (hA.rounds.bounds hu hu1 hprod0 hprod le_rfl).1
  exact ⟨l, xl, xh, yn, yp,
    { sure := h.bounds.sure.trans hc.sure
      maybe := h.bounds.maybe.trans hc.maybe
      count_le := by
        have h1 := h.bounds.sure.trans hc.sure
        have h2 := h.bounds.maybe.trans hc.maybe
        dsimp only
        omega
      recSum := h.recSum
      slack := hslack
      sureLo := hxl
      sureHi := hxh
      neg := hyn
      pos := hyp
      lower := hsuml.widened hu hsmall hsumn (by omega) (by omega) hle hslackle
      upper := hsumh.widened hu hsmall hsump (by omega) (by omega) hle hslackle }⟩

/-! ### The intervals -/

/-- **The intervals of an answer contain the truth** about the numbers `os` that match. -/
structure Within (os : List ℚ) (c : Combined) : Prop where
  count : c.originalCount.1 ≤ os.length ∧ os.length ≤ c.originalCount.2
  sum : c.originalSum.1 ≤ .fin os.sum ∧ .fin os.sum ≤ c.originalSum.2
  mean : os ≠ [] → ∃ a b, c.originalMean = some (a, b) ∧ a ≤ .fin (os.sum / os.length) ∧
    .fin (os.sum / os.length) ≤ b

theorem Within.perm {os os' : List ℚ} {c : Combined} (h : Within os c) (hp : os.Perm os') :
    Within os' c where
  count := hp.length_eq ▸ h.count
  sum := hp.sum_eq ▸ h.sum
  mean hne := by
    rw [← hp.sum_eq, ← hp.length_eq]
    exact h.mean fun h0 => hne (List.perm_nil.mp (h0 ▸ hp.symm))

theorem fsum_map {ι β : Type*} (fl : ℚ → ℚ) {is : List ι} {p : ι → β} {f : β → Dbl} {x : ι → ℚ}
    (h : ∀ i ∈ is, f (p i) = .fin (x i)) : fsum fl ((is.map p).map f) = .ok (.fin (fl (is.map x).sum)) := by
  rw [← fsum_fin, List.map_map, List.map_map]
  exact congrArg (fsum fl) (List.map_congr_left h)

theorem map_map_eq {ι β γ δ : Type*} {is : List ι} {p : ι → β} {t : ι → γ} {f : β → δ} {g : γ → δ}
    (h : ∀ i ∈ is, f (p i) = g (t i)) : (is.map p).map f = (is.map t).map g := by
  rw [List.map_map, List.map_map]
  exact List.map_congr_left h

theorem sum_of_adds {lo hi : Dbl} {t : List ReadBlock → Account} {reads : List (List ReadBlock)}
    (h : ∀ read ∈ reads, AddsAll lo hi (originals read) .zero (t read)) :
    (Account.sum (reads.map t)).count = (matching lo hi (reads.flatMap originals)).length ∧
      (Account.sum (reads.map t)).total = (matching lo hi (reads.flatMap originals)).sum := by
  induction reads with
  | nil => exact ⟨rfl, add_zero 0⟩
  | cons read reads ih =>
    obtain ⟨hcount, htotal⟩ := ih fun r hr => h r (List.mem_cons_of_mem read hr)
    have hone := h read List.mem_cons_self
    constructor
    · rw [List.map_cons, count_sum_cons, hcount, hone.count, List.flatMap_cons, matching_append,
        List.length_append]
      show 0 + _ + _ = _
      omega
    · rw [List.map_cons, total_sum_cons, htotal, hone.total, List.flatMap_cons, matching_append,
        List.sum_append]
      show (0 + 0 : ℚ) + _ + _ = _
      ring

section Intervals
variable {A : Arith} (hA : Doubles A)
include hA

theorem ofNat_eq {n : ℕ} (hn : n ≤ 2 ^ 53) : ofNat A n = .fin n := by
  unfold ofNat
  rw [hA.nat n hn]

theorem down_div (x : ℚ) {n : ℕ} (hn : n ≤ 2 ^ 53) (h0 : n ≠ 0) :
    ∃ q, A.down (Dbl.div A.fl (.fin x) (ofNat A n)) = .fin q ∧ q ≤ x / n := by
  rw [ofNat_eq hA hn, Dbl.div_fin _ _ (Nat.cast_ne_zero.mpr h0)]
  exact hA.down _

theorem up_div (x : ℚ) {n : ℕ} (hn : n ≤ 2 ^ 53) (h0 : n ≠ 0) :
    ∃ q, A.up (Dbl.div A.fl (.fin x) (ofNat A n)) = .fin q ∧ x / n ≤ q := by
  rw [ofNat_eq hA hn, Dbl.div_fin _ _ (Nat.cast_ne_zero.mpr h0)]
  exact hA.up _

/-- The sum of the sure values and as many of `x` as there are others, lowered twice. -/
theorem down_add_mul (s x : ℚ) {n : ℕ} (hn : n ≤ 2 ^ 53) :
    ∃ q, A.down (Dbl.add A.fl (.fin s) (A.down (Dbl.mul A.fl (ofNat A n) (.fin x)))) = .fin q ∧
      q ≤ s + n * x := by
  obtain ⟨d, hd, hdle⟩ := hA.down (n * x)
  obtain ⟨q, hq, hqle⟩ := hA.down (s + d)
  rw [ofNat_eq hA hn, Dbl.mul_fin, hd, Dbl.add_fin]
  exact ⟨q, hq, hqle.trans (add_le_add le_rfl hdle)⟩

theorem up_add_mul (s x : ℚ) {n : ℕ} (hn : n ≤ 2 ^ 53) :
    ∃ q, A.up (Dbl.add A.fl (.fin s) (A.up (Dbl.mul A.fl (ofNat A n) (.fin x)))) = .fin q ∧
      s + n * x ≤ q := by
  obtain ⟨d, hd, hdle⟩ := hA.up (n * x)
  obtain ⟨q, hq, hqle⟩ := hA.up (s + d)
  rw [ofNat_eq hA hn, Dbl.mul_fin, hd, Dbl.add_fin]
  exact ⟨q, hq, (add_le_add le_rfl hdle).trans hqle⟩

/-- **The mean of what matches** is in the interval, as it is computed in doubles. -/
theorem meanBounds_rounded {t : Account} {mn mx : Dbl} (hok : t.Ok) (hb : t.Between mn mx)
    (hcount : t.count ≠ 0) (hnat : t.sure + t.maybe ≤ 2 ^ 53) :
    ∃ a b, meanBounds A t.sure t.maybe (.fin t.sureLo) (.fin t.sureHi) mn mx = some (a, b) ∧
      a ≤ .fin (t.total / t.count) ∧ .fin (t.total / t.count) ≤ b := by
  unfold meanBounds
  by_cases hs : t.sure = 0
  · -- nothing is rounded
    have h : ∃ a b, meanBounds (exactSums id) t.sure t.maybe (.fin t.sureLo) (.fin t.sureHi) mn mx =
        some (a, b) ∧ _ ∧ _ := meanBounds_spec hok hb hcount
    unfold meanBounds at h
    rw [if_neg (not_not.mpr hs)] at h ⊢
    exact h
  have hs' := Nat.pos_of_ne_zero hs
  obtain ⟨l, hl, hlle⟩ := down_div hA t.sureLo (show t.sure ≤ 2 ^ 53 by omega) hs
  obtain ⟨g, hg, hgle⟩ := up_div hA t.sureHi (show t.sure ≤ 2 ^ 53 by omega) hs
  rw [if_pos hs]
  dsimp only
  rw [hl, hg]
  by_cases hm : t.maybe = 0
  · -- only values that surely match
    have hc : t.count = t.sure := by
      have := hok.hits_le
      show t.sure + t.hits = t.sure
      omega
    have htotal : t.total = t.sureSum := by rw [Account.total, hitSum_eq_zero hok hb hm, add_zero]
    rw [if_neg (not_not.mpr hm), hc, htotal]
    refine ⟨_, _, rfl, ?_, ?_⟩
    · rw [Dbl.fin_le_fin]
      exact hlle.trans (div_le_div_of_nonneg_right hok.sureLo_le (Nat.cast_nonneg _))
    · rw [Dbl.fin_le_fin]
      exact (div_le_div_of_nonneg_right hok.le_sureHi (Nat.cast_nonneg _)).trans hgle
  · obtain ⟨x, rfl⟩ := hb.min_range.resolve_left fun h => hm h.2
    obtain ⟨y, rfl⟩ := hb.max_range.resolve_left fun h => hm h.2
    have hne : t.sure + t.maybe ≠ 0 := by omega
    obtain ⟨d, hd, hdle⟩ := down_add_mul hA t.sureLo x (show t.maybe ≤ 2 ^ 53 by omega)
    obtain ⟨u, hu, hule⟩ := up_add_mul hA t.sureHi y (show t.maybe ≤ 2 ^ 53 by omega)
    obtain ⟨l', hl', hlle'⟩ := down_div hA d hnat hne
    obtain ⟨g', hg', hgle'⟩ := up_div hA u hnat hne
    have hn : (0 : ℚ) ≤ ((t.sure + t.maybe : ℕ) : ℚ) := Nat.cast_nonneg _
    have hlow := min_le_total_div hok hs' (hb.min_le x (Dbl.le_refl (by simp)))
    have hhigh := total_div_le_max hok hs' (hb.le_max y (Dbl.le_refl (by simp)))
    rw [← Nat.cast_add] at hlow hhigh
    rw [if_pos hm, hd, hu, hl', hg', pyMin_fin, pyMax_fin]
    refine ⟨_, _, rfl, ?_, ?_⟩
    · rw [Dbl.fin_le_fin]
      refine le_trans (min_le_min hlle (hlle'.trans ?_)) hlow
      exact div_le_div_of_nonneg_right hdle hn
    · rw [Dbl.fin_le_fin]
      refine hhigh.trans (max_le_max hgle (le_trans ?_ hgle'))
      exact div_le_div_of_nonneg_right hule hn

/-- **What is combined** out of the totals of the reads. -/
theorem combine_close {ι : Type} {k : ℕ} {p : ι → SzAggregate × ℕ} {is : List ι} {t : ι → Account}
    {l xl xh yn yp : ι → ℚ} (h : ∀ i ∈ is, Close A k (p i) (t i) (l i) (xl i) (xh i) (yn i) (yp i))
    {T : Account} (hT : T = Account.sum (is.map t)) :
    ∃ c sl sh, combine A k (is.map p) = .ok c ∧ sl ≤ T.sureLo ∧ T.sureHi ≤ sh ∧
      c.originalCount = (T.sure, T.sure + T.maybe) ∧ c.originalSum.1 ≤ .fin (T.sureLo + T.neg) ∧
      .fin (T.sureHi + T.pos) ≤ c.originalSum.2 ∧
      c.originalMean = meanBounds A T.sure T.maybe (.fin sl) (.fin sh)
        (((is.map p).map fun q => q.1.maybeMin).foldl pyMin .pinf)
        (((is.map p).map fun q => q.1.maybeMax).foldl pyMax .ninf) := by
  have hfield : ∀ {β : Type} (f : Account → β), (is.map t).map f = is.map fun i => f (t i) :=
    fun f => List.map_map
  have hlower := Widened.sum hA.u_nonneg fun i hi => (h i hi).lower
  have hupper := Widened.sum hA.u_nonneg fun i hi => (h i hi).upper
  rw [← hfield, ← hfield] at hlower hupper
  have hlow := hlower.lower hA.rounds hA.u_nonneg hA.u_le
  have hhigh := hupper.upper hA.rounds hA.u_nonneg hA.u_le
  have hlow' := (hlower.left hA.u_nonneg).lower hA.rounds hA.u_nonneg hA.u_le
  have hhigh' := (hupper.left hA.u_nonneg).upper hA.rounds hA.u_nonneg hA.u_le
  rw [hA.zero, add_zero, add_zero] at hlow' hhigh'
  have hrec : ∀ q ∈ is.map p, ∃ x, q.1.recSum = .fin x := fun q hq => by
    obtain ⟨i, hi, rfl⟩ := List.mem_map.mp hq
    exact (h i hi).recSum
  obtain ⟨total, htotal⟩ := fsum_of_exists A.fl hrec
  have hslack := fsum_map A.fl fun i hi => (h i hi).slack
  have hsl := fsum_map (f := fun q : SzAggregate × ℕ => q.1.sureSumLo) A.fl fun i hi => (h i hi).sureLo
  have hsh := fsum_map (f := fun q : SzAggregate × ℕ => q.1.sureSumHi) A.fl fun i hi => (h i hi).sureHi
  have hyn := fsum_map (f := fun q : SzAggregate × ℕ => q.1.maybeSumNeg) A.fl fun i hi => (h i hi).neg
  have hyp := fsum_map (f := fun q : SzAggregate × ℕ => q.1.maybeSumPos) A.fl fun i hi => (h i hi).pos
  have hsure := map_map_eq (f := fun q : SzAggregate × ℕ => q.1.sureCount) (g := Account.sure)
    fun i hi => (h i hi).sure
  have hmaybe := map_map_eq (f := fun q : SzAggregate × ℕ => q.1.maybeCount) (g := Account.maybe)
    fun i hi => (h i hi).maybe
  obtain ⟨m, hm, hmle⟩ := hA.down (A.fl (A.fl (is.map xl).sum - A.fl (is.map l).sum) + A.fl (is.map yn).sum)
  obtain ⟨g, hg, hgle⟩ := hA.up (A.fl (A.fl (is.map xh).sum + A.fl (is.map l).sum) + A.fl (is.map yp).sum)
  subst hT
  unfold combine
  rw [htotal, hslack, hsl, hsh, hyn, hyp, hsure, hmaybe]
  refine ⟨_, A.fl (A.fl (is.map xl).sum - A.fl (is.map l).sum),
    A.fl (A.fl (is.map xh).sum + A.fl (is.map l).sum), rfl, hlow', hhigh', rfl, ?_, ?_, ?_⟩
  · show A.down (Dbl.add A.fl (Dbl.sub A.fl (.fin _) (.fin _)) (.fin _)) ≤ _
    rw [Dbl.sub_fin, Dbl.add_fin, hm, Dbl.fin_le_fin]
    exact hmle.trans hlow
  · show _ ≤ A.up (Dbl.add A.fl (Dbl.add A.fl (.fin _) (.fin _)) (.fin _))
    rw [Dbl.add_fin, Dbl.add_fin, hg, Dbl.fin_le_fin]
    exact hhigh.trans hgle
  · show meanBounds A _ _ (Dbl.sub A.fl (.fin _) (.fin _)) _ _ _ = _
    rw [Dbl.sub_fin]
    rfl

variable {lo hi : Dbl} (hlo : IsDouble A lo) (hhi : IsDouble A hi) (hlohi : lo < hi)
include hlo hhi hlohi

/-- **The intervals contain the truth, in doubles.** Whatever blocks are read, of at most `k` values each,
however they are split into reads: `combine` of their totals, added up, widened and divided in doubles,
contains the number of original values in the range, their sum and their mean, as long as twice the square
of the number of values in a read is below `1 / u`. -/
theorem within_rounded {k : ℕ} {reads : List (List ReadBlock)}
    (hreads : ∀ read ∈ reads, ∀ b ∈ read, b.Known lo hi ∧ b.values.length ≤ k)
    (hsmall : ∀ read ∈ reads, 2 * (((read.length * k : ℕ) : ℚ) + 3) ^ 2 * A.u ≤ 1)
    (htotal : (reads.map List.length).sum * k + 2 ≤ 2 ^ 53) :
    ∃ c, combine A k (reads.map fun read => (roundedTotals A lo hi read, read.length)) = .ok c ∧
      Within (matching lo hi (reads.flatMap originals)) c := by
  have hread : ∀ read ∈ reads, ∃ t l xl xh yn yp, AddsAll lo hi (originals read) .zero t ∧
      Covers (readTotals A.bound lo hi read) t ∧
      Close A k (roundedTotals A lo hi read, read.length) t l xl xh yn yp ∧
      (roundedTotals A lo hi read).maybeMin = (readTotals A.bound lo hi read).maybeMin ∧
      (roundedTotals A lo hi read).maybeMax = (readTotals A.bound lo hi read).maybeMax := by
    intro read hmem
    have hknown := fun b hb => (hreads read hmem b hb).1
    obtain ⟨t, hadd, hcov⟩ := covers_readTotals hA.bound_mono hA.bound_float32 hlohi hknown
    obtain ⟨w, hnear⟩ := near_roundedTotals hA hlo hhi hlohi hknown
    have hsize : sizeOf read ≤ read.length * k := by
      have := List.sum_le_card_nsmul (read.map fun b => b.values.length) k fun n hn => by
        obtain ⟨b, hb, rfl⟩ := List.mem_map.mp hn
        exact (hreads read hmem b hb).2
      rwa [List.length_map, nsmul_eq_mul, Nat.cast_id] at this
    have hlen : read.length ≤ (reads.map List.length).sum := List.le_sum_of_mem (List.mem_map_of_mem hmem)
    have hle := Nat.mul_le_mul_right k hlen
    obtain ⟨l, xl, xh, yn, yp, hclose⟩ := close_of_near hA hnear hcov hsize (by omega) (hsmall read hmem)
    exact ⟨t, l, xl, xh, yn, yp, hadd, hcov, hclose, hnear.bounds.least, hnear.bounds.greatest⟩
  have : Nonempty Account := ⟨.zero⟩
  choose! t l xl xh yn yp hadd hcov hclose hleast hgreatest using hread
  set T := Account.sum (reads.map t) with hT
  -- the accounts of the exact run
  have haccounts : Accounts (reads.map fun read => (readTotals A.bound lo hi read, read.length))
      (reads.map t) := List.forall₂_map_left_iff.mpr (List.forall₂_map_right_iff.mpr
    (List.forall₂_same.mpr fun read hmem => hcov read hmem))
  obtain ⟨hcount, hsum⟩ := sum_of_adds hadd
  rw [← hT] at hcount hsum
  obtain ⟨c, sl, sh, hc, hsl, hsh, hoc, hlow, hhigh, hom⟩ := combine_close hA hclose hT
  have hok : T.Ok := ok_sum fun a ha => by
    obtain ⟨read, hmem, rfl⟩ := List.mem_map.mp ha
    exact (hcov read hmem).ok
  have hmin : ((reads.map fun read => (roundedTotals A lo hi read, read.length)).map fun q =>
    q.1.maybeMin) =
      (reads.map fun read => (readTotals A.bound lo hi read, read.length)).map fun q => q.1.maybeMin :=
    map_map_eq hleast
  have hmax : ((reads.map fun read => (roundedTotals A lo hi read, read.length)).map fun q =>
    q.1.maybeMax) =
      (reads.map fun read => (readTotals A.bound lo hi read, read.length)).map fun q => q.1.maybeMax :=
    map_map_eq hgreatest
  have hbetween := between_sum haccounts
  rw [← hT, ← hmin, ← hmax] at hbetween
  have hnat : T.sure + T.maybe ≤ 2 ^ 53 := by
    have hle : (reads.map fun read => (t read).sure + (t read).maybe).sum ≤
        (reads.map fun read => read.length * k).sum :=
      List.sum_le_sum fun read hmem => (hclose read hmem).count_le
    rw [List.sum_map_add, List.sum_map_mul_right] at hle
    have h1 : T.sure = (reads.map fun read => (t read).sure).sum := congrArg List.sum List.map_map
    have h2 : T.maybe = (reads.map fun read => (t read).maybe).sum := congrArg List.sum List.map_map
    omega
  -- the account with the sums as they were computed
  set T' : Account := { T with sureLo := sl, sureHi := sh } with hT'
  have hok' : T'.Ok := ⟨hok.hits_le, hok.no_sure, hsl.trans hok.sureLo_le, hok.le_sureHi.trans hsh,
    hok.neg_le, hok.le_pos⟩
  have hhits := hok.hits_le
  have hcount' : T.sure + T.hits = (matching lo hi (reads.flatMap originals)).length := hcount
  have hsum' : T.sureSum + T.hitSum = (matching lo hi (reads.flatMap originals)).sum := hsum
  refine ⟨c, hc, ⟨?_, ?_⟩, ⟨?_, ?_⟩, fun hne => ?_⟩
  · rw [hoc]
    dsimp only
    omega
  · rw [hoc]
    dsimp only
    omega
  · rw [← hsum']
    exact Dbl.le_trans hlow ((Dbl.fin_le_fin _ _).mpr (add_le_add hok.sureLo_le hok.neg_le))
  · rw [← hsum']
    exact Dbl.le_trans ((Dbl.fin_le_fin _ _).mpr (add_le_add hok.le_sureHi hok.le_pos)) hhigh
  · rw [← hcount, ← hsum, hom]
    refine meanBounds_rounded hA hok' ⟨hbetween.1, hbetween.2, hbetween.3, hbetween.4⟩ ?_ hnat
    show T.count ≠ 0
    rw [hcount]
    exact fun h0 => hne (List.length_eq_zero_iff.mp h0)

end Intervals

end SkipZFP.Aggregate.Rounded
