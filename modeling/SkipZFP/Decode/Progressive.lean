import SkipZFP.Decode.Count

/-! # Reading a prefix of a block

A layer of a rate below the one of the array reads the first bytes of each block. The embedded code makes
that a coarser block: the planes it reads are those of the whole block, but for the last one.

* `serialPlanesFrom_append`: more bits change the last plane, and add planes.
* `length_serialPlanesFrom`: **every eight bytes are another plane**, whatever the block: a coefficient
  pays for being found significant once, so all planes share these bits.
* `getLsbD_transposeScalar`: the bits of a coefficient.
* `readBlock_serial`: what any of the fast decoders reads.
* `layer_refines`: **how close a layer comes to the block**, its coefficients and its values. -/

namespace SkipZFP.Decode.Progressive

open SkipZFP.Lib.Rows SkipZFP.Lib.Bits SkipZFP.Lib.Words SkipZFP.Lib.Float32 SkipZFP.Plan.Classify
open SkipZFP.Read.Stream SkipZFP.Decode.Planes SkipZFP.Decode.Bmi2 SkipZFP.Decode.Tail
open SkipZFP.Decode.Count

/-! ### More bits -/

theorem readRun_append (cs : List Bool) : ∀ (n : ℕ) (bs : List Bool), (readRun n bs).2 ≠ [] →
    readRun n (bs ++ cs) = ((readRun n bs).1, (readRun n bs).2 ++ cs)
  | n, [], h => absurd rfl h
  | n, b :: bs, h => by
    have ih := readRun_append cs (n + 1) bs
    unfold readRun at h
    rw [List.cons_append]
    unfold readRun
    by_cases hn : n < 63
    · rw [if_pos hn] at h
      simp only [if_pos hn]
      cases b with
      | false => exact ih h
      | true => rfl
    · simp only [if_neg hn]
      rfl

theorem readTests_append (cs : List Bool) (n : ℕ) (x : Word) (bs : List Bool) :
    (readTests n x bs).2.2 ≠ [] → readTests n x (bs ++ cs) =
      ((readTests n x bs).1, (readTests n x bs).2.1, (readTests n x bs).2.2 ++ cs) := by
  fun_induction readTests n x bs with
  | case1 n x => exact fun h => absurd rfl h
  | case2 n x bs hn r ih =>
    intro h
    have hr : r.2 ≠ [] := by
      intro h0
      rw [h0, readTests] at h
      exact h rfl
    rw [List.cons_append, readTests_true x _ hn, afterTest, readRun_append cs n bs hr]
    exact ih h
  | case3 n x b bs hn hb =>
    intro _
    rw [List.cons_append, Bool.eq_false_of_not_eq_true hb, readTests_false x _ hn]
  | case4 n x b bs hn =>
    intro _
    rw [List.cons_append, readTests, if_neg hn]

/-- A plane that does not take the last bit is the same with more bits. -/
theorem serialPlane_append (cs : List Bool) {n : ℕ} {bs : List Bool} (h : (serialPlane n bs).2.2 ≠ []) :
    serialPlane n (bs ++ cs) =
      ((serialPlane n bs).1, (serialPlane n bs).2.1, (serialPlane n bs).2.2 ++ cs) := by
  have hn : n < bs.length := by
    by_contra hle
    refine h ?_
    unfold serialPlane
    dsimp only
    rw [Nat.min_eq_right (by omega), List.drop_length, readTests]
  have hlen : n ≤ (bs ++ cs).length := by
    rw [List.length_append]
    omega
  unfold serialPlane at h ⊢
  dsimp only at h ⊢
  rw [Nat.min_eq_left hn.le] at h
  rw [Nat.min_eq_left hn.le, Nat.min_eq_left hlen, List.take_append_of_le_length hn.le,
    List.drop_append_of_le_length hn.le]
  exact readTests_append cs _ _ _ h

/-- **More bits change the last plane at most**, and add planes. -/
theorem serialPlanesFrom_append (cs : List Bool) : ∀ (k n : ℕ) (bs : List Bool),
    (serialPlanesFrom k n bs).dropLast <+: serialPlanesFrom k n (bs ++ cs)
  | 0, _, _ => List.prefix_rfl
  | k + 1, n, bs => by
    unfold serialPlanesFrom
    by_cases hbs : bs = []
    · rw [if_pos hbs]
      exact List.nil_prefix
    · rw [if_neg hbs, if_neg fun h => hbs (List.append_eq_nil_iff.mp h).1]
      dsimp only
      by_cases hrest : (serialPlane n bs).2.2 = []
      · have hnone : ∀ m, serialPlanesFrom k m [] = [] := by
          intro m
          cases k with
          | zero => rfl
          | succ k => rw [serialPlanesFrom, if_pos rfl]
        rw [hrest, hnone]
        exact List.nil_prefix
      · rw [serialPlane_append cs hrest]
        dsimp only
        have ih := serialPlanesFrom_append cs k (serialPlane n bs).1 (serialPlane n bs).2.2
        by_cases hnil : serialPlanesFrom k (serialPlane n bs).1 (serialPlane n bs).2.2 = []
        · rw [hnil]
          exact List.nil_prefix
        · rw [List.dropLast_cons_of_ne_nil hnil]
          exact (List.prefix_cons_inj _).mpr ih

/-! ### The bits of a plane -/

/-- A scan takes a bit for each coefficient it passes, and the one that ends it. -/
theorem length_readRun_add : ∀ (n : ℕ) (bs : List Bool),
    bs.length + n ≤ (readRun n bs).2.length + (readRun n bs).1 + 1
  | n, [] => Nat.le_succ_of_le le_rfl
  | n, b :: bs => by
    have ih := length_readRun_add (n + 1) bs
    unfold readRun
    rw [List.length_cons]
    split_ifs
    · dsimp only
      omega
    · omega
    · rw [List.length_cons]
      omega

/-- Group tests take two bits at most for each coefficient they pass, and the one that ends the plane. -/
theorem length_readTests_add (n : ℕ) (x : Word) (bs : List Bool) : n ≤ 64 →
    n ≤ (readTests n x bs).1 ∧ (readTests n x bs).1 ≤ 64 ∧
      bs.length + 2 * n ≤ (readTests n x bs).2.2.length + 64 + (readTests n x bs).1 := by
  fun_induction readTests n x bs with
  | case1 n x =>
    intro hn
    refine ⟨le_rfl, hn, ?_⟩
    dsimp only
    omega
  | case2 n x bs hn r ih =>
    intro _
    obtain ⟨hle, hlt⟩ := readRun_le n bs (by omega)
    have hrun : bs.length + n ≤ r.2.length + r.1 + 1 := length_readRun_add n bs
    have hr : n ≤ r.1 ∧ r.1 ≤ 63 := ⟨hle, hlt⟩
    obtain ⟨h1, h2, h3⟩ := ih (by omega)
    rw [List.length_cons]
    omega
  | case3 n x b bs hn hb =>
    intro _
    refine ⟨le_rfl, hn.le, ?_⟩
    rw [List.length_cons]
    dsimp only
    omega
  | case4 n x b bs hn =>
    intro _
    refine ⟨le_rfl, by omega, ?_⟩
    dsimp only
    omega

/-- A plane takes 64 bits, and one for each coefficient that it finds significant. -/
theorem length_serialPlane_add {n : ℕ} (hn : n ≤ 64) (bs : List Bool) :
    n ≤ (serialPlane n bs).1 ∧ (serialPlane n bs).1 ≤ 64 ∧
      bs.length + n ≤ (serialPlane n bs).2.2.length + 64 + (serialPlane n bs).1 := by
  obtain ⟨h1, h2, h3⟩ := length_readTests_add n (ofBits (bs.take (min n bs.length)))
    (bs.drop (min n bs.length)) hn
  rw [List.length_drop] at h3
  refine ⟨h1, h2, ?_⟩
  unfold serialPlane
  dsimp only
  omega

/-- **Every 64 bits are another plane.** A coefficient is found significant once, so what all planes take
beyond that are 64 bits in all. -/
theorem length_serialPlanesFrom : ∀ (k n : ℕ) (bs : List Bool), n ≤ 64 →
    (serialPlanesFrom k n bs).length ≤ k ∧ ((serialPlanesFrom k n bs).length = k ∨
      bs.length + n ≤ 64 * (serialPlanesFrom k n bs).length + 64)
  | 0, _, _, _ => ⟨le_rfl, Or.inl rfl⟩
  | k + 1, n, bs, hn => by
    unfold serialPlanesFrom
    by_cases hbs : bs = []
    · rw [if_pos hbs, hbs]
      refine ⟨Nat.zero_le _, Or.inr ?_⟩
      rw [List.length_nil]
      omega
    · rw [if_neg hbs]
      dsimp only
      obtain ⟨-, hle, hlen⟩ := length_serialPlane_add hn bs
      obtain ⟨ih, ih'⟩ := length_serialPlanesFrom k _ (serialPlane n bs).2.2 hle
      rw [List.length_cons]
      refine ⟨Nat.succ_le_succ ih, ih'.imp (congrArg (· + 1)) fun h => ?_⟩
      omega

/-! ### The coefficients -/

theorem getLsbD_bit (j b : ℕ) : (1#32 <<< j).getLsbD b = (decide (b < 32) && decide (b = j)) := by
  rw [BitVec.getLsbD_shiftLeft, BitVec.getLsbD_one]
  by_cases hj : b < j
  · simp [hj, hj.ne]
  · have hb : decide (b - j = 0) = decide (b = j) := decide_eq_decide.mpr (by omega)
    simp [hj, hb]

/-- **The bits of a coefficient**: one of each plane. -/
theorem getLsbD_transposeScalar {planes : List Word} (h : planes.length ≤ 32) (i : Fin 64) {b : ℕ}
    (hb : b < 32) : (transposeScalar planes i).getLsbD b = (planes.getD (31 - b) 0#64).getLsbD i := by
  have hfold : ∀ (l : List Word) (k : ℕ) (u : Coefficients), k + l.length ≤ 32 →
      ((l.zipIdx k).foldl (fun u p => setBits (1#32 <<< (31 - p.2)) p.1 u) u i).getLsbD b =
        ((u i).getLsbD b || (decide (k ≤ 31 - b) && (l.getD (31 - b - k) 0#64).getLsbD i)) := by
    intro l
    induction l with
    | nil =>
      intro k u _
      simp
    | cons x l ih =>
      intro k u hk
      rw [List.length_cons] at hk
      rw [List.zipIdx_cons, List.foldl_cons, ih (k + 1) _ (by omega)]
      dsimp only
      have hset : (setBits (1#32 <<< (31 - k)) x u i).getLsbD b =
          ((u i).getLsbD b || (x.getLsbD i && decide (b = 31 - k))) := by
        rw [setBits_apply]
        by_cases hx : x.getLsbD i = true
        · rw [if_pos hx, BitVec.getLsbD_or, getLsbD_bit, decide_eq_true hb, hx, Bool.true_and]
        · rw [if_neg hx, Bool.eq_false_of_not_eq_true hx, Bool.false_and, Bool.or_false]
      rw [hset, Bool.or_assoc]
      congr 1
      rcases Nat.lt_trichotomy (31 - b) k with hlt | heq | hgt
      · have h1 : ¬ k + 1 ≤ 31 - b := by omega
        have h2 : ¬ k ≤ 31 - b := by omega
        have h3 : b ≠ 31 - k := by omega
        simp only [decide_eq_false h1, decide_eq_false h2, decide_eq_false h3, Bool.and_false,
          Bool.false_and,
          Bool.or_false]
      · have h1 : ¬ k + 1 ≤ 31 - b := by omega
        have h3 : b = 31 - k := by omega
        rw [decide_eq_false h1, decide_eq_true heq.ge, decide_eq_true h3, heq, Nat.sub_self,
          List.getD_cons_zero,
          Bool.and_true, Bool.true_and, Bool.false_and, Bool.or_false]
      · have h3 : b ≠ 31 - k := by omega
        have h4 : 31 - b - k = 31 - b - (k + 1) + 1 := by omega
        rw [decide_eq_true (Nat.succ_le_of_lt hgt), decide_eq_true hgt.le, decide_eq_false h3, h4,
          List.getD_cons_succ, Bool.and_false,
          Bool.false_or]
  have h0 := hfold planes 0 (fun _ => 0#32) (by omega)
  rw [decide_eq_true (Nat.zero_le _), Bool.true_and, Nat.sub_zero, BitVec.getLsbD_zero, Bool.false_or] at h0
  exact h0

theorem getLsbD_of_prefix {P Q : List Word} (hP : P.length ≤ 32) (hQ : Q.length ≤ 32)
    (hpre : P.dropLast <+: Q) (i : Fin 64) {b : ℕ} (hb : 33 - P.length ≤ b) :
    (transposeScalar P i).getLsbD b = (transposeScalar Q i).getLsbD b := by
  by_cases h32 : b < 32
  · have hj : 31 - b < P.dropLast.length := by
      rw [List.length_dropLast]
      omega
    have hget : ∀ l : List Word, P.dropLast <+: l → l.getD (31 - b) 0#64 =
      P.dropLast.getD (31 - b) 0#64 := by
      rintro l ⟨r, rfl⟩
      exact List.getD_append _ _ _ _ hj
    rw [getLsbD_transposeScalar hP i h32, getLsbD_transposeScalar hQ i h32, hget Q hpre,
      hget P (List.dropLast_prefix P)]
  · rw [BitVec.getLsbD_of_ge _ _ (by omega), BitVec.getLsbD_of_ge _ _ (by omega)]

/-- The integer of a negabinary coefficient. -/
def exactCoef (c : I32) : ℤ := ((c ^^^ nbmask).toNat : ℤ) - nbmask.toNat

/-- **Coefficients whose bits agree from `k` on are less than `2 ^ k` apart.** -/
theorem exactCoef_sub {k : ℕ} {c d : I32} (h : ∀ b, k ≤ b → c.getLsbD b = d.getLsbD b) :
    |exactCoef c - exactCoef d| < 2 ^ k := by
  have hdiv : (c ^^^ nbmask).toNat / 2 ^ k = (d ^^^ nbmask).toNat / 2 ^ k := by
    refine Nat.eq_of_testBit_eq fun i => ?_
    rw [Nat.testBit_div_two_pow, Nat.testBit_div_two_pow, BitVec.testBit_toNat, BitVec.testBit_toNat,
      BitVec.getLsbD_xor, BitVec.getLsbD_xor, h _ (Nat.le_add_left _ _)]
  have hc := Nat.div_add_mod (c ^^^ nbmask).toNat (2 ^ k)
  have hd := Nat.div_add_mod (d ^^^ nbmask).toNat (2 ^ k)
  have hcm := Nat.mod_lt (c ^^^ nbmask).toNat (Nat.two_pow_pos k)
  have hdm := Nat.mod_lt (d ^^^ nbmask).toNat (Nat.two_pow_pos k)
  rw [hdiv] at hc
  have hpow : ((2 : ℤ) ^ k) = ((2 ^ k : ℕ) : ℤ) := by push_cast; rfl
  unfold exactCoef
  rw [hpow, abs_lt]
  omega

/-! ### Blocks -/

/-- **What any of the fast decoders reads**: the first bit, the exponent, and the planes of the rest. -/
theorem readBlock_serial {scale : ℤ → I32 → F32} {f : Fast} (hf : Faithful scale f) {block : List UInt8}
    (h2 : 2 ≤ block.length) : readBlock f block =
      if (bitsOf block).getD 0 false = true then
        some (transposeScalar (serialPlanes ((bitsOf block).drop 9)),
          (natOfBits (((bitsOf block).drop 1).take 8) : ℤ) - 127)
      else none := by
  have hat : At block ⟨0, 8 * block.length - 1, 1⟩ ((bitsOf block).drop 1) :=
    ⟨show 1 + (8 * block.length - 1) = _ by omega, rfl⟩
  have hexp : (peek (padded block) 1 &&& 0xff#64).toNat = natOfBits (((bitsOf block).drop 1).take 8) := by
    refine Nat.eq_of_testBit_eq fun i => ?_
    have hlow : (0xff#64 : Word) = lowMask 8 := by decide
    rw [BitVec.testBit_toNat, hlow, testBit_natOfBits, getD_take]
    exact getLsbD_peek_low hat (by norm_num) i
  have hflag : ((padded block).getD 0 0).toNat % 2 = ((bitsOf block).getD 0 false).toNat := by
    cases block with
    | nil => exact absurd h2 (by decide)
    | cons x block =>
      show x.toNat % 2 = (x.toNat.testBit 0).toNat
      rw [Nat.testBit_zero]
      have := Nat.mod_two_eq_zero_or_one x.toNat
      rcases this with h | h <;> rw [h] <;> rfl
  have hplanes : f.planes (padded block) 9 (8 * block.length - 9) =
    serialPlanes ((bitsOf block).drop 9) := by
    have hbits : 9 + (8 * block.length - 9) = 8 * block.length := by omega
    rw [hf.planes block 9 _ hbits, decode_planes_serial block hbits]
  unfold readBlock
  dsimp only
  rw [hexp, hflag, hplanes, hf.transpose]
  cases (bitsOf block).getD 0 false <;> rfl

/-! ### Values -/

/-- `inv_lift` over the integers. -/
def exactLift (p : Fin 4 → ℤ) : Fin 4 → ℤ := liftSteps (· / 2) (2 * ·) p

/-- The inverse transform over the integers, of the value at `x`, `y`, `z`. -/
def exactAt (u : Coefficients) (x y z : Fin 4) : ℤ :=
  exactLift (fun i => exactLift (fun l => exactLift (fun j => exactCoef (u (inv (at64 j l i)))) z) y) x

/-- The integers of 32 bits of a block are those without bound. -/
def NoOverflow (u : Coefficients) : Prop := ∀ x y z, (transformed u x y z).toInt = exactAt u x y z

/-- A pass multiplies a difference by less than four. -/
theorem exactLift_sub {p q : Fin 4 → ℤ} {d : ℤ} (h : ∀ i, |p i - q i| ≤ d) (i : Fin 4) :
    4 * |exactLift p i - exactLift q i| ≤ 15 * d + 5 := by
  have h0 := abs_le.mp (h 0)
  have h1 := abs_le.mp (h 1)
  have h2 := abs_le.mp (h 2)
  have h3 := abs_le.mp (h 3)
  have hcase : -(15 * d + 5) ≤ 4 * (exactLift p i - exactLift q i) ∧
      4 * (exactLift p i - exactLift q i) ≤ 15 * d + 5 := by
    unfold exactLift liftSteps
    fin_cases i <;> simp <;> omega
  have : 4 * |exactLift p i - exactLift q i| = |4 * (exactLift p i - exactLift q i)| := by
    rw [abs_mul]
    rfl
  rw [this, abs_le]
  exact hcase

/-- **Values are less than 53 times as far apart as coefficients.** -/
theorem exactAt_sub {u v : Coefficients} {k : ℤ} (h : ∀ i, |exactCoef (u i) - exactCoef (v i)| < k)
    (x y z : Fin 4) : |exactAt u x y z - exactAt v x y z| < 53 * k := by
  have hk : 0 < k := (abs_nonneg _).trans_lt (h 0)
  -- one pass, for differences up to `d`
  have hpass : ∀ {p q : Fin 4 → ℤ} {d : ℤ}, (∀ i, |p i - q i| ≤ d) → ∀ i,
      |exactLift p i - exactLift q i| ≤ (15 * d + 5) / 4 := by
    intro p q d hd i
    have := exactLift_sub hd i
    omega
  have hz : ∀ l i, |exactLift (fun j => exactCoef (u (inv (at64 j l i)))) z -
      exactLift (fun j => exactCoef (v (inv (at64 j l i)))) z| ≤ (15 * (k - 1) + 5) / 4 :=
    fun l i => hpass (fun j => Int.le_sub_one_of_lt (h _)) z
  have hx := hpass (fun i => hpass (fun l => hz l i) y) x
  unfold exactAt
  omega

theorem toInt_ofInt_of_range {a : ℤ} (h : -2 ^ 31 ≤ a) (h' : a < 2 ^ 31) : (BitVec.ofInt 32 a).toInt = a :=
  BitVec.toInt_ofInt_eq_self (by norm_num) (by simpa using h) (by simpa using h')

theorem sshiftRight_ofInt {a : ℤ} (h : -2 ^ 31 ≤ a) (h' : a < 2 ^ 31) :
    (BitVec.ofInt 32 a).sshiftRight 1 = BitVec.ofInt 32 (a / 2) := by
  refine BitVec.eq_of_toInt_eq ?_
  rw [BitVec.toInt_sshiftRight, toInt_ofInt_of_range h h', toInt_ofInt_of_range (by omega) (by omega),
    Int.shiftRight_eq_div_pow]
  rfl

theorem shiftLeft_ofInt (a : ℤ) : BitVec.ofInt 32 a <<< 1 = BitVec.ofInt 32 (2 * a) := by
  rw [BitVec.shiftLeft_eq_mul_twoPow, Int.mul_comm, BitVec.ofInt_mul]
  rfl

theorem ofInt_sub (a b : ℤ) : BitVec.ofInt 32 (a - b) = BitVec.ofInt 32 a - BitVec.ofInt 32 b := by
  refine BitVec.eq_of_toInt_eq ?_
  rw [BitVec.toInt_sub, BitVec.toInt_ofInt, BitVec.toInt_ofInt, BitVec.toInt_ofInt, Int.bmod_sub_bmod,
    Int.sub_bmod_bmod]

theorem negabinary_eq (c : I32) : negabinary c = BitVec.ofInt 32 (exactCoef c) := by
  rw [exactCoef, ofInt_sub, BitVec.ofInt_natCast, BitVec.ofInt_natCast, BitVec.ofNat_toNat,
    BitVec.ofNat_toNat,
    BitVec.setWidth_eq, BitVec.setWidth_eq]
  rfl

/-- **A pass over integers in range does not overflow**: only what it shifts to the right has to be in
range. -/
theorem invLift_ofInt {p : Fin 4 → ℤ} {d : ℤ} (h : ∀ i, |p i| ≤ d) (hd : d < 2 ^ 30) :
    (invLift fun i => BitVec.ofInt 32 (p i)) = fun i => BitVec.ofInt 32 (exactLift p i) := by
  have h1 := abs_le.mp (h 1)
  have h3 := abs_le.mp (h 3)
  unfold invLift exactLift liftSteps
  dsimp only
  rw [sshiftRight_ofInt (by omega) (by omega), ← BitVec.ofInt_add (p 1),
    sshiftRight_ofInt (by omega) (by omega)]
  simp only [← BitVec.ofInt_add, ← ofInt_sub, shiftLeft_ofInt]
  funext i
  fin_cases i <;> rfl

/-- **Coefficients below `2 ^ 25` do not overflow.** -/
theorem noOverflow_of_le {u : Coefficients} (h : ∀ i, |exactCoef (u i)| ≤ 2 ^ 25) : NoOverflow u := by
  have hpass : ∀ {p : Fin 4 → ℤ} {d : ℤ}, (∀ i, |p i| ≤ d) → ∀ i, |exactLift p i| ≤ (15 * d + 5) / 4 := by
    intro p d hd i
    have hzero : exactLift (fun _ => 0) i = 0 := by fin_cases i <;> rfl
    have := exactLift_sub (fun i => show |p i - (fun _ => 0) i| ≤ d by rw [Int.sub_zero]; exact hd i) i
    rw [hzero, Int.sub_zero] at this
    omega
  intro x y z
  have hz := fun l i => hpass (fun j => h (inv (at64 j l i))) z
  have hy := fun i => hpass (fun l => hz l i) y
  have hx := abs_le.mp (hpass hy x)
  have h1 := fun l i => congrFun (invLift_ofInt (fun j => h (inv (at64 j l i))) (by norm_num)) z
  have h2 := fun i => congrFun (invLift_ofInt (fun l => hz l i) (by norm_num)) y
  have h3 := congrFun (invLift_ofInt hy (by norm_num)) x
  unfold transformed
  simp only [negabinary_eq, h1, h2, h3]
  exact toInt_ofInt_of_range (by omega) (by omega)

/-! ### Layers -/

variable (scale : ℤ → I32 → F32)

theorem fastDecode_at64 {f : Fast} (hf : Faithful scale f) {block : List UInt8} {u : Coefficients} {e : ℤ}
    (h : readBlock f block = some (u, e)) (x y z : Fin 4) :
    fastDecode f block (at64 z y x) = scale e (transformed u x y z) := by
  unfold fastDecode
  rw [h]
  dsimp only
  rw [hf.tail, tailScalar_apply]

/-- **How close a layer comes to the block.** A layer that reads the first `n` bytes of a block, at
`r = n / 8` whole bits a value, on any processor and in any mode, and the block read whole on any other:

* both are all zero, or neither is; they have the same exponent;
* their coefficients have the same bits from `34 - r` on, so they are less than `2 ^ (34 - r)` apart;
* where neither inverse transform overflows, the values are scaled from integers less than
  `53 * 2 ^ (34 - r)` apart. -/
theorem layer_refines (cpu cpu' : Cpu) (mode mode' : ℤ) {block : List UInt8} {n : ℕ} (h2 : 2 ≤ n)
    (hn : n ≤ block.length) (hmax : block.length ≤ 256) :
    (readBlock (setFastDecode scale cpu mode) (block.take n) = none ∧
      readBlock (setFastDecode scale cpu' mode') block = none) ∨
    ∃ u v e, readBlock (setFastDecode scale cpu mode) (block.take n) = some (u, e) ∧
      readBlock (setFastDecode scale cpu' mode') block = some (v, e) ∧
      (∀ i b, 34 - n / 8 ≤ b → (u i).getLsbD b = (v i).getLsbD b) ∧
      (∀ i, |exactCoef (u i) - exactCoef (v i)| < 2 ^ (34 - n / 8)) ∧
      (NoOverflow u → NoOverflow v → ∀ p, ∃ a b : I32,
        fastDecode (setFastDecode scale cpu mode) (block.take n) p = scale e a ∧
        fastDecode (setFastDecode scale cpu' mode') block p = scale e b ∧
        |a.toInt - b.toInt| < 53 * 2 ^ (34 - n / 8)) := by
  have hf : Faithful scale (setFastDecode scale cpu mode) := faithful_setFastDecode cpu mode
  have hg : Faithful scale (setFastDecode scale cpu' mode') := faithful_setFastDecode cpu' mode'
  have hlen : (block.take n).length = n := List.length_take_of_le hn
  have hread := readBlock_serial hf (show 2 ≤ (block.take n).length by omega)
  have hread' := readBlock_serial hg (h2.trans hn)
  -- the first bit and the exponent are in the first two bytes
  have hbits : bitsOf (block.take n) = (bitsOf block).take (8 * n) := bitsOf_take block n
  have hflag : (bitsOf (block.take n)).getD 0 false = (bitsOf block).getD 0 false := by
    rw [hbits, getD_take, decide_eq_true (by omega), Bool.true_and]
  have hexp : ((bitsOf (block.take n)).drop 1).take 8 = ((bitsOf block).drop 1).take 8 := by
    rw [hbits, List.drop_take, List.take_take, Nat.min_eq_left (by omega)]
  have hrest : (bitsOf block).drop 9 = (bitsOf (block.take n)).drop 9 ++ (bitsOf block).drop (8 * n) := by
    conv_lhs => rw [← List.take_append_drop (8 * n) (bitsOf block), ← hbits]
    rw [List.drop_append_of_le_length (by rw [length_bitsOf, hlen]; omega)]
  rw [hflag, hexp] at hread
  rw [hrest] at hread'
  by_cases hone : (bitsOf block).getD 0 false = true
  swap
  · rw [if_neg hone] at hread hread'
    exact Or.inl ⟨hread, hread'⟩
  rw [if_pos hone] at hread hread'
  refine Or.inr ⟨_, _, _, hread, hread', ?_⟩
  have hpre := serialPlanesFrom_append ((bitsOf block).drop (8 * n)) 32 0 ((bitsOf (block.take n)).drop 9)
  obtain ⟨hP, hmany⟩ := length_serialPlanesFrom 32 0 ((bitsOf (block.take n)).drop 9) (Nat.zero_le _)
  obtain ⟨hQ, -⟩ := length_serialPlanesFrom 32 0
    ((bitsOf (block.take n)).drop 9 ++ (bitsOf block).drop (8 * n)) (Nat.zero_le _)
  rw [List.length_drop, length_bitsOf, hlen] at hmany
  have hagree : ∀ i b, 34 - n / 8 ≤ b →
      (transposeScalar (serialPlanes ((bitsOf (block.take n)).drop 9)) i).getLsbD b =
        (transposeScalar (serialPlanes ((bitsOf (block.take n)).drop 9 ++ (bitsOf block).drop (8 * n)))
          i).getLsbD b := by
    intro i b hb
    exact getLsbD_of_prefix hP hQ hpre i (by omega)
  have hcoef := fun i => exactCoef_sub (hagree i)
  refine ⟨hagree, hcoef, fun hu hv p => ?_⟩
  obtain ⟨z, y, x, rfl⟩ := exists_at64 p
  refine ⟨_, _, fastDecode_at64 scale hf hread x y z, fastDecode_at64 scale hg hread' x y z, ?_⟩
  rw [hu x y z, hv x y z]
  exact exactAt_sub hcoef x y z

/-- A block of 32 bytes whose twenty highest planes are empty. -/
def lowBlock : List UInt8 := [0xff, 0, 0, 0xe0] ++ List.replicate 28 0xff

/-- The first 24 bytes of the block. -/
theorem layer_refines_low : ∃ u v e,
    readBlock (setFastDecode scaleF32 ⟨true, true, true⟩ 1) (lowBlock.take 24) = some (u, e) ∧
      readBlock (setFastDecode scaleF32 ⟨false, false, false⟩ 2) lowBlock = some (v, e) ∧
      (∀ i b, 31 ≤ b → (u i).getLsbD b = (v i).getLsbD b) ∧
      (∀ i, |exactCoef (u i) - exactCoef (v i)| < 2 ^ 31) ∧
      ∀ p, ∃ a b : I32,
        fastDecode (setFastDecode scaleF32 ⟨true, true, true⟩ 1) (lowBlock.take 24) p = scaleF32 e a ∧
        fastDecode (setFastDecode scaleF32 ⟨false, false, false⟩ 2) lowBlock p = scaleF32 e b ∧
        |a.toInt - b.toInt| < 53 * 2 ^ 31 := by
  have hsmall : ∀ q ∈ readBlock (setFastDecode scaleF32 ⟨true, true, true⟩ 1) (lowBlock.take 24),
      ∀ i, |exactCoef (q.1 i)| ≤ 2 ^ 25 := by
    decide +kernel
  have hsmall' : ∀ q ∈ readBlock (setFastDecode scaleF32 ⟨false, false, false⟩ 2) lowBlock,
      ∀ i, |exactCoef (q.1 i)| ≤ 2 ^ 25 := by
    decide +kernel
  have hsome : (readBlock (setFastDecode scaleF32 ⟨false, false, false⟩ 2) lowBlock).isSome := by
    decide +kernel
  rcases layer_refines scaleF32 ⟨true, true, true⟩ ⟨false, false, false⟩ 1 2 (show 2 ≤ 24 by decide)
    (show 24 ≤ lowBlock.length by decide) (by decide) with
    ⟨-, hnone⟩ | ⟨u, v, e, hu, hv, hbits, hcoef, hvalues⟩
  · rw [hnone] at hsome
    cases hsome
  · have hu' := hsmall _ (Option.mem_def.mpr hu)
    have hv' := hsmall' _ (Option.mem_def.mpr hv)
    exact ⟨u, v, e, hu, hv, hbits, hcoef, hvalues (noOverflow_of_le hu') (noOverflow_of_le hv')⟩

end SkipZFP.Decode.Progressive
