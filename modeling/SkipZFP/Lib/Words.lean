import SkipZFP.Lib.Bits

/-! # Words of 64 bits

`ofBits` is the word of some bits, the least significant first. `ctz`, `popcount`, `pdep` and `pext` are
the bit instructions of a processor, each by what it does to the bits.

* `getLsbD_ofBits`, `getLsbD_lowMask`, `getLsbD_pdep`: the bits of what they return.
* `pext_eq`, `popcount_eq`: the bits that a mask keeps.
* `getLsbD_ctz`, `getLsbD_of_lt_ctz`: the lowest set bit.
* `add_bit`: a bit that is added above all others is set.
* `getLsbD_clearLow`: the lowest set bit is cleared. -/

namespace SkipZFP.Lib.Words

open SkipZFP.Lib.Bits

abbrev Word := BitVec 64

def ofBits (l : List Bool) : Word := BitVec.ofNat 64 (natOfBits l)

/-- `(1 << m) - 1`. -/
def lowMask (m : ℕ) : Word := (1#64 <<< m) - 1#64

/-- The position of the lowest set bit, 64 if there is none. -/
def ctz (w : Word) : ℕ := ((List.range 64).find? w.getLsbD).getD 64

/-- The number of set bits below bit `i`. -/
def rank (w : Word) (i : ℕ) : ℕ := (List.range i).countP w.getLsbD

def popcount (w : Word) : ℕ := rank w 64

/-- The low bits of `src`, in order, at the set bits of `mask`. -/
def pdep (src mask : Word) : Word :=
  ofBits ((List.range 64).map fun i => mask.getLsbD i && src.getLsbD (rank mask i))

/-- The bits of `src` at the set bits of `mask`, in order, as the low bits. -/
def pext (src mask : Word) : Word :=
  ofBits (((List.range 64).filter mask.getLsbD).map src.getLsbD)

/-! ### The bits of a word -/

theorem getLsbD_ofBits (l : List Bool) (i : ℕ) :
    (ofBits l).getLsbD i = (decide (i < 64) && l.getD i false) := by
  rw [ofBits, BitVec.getLsbD_ofNat, testBit_natOfBits]

theorem getLsbD_lowMask {m : ℕ} (hm : m < 64) (i : ℕ) : (lowMask m).getLsbD i = decide (i < m) := by
  have hpow : 2 ^ m < 2 ^ 64 := Nat.pow_lt_pow_right (by norm_num) hm
  have hpos : 0 < 2 ^ m := Nat.two_pow_pos m
  have hnat : (lowMask m).toNat = 2 ^ m - 1 := by
    unfold lowMask
    rw [BitVec.toNat_sub, BitVec.toNat_shiftLeft, BitVec.toNat_ofNat, Nat.shiftLeft_eq]
    norm_num
    omega
  rw [← BitVec.testBit_toNat, hnat, Nat.testBit_two_pow_sub_one]

theorem getLsbD_one_shiftLeft (n i : ℕ) :
    (1#64 <<< n).getLsbD i = (decide (i < 64) && decide (i = n)) := by
  rw [BitVec.getLsbD_shiftLeft, BitVec.getLsbD_one]
  by_cases hi : i < 64
  · by_cases hn : i = n
    · simp [hn]
    · by_cases hlt : i < n
      · simp [hlt, hn]
      · simp [hlt, hn]
        omega
  · simp [hi]

theorem getLsbD_pdep (src mask : Word) (i : ℕ) :
    (pdep src mask).getLsbD i = (mask.getLsbD i && src.getLsbD (rank mask i)) := by
  rw [pdep, getLsbD_ofBits]
  by_cases hi : i < 64
  · rw [List.getD_eq_getElem _ _ (by simpa using hi)]
    simp [hi]
  · rw [BitVec.getLsbD_of_ge mask i (by omega)]
    simp [hi]

theorem getD_concat (l : List Bool) (b : Bool) (i : ℕ) :
    (l ++ [b]).getD i false = (l.getD i false || (decide (i = l.length) && b)) := by
  by_cases hi : i < l.length
  · rw [List.getD_append _ _ _ _ hi, decide_eq_false (by omega), Bool.false_and, Bool.or_false]
  · rw [List.getD_append_right _ _ _ _ (by omega), List.getD_eq_default l _ (by omega), Bool.false_or]
    by_cases heq : i = l.length
    · simp [heq]
    · rw [decide_eq_false heq, List.getD_eq_default _ _ (by simp; omega), Bool.false_and]

theorem ofBits_concat_false (l : List Bool) : ofBits (l ++ [false]) = ofBits l := by
  refine BitVec.eq_of_getLsbD_eq fun i _ => ?_
  rw [getLsbD_ofBits, getLsbD_ofBits, getD_concat, Bool.and_false, Bool.or_false]

theorem ofBits_concat_true (l : List Bool) :
    ofBits (l ++ [true]) = ofBits l ||| 1#64 <<< l.length := by
  refine BitVec.eq_of_getLsbD_eq fun i _ => ?_
  rw [BitVec.getLsbD_or, getLsbD_ofBits, getLsbD_ofBits, getLsbD_one_shiftLeft, getD_concat,
    Bool.and_true, Bool.and_or_distrib_left]

theorem rank_le (w : Word) (i : ℕ) : rank w i ≤ i := by
  have h := List.countP_le_length (p := w.getLsbD) (l := List.range i)
  rwa [List.length_range] at h

theorem getLsbD_even {k : ℕ} (hk : k < 64) :
    (0x5555555555555555#64).getLsbD k = decide (k % 2 = 0) := by
  revert k
  decide

theorem getLsbD_odd {k : ℕ} (hk : k < 64) :
    (0xAAAAAAAAAAAAAAAA#64).getLsbD k = decide (k % 2 = 1) := by
  revert k
  decide

theorem rank_succ (w : Word) (i : ℕ) : rank w (i + 1) = rank w i + (w.getLsbD i).toNat := by
  rw [rank, List.range_succ, List.countP_append, List.countP_singleton]
  rcases w.getLsbD i <;> rfl

/-- The bits below `m` that `p` keeps, as positions of a word. -/
theorem filter_range_of_le {m k : ℕ} (p : ℕ → Bool) (h : m ≤ k) :
    (List.range k).filter (fun i => decide (i < m) && p i) = (List.range m).filter p := by
  induction k, h using Nat.le_induction with
  | base =>
    refine List.filter_congr fun i hi => ?_
    rw [decide_eq_true (List.mem_range.mp hi), Bool.true_and]
  | succ k hk ih =>
    rw [List.range_succ, List.filter_append, ih]
    simp [Nat.not_lt.mpr hk]

section Mask
variable {w mask : Word} {m : ℕ} {p : ℕ → Bool}

theorem pext_eq (hm : m ≤ 64) (h : ∀ i, mask.getLsbD i = (decide (i < m) && p i)) :
    pext w mask = ofBits (((List.range m).filter p).map w.getLsbD) := by
  rw [pext, ← filter_range_of_le p hm]
  congr 2
  exact List.filter_congr fun i _ => h i

theorem popcount_eq (hm : m ≤ 64) (h : ∀ i, mask.getLsbD i = (decide (i < m) && p i)) :
    popcount mask = ((List.range m).filter p).length := by
  rw [popcount, rank, List.countP_eq_length_filter, ← filter_range_of_le p hm]
  congr 1
  exact List.filter_congr fun i _ => h i

end Mask

/-! ### The lowest set bit -/

theorem getLsbD_ctz {w : Word} (h : ctz w < 64) : w.getLsbD (ctz w) = true := by
  unfold ctz at h ⊢
  rcases hf : (List.range 64).find? w.getLsbD with _ | z
  · rw [hf] at h
    exact absurd h (lt_irrefl 64)
  · exact List.find?_some hf

theorem getLsbD_of_lt_ctz {w : Word} {i : ℕ} (h : i < ctz w) : w.getLsbD i = false := by
  by_cases hi : i < 64
  · by_contra hw
    rw [Bool.not_eq_false] at hw
    unfold ctz at h
    rcases hf : (List.range 64).find? w.getLsbD with _ | z
    · exact List.find?_eq_none.mp hf i (List.mem_range.mpr hi) hw
    · rw [hf, Option.getD_some] at h
      rw [List.find?_range_eq_some] at hf
      simpa [hw] using hf.2.2 i h
  · exact BitVec.getLsbD_of_ge w i (by omega)

theorem ctz_lt_of_ne_zero {w : Word} (h : w ≠ 0) : ctz w < 64 := by
  by_contra hc
  refine h (BitVec.eq_of_getLsbD_eq fun i hi => ?_)
  rw [getLsbD_of_lt_ctz (by omega)]
  exact BitVec.getLsbD_zero.symm

/-! ### Bits above all others -/

/-- The bits from `n` on are not set. -/
def Below (x : Word) (n : ℕ) : Prop := ∀ i, n ≤ i → x.getLsbD i = false

theorem below_ofBits {l : List Bool} {n : ℕ} (h : l.length ≤ n) : Below (ofBits l) n := by
  intro i hi
  rw [getLsbD_ofBits, List.getD_eq_default _ _ (by omega), Bool.and_false]

/-- **A bit that is added above all others is set.** -/
theorem add_bit {x : Word} {n : ℕ} (h : Below x n) : x + 1#64 <<< n = x ||| 1#64 <<< n := by
  refine BitVec.add_eq_or_of_and_eq_zero _ _ (BitVec.eq_of_getLsbD_eq fun i hi => ?_)
  rw [BitVec.getLsbD_and, getLsbD_one_shiftLeft, BitVec.getLsbD_zero]
  by_cases hin : i = n
  · rw [h i hin.ge, Bool.false_and]
  · simp [hin]

theorem Below.set {x : Word} {n m : ℕ} (h : Below x n) (hm : n ≤ m) : Below (x ||| 1#64 <<< m) (m + 1) := by
  intro i hi
  rw [BitVec.getLsbD_or, h i (by omega), getLsbD_one_shiftLeft, decide_eq_false (by omega : ¬ i = m),
    Bool.and_false, Bool.or_false]

theorem Below.mono {x : Word} {n m : ℕ} (h : Below x n) (hm : n ≤ m) : Below x m :=
  fun i hi => h i (hm.trans hi)

/-! ### Clearing the lowest set bit -/

/-- **`x & (x - 1)`** is `x` without its lowest set bit. -/
theorem getLsbD_clearLow {x : Word} (hx : x ≠ 0#64) (i : ℕ) :
    (x &&& (x - 1#64)).getLsbD i = (x.getLsbD i && !decide (i = ctz x)) := by
  have hz := ctz_lt_of_ne_zero hx
  have hset := getLsbD_ctz hz
  have hlow : ∀ j < ctz x, x.getLsbD j = false := fun j hj => getLsbD_of_lt_ctz hj
  generalize ctz x = z at hz hset hlow
  -- the other bits of `x`, all above the lowest one
  have hrest : ∀ j, (x &&& ~~~(1#64 <<< z)).getLsbD j = (x.getLsbD j && !decide (j = z)) := by
    intro j
    rw [BitVec.getLsbD_and, BitVec.getLsbD_not, getLsbD_one_shiftLeft]
    by_cases hj : j < 64
    · simp [hj]
    · simp [BitVec.getLsbD_of_ge x j (by omega)]
  generalize x &&& ~~~(1#64 <<< z) = y at hrest
  have hor : x = y ||| 1#64 <<< z := by
    refine BitVec.eq_of_getLsbD_eq fun j hj => ?_
    rw [BitVec.getLsbD_or, hrest, getLsbD_one_shiftLeft, decide_eq_true hj, Bool.true_and]
    by_cases hjz : j = z
    · simp [hjz, hset]
    · simp [hjz]
  have hbit : y &&& 1#64 <<< z = 0#64 := by
    refine BitVec.eq_of_getLsbD_eq fun j hj => ?_
    rw [BitVec.getLsbD_and, hrest, getLsbD_one_shiftLeft]
    by_cases hjz : j = z <;> simp [hjz]
  have hmask : y &&& lowMask z = 0#64 := by
    refine BitVec.eq_of_getLsbD_eq fun j hj => ?_
    rw [BitVec.getLsbD_and, hrest, getLsbD_lowMask hz]
    by_cases hjz : j < z
    · simp [hlow j hjz]
    · simp [hjz]
  have hsub : x - 1#64 = y ||| lowMask z := by
    have hadd : x = y + 1#64 <<< z := hor.trans (BitVec.add_eq_or_of_and_eq_zero _ _ hbit).symm
    rw [← BitVec.add_eq_or_of_and_eq_zero _ _ hmask, lowMask, hadd, BitVec.sub_eq_add_neg,
      BitVec.sub_eq_add_neg, BitVec.add_assoc]
  rw [hsub, BitVec.getLsbD_and, BitVec.getLsbD_or, hrest, getLsbD_lowMask hz]
  by_cases hiz : i < z
  · rw [hlow i hiz, Bool.false_and, Bool.false_and]
  · rw [decide_eq_false hiz, Bool.or_false]
    rcases x.getLsbD i <;> simp

theorem clearLow_lt {x : Word} (hx : x ≠ 0#64) : (x &&& (x - 1#64)).toNat < x.toNat := by
  have hpos : 0 < x.toNat := Nat.pos_of_ne_zero fun h => hx (BitVec.eq_of_toNat_eq h)
  have hle : (x &&& (x - 1#64)).toNat ≤ (x - 1#64).toNat := by
    rw [BitVec.toNat_and]
    exact Nat.and_le_right
  have hsub : (x - 1#64).toNat = x.toNat - 1 := by
    have hlt := x.isLt
    rw [BitVec.toNat_sub, BitVec.toNat_ofNat]
    omega
  omega

end SkipZFP.Lib.Words
