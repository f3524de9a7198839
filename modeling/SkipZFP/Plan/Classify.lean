import SkipZFP.Codec.Meta

/-! # Classifying the blocks of a unit

`classifyUnit` is `classify_unit`, the reader of the records that `szfpMeta` writes: it decides from a
record alone whether all values of a block are in `(lo, hi]`, none is, or the block has to be read.

* `stateOf_sound` and `covers_of_sound`: the state is right for a value, whatever the bounds of the
  query, exactly when the block's widened range covers the value.
* `codeAt_packCodes`: the planner reads the codes that the writer packed.
* `soundRecord_iff`: when a record is right for the values it was made from and for the decoded ones.
  The stored error bound stops at `FLT_MAX`, and an error just above that rounds down to it; such a
  record is right only where the range of the block happens to be wide enough.
  `not_soundRecord_constant` is a unit where it is not. -/

namespace SkipZFP.Plan.Classify

open SkipZFP.Lib.Grid SkipZFP.Lib.Rows SkipZFP.Lib.Double SkipZFP.Lib.Float32 SkipZFP.Lib.Levels
open SkipZFP.Codec.Config SkipZFP.Codec.Pack SkipZFP.Codec.Meta

/-- The states of a block: 0, 1 and 2 in the source. -/
inductive BlockState where
  | OUT
  | IN
  | MAYBE
deriving DecidableEq, Inhabited

/-- `in_range`: the predicate `lo < x <= hi`. -/
def InRange (lo hi x : Dbl) : Prop := lo < x ∧ x ≤ hi

instance (lo hi x : Dbl) : Decidable (InRange lo hi x) := by unfold InRange; infer_instance

/-- A state that is right for the value `x` of its block. -/
def Sound (st : BlockState) (lo hi x : Dbl) : Prop :=
  (st = .IN → InRange lo hi x) ∧ (st = .OUT → ¬ InRange lo hi x)

instance (st : BlockState) (lo hi x : Dbl) : Decidable (Sound st lo hi x) := by
  unfold Sound; infer_instance

/-- `code_bytes`. -/
def codeBytes (nBlock : ℕ) : ℕ := (nBlock + 1) / 2

/-- The 4-bit code at position `bid`, low nibble first. -/
def codeAt (codes : List UInt8) (bid : ℕ) : ℕ :=
  ((codes.getD (bid / 2) 0).toNat >>> (4 * (bid % 2))) % 16

section Record
variable (fl : ℚ → ℚ)

/-- `block_error`. -/
def blockError (eps : F32) (codes : Option (List UInt8)) (bid : ℕ) : Dbl :=
  match codes with
  | none => eps.val
  | some codes => Dbl.div fl (Dbl.mul fl eps.val (.fin (codeAt codes bid))) (.fin 15)

/-- The state of a block from `bmin` to `bmax` with error bound `e`. -/
def stateOf (bmin bmax e lo hi : Dbl) : BlockState :=
  if lo < Dbl.sub fl bmin e ∧ Dbl.add fl bmax e ≤ hi then .IN
  else if Dbl.add fl bmax e ≤ lo ∨ hi < Dbl.sub fl bmin e then .OUT
  else .MAYBE

variable (cm : List UInt8) (nBlock : ℕ) (hasCodes : Bool) (bid : ℕ)

/-! ### The fields of a record -/

def recMin : F32 := F32.ofBytes cm
def recMax : F32 := F32.ofBytes (cm.drop 4)
def recEps : F32 := F32.ofBytes (cm.drop 8)
def recLow : UInt8 := (cm.drop 12).getD (bid * 2) 0
def recHigh : UInt8 := (cm.drop 12).getD (bid * 2 + 1) 0
def recCodes : Option (List UInt8) := if hasCodes then some ((cm.drop 12).drop (2 * nBlock)) else none
def recError : Dbl := blockError fl (recEps cm) (recCodes cm nBlock hasCodes) bid

/-- `slack`, eight units in the last place of the unit's range. -/
def unitSlack : Dbl :=
  Dbl.mul fl (.fin (8 / 2 ^ 52)) (Dbl.add fl (Dbl.abs (recMin cm).val) (Dbl.abs (recMax cm).val))

/-- The state of one block; `slack` widens its range. -/
def classifyBlock (slack lo hi : Dbl) : BlockState :=
  let cmin := (recMin cm).val
  let span := Dbl.sub fl (recMax cm).val cmin
  let at' := fun off : UInt8 =>
    Dbl.add fl cmin (Dbl.mul fl (Dbl.div fl (.fin off.toNat) (.fin 255)) span)
  let bmin := if span = .fin 0 then cmin else Dbl.sub fl (at' (recLow cm bid)) slack
  let bmax := if span = .fin 0 then (recMax cm).val else Dbl.add fl (at' (recHigh cm bid)) slack
  stateOf fl bmin bmax (recError fl cm nBlock hasCodes bid) lo hi

/-- **`classify_unit`**. -/
def classifyUnit (slack lo hi : Dbl) : List BlockState :=
  (List.range nBlock).map fun bid => classifyBlock fl cm nBlock hasCodes bid slack lo hi

/-- `listed_error`: the error bound of a block as a float32 rounded up. -/
def listedError : F32 := F32.castUp F32.inf (recError fl cm nBlock hasCodes bid)

end Record

/-! ### A state and the range it stands for -/

/-- A range widened by `e` covers `x`; a bound that is not a finite number covers everything. -/
def Covers (e : Dbl) (l h : ℚ) (x : Dbl) : Prop :=
  e = .pinf ∨ e = .nan ∨ ∃ e', e = .fin e' ∧ .fin (l - e') ≤ x ∧ x ≤ .fin (h + e')

/-- **A state is right for what is between the two widened bounds**, in any arithmetic. -/
theorem stateOf_sound_of_between {fl : ℚ → ℚ} {bmin bmax e x : Dbl} (hl : Dbl.sub fl bmin e ≤ x)
    (hh : x ≤ Dbl.add fl bmax e) (lo hi : Dbl) : Sound (stateOf fl bmin bmax e lo hi) lo hi x := by
  unfold stateOf
  split_ifs with h1 h2
  · exact ⟨fun _ => ⟨Dbl.lt_of_lt_of_le h1.1 hl, Dbl.le_trans hh h1.2⟩, by rintro ⟨⟩⟩
  · refine ⟨by rintro ⟨⟩, ?_⟩
    rintro - ⟨h3, h4⟩
    rcases h2 with h2 | h2
    · exact Dbl.not_lt_of_le (Dbl.le_trans hh h2) h3
    · exact Dbl.not_le_of_lt (Dbl.lt_of_lt_of_le h2 hl) h4
  · exact ⟨by rintro ⟨⟩, by rintro ⟨⟩⟩

/-- **A state is right for every value its widened range covers.** -/
theorem stateOf_sound {e x : Dbl} {l h s : ℚ} (hc : Covers e l h x) (hs : 0 ≤ s) (lo hi : Dbl) :
    Sound (stateOf id (.fin (l - s)) (.fin (h + s)) e lo hi) lo hi x := by
  rcases hc with rfl | rfl | ⟨e, rfl, hl, hh⟩
  · -- an infinite bound leaves only the empty query `lo = +∞`
    unfold stateOf
    simp only [Dbl.sub_fin_pinf, Dbl.add_fin_pinf, Dbl.not_lt_ninf, false_and, or_false, if_false]
    refine ⟨fun h => ?_, fun h => ?_⟩ <;> split_ifs at h with hp
    rintro ⟨h1, -⟩
    exact Dbl.not_pinf_lt x (Dbl.lt_of_le_of_lt hp h1)
  · simp [stateOf, Sound]
  · refine stateOf_sound_of_between ?_ ?_ lo hi
    · rw [Dbl.sub_fin]
      exact Dbl.le_trans ((Dbl.fin_le_fin _ _).mpr (by rw [id_eq]; linarith)) hl
    · rw [Dbl.add_fin]
      exact Dbl.le_trans hh ((Dbl.fin_le_fin _ _).mpr (by rw [id_eq]; linarith))

/-- **A value outside the range gets a wrong state** for some query, the widening being none. -/
theorem covers_of_sound {e x : Dbl} {l h : ℚ} (he : e ≠ .ninf)
    (hs : ∀ lo hi, lo ≠ .nan → hi ≠ .nan → Sound (stateOf id (.fin l) (.fin h) e lo hi) lo hi x) :
    Covers e l h x := by
  cases e with
  | nan => exact Or.inr (Or.inl rfl)
  | pinf => exact Or.inl rfl
  | ninf => exact absurd rfl he
  | fin e =>
    refine Or.inr (Or.inr ⟨e, rfl, ?_⟩)
    have hin : ∀ lo hi, lo ≠ .nan → hi ≠ .nan → lo < .fin (l - e) → .fin (h + e) ≤ hi →
        InRange lo hi x := fun lo hi h1 h2 h3 h4 => (hs lo hi h1 h2).1 (if_pos (by
          rw [Dbl.sub_fin, Dbl.add_fin]; exact ⟨h3, h4⟩))
    have hall := hin .ninf .pinf (by simp) (by simp) (Dbl.ninf_lt_fin _) (Dbl.fin_le_pinf _)
    have hn : x ≠ .nan := (Dbl.ne_nan_of_le hall.2).1
    constructor
    · by_contra hlt
      rw [Dbl.not_le (by simp) hn] at hlt
      exact Dbl.not_lt_of_le (Dbl.le_refl hn)
        (hin x .pinf hn (by simp) hlt (Dbl.fin_le_pinf _)).1
    · exact (hin .ninf (.fin (h + e)) (by simp) (by simp) (Dbl.ninf_lt_fin _)
        (Dbl.le_refl (by simp))).2

/-! ### Reading what was written -/

theorem ofBytes_bytes_append (f : F32) (l : List UInt8) : F32.ofBytes (f.bytes ++ l) = f :=
  F32.ofBytes_bytes f

theorem codeAt_cons_cons (x : UInt8) (l : List UInt8) (k : ℕ) :
    codeAt (x :: l) (k + 2) = codeAt l k := by
  unfold codeAt
  rw [show (k + 2) / 2 = k / 2 + 1 by omega, show (k + 2) % 2 = k % 2 by omega, List.getD_cons_succ]

theorem nibbles : ∀ a < 16, ∀ b < 16,
    (UInt8.ofNat a ||| UInt8.ofNat b <<< 4).toNat % 16 = a ∧
      (UInt8.ofNat a ||| UInt8.ofNat b <<< 4).toNat / 16 = b := by
  decide

theorem codeAt_packCodes : ∀ (l : List UInt8), (∀ x ∈ l, x.toNat < 16) → ∀ {k : ℕ} {x : UInt8},
    l[k]? = some x → codeAt (packCodes l) k = x.toNat
  | [], _, _, _, h => by simp at h
  | [a], hl, 0, x, h => by
    have ha := (nibbles a.toNat (hl a List.mem_cons_self) 0 (by omega)).1
    rw [UInt8.ofNat_toNat] at ha
    cases h
    simpa [codeAt, packCodes] using ha
  | [_], _, _ + 1, _, h => by simp at h
  | a :: b :: l, hl, k, x, h => by
    have hn := nibbles a.toNat (hl a (by simp)) b.toNat (hl b (by simp))
    rw [UInt8.ofNat_toNat, UInt8.ofNat_toNat] at hn
    rcases k with _ | _ | k
    · cases h
      simpa [codeAt, packCodes] using hn.1
    · cases h
      simp only [codeAt, packCodes, Nat.shiftRight_eq_div_pow]
      calc (a ||| b <<< 4).toNat / 2 ^ 4 % 16 = (a ||| b <<< 4).toNat / 16 % 16 := rfl
        _ = b.toNat := by rw [hn.2, Nat.mod_eq_of_lt (hl b (by simp))]
    · rw [packCodes, codeAt_cons_cons]
      exact codeAt_packCodes l (fun y hy => hl y (by simp [hy])) (by simpa using h)

section Fields
variable {shape : Tri} {chunk dec : Tri → F32} {fl : ℚ → ℚ} (tail : List UInt8)

theorem recMin_szfpMeta : recMin (szfpMeta shape chunk dec fl ++ tail) = unitMin shape chunk :=
  F32.ofBytes_bytes _

theorem recMax_szfpMeta : recMax (szfpMeta shape chunk dec fl ++ tail) = unitMax shape chunk :=
  F32.ofBytes_bytes _

variable (shape chunk dec fl) in
theorem recEps_szfpMeta :
    recEps (szfpMeta shape chunk dec fl ++ tail) = epsOf (maxErr shape chunk dec fl) :=
  F32.ofBytes_bytes _

theorem drop_szfpMeta : (szfpMeta shape chunk dec fl ++ tail).drop 12 =
    ((unitBlocks shape).map fun b => offsetsOf fl (unitMin shape chunk) (unitMax shape chunk)
      (blockMin chunk b) (blockMax chunk b)).flatten ++ tail := by
  unfold szfpMeta
  rw [List.append_assoc, List.append_assoc, List.append_assoc]
  rfl

theorem length_of_mem_offsets : ∀ r ∈ (unitBlocks shape).map fun b => offsetsOf fl
    (unitMin shape chunk) (unitMax shape chunk) (blockMin chunk b) (blockMax chunk b),
      r.length = 2 := by
  intro r hr
  obtain ⟨b, -, rfl⟩ := List.mem_map.mp hr
  unfold offsetsOf
  split_ifs <;> rfl

variable (dec) in
theorem recOffsets_szfpMeta {k : ℕ} {b : Tri} {o0 o1 : UInt8}
    (hk : (unitBlocks shape)[k]? = some b) (ho : offsetsOf fl (unitMin shape chunk)
      (unitMax shape chunk) (blockMin chunk b) (blockMax chunk b) = [o0, o1]) :
    recLow (szfpMeta shape chunk dec fl ++ tail) k = o0 ∧
      recHigh (szfpMeta shape chunk dec fl ++ tail) k = o1 := by
  have hrow : ((unitBlocks shape).map fun b => offsetsOf fl (unitMin shape chunk)
      (unitMax shape chunk) (blockMin chunk b) (blockMax chunk b))[k]? = some [o0, o1] := by
    rw [List.getElem?_map, hk, Option.map_some, ho]
  have h0 := getElem?_flatten_rows length_of_mem_offsets hrow (j := 0) (by omega)
  have h1 := getElem?_flatten_rows length_of_mem_offsets hrow (j := 1) (by omega)
  rw [Nat.add_zero] at h0
  unfold recLow recHigh
  rw [drop_szfpMeta, List.getD_eq_getElem?_getD, List.getD_eq_getElem?_getD,
    List.getElem?_append_left (List.getElem?_eq_some_iff.mp h0).1,
    List.getElem?_append_left (List.getElem?_eq_some_iff.mp h1).1, h0, h1]
  exact ⟨rfl, rfl⟩

theorem recCodes_szfpMeta :
    recCodes (szfpMeta shape chunk dec fl ++ tail) (unitBlocks shape).length true = some tail := by
  unfold recCodes
  rw [if_pos rfl, drop_szfpMeta, List.drop_left']
  rw [length_flatten_rows length_of_mem_offsets, List.length_map, Nat.mul_comm]

end Fields

/-! ### The record of a unit -/

/-- The record `cm` is right about every block of the unit: for every query, every original and every
decoded value of the block agrees with the block's state, however much the ranges are widened. -/
def SoundRecord (shape : Tri) (chunk dec : Tri → F32) (cm : List UInt8) (hasCodes : Bool) : Prop :=
  ∀ (slack : ℚ) (lo hi : Dbl), 0 ≤ slack → lo ≠ .nan → hi ≠ .nan →
    ∀ (k : ℕ) (b : Tri) (st : BlockState),
    (unitBlocks shape)[k]? = some b →
    (classifyUnit id cm (unitBlocks shape).length hasCodes (.fin slack) lo hi)[k]? = some st →
    ∀ i ∈ blockCells b, Sound st lo hi (chunk i).val ∧ Sound st lo hi (dec i).val

/-- The ranges of a unit's and a block's values: least and greatest of the unit, then of the block. -/
structure BlockRange (shape : Tri) (chunk : Tri → F32) (b : Tri) (a z m M : ℚ) : Prop where
  unitLeast : IsLeast (numsOn chunk (unitCells shape)) a
  unitGreatest : IsGreatest (numsOn chunk (unitCells shape)) z
  least : IsLeast (numsOn chunk (blockCells b)) m
  greatest : IsGreatest (numsOn chunk (blockCells b)) M

/-- The block's range, moved outward to the next of the 256 levels of the unit. -/
def lowLevel (a z m : ℚ) : ℚ := level 255 a z (quantDown 255 a z m)

def highLevel (a z M : ℚ) : ℚ := level 255 a z (quantUp 255 a z M)

section Unit
variable {shape : Tri} {chunk dec : Tri → F32} {b : Tri} {a z m M : ℚ}

theorem BlockRange.bounds (h : BlockRange shape chunk b a z m M) (hb : b ∈ unitBlocks shape) :
    a ≤ m ∧ m ≤ M ∧ M ≤ z := by
  obtain ⟨i, hi, hm⟩ := h.least.1
  obtain ⟨j, hj, hM⟩ := h.greatest.1
  exact ⟨h.unitLeast.2 ⟨i, mem_unitCells hb hi, hm⟩, h.greatest.2 ⟨i, hi, hm⟩,
    h.unitGreatest.2 ⟨j, mem_unitCells hb hj, hM⟩⟩

theorem BlockRange.levels (h : BlockRange shape chunk b a z m M) (hb : b ∈ unitBlocks shape) {i : Tri}
    (hi : i ∈ blockCells b) {v : ℚ} (hv : (chunk i).val = .fin v) :
    lowLevel a z m ≤ v ∧ v ≤ highLevel a z M := by
  obtain ⟨h1, h2, h3⟩ := h.bounds hb
  exact ⟨(level_quantDown_le (by norm_num) h1 (h2.trans h3)).trans (h.least.2 ⟨i, hi, hv⟩),
    (h.greatest.2 ⟨i, hi, hv⟩).trans (le_level_quantUp (by norm_num) (h1.trans h2) h3)⟩

theorem BlockRange.unique {a' z' m' M' : ℚ} (h : BlockRange shape chunk b a z m M)
    (h' : BlockRange shape chunk b a' z' m' M') : a = a' ∧ z = z' ∧ m = m' ∧ M = M' :=
  ⟨h.unitLeast.unique h'.unitLeast, h.unitGreatest.unique h'.unitGreatest, h.least.unique h'.least,
    h.greatest.unique h'.greatest⟩

/-- **What `classify_unit` makes of a record** whose fields are the range of a unit and the levels around
that of a block: the state of the levels, widened by at most the slack. -/
theorem classifyBlock_levels {cm : List UInt8} {k : ℕ} (ha : (recMin cm).val = .fin a)
    (hz : (recMax cm).val = .fin z) (hlow : ((recLow cm k).toNat : ℚ) = quantDown 255 a z m)
    (hhigh : ((recHigh cm k).toNat : ℚ) = quantUp 255 a z M) (n : ℕ) (hasCodes : Bool) {slack : ℚ}
    (hs : 0 ≤ slack) : ∃ s, 0 ≤ s ∧ s ≤ slack ∧ ∀ lo hi,
      classifyBlock id cm n hasCodes k (.fin slack) lo hi =
        stateOf id (.fin (lowLevel a z m - s)) (.fin (highLevel a z M + s))
          (recError id cm n hasCodes k) lo hi := by
  have hdiv : ∀ q : ℚ, Dbl.div id (.fin q) (.fin 255) = .fin (q / 255) := fun q =>
    Dbl.div_fin id q (by norm_num)
  unfold classifyBlock
  rw [ha, hz]
  simp only [Dbl.sub_fin, id_eq, hdiv, hlow, hhigh, Dbl.mul_fin, Dbl.add_fin, Dbl.fin.injEq]
  by_cases hspan : z - a = 0
  · refine ⟨0, le_rfl, hs, fun lo hi => ?_⟩
    have hza : z = a := sub_eq_zero.mp hspan
    simp only [hza, sub_self, if_true, lowLevel, highLevel, level_self, sub_zero, add_zero]
  · refine ⟨slack, hs, le_rfl, fun lo hi => ?_⟩
    simp only [hspan, if_false]
    rfl

variable (dec) in
/-- **What `classify_unit` makes of a written record**: the state of the block's range on the levels
of the unit, widened by at most the slack. -/
theorem classifyBlock_szfpMeta (hfin : FiniteOn chunk (unitCells shape)) {k : ℕ}
    (hk : (unitBlocks shape)[k]? = some b) : ∃ a z m M, BlockRange shape chunk b a z m M ∧
      ∀ (tail : List UInt8) (n : ℕ) (hasCodes : Bool) (slack : ℚ), 0 ≤ slack →
        ∃ s, 0 ≤ s ∧ s ≤ slack ∧ ∀ lo hi,
          classifyBlock id (szfpMeta shape chunk dec id ++ tail) n hasCodes k (.fin slack) lo hi =
            stateOf id (.fin (lowLevel a z m - s)) (.fin (highLevel a z M + s))
              (recError id (szfpMeta shape chunk dec id ++ tail) n hasCodes k) lo hi := by
  have hb := List.mem_of_getElem? hk
  obtain ⟨a, ha, hal⟩ := unitMin_spec hfin hb
  obtain ⟨z, hz, hzg⟩ := unitMax_spec hfin hb
  obtain ⟨m, hm, hml⟩ := blockMin_spec hfin hb
  obtain ⟨M, hM, hMg⟩ := blockMax_spec hfin hb
  have hr : BlockRange shape chunk b a z m M := ⟨hal, hzg, hml, hMg⟩
  obtain ⟨h1, h2, h3⟩ := hr.bounds hb
  obtain ⟨o0, o1, ho, hlow, hhigh⟩ := offsetsOf_spec ha hz hm hM h1 h2 h3
  refine ⟨a, z, m, M, hr, fun tail n hasCodes slack hs => ?_⟩
  obtain ⟨hl, hh⟩ := recOffsets_szfpMeta dec tail hk ho
  exact classifyBlock_levels (by rw [recMin_szfpMeta, ha]) (by rw [recMax_szfpMeta, hz])
    (by rw [hl, hlow]) (by rw [hh, hhigh]) n hasCodes hs

variable (dec) in
/-- A record is right when every widened block range covers the block's values. -/
theorem soundRecord_iff_covers (hfin : FiniteOn chunk (unitCells shape)) (tail : List UInt8)
    (hasCodes : Bool) (hninf : ∀ k, recError id (szfpMeta shape chunk dec id ++ tail)
      (unitBlocks shape).length hasCodes k ≠ .ninf) :
    SoundRecord shape chunk dec (szfpMeta shape chunk dec id ++ tail) hasCodes ↔
      ∀ (k : ℕ) (b : Tri) (a z m M : ℚ), (unitBlocks shape)[k]? = some b →
        BlockRange shape chunk b a z m M → ∀ i ∈ blockCells b, ∀ x, x = (chunk i).val ∨ x = (dec i).val →
          Covers (recError id (szfpMeta shape chunk dec id ++ tail) (unitBlocks shape).length hasCodes k)
            (lowLevel a z m) (highLevel a z M) x := by
  have hstate : ∀ (k : ℕ) (b : Tri), (unitBlocks shape)[k]? = some b → ∀ (slack : ℚ) (lo hi : Dbl),
      (classifyUnit id (szfpMeta shape chunk dec id ++ tail) (unitBlocks shape).length hasCodes
        (.fin slack) lo hi)[k]? = some (classifyBlock id (szfpMeta shape chunk dec id ++ tail)
          (unitBlocks shape).length hasCodes k (.fin slack) lo hi) := by
    intro k b hk slack lo hi
    rw [classifyUnit, List.getElem?_map, List.getElem?_range (List.getElem?_eq_some_iff.mp hk).1]
    rfl
  constructor
  · intro h k b a z m M hk hr i hmem x hx
    obtain ⟨a', z', m', M', hr', hcl⟩ := classifyBlock_szfpMeta dec hfin hk
    obtain ⟨rfl, rfl, rfl, rfl⟩ := hr.unique hr'
    refine covers_of_sound (hninf k) fun lo hi hlo hhi => ?_
    obtain ⟨s, hs0, hs1, hst⟩ := hcl tail (unitBlocks shape).length hasCodes 0 le_rfl
    have hs : s = 0 := le_antisymm hs1 hs0
    obtain ⟨h1, h2⟩ := h 0 lo hi le_rfl hlo hhi k b _ hk (hstate k b hk 0 lo hi) i hmem
    rw [hst lo hi, hs, sub_zero, add_zero] at h1 h2
    rcases hx with rfl | rfl
    · exact h1
    · exact h2
  · intro h slack lo hi hs hlo hhi k b st hk hst i hmem
    obtain ⟨a, z, m, M, hr, hcl⟩ := classifyBlock_szfpMeta dec hfin hk
    obtain ⟨s, hs0, -, heq⟩ := hcl tail (unitBlocks shape).length hasCodes slack hs
    rw [hstate k b hk slack lo hi, Option.some_inj] at hst
    rw [← hst, heq lo hi]
    exact ⟨stateOf_sound (h k b a z m M hk hr i hmem _ (Or.inl rfl)) hs0 lo hi,
      stateOf_sound (h k b a z m M hk hr i hmem _ (Or.inr rfl)) hs0 lo hi⟩

end Unit

/-! ### The stored error bound -/

/-- `FLT_MAX` as a number. -/
def maxFloat : ℚ := 2 ^ 128 - 2 ^ 104

/-- Half a step above `FLT_MAX`, from where the cast gives an infinity. -/
def castLimit : ℚ := 2 ^ 128 - 2 ^ 103

section Bound
variable (shape : Tri) (chunk dec : Tri → F32)

/-- Some decoded value is so far off that the stored bound is an infinity. -/
def LargeError : Prop := ∃ i ∈ unitCells shape, .fin castLimit ≤ errAt chunk dec id i

/-- All errors are numbers in the range of a float32. -/
def SmallErrors : Prop := ∀ i ∈ unitCells shape, errAt chunk dec id i ≤ .fin maxFloat

/-- Every decoded value is within `FLT_MAX` of its block's range on the levels of the unit. -/
def NearRange : Prop := ∀ b ∈ unitBlocks shape, ∀ a z m M, BlockRange shape chunk b a z m M →
  ∀ i ∈ blockCells b, .fin (lowLevel a z m - maxFloat) ≤ (dec i).val ∧
    (dec i).val ≤ .fin (highLevel a z M + maxFloat)

variable {shape chunk dec}

theorem maxFloat_lt_castLimit : maxFloat < castLimit := by norm_num [maxFloat, castLimit]

theorem val_epsOf_pinf : (epsOf .pinf).val = .pinf := by decide

/-- The bound of a number just above `FLT_MAX`: the next float32 towards `FLT_MAX` is `FLT_MAX` itself. -/
theorem val_epsOf_of_sliver {q : ℚ} (h1 : maxFloat < q) (h2 : q < castLimit) :
    (epsOf (.fin q)).val = .fin maxFloat := by
  have hc := F32.val_ofDouble_of_sliver h1 h2
  have hlt : (F32.ofDouble (.fin q)).val < .fin q := by rw [hc]; exact (Dbl.fin_lt_fin _ _).mpr h1
  have hnn : ¬ ((F32.ofDouble (.fin q)).val = .nan ∨ F32.fltMax.val = .nan) := by
    rw [hc, F32.val_fltMax]; simp
  unfold epsOf F32.castUp
  rw [if_pos hlt, F32.nextafterf, if_neg hnn, if_pos (by rw [hc, F32.val_fltMax]), F32.val_fltMax]
  rfl

theorem val_epsOf_of_large {q : ℚ} (h : castLimit ≤ q) : (epsOf (.fin q)).val = .pinf := by
  have hc := F32.val_ofDouble_of_large h
  unfold epsOf F32.castUp
  rw [hc, if_neg (Dbl.not_pinf_lt _), hc]

variable (shape chunk dec) in
/-- **The three cases of the stored bound**: infinite, a cover of all errors, or `FLT_MAX` with an
error above it. -/
theorem epsOf_cases :
    ((epsOf (maxErr shape chunk dec id)).val = .pinf ∧ LargeError shape chunk dec) ∨
    ((∃ e, (epsOf (maxErr shape chunk dec id)).val = .fin e ∧ 0 ≤ e ∧ ∀ i ∈ unitCells shape,
        errAt chunk dec id i ≠ .nan → errAt chunk dec id i ≤ .fin e ∧
          errAt chunk dec id i ≤ .fin maxFloat) ∧ ¬ LargeError shape chunk dec) ∨
    ((epsOf (maxErr shape chunk dec id)).val = .fin maxFloat ∧ ¬ LargeError shape chunk dec ∧
      ∃ i ∈ unitCells shape, .fin maxFloat < errAt chunk dec id i) := by
  obtain ⟨h1, h2, h3, h4⟩ := maxErr_spec shape chunk dec id
  generalize maxErr shape chunk dec id = e at *
  have hnl : ∀ q : ℚ, e = .fin q → q < castLimit → ¬ LargeError shape chunk dec := by
    rintro q rfl hq ⟨i, hi, hle⟩
    have hn := (Dbl.ne_nan_of_le hle).2
    have := (Dbl.fin_le_fin _ _).mp (Dbl.le_trans hle (h3 i hi hn))
    exact absurd hq (not_lt.mpr this)
  cases e with
  | nan => exact absurd rfl h1
  | ninf => exact absurd h2 (Dbl.not_fin_le_ninf 0)
  | pinf =>
    refine Or.inl ⟨val_epsOf_pinf, ?_⟩
    obtain ⟨i, hi, hie⟩ := h4.resolve_left (by simp)
    exact ⟨i, hi, by rw [hie]; exact Dbl.fin_le_pinf _⟩
  | fin q =>
    have hq : 0 ≤ q := (Dbl.fin_le_fin 0 q).mp h2
    rcases le_or_gt q maxFloat with hsmall | hbig
    · obtain ⟨e, he, hle⟩ := F32.castUp_of_le hq hsmall (Or.inl rfl)
      refine Or.inr (Or.inl ⟨⟨e, he, hq.trans hle, fun i hi hn => ?_⟩,
        hnl q rfl (hsmall.trans_lt maxFloat_lt_castLimit)⟩)
      have hi' := h3 i hi hn
      exact ⟨Dbl.le_trans hi' ((Dbl.fin_le_fin _ _).mpr hle),
        Dbl.le_trans hi' ((Dbl.fin_le_fin _ _).mpr hsmall)⟩
    · obtain ⟨i, hi, hie⟩ := h4.resolve_left fun h => by
        cases h
        exact absurd hbig (by norm_num [maxFloat])
      rcases lt_or_ge q castLimit with hlim | hlim
      · exact Or.inr (Or.inr ⟨val_epsOf_of_sliver hbig hlim, hnl q rfl hlim, i, hi,
          by rw [hie]; simpa using hbig⟩)
      · exact Or.inl ⟨val_epsOf_of_large hlim, i, hi, by rw [hie]; simpa using hlim⟩

theorem between_of_errAt_le {i : Tri} {v e : ℚ} (hv : (chunk i).val = .fin v)
    (h : errAt chunk dec id i ≤ .fin e) : .fin (v - e) ≤ (dec i).val ∧ (dec i).val ≤ .fin (v + e) := by
  unfold errAt at h
  rw [hv] at h
  cases hd : (dec i).val with
  | nan => rw [hd] at h; exact absurd h (Dbl.not_nan_le _)
  | ninf => rw [hd] at h; exact absurd h (Dbl.not_pinf_le_fin _)
  | pinf => rw [hd] at h; exact absurd h (Dbl.not_pinf_le_fin _)
  | fin d =>
    rw [hd, Dbl.sub_fin, Dbl.abs_fin, Dbl.fin_le_fin, id_eq] at h
    obtain ⟨h1, h2⟩ := abs_le.mp h
    rw [Dbl.fin_le_fin, Dbl.fin_le_fin]
    constructor <;> linarith

theorem errAt_ne_nan {i : Tri} {v : ℚ} (hv : (chunk i).val = .fin v) (hd : (dec i).val ≠ .nan) :
    errAt chunk dec id i ≠ .nan := by
  unfold errAt
  rw [hv]
  cases h : (dec i).val with
  | nan => exact absurd h hd
  | ninf => exact nofun
  | pinf => exact nofun
  | fin d => rw [Dbl.sub_fin, Dbl.abs_fin]; simp

theorem Covers.ne_nan {e x : Dbl} {l h : ℚ} (hc : Covers e l h x) (he : ∃ q, e = .fin q) :
    x ≠ .nan := by
  obtain ⟨q, rfl⟩ := he
  rcases hc with h | h | ⟨e, -, h1, -⟩
  · cases h
  · cases h
  · exact (Dbl.ne_nan_of_le h1).2

/-- The bound of a block with a code, from a finite bound of the unit and from an infinite one. -/
theorem blockError_of_fin {eps : F32} {e : ℚ} (h : eps.val = .fin e) (codes : List UInt8) (bid : ℕ) :
    blockError id eps (some codes) bid = .fin (e * codeAt codes bid / 15) := by
  unfold blockError
  dsimp only
  rw [h]
  exact Dbl.div_fin id (e * codeAt codes bid) (by norm_num)

theorem blockError_of_pinf {eps : F32} (h : eps.val = .pinf) (codes : List UInt8) (bid : ℕ) :
    blockError id eps (some codes) bid = .pinf ∨ blockError id eps (some codes) bid = .nan := by
  unfold blockError
  dsimp only
  rw [h]
  rcases Nat.eq_zero_or_pos (codeAt codes bid) with hc | hc
  · rw [hc]
    exact Or.inr (by decide)
  · have hpos : (0 : ℚ) < codeAt codes bid := by exact_mod_cast hc
    have hmul : Dbl.mul id .pinf (.fin (codeAt codes bid)) = .pinf := if_pos hpos
    rw [hmul]
    exact Or.inl (by decide)

theorem recError_plain (n k : ℕ) :
    recError id (szfpMeta shape chunk dec id ++ []) n false k = (epsOf (maxErr shape chunk dec id)).val :=
  congrArg F32.val (recEps_szfpMeta shape chunk dec id [])

theorem recError_codes (q : List UInt8) (k : ℕ) :
    recError id (szfpMeta shape chunk dec id ++ packCodes q) (unitBlocks shape).length true k =
      blockError id (epsOf (maxErr shape chunk dec id)) (some (packCodes q)) k := by
  unfold recError
  rw [recCodes_szfpMeta, recEps_szfpMeta]

/-- Where the stored bound is finite, the packed code of a block covers its errors. -/
theorem codeAt_blockErrorCodes {eps : F32} {q : List UInt8} {e : ℚ}
    (hq : blockErrorCodes shape chunk dec id eps = .ok q) (hv : eps.val = .fin e) (he : 0 ≤ e) {k : ℕ}
    {b : Tri} (hk : (unitBlocks shape)[k]? = some b) : codeAt (packCodes q) k ≤ 15 ∧
      (blockErr chunk dec id b ≠ .nan →
        blockErr chunk dec id b ≤ .fin (e * codeAt (packCodes q) k / 15)) := by
  have h16 : ∀ x ∈ q, x.toNat < 16 := by
    intro x hx
    obtain ⟨j, hj⟩ := List.mem_iff_getElem?.mp hx
    have hlt := (List.getElem?_eq_some_iff.mp hj).1
    rw [length_blockErrorCodes hq] at hlt
    obtain ⟨c, hc, hqc, -⟩ := blockErrorCodes_spec hq (fun _ hx => hx) hv he (List.getElem?_eq_getElem hlt)
    rw [hj, Option.some_inj] at hqc
    rw [hqc, UInt8.toNat_ofNat']
    omega
  obtain ⟨c, hc, hqc, hle⟩ := blockErrorCodes_spec hq (fun _ hx => hx) hv he hk
  rw [codeBound_id] at hle
  have hcode : codeAt (packCodes q) k = c := by
    rw [codeAt_packCodes q h16 hqc, UInt8.toNat_ofNat']
    omega
  rw [hcode]
  exact ⟨hc, hle⟩

section Main
variable (hfin : FiniteOn chunk (unitCells shape))
include hfin

theorem covers_chunk {b i : Tri} {a z m M : ℚ} {e : Dbl} (hr : BlockRange shape chunk b a z m M)
    (hb : b ∈ unitBlocks shape) (hi : i ∈ blockCells b)
    (he : e = .pinf ∨ e = .nan ∨ ∃ q, e = .fin q ∧ 0 ≤ q) :
    Covers e (lowLevel a z m) (highLevel a z M) (chunk i).val := by
  obtain ⟨v, hv⟩ := hfin i (mem_unitCells hb hi)
  obtain ⟨h1, h2⟩ := hr.levels hb hi hv
  refine he.imp_right (Or.imp_right ?_)
  rintro ⟨q, rfl, hq⟩
  rw [hv]
  exact ⟨q, rfl, (Dbl.fin_le_fin _ _).mpr (by linarith), (Dbl.fin_le_fin _ _).mpr (by linarith)⟩

theorem covers_dec {b i : Tri} {a z m M e : ℚ} (hr : BlockRange shape chunk b a z m M)
    (hb : b ∈ unitBlocks shape) (hi : i ∈ blockCells b) (he : errAt chunk dec id i ≤ .fin e) :
    Covers (.fin e) (lowLevel a z m) (highLevel a z M) (dec i).val := by
  obtain ⟨v, hv⟩ := hfin i (mem_unitCells hb hi)
  obtain ⟨h1, h2⟩ := hr.levels hb hi hv
  obtain ⟨h3, h4⟩ := between_of_errAt_le hv he
  exact Or.inr (Or.inr ⟨e, rfl, Dbl.le_trans ((Dbl.fin_le_fin _ _).mpr (by linarith)) h3,
    Dbl.le_trans h4 ((Dbl.fin_le_fin _ _).mpr (by linarith))⟩)

theorem exists_blockRange {b : Tri} (hb : b ∈ unitBlocks shape) :
    ∃ a z m M, BlockRange shape chunk b a z m M := by
  obtain ⟨a, -, ha⟩ := unitMin_spec hfin hb
  obtain ⟨z, -, hz⟩ := unitMax_spec hfin hb
  obtain ⟨m, -, hm⟩ := blockMin_spec hfin hb
  obtain ⟨M, -, hM⟩ := blockMax_spec hfin hb
  exact ⟨a, z, m, M, ha, hz, hm, hM⟩

theorem exists_block_of_cell {i : Tri} (hi : i ∈ unitCells shape) : ∃ (k : ℕ) (b : Tri) (a z m M : ℚ),
    (unitBlocks shape)[k]? = some b ∧ i ∈ blockCells b ∧ BlockRange shape chunk b a z m M := by
  obtain ⟨b, hb, hib⟩ := List.mem_flatMap.mp hi
  obtain ⟨k, hk⟩ := List.mem_iff_getElem?.mp hb
  obtain ⟨a, z, m, M, hr⟩ := exists_blockRange hfin hb
  exact ⟨k, b, a, z, m, M, hk, hib, hr⟩

/-- Errors that are in range where they are numbers are all in range, if no decoded value is a NaN. -/
theorem smallErrors_of_ne_nan (hcov : ∀ i ∈ unitCells shape, errAt chunk dec id i ≠ .nan →
      errAt chunk dec id i ≤ .fin maxFloat) (hn : ∀ i ∈ unitCells shape, (dec i).val ≠ .nan) :
    SmallErrors shape chunk dec := by
  intro i hi
  obtain ⟨v, hv⟩ := hfin i hi
  exact hcov i hi (errAt_ne_nan hv (hn i hi))

/-- A record without codes uses the stored bound for every block. -/
theorem soundRecord_plain_iff : SoundRecord shape chunk dec (szfpMeta shape chunk dec id) false ↔
    LargeError shape chunk dec ∨ SmallErrors shape chunk dec ∨ NearRange shape chunk dec := by
  have hiff := soundRecord_iff_covers dec hfin [] false (fun k => by
    rw [recError_plain]
    rcases epsOf_cases shape chunk dec with ⟨h, -⟩ | ⟨⟨e, h, -⟩, -⟩ | ⟨h, -⟩
      <;> rw [h] <;> exact nofun)
  simp only [recError_plain] at hiff
  rw [List.append_nil] at hiff
  rw [hiff]
  rcases epsOf_cases shape chunk dec with
    ⟨hv, hl⟩ | ⟨⟨e, hv, he, hcov⟩, hnl⟩ | ⟨hv, hnl, i, hi, hie⟩ <;> rw [hv]
  · exact ⟨fun _ => Or.inl hl, fun _ _ _ _ _ _ _ _ _ _ _ _ _ => Or.inl rfl⟩
  · have hsmall := smallErrors_of_ne_nan hfin fun i hi hn => (hcov i hi hn).2
    constructor
    · intro h
      refine Or.inr (Or.inl (hsmall fun i hi => ?_))
      obtain ⟨k, b, a, z, m, M, hk, hib, hr⟩ := exists_block_of_cell hfin hi
      exact (h k b a z m M hk hr i hib _ (Or.inr rfl)).ne_nan ⟨e, rfl⟩
    · intro h k b a z m M hk hr i hi x hx
      have hb := List.mem_of_getElem? hk
      have hse : SmallErrors shape chunk dec := by
        refine (h.resolve_left hnl).elim id fun hnear => hsmall fun i hi => ?_
        obtain ⟨k, b, a, z, m, M, hk, hib, hr⟩ := exists_block_of_cell hfin hi
        exact (Dbl.ne_nan_of_le (hnear b (List.mem_of_getElem? hk) a z m M hr i hib).1).2
      rcases hx with rfl | rfl
      · exact covers_chunk hfin hr hb hi (Or.inr (Or.inr ⟨e, rfl, he⟩))
      · have hn := (Dbl.ne_nan_of_le (hse i (mem_unitCells hb hi))).1
        exact covers_dec hfin hr hb hi (hcov i (mem_unitCells hb hi) hn).1
  · have hns : ¬ SmallErrors shape chunk dec := fun hs => Dbl.not_lt_of_le (hs i hi) hie
    constructor
    · intro h
      refine Or.inr (Or.inr fun b hb a z m M hr j hj => ?_)
      obtain ⟨k, hk⟩ := List.mem_iff_getElem?.mp hb
      rcases h k b a z m M hk hr j hj _ (Or.inr rfl) with h | h | ⟨e, he, h1, h2⟩
      · cases h
      · cases h
      · cases he
        exact ⟨h1, h2⟩
    · intro h k b a z m M hk hr j hj x hx
      have hb := List.mem_of_getElem? hk
      have hnear := (h.resolve_left hnl).resolve_left hns
      rcases hx with rfl | rfl
      · exact covers_chunk hfin hr hb hj (Or.inr (Or.inr ⟨_, rfl, by norm_num [maxFloat]⟩))
      · exact Or.inr (Or.inr ⟨_, rfl, hnear b hb a z m M hr j hj⟩)

section Codes
variable {q : List UInt8} (hq : blockErrorCodes shape chunk dec id
    (epsOf (maxErr shape chunk dec id)) = .ok q)
include hq

theorem covers_codes {e : ℚ} (hv : (epsOf (maxErr shape chunk dec id)).val = .fin e) (he : 0 ≤ e)
    (hsmall : SmallErrors shape chunk dec) {k : ℕ} {b i : Tri} {a z m M : ℚ}
    (hk : (unitBlocks shape)[k]? = some b) (hr : BlockRange shape chunk b a z m M) (hi : i ∈ blockCells b) :
    ∀ x, x = (chunk i).val ∨ x = (dec i).val →
      Covers (.fin (e * codeAt (packCodes q) k / 15)) (lowLevel a z m) (highLevel a z M) x := by
  have hb := List.mem_of_getElem? hk
  obtain ⟨-, hle⟩ := codeAt_blockErrorCodes hq hv he hk
  rintro x (rfl | rfl)
  · exact covers_chunk hfin hr hb hi (Or.inr (Or.inr ⟨_, rfl, by positivity⟩))
  · have hnn : ∀ j ∈ blockCells b, errAt chunk dec id j ≠ .nan := fun j hj =>
      (Dbl.ne_nan_of_le (hsmall j (mem_unitCells hb hj))).1
    have hbn := (blockErr_spec chunk dec id b).2 hnn
    exact covers_dec hfin hr hb hi (Dbl.le_trans (((blockErr_spec chunk dec id b).1 hbn).2 i hi) (hle hbn))

/-- An error above `FLT_MAX` in a block without a NaN has no code: it would have to cover the error. -/
theorem not_above_of_codes (hv : (epsOf (maxErr shape chunk dec id)).val = .fin maxFloat)
    {k : ℕ} {b i : Tri}
    (hk : (unitBlocks shape)[k]? = some b) (hn : ∀ j ∈ blockCells b, (dec j).val ≠ .nan)
    (hi : i ∈ blockCells b) : ¬ .fin maxFloat < errAt chunk dec id i := by
  have hb := List.mem_of_getElem? hk
  have h0 : (0 : ℚ) ≤ maxFloat := by norm_num [maxFloat]
  obtain ⟨hc15, hle⟩ := codeAt_blockErrorCodes hq hv h0 hk
  have hbn : blockErr chunk dec id b ≠ .nan := by
    refine (blockErr_spec chunk dec id b).2 fun j hj => ?_
    obtain ⟨v, hv'⟩ := hfin j (mem_unitCells hb hj)
    exact errAt_ne_nan hv' (hn j hj)
  have hmax : maxFloat * codeAt (packCodes q) k / 15 ≤ maxFloat := by
    have h15 : (codeAt (packCodes q) k : ℚ) ≤ 15 := by exact_mod_cast hc15
    rw [div_le_iff₀ (by norm_num)]
    exact mul_le_mul_of_nonneg_left h15 h0
  have hle' := Dbl.le_trans (((blockErr_spec chunk dec id b).1 hbn).2 i hi) (hle hbn)
  exact Dbl.not_lt_of_le (Dbl.le_trans hle' ((Dbl.fin_le_fin _ _).mpr hmax))

end Codes

/-- A record with codes is built only where they cover the errors, and then it is right. -/
theorem soundRecord_codes_iff {q : List UInt8} (hq : blockErrorCodes shape chunk dec id
      (recEps (szfpMeta shape chunk dec id)) = .ok q) :
    SoundRecord shape chunk dec (szfpMeta shape chunk dec id ++ packCodes q) true ↔
      LargeError shape chunk dec ∨ SmallErrors shape chunk dec := by
  have heps := recEps_szfpMeta shape chunk dec id []
  rw [List.append_nil] at heps
  rw [heps] at hq
  rw [soundRecord_iff_covers dec hfin]
  · simp only [recError_codes]
    rcases epsOf_cases shape chunk dec with
      ⟨hv, hl⟩ | ⟨⟨e, hv, he, hcov⟩, hnl⟩ | ⟨hv, hnl, i, hi, hie⟩
    · refine ⟨fun _ => Or.inl hl, fun _ k b a z m M hk hr i hi x hx => ?_⟩
      exact (blockError_of_pinf hv _ k).imp_right Or.inl
    · simp only [blockError_of_fin hv]
      constructor
      · intro h
        refine Or.inr (smallErrors_of_ne_nan hfin (fun i hi hn => (hcov i hi hn).2) fun i hi => ?_)
        obtain ⟨k, b, a, z, m, M, hk, hib, hr⟩ := exists_block_of_cell hfin hi
        exact (h k b a z m M hk hr i hib _ (Or.inr rfl)).ne_nan ⟨_, rfl⟩
      · intro h k b a z m M hk hr i hi x hx
        exact covers_codes hfin hq hv he (h.resolve_left hnl) hk hr hi x hx
    · simp only [blockError_of_fin hv]
      have hns : ¬ SmallErrors shape chunk dec := fun hs => Dbl.not_lt_of_le (hs i hi) hie
      refine ⟨fun h => ?_, fun h => absurd (h.resolve_left hnl) hns⟩
      obtain ⟨k, b, a, z, m, M, hk, hib, hr⟩ := exists_block_of_cell hfin hi
      have hn : ∀ j ∈ blockCells b, (dec j).val ≠ .nan := fun j hj =>
        (h k b a z m M hk hr j hj _ (Or.inr rfl)).ne_nan ⟨_, rfl⟩
      exact absurd hie (not_above_of_codes hfin hq hv hk hn hib)
  · intro k
    rw [recError_codes]
    rcases epsOf_cases shape chunk dec with ⟨h, -⟩ | ⟨⟨e, h, -⟩, -⟩ | ⟨h, -⟩
    · rcases blockError_of_pinf h (packCodes q) k with h | h <;> rw [h] <;> exact nofun
    · rw [blockError_of_fin h]; exact nofun
    · rw [blockError_of_fin h]; exact nofun

end Main

/-- **When the zone map is right.** A record in exact arithmetic, with or without codes, is right for
all original and decoded values under every query exactly when no decoded value is above the range the
stored bound can express: some error makes the bound infinite, or all errors are in the range of a
float32, or (without codes) every decoded value is within `FLT_MAX` of its block's range. -/
theorem soundRecord_iff (shape : Tri) (chunk dec : Tri → F32)
    (hfin : FiniteOn chunk (unitCells shape)) :
    (SoundRecord shape chunk dec (szfpMeta shape chunk dec id) false ↔
      LargeError shape chunk dec ∨ SmallErrors shape chunk dec ∨ NearRange shape chunk dec) ∧
    ∀ q, blockErrorCodes shape chunk dec id (recEps (szfpMeta shape chunk dec id)) = .ok q →
      (SoundRecord shape chunk dec (szfpMeta shape chunk dec id ++ packCodes q) true ↔
        LargeError shape chunk dec ∨ SmallErrors shape chunk dec) :=
  ⟨soundRecord_plain_iff hfin, fun _ hq => soundRecord_codes_iff hfin hq⟩

end Bound

/-! ### A constant unit -/

/-- One block of `FLT_MAX`. -/
def constantUnit : Tri → F32 := fun _ => F32.fltMax

/-- Decoded with one wrong value, `-2 ^ 102`. -/
def constantDecoded : Tri → F32 := fun i =>
  if i = fun _ => 0 then F32.ofMag true (229 * 2 ^ 23) else F32.fltMax

theorem finiteOn_constantUnit : FiniteOn constantUnit (unitCells blockShape) :=
  fun _ _ => ⟨_, F32.val_fltMax⟩

/-- The record of the constant unit says that all values are above `-2 ^ 102`. -/
theorem not_soundRecord_constant : FiniteOn constantUnit (unitCells blockShape) ∧
    ¬ SoundRecord blockShape constantUnit constantDecoded
      (szfpMeta blockShape constantUnit constantDecoded id) false := by
  refine ⟨finiteOn_constantUnit, fun h => ?_⟩
  have hst : (classifyUnit id (szfpMeta blockShape constantUnit constantDecoded id)
      (unitBlocks blockShape).length false (.fin 0) (.fin (-2 ^ 102)) .pinf)[0]? = some .IN := by
    decide +kernel
  have hin := (h 0 (.fin (-2 ^ 102)) .pinf le_rfl nofun nofun 0 (fun _ => 0) _ (by decide) hst
    (fun _ => 0) (by decide)).2.1 rfl
  exact absurd hin (by decide +kernel)

/-- Decoded with a zero, `FLT_MAX` away. -/
def zeroDecoded : Tri → F32 := fun i => if i = fun _ => 0 then F32.ofMag false 0 else F32.fltMax

/-- The same unit with an error that is not too large, in both forms of record. -/
theorem soundRecord_constant : ∃ q,
    blockErrorCodes blockShape constantUnit zeroDecoded id
      (recEps (szfpMeta blockShape constantUnit zeroDecoded id)) = .ok q ∧
    SoundRecord blockShape constantUnit zeroDecoded
      (szfpMeta blockShape constantUnit zeroDecoded id) false ∧
    SoundRecord blockShape constantUnit zeroDecoded
      (szfpMeta blockShape constantUnit zeroDecoded id ++ packCodes q) true := by
  have hsmall : SmallErrors blockShape constantUnit zeroDecoded := by
    unfold SmallErrors
    decide +kernel
  have hq : blockErrorCodes blockShape constantUnit zeroDecoded id
      (recEps (szfpMeta blockShape constantUnit zeroDecoded id)) = .ok [15] := by
    decide +kernel
  obtain ⟨hplain, hcodes⟩ := soundRecord_iff blockShape constantUnit zeroDecoded finiteOn_constantUnit
  exact ⟨_, hq, hplain.mpr (Or.inr (Or.inl hsmall)), (hcodes _ hq).mpr (Or.inr hsmall)⟩

end SkipZFP.Plan.Classify
