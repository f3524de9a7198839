import SkipZFP.Decode.Bmi2
import SkipZFP.Decode.Tail
import SkipZFP.Lib.Neighbour

/-! # Decoding and counting blocks, in every mode

`fastDecode` and `fastCount` are `szfp_fast_decode` and `szfp_fast_count`. The steps they go through are
chosen by the processor (`pickSimd`) and a mode (`setFastDecode`), and `countOffsetsRange` takes one of
its branches by the mode too.

* `setBits_apply`, `transposeAvx512_eq`: both transposes.
* `floatAtMost_lt_iff`: a double bound rounded down to a float divides the floats at the same place.
* `fastCount_eq`: counting in registers is decoding and then counting.
* `fast_modes_agree`: **the count is the same in every fast mode, on every processor.** -/

namespace SkipZFP.Decode.Count

open SkipZFP.Lib.Rows SkipZFP.Lib.Double SkipZFP.Lib.Float32 SkipZFP.Lib.Float32.F32 SkipZFP.Lib.Words
open SkipZFP.Codec.Config SkipZFP.Plan.Classify SkipZFP.Plan.Blocks SkipZFP.Read.Stream
open SkipZFP.Decode.Planes SkipZFP.Decode.Bmi2 SkipZFP.Decode.Tail

/-! ### Transposes -/

/-- The loop over the set bits of a plane. -/
def setBits (bit : I32) (x : Word) (u : Coefficients) : Coefficients :=
  if x = 0#64 then u
  else
    let i := Fin.ofNat 64 (ctz x)
    setBits bit (x &&& (x - 1#64)) (Function.update u i (u i ||| bit))
termination_by x.toNat
decreasing_by exact clearLow_lt (by assumption)

/-- **`transpose_scalar`**. -/
def transposeScalar (planes : List Word) : Coefficients :=
  planes.zipIdx.foldl (fun u p => setBits (1#32 <<< (31 - p.2)) p.1 u) fun _ => 0#32

/-- `_mm512_mask_or_epi32(u, mask, u, bit)`, where the mask are the 16 bits of `x` from `16 * q` on. -/
def maskOr (bit : I32) (x : Word) (q : Fin 4) (u : Reg I32) : Reg I32 := fun l i =>
  if ((x >>> (16 * q.val)).setWidth 16).getLsbD (4 * l.val + i.val) then u l i ||| bit else u l i

/-- **`transpose_avx512`**. -/
def transposeAvx512 (planes : List Word) : Coefficients :=
  stored (planes.zipIdx.foldl (fun (u : Fin 4 → Reg I32) p =>
    fun q => maskOr (1#32 <<< (31 - p.2)) p.1 q (u q)) fun _ _ _ => 0#32)

/-! ### Modes -/

/-- What the processor supports. Compiled for another processor, it supports nothing of it. -/
structure Cpu where
  avx512f : Bool
  bmi2 : Bool
  popcnt : Bool

/-- The steps of the fast path that are in use. -/
structure Fast where
  enabled : Bool
  transpose : List Word → Coefficients
  tail : Coefficients → ℤ → Values
  planes : List UInt8 → ℕ → ℕ → List Word
  countFused : Bool

section Scale
variable (scale : ℤ → I32 → F32)

/-- `pick_simd`: the best steps the processor can run. -/
def pickSimd (cpu : Cpu) : Fast where
  enabled := true
  transpose := if cpu.avx512f then transposeAvx512 else transposeScalar
  tail := if cpu.avx512f then tailAvx512 scale else tailScalar scale
  planes := if cpu.bmi2 && cpu.popcnt then decodePlanesBmi2 else decodePlanes
  countFused := cpu.avx512f

/-- **`szfp_set_fast_decode`**. -/
def setFastDecode (cpu : Cpu) (mode : ℤ) : Fast :=
  let best := pickSimd scale cpu
  { enabled := mode ≠ 0
    transpose := if mode = 2 then transposeScalar else best.transpose
    tail := if mode = 2 ∨ mode = 3 then tailScalar scale else best.tail
    planes := if mode = 1 ∨ mode = 5 then best.planes else decodePlanes
    countFused := if mode = 1 then best.countFused else false }

/-- `szfp_fast_ok`. -/
def fastOk (f : Fast) (blockDim : ℕ) (rate : ℚ) (blockNbytes : ℕ) : Prop :=
  f.enabled = true ∧ blockDim = 4 ∧ 2 ≤ blockNbytes ∧ blockNbytes ≤ 256 ∧ 64 * rate = 8 * (blockNbytes : ℚ)

instance (f : Fast) (blockDim : ℕ) (rate : ℚ) (n : ℕ) : Decidable (fastOk f blockDim rate n) := by
  unfold fastOk; infer_instance

/-- `szfp_fast_count_ok`. -/
def fastCountOk (f : Fast) : Bool := f.enabled && f.countFused

/-- The float `0.0f`. -/
def zeroF32 : F32 := ⟨0#32⟩

/-- The coefficients and the exponent of a block, `none` for an all-zero block. -/
def readBlock (f : Fast) (src : List UInt8) : Option (Coefficients × ℤ) :=
  let buf := padded src
  if (buf.getD 0 0).toNat % 2 = 0 then none
  else
    let emax : ℤ := ((peek buf 1 &&& 0xff#64).toNat : ℤ) - 127
    some (f.transpose (f.planes buf 9 (8 * src.length - 9)), emax)

/-- **`szfp_fast_decode`**. -/
def fastDecode (f : Fast) (src : List UInt8) : Values :=
  match readBlock f src with
  | none => fun _ => zeroF32
  | some (u, emax) => f.tail u emax

/-- **`szfp_fast_count`**. -/
def fastCount (f : Fast) (src : List UInt8) (lo hi : F32) : ℕ :=
  match readBlock f src with
  | none => if lo.val < zeroF32.val ∧ zeroF32.val ≤ hi.val then 64 else 0
  | some (u, emax) => tailCountAvx512 scale u emax lo hi

/-- **`float_at_most`**: the largest float not above `d`. -/
def floatAtMost (d : Dbl) : F32 :=
  let f := ofDouble d
  if d < f.val then nextafterf f negInf else f

/-- **`szfp_count_offsets_range`**, with its branches. `libzfp` decodes the block at an offset of a
buffer. -/
def countOffsetsRange (f : Fast) (libzfp : ℚ → List UInt8 → ℕ → Values) (buf : List UInt8)
    (offsets : List ℕ) (blockNbytes : ℕ) (rate : ℚ) (blockDim : ℕ) (lo hi : Dbl) : Except SzError ℕ :=
  if offsets = [] then .ok 0
  else
    match blockLayout blockDim rate with
    | none => .error .SZ_ERR_ARG
    | some (nval, needBytes) =>
      if 64 < nval then .error .SZ_ERR_ARG
      else if blockNbytes ≠ needBytes then .error .SZ_ERR_SIZE
      else if blockDim ≠ 4 then .error .SZ_ERR_ARG
      else if ∃ o ∈ offsets, buf.length < o ∨ buf.length - o < blockNbytes then .error .SZ_ERR_SIZE
      else if fastOk f blockDim rate blockNbytes ∧ fastCountOk f = true then
        .ok (offsets.map fun o => fastCount scale f (slice buf o (o + blockNbytes)) (floatAtMost lo)
          (floatAtMost hi)).sum
      else if fastOk f blockDim rate blockNbytes then
        .ok (offsets.map fun o =>
          countInRange (List.ofFn (fastDecode f (slice buf o (o + blockNbytes)))) lo hi).sum
      else .ok (offsets.map fun o => countInRange (List.ofFn (libzfp rate buf o)) lo hi).sum

end Scale

/-! ### Both transposes -/

theorem setBits_apply (bit : I32) (x : Word) (u : Coefficients) (p : Fin 64) :
    setBits bit x u p = if x.getLsbD p then u p ||| bit else u p := by
  fun_induction setBits bit x u with
  | case1 u => rw [BitVec.getLsbD_zero, if_neg Bool.false_ne_true]
  | case2 x u hx i ih =>
    have hz := ctz_lt_of_ne_zero hx
    have hi : (i : ℕ) = ctz x := Nat.mod_eq_of_lt hz
    rw [ih, getLsbD_clearLow hx]
    by_cases hp : p = i
    · have hset : x.getLsbD p = true := by
        rw [hp, hi]
        exact getLsbD_ctz hz
      rw [if_pos hset, hp, hi, decide_eq_true rfl, Bool.not_true, Bool.and_false,
        if_neg Bool.false_ne_true, Function.update_self]
    · have hne : (p : ℕ) ≠ ctz x := fun h => hp (Fin.ext (h.trans hi.symm))
      simp [hne, Function.update_of_ne hp]

theorem maskOr_apply (bit : I32) (x : Word) (q l i : Fin 4) (u : Reg I32) :
    maskOr bit x q u l i = if x.getLsbD (at64 q l i) then u l i ||| bit else u l i := by
  unfold maskOr
  rw [BitVec.getLsbD_setWidth, BitVec.getLsbD_ushiftRight, decide_eq_true (by omega), Bool.true_and,
    val_at64, Nat.add_assoc]

/-- **The transpose in registers is the scalar one.** -/
theorem transposeAvx512_eq (planes : List Word) : transposeAvx512 planes = transposeScalar planes := by
  have hfold : ∀ (l : List (Word × ℕ)) (v : Fin 4 → Reg I32) (u : Coefficients),
      (∀ q l i, v q l i = u (at64 q l i)) → ∀ q k i,
      l.foldl (fun v p => fun q => maskOr (1#32 <<< (31 - p.2)) p.1 q (v q)) v q k i =
        l.foldl (fun u p => setBits (1#32 <<< (31 - p.2)) p.1 u) u (at64 q k i) := by
    intro l
    induction l with
    | nil => exact fun _ _ h => h
    | cons p l ih =>
      intro v u h
      refine ih _ _ fun q k i => ?_
      dsimp only
      rw [maskOr_apply, setBits_apply, h]
  funext p
  obtain ⟨q, l, i, rfl⟩ := exists_at64 p
  unfold transposeAvx512
  rw [stored_at64]
  exact hfold planes.zipIdx (fun _ _ _ => 0#32) (fun _ => 0#32) (fun _ _ _ => rfl) q l i

/-! ### Bounds -/

section Bounds
variable {d : Dbl} (hd : d ≠ .nan)
include hd

theorem floatAtMost_ne_nan : (floatAtMost d).val ≠ .nan := by
  have hf := nearest_ofDouble.ne_nan hd
  unfold floatAtMost
  dsimp only
  split_ifs
  · exact (ord_nextafterf hf).2
  · exact hf

/-- **What is above the largest float not above `d`**: the floats above `d`. -/
theorem floatAtMost_lt_iff {g : F32} (hg : g.val ≠ .nan) : (floatAtMost d).val < g.val ↔ d < g.val := by
  have hf := nearest_ofDouble.ne_nan hd
  unfold floatAtMost
  dsimp only
  split_ifs with hlt
  · rw [pred_lt_iff hf hg, nearest_ofDouble.lt_iff_of_gt hd hlt hg]
    refine ⟨And.left, fun hdg => ⟨hdg, fun hinf => ?_⟩⟩
    rw [hinf] at hdg
    exact Dbl.not_lt_ninf _ hdg
  · by_cases hfd : (ofDouble d).val < d
    · exact nearest_ofDouble.lt_iff_of_lt hd hfd hg
    · -- the bound is a float
      have h1 := (Dbl.not_lt hd hf).mp hlt
      have h2 := (Dbl.not_lt hf hd).mp hfd
      exact ⟨Dbl.lt_of_le_of_lt h2, Dbl.lt_of_le_of_lt h1⟩

theorem le_floatAtMost_iff {g : F32} (hg : g.val ≠ .nan) : g.val ≤ (floatAtMost d).val ↔ g.val ≤ d := by
  rw [← Dbl.not_lt (floatAtMost_ne_nan hd) hg, floatAtMost_lt_iff hd hg, Dbl.not_lt hd hg]

end Bounds

/-- The floats of a range, by its bounds rounded down to floats. -/
theorem inRange_floatAtMost {lo hi : Dbl} (hlo : lo ≠ .nan) (hhi : hi ≠ .nan) {g : F32}
    (hg : g.val ≠ .nan) :
    InRange (floatAtMost lo).val (floatAtMost hi).val g.val ↔ InRange lo hi g.val :=
  and_congr (floatAtMost_lt_iff hlo hg) (le_floatAtMost_iff hhi hg)

/-! ### Every mode -/

section Modes
variable {scale : ℤ → I32 → F32}

/-- The steps in use do what the plain ones do. -/
structure Faithful (scale : ℤ → I32 → F32) (f : Fast) : Prop where
  transpose : ∀ planes, f.transpose planes = transposeScalar planes
  tail : ∀ u emax, f.tail u emax = tailScalar scale u emax
  planes : ∀ (data : List UInt8) (pos bits : ℕ), pos + bits = 8 * data.length →
    f.planes (padded data) pos bits = decodePlanes (padded data) pos bits

/-- **Whatever the processor supports, in every mode.** -/
theorem faithful_setFastDecode (cpu : Cpu) (mode : ℤ) : Faithful scale (setFastDecode scale cpu mode) := by
  refine ⟨fun planes => ?_, fun u emax => ?_, fun data pos bits h => ?_⟩
  · unfold setFastDecode pickSimd
    dsimp only
    split_ifs
    · rfl
    · exact transposeAvx512_eq planes
    · rfl
  · unfold setFastDecode pickSimd
    dsimp only
    split_ifs
    · rfl
    · exact tailAvx512_eq scale u emax
    · rfl
  · unfold setFastDecode pickSimd
    dsimp only
    split_ifs
    · exact decode_planes_bmi2 data h
    · rfl
    · rfl

variable {f g : Fast} (hf : Faithful scale f) {block : List UInt8} (hlen : 2 ≤ block.length)
include hf hlen

theorem readBlock_eq (hg : Faithful scale g) : readBlock f block = readBlock g block := by
  have hbits : 9 + (8 * block.length - 9) = 8 * block.length := by omega
  unfold readBlock
  dsimp only
  rw [hf.planes block 9 _ hbits, hg.planes block 9 _ hbits, hf.transpose, hg.transpose]

theorem fastDecode_eq (hg : Faithful scale g) : fastDecode f block = fastDecode g block := by
  unfold fastDecode
  rw [readBlock_eq hf hlen hg]
  rcases readBlock g block with _ | ⟨u, emax⟩
  · rfl
  · exact (hf.tail u emax).trans (hg.tail u emax).symm

omit hlen in
/-- **Counting in registers is decoding and then counting**, with the bounds rounded down to floats. -/
theorem fastCount_eq (hscale : ∀ emax i, (scale emax i).val ≠ .nan) {lo hi : Dbl} (hlo : lo ≠ .nan)
    (hhi : hi ≠ .nan) : fastCount scale f block (floatAtMost lo) (floatAtMost hi) =
      countInRange (List.ofFn (fastDecode f block)) lo hi := by
  rw [countInRange_eq, List.ofFn_eq_map, List.countP_map]
  unfold fastCount fastDecode
  rcases readBlock f block with _ | ⟨u, emax⟩
  · -- an all-zero block
    have hzero : (floatAtMost lo).val < zeroF32.val ∧ zeroF32.val ≤ (floatAtMost hi).val ↔
        InRange lo hi zeroF32.val := inRange_floatAtMost hlo hhi (by decide +kernel)
    dsimp only
    by_cases h : InRange lo hi zeroF32.val
    · rw [if_pos (hzero.mpr h)]
      exact (List.length_finRange.symm).trans (List.countP_eq_length.mpr fun i _ => decide_eq_true h).symm
    · rw [if_neg (mt hzero.mp h)]
      exact (List.countP_eq_zero.mpr fun i _ => by simpa using h).symm
  · dsimp only
    rw [tailCount_eq]
    refine List.countP_congr fun i _ => ?_
    rw [Function.comp, hf.tail, decide_eq_true_eq, decide_eq_true_eq]
    exact inRange_floatAtMost hlo hhi (hscale emax _)

omit hf hlen in
/-- **What `szfp_count_offsets_range` counts** when the fast path takes the blocks, whichever branch it
is. -/
theorem countOffsetsRange_eq (hf : Faithful scale f) (hscale : ∀ emax i, (scale emax i).val ≠ .nan)
    {blockDim n : ℕ} {rate : ℚ} (hok : fastOk f blockDim rate n) (libzfp : ℚ → List UInt8 → ℕ → Values)
    (buf : List UInt8) (offsets : List ℕ) {lo hi : Dbl} (hlo : lo ≠ .nan) (hhi : hi ≠ .nan) :
    countOffsetsRange scale f libzfp buf offsets n rate blockDim lo hi =
      countOffsets (fun _ bytes => fastDecode f bytes) buf offsets n rate blockDim lo hi := by
  unfold countOffsetsRange countOffsets
  by_cases h0 : offsets = []
  · rw [if_pos h0, if_pos h0]
  rw [if_neg h0, if_neg h0]
  rcases blockLayout blockDim rate with _ | ⟨nval, need⟩
  · rfl
  dsimp only
  split_ifs
  · rfl
  · rfl
  · rfl
  · rfl
  · refine congrArg Except.ok (congrArg List.sum (List.map_congr_left fun o _ => ?_))
    exact fastCount_eq hf hscale hlo hhi
  · rfl

omit hf hlen in
theorem countOffsets_congr {decode decode' : ℚ → List UInt8 → Values} {n : ℕ}
    (hdec : ∀ rate bytes, bytes.length = n → decode rate bytes = decode' rate bytes) (buf : List UInt8)
    (offsets : List ℕ) (rate : ℚ) (blockDim : ℕ) (lo hi : Dbl) :
    countOffsets decode buf offsets n rate blockDim lo hi =
      countOffsets decode' buf offsets n rate blockDim lo hi := by
  unfold countOffsets
  by_cases h0 : offsets = []
  · rw [if_pos h0, if_pos h0]
  rw [if_neg h0, if_neg h0]
  rcases blockLayout blockDim rate with _ | ⟨nval, need⟩
  · rfl
  dsimp only
  split_ifs with h1 h2 h3 h4
  · rfl
  · rfl
  · rfl
  · rfl
  · push Not at h4
    refine congrArg Except.ok (congrArg List.sum (List.map_congr_left fun o ho => ?_))
    have hin := h4 o ho
    have hslice : (slice buf o (o + n)).length = n := by
      rw [length_slice (by omega)]
      omega
    unfold countValues
    rw [hdec rate _ hslice]

end Modes

/-- **Every fast mode counts the same.** The transform in registers makes the values of the scalar one;
counting a block in registers, with the bounds rounded down to floats, is decoding it and then counting;
and the count of a read does not depend on the mode or on the processor. -/
theorem fast_modes_agree (scale : ℤ → I32 → F32) (hscale : ∀ emax i, (scale emax i).val ≠ .nan) :
    (∀ u emax p, tailAvx512 scale u emax p = tailScalar scale u emax p) ∧
    (∀ (cpu cpu' : Cpu) (mode mode' : ℤ) (block : List UInt8), 2 ≤ block.length →
      ∀ lo hi : Dbl, lo ≠ .nan → hi ≠ .nan →
        fastCount scale (setFastDecode scale cpu mode) block (floatAtMost lo) (floatAtMost hi) =
          countInRange (List.ofFn (fastDecode (setFastDecode scale cpu' mode') block)) lo hi) ∧
    ∀ (libzfp : ℚ → List UInt8 → ℕ → Values) (cpu cpu' : Cpu) (mode mode' : ℤ), mode ≠ 0 → mode' ≠ 0 →
      ∀ (buf : List UInt8) (offsets : List ℕ) (n : ℕ) (rate : ℚ) (blockDim : ℕ) (lo hi : Dbl),
        lo ≠ .nan → hi ≠ .nan →
        countOffsetsRange scale (setFastDecode scale cpu mode) libzfp buf offsets n rate blockDim lo hi =
          countOffsetsRange scale (setFastDecode scale cpu' mode') libzfp buf offsets n rate
            blockDim lo hi := by
  refine ⟨fun u emax p => congrFun (tailAvx512_eq scale u emax) p, ?_, ?_⟩
  · intro cpu cpu' mode mode' block hlen lo hi hlo hhi
    have hf : Faithful scale (setFastDecode scale cpu mode) := faithful_setFastDecode cpu mode
    rw [fastCount_eq hf hscale hlo hhi, fastDecode_eq hf hlen (faithful_setFastDecode cpu' mode')]
  intro libzfp cpu cpu' mode mode' hm hm' buf offsets n rate blockDim lo hi hlo hhi
  have hf : Faithful scale (setFastDecode scale cpu mode) := faithful_setFastDecode cpu mode
  have hg : Faithful scale (setFastDecode scale cpu' mode') := faithful_setFastDecode cpu' mode'
  have hok : fastOk (setFastDecode scale cpu mode) blockDim rate n ↔
      fastOk (setFastDecode scale cpu' mode') blockDim rate n := by
    simp [fastOk, setFastDecode, hm, hm']
  by_cases h : fastOk (setFastDecode scale cpu mode) blockDim rate n
  · rw [countOffsetsRange_eq hf hscale h libzfp buf offsets hlo hhi,
      countOffsetsRange_eq hg hscale (hok.mp h) libzfp buf offsets hlo hhi]
    refine countOffsets_congr (fun _ bytes hlen => fastDecode_eq hf ?_ hg) buf offsets rate blockDim lo hi
    rw [hlen]
    exact h.2.2.1
  · -- libzfp decodes the blocks, in any mode
    unfold countOffsetsRange
    simp only [h, mt hok.mpr h, false_and, if_false]

/-- `ldexpf(1.0f, emax - 30) * (float)i`, for the exponents of a block. -/
def scaleF32 (emax : ℤ) (i : I32) : F32 :=
  ofDouble (.fin ((ofDouble (.fin (2 ^ (emax - 30)))).val.toRat * (ofDouble (.fin i.toInt)).val.toRat))

theorem scaleF32_ne_nan (emax : ℤ) (i : I32) : (scaleF32 emax i).val ≠ .nan := nearest_ofDouble.num _

/-- A block of two bytes, counted with every speedup and decoded with none. -/
theorem fast_modes_agree_block :
    fastCount scaleF32 (setFastDecode scaleF32 ⟨true, true, true⟩ 1) [0x01, 0x17] (floatAtMost (.fin 0))
        (floatAtMost .pinf) =
      countInRange (List.ofFn (fastDecode (setFastDecode scaleF32 ⟨false, false, false⟩ 2) [0x01, 0x17]))
        (.fin 0) .pinf :=
  (fast_modes_agree scaleF32 scaleF32_ne_nan).2.1 _ _ _ _ _ (by decide) _ _ (by decide) (by decide)

end SkipZFP.Decode.Count
