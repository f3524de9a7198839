import SkipZFP.Lib.Bits
import SkipZFP.Plan.Shapes

/-! # The stride of libzfp

`zfpBits` are the bits that `zfp_stream_set_rate` gives to a block of 64 floats, and `zfpBytes` what the
stream of some blocks writes. A `Zfp` is any coder of blocks with these bits; `Zfp.native` is the encoder
that writes its blocks back to back into a buffer of `data_size` bytes.

* `zfpBits_eq`: an accepted rate gives the bits of its bytes, but at least nine.
* `rows_iff`: **when blocks sit where the rows are**: unless a layer has the rate 1/8.
* `buffer_iff`: **when the encoder stays in its buffer**. -/

namespace SkipZFP.Plan.Stride

open SkipZFP.Lib.Grid SkipZFP.Lib.Rows SkipZFP.Lib.Bits SkipZFP.Lib.Float32
open SkipZFP.Codec.Config SkipZFP.Codec.Pack SkipZFP.Plan.Shapes

/-- Bits of a block, as `zfp_stream_set_rate(rate, float, 3 dims)` sets them. -/
def zfpBits (rate : ℚ) : ℕ := max 9 ⌊64 * rate + 1 / 2⌋.toNat

/-- Bytes that the stream of `nblk` blocks writes: whole words of 64 bits. -/
def zfpBytes (rate : ℚ) (nblk : ℕ) : ℕ := 8 * ((nblk * zfpBits rate + 63) / 64)

theorem zfpBits_eq {r : ℚ} (h : 0 < r ∧ Int.fract (8 * r) = 0) : zfpBits r = max 9 (8 * blockBytes r) := by
  have hb := blockBytes_eq h
  have hfloor : ⌊64 * r + 1 / 2⌋ = ((8 * blockBytes r : ℕ) : ℤ) := by
    rw [Int.floor_eq_iff]
    push_cast
    rw [hb]
    constructor <;> linarith
  unfold zfpBits
  rw [hfloor, Int.toNat_natCast]

theorem blockBytes_eq_one_iff {r : ℚ} (h : 0 < r ∧ Int.fract (8 * r) = 0) :
    blockBytes r = 1 ↔ r = 1 / 8 := by
  have hb := blockBytes_eq h
  constructor
  · intro h1
    rw [h1] at hb
    push_cast at hb
    linarith
  · rintro rfl
    norm_num at hb
    exact hb

/-- The budget of a block is its bytes, but for the rate 1/8. -/
theorem zfpBits_eq_iff {r : ℚ} (h : 0 < r ∧ Int.fract (8 * r) = 0) :
    zfpBits r = 8 * blockBytes r ↔ r ≠ 1 / 8 := by
  have hpos := blockBytes_pos h
  rw [zfpBits_eq h, Ne, ← blockBytes_eq_one_iff h]
  omega

/-! ### The encoder -/

/-- **A coder of blocks**: the bits of 64 values, as many as the rate gives. -/
structure Zfp where
  bits : ℚ → (Tri → F32) → List Bool
  decode : ℚ → Tri → List UInt8 → Tri → F32
  length_bits : ∀ r v, (bits r v).length = zfpBits r

namespace Zfp
variable (z : Zfp)

/-- The bits of block `k` of an array, blocks in C order. -/
def block (r : ℚ) (s : Tri) (arr : Tri → F32) (k : ℕ) : List Bool :=
  z.bits r ((tileBox blockShape (unravel (blocksOf s) k)).view arr)

def stream (r : ℚ) (s : Tri) (arr : Tri → F32) : List Bool :=
  ((List.range (volume (blocksOf s))).map (z.block r s arr)).flatten

/-- **The native encoder**: the first `data_size` bytes of the stream. -/
def native : Native F32 where
  encode r s arr := packBytes (volume (blocksOf s) * blockBytes r) (z.stream r s arr)
  decode := z.decode
  length_encode _ _ _ := length_packBytes _ _

theorem length_stream (r : ℚ) (s : Tri) (arr : Tri → F32) :
    (z.stream r s arr).length = volume (blocksOf s) * zfpBits r := by
  unfold stream
  rw [length_flatten_rows (w := zfpBits r), List.length_map, List.length_range]
  intro row hrow
  obtain ⟨k, -, rfl⟩ := List.mem_map.mp hrow
  exact z.length_bits _ _

/-- **A row has the bits of its block**, where the budget is the row's bytes. -/
theorem bitsOf_encodedBlock {r : ℚ} (h : zfpBits r = 8 * blockBytes r) (s : Tri) (arr : Tri → F32)
    {k : ℕ} (hk : k < volume (blocksOf s)) :
    bitsOf (encodedBlock z.native r s arr k) = z.block r s arr k := by
  have hrows : ∀ row ∈ (List.range (volume (blocksOf s))).map (z.block r s arr),
      row.length = zfpBits r := by
    intro row hrow
    obtain ⟨j, -, rfl⟩ := List.mem_map.mp hrow
    exact z.length_bits _ _
  have hlen : (z.stream r s arr).length = volume (blocksOf s) * blockBytes r * 8 := by
    rw [z.length_stream, h]
    ring
  have hslice := slice_flatten_rows hrows (i := k) (by simpa using hk)
  rw [List.getElem_map, List.getElem_range] at hslice
  unfold encodedBlock
  rw [bitsOf_slice]
  show slice (bitsOf (packBytes _ (z.stream r s arr))) _ _ = _
  rw [bitsOf_packBytes hlen, ← hslice, h]
  unfold stream
  congr 1 <;> ring

end Zfp

/-- **When blocks sit where the rows are.** For every accepted codec and every coder of blocks: block `k`
of an array of any shape is what `pack` takes for row `k`, and the budget of every layer is the bytes of
its rows, unless the first layer has the rate 1/8. -/
theorem rows_iff (c : SkipZFPCodec) (z : Zfp) :
    ((∀ (s : Tri) (arr : Tri → F32), ∀ k < volume (blocksOf s),
        bitsOf (encodedBlock z.native c.rate s arr k) = z.block c.rate s arr k) ∧
      ∀ r ∈ c.layers, zfpBits r = 8 * blockBytes r) ↔ ∀ r ∈ c.layers, r ≠ 1 / 8 := by
  constructor
  · rintro ⟨-, hbudget⟩ r hr
    exact (zfpBits_eq_iff (c.multiple r hr)).mp (hbudget r hr)
  · intro h
    have hbudget : ∀ r ∈ c.layers, zfpBits r = 8 * blockBytes r := fun r hr =>
      (zfpBits_eq_iff (c.multiple r hr)).mpr (h r hr)
    exact ⟨fun s arr k hk => z.bitsOf_encodedBlock (hbudget _ c.rate_mem) s arr hk, hbudget⟩

/-! ### The buffer -/

/-- **When the encoder stays in its buffer.** For every accepted codec, every rate of a layer and every
chunk or unit: what libzfp writes fits into `data_size` bytes if and only if a block has more than one
byte and all blocks together have whole words. -/
theorem buffer_iff {c : SkipZFPCodec} {l : List ℕ} {chunk : Tri} (hchunk : c.chunkShape l = .ok chunk)
    {n : Tri} (hn : n = chunk ∨ n = c.unit chunk) {r : ℚ} (hr : r ∈ c.layers) {size : ℕ}
    (hsize : calcLayout n r blockDim = some size) :
    zfpBytes r (volume (blocksOf n)) ≤ size ↔
      r ≠ 1 / 8 ∧ volume (blocksOf n) * blockBytes r % 8 = 0 := by
  have hc := c.chunkOk_of_chunkShape hchunk
  have hblock : ∀ a, n a % blockDim = 0 := by
    rcases hn with rfl | rfl
    · exact hc.block
    · exact hc.unit_block
  have hm := c.multiple r hr
  have hpos := blockBytes_pos hm
  have hvol : 0 < volume (blocksOf n) := by
    have := volume_pos (calcLayout_pos hsize)
    rw [volume_eq_blocks hblock] at this
    omega
  have hdata : size = volume (blocksOf n) * blockBytes r := by
    unfold calcLayout at hsize
    dsimp only at hsize
    split_ifs at hsize
    rw [payload_bytes hblock hm] at hsize
    exact (Option.some.inj hsize).symm
  unfold zfpBytes
  rw [zfpBits_eq hm, hdata, Ne, ← blockBytes_eq_one_iff hm]
  by_cases h1 : blockBytes r = 1
  · rw [h1, Nat.mul_one, Nat.mul_one, show max 9 8 = 9 from rfl]
    omega
  · have hmax : max 9 (8 * blockBytes r) = 8 * blockBytes r := by omega
    have hwords : volume (blocksOf n) * (8 * blockBytes r) = 8 * (volume (blocksOf n) * blockBytes r) := by
      ring
    rw [hmax, hwords]
    omega

/-! ### Two codecs -/

/-- A codec of one layer, without sub-chunks. -/
def oneRate (r : ℚ) (h : 0 < r ∧ Int.fract (8 * r) = 0) : SkipZFPCodec where
  rate := r
  layers := [r]
  blockOrder := id
  subChunk := none
  blockErrorBits := 0
  increasing := List.pairwise_singleton _ _
  last := rfl
  multiple q hq := by
    rw [List.mem_singleton] at hq
    rwa [hq]
  bijective := Function.bijective_id
  subMultiple _ hs := nomatch hs
  bits := no_error_bits
  bitsSingle h := absurd rfl h

theorem multiple_eighth : (0 : ℚ) < 1 / 8 ∧ Int.fract (8 * (1 / 8) : ℚ) = 0 :=
  ⟨by norm_num, by norm_num⟩

theorem multiple_half : (0 : ℚ) < 1 / 2 ∧ Int.fract (8 * (1 / 2) : ℚ) = 0 :=
  ⟨by norm_num, Int.fract_eq_zero_iff.mpr ⟨4, by norm_num⟩⟩

/-- A coder that marks where a block begins. -/
def markFirst : Zfp where
  bits r _ := true :: List.replicate (zfpBits r - 1) false
  decode _ _ _ _ := default
  length_bits r v := by
    have : 9 ≤ zfpBits r := le_max_left _ _
    rw [List.length_cons, List.length_replicate]
    omega

/-- The second of two blocks of the rate 1/8 is not in the second row. -/
theorem not_rows_eighth :
    ¬ ((∀ (s : Tri) (arr : Tri → F32), ∀ k < volume (blocksOf s),
        bitsOf (encodedBlock markFirst.native (oneRate (1 / 8) multiple_eighth).rate s arr k) =
          markFirst.block (oneRate (1 / 8) multiple_eighth).rate s arr k) ∧
      ∀ r ∈ (oneRate (1 / 8) multiple_eighth).layers, zfpBits r = 8 * blockBytes r) := by
  rintro ⟨hrows, -⟩
  have h := congrArg List.length (hrows ![4, 4, 8] (fun _ => default) 1 (by decide))
  rw [length_bitsOf, length_encodedBlock _ (by decide), Zfp.block, Zfp.length_bits] at h
  exact (zfpBits_eq_iff multiple_eighth).mp h.symm rfl

/-- One block of the rate 1/2 has four bytes, and a whole word is written. -/
theorem not_buffer_half : (oneRate (1 / 2) multiple_half).chunkShape [4, 4, 4] = .ok ![4, 4, 4] ∧
    calcLayout ![4, 4, 4] (1 / 2) blockDim = some 4 ∧
    ¬ zfpBytes (1 / 2) (volume (blocksOf ![4, 4, 4])) ≤ 4 := by
  have h : (fun a : Fin 3 => [4, 4, 4].getD a 0) = ![4, 4, 4] := by decide
  refine ⟨?_, by decide +kernel, by decide +kernel⟩
  unfold SkipZFPCodec.chunkShape
  rw [← h]
  rfl

/-- Four blocks of the first of two layers. -/
theorem buffer_iff_twoLayers : zfpBytes (1 / 2) (volume (blocksOf ![8, 4, 8])) ≤ 16 ↔
    (1 / 2 : ℚ) ≠ 1 / 8 ∧ volume (blocksOf ![8, 4, 8]) * blockBytes (1 / 2) % 8 = 0 :=
  buffer_iff chunkShape_twoLayers (Or.inl rfl) (List.mem_cons_self : (1 / 2 : ℚ) ∈ twoLayers.layers)
    (by decide +kernel)

end SkipZFP.Plan.Stride
