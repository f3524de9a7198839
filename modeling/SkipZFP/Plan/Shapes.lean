import SkipZFP.Plan.Blocks

/-! # The layout of an array

`getLayout` is `get_layout`: the shapes and byte sizes that a query works with, computed from the
codec and the shapes of the array and of its chunks. `getLayout_ok` says what they are for a chunk that
the codec accepts; `planArgs` is how a query calls the planner with them, and `shapeOk_planArgs` that the
planner accepts these. -/

namespace SkipZFP.Plan.Shapes

open SkipZFP.Lib.Grid SkipZFP.Lib.Rows SkipZFP.Codec.Config SkipZFP.Codec.Meta
open SkipZFP.Plan.Classify SkipZFP.Plan.Blocks

/-- `szfp_calc_layout`, the payload bytes of a chunk; `none` for a shape or size it rejects. -/
def calcLayout (n : Tri) (rate : ℚ) (blockDim : ℕ) : Option ℕ :=
  let b : Tri := fun a => n a / blockDim
  let size := ⌊volume n * rate / 8⌋.toNat
  if (∃ a, n a = 0) ∨ rate ≤ 0 then none
  else if blockDim ≠ 4 then none
  else if ∃ a, n a % blockDim ≠ 0 then none
  else if ¬ (FitsSize (volume n) ∧ FitsSize (volume b * 2)) then none
  else if size = 0 ∨ ¬ FitsSize (12 + volume b * 2) then none
  else some size

/-- `_Layout`. -/
structure Layout where
  chunkShape : Tri
  gridShape : Tri
  rate : ℚ
  blockDim : ℕ
  dataSize : ℕ
  metaSize : ℕ
  blockSize : ℕ
  blocksPerChunk : ℕ
  valuesPerBlock : ℕ
  layers : List ℚ
  layerBytes : List ℕ
  layerStarts : List ℕ
  unitShape : Tri
  unitGrid : Tri
  blocksPerUnit : ℕ

/-- `unit_grid_per_chunk`. -/
def Layout.unitGridPerChunk (lt : Layout) : Tri := outer lt.unitShape lt.chunkShape

def ceildiv (a b : ℕ) : ℕ := (a + b - 1) / b

/-- **`get_layout`**, for a 3D array in 3D chunks. -/
def getLayout (c : SkipZFPCodec) (shape chunk : Tri) : Except String Layout :=
  if ∃ a, shape a % chunk a ≠ 0 then
    .error "query_gt requires array dimensions divisible by chunks"
  else if c.rate ≤ 0 then .error "rate must be greater than 0"
  else if ∃ a, chunk a % blockDim ≠ 0 then
    .error "each chunk dimension must be divisible by block_dim"
  else
    let grid : Tri := fun a => ceildiv (shape a) (chunk a)
    let blocksPerChunk := volume (blocksOf chunk)
    match calcLayout chunk c.rate blockDim with
    | none => .error "szfp_layout"
    | some dataSize =>
      if blocksPerChunk = 0 then .error "invalid block layout"
      else if dataSize = 0 then .error "invalid fixed-rate layout"
      else if dataSize % blocksPerChunk ≠ 0 then
        .error "compressed payload is not divisible by blocks"
      else
        let unit := c.unit chunk
        .ok
          { chunkShape := chunk
            gridShape := grid
            rate := c.rate
            blockDim := blockDim
            dataSize := dataSize
            metaSize := metaSize c unit
            blockSize := dataSize / blocksPerChunk
            blocksPerChunk := blocksPerChunk
            valuesPerBlock := blockDim ^ 3
            layers := c.layers
            layerBytes := c.layerBytes
            layerStarts := (cumsum (0 :: c.layerBytes.dropLast)).map (· * blocksPerChunk)
            unitShape := unit
            unitGrid := fun a => grid a * (chunk a / unit a)
            blocksPerUnit := volume (blocksOf unit) }

/-! ### The planner's arguments -/

/-- `lt.meta_size - 4 * (len(lt.layers) - 1)`: bytes of a record with the bound of one layer. -/
def planSize (c : SkipZFPCodec) (unit : Tri) : ℕ := metaSize c unit - 4 * (c.layers.length - 1)

/-- How a query calls the planner: `lt.meta_size - 4 * (len(lt.layers) - 1)` bytes for a record with
the bound of one layer. -/
def Layout.planArgs (lt : Layout) : PlanArgs where
  metaSize := lt.metaSize - 4 * (lt.layers.length - 1)
  units := lt.unitGrid
  subs := lt.unitGridPerChunk
  blocksPerUnit := lt.blocksPerUnit

/-- The same in terms of the codec. -/
def planArgs (c : SkipZFPCodec) (shape chunk : Tri) : PlanArgs where
  metaSize := planSize c (c.unit chunk)
  units := scale (outer chunk shape) (outer (c.unit chunk) chunk)
  subs := outer (c.unit chunk) chunk
  blocksPerUnit := volume (blocksOf (c.unit chunk))

theorem layers_length_pos (c : SkipZFPCodec) : 0 < c.layers.length :=
  List.length_pos_iff.mpr c.layers_ne_nil

theorem le_metaSize (c : SkipZFPCodec) (unit : Tri) : 8 + 4 * c.layers.length ≤ metaSize c unit := by
  unfold metaSize
  dsimp only
  omega

section Args
variable {c : SkipZFPCodec} {shape chunk : Tri}

theorem planSize_eq (c : SkipZFPCodec) (unit : Tri) : planSize c unit =
    12 + 2 * volume (blocksOf unit) +
      if c.blockErrorBits = 0 then 0 else codeBytes (volume (blocksOf unit)) := by
  have := layers_length_pos c
  unfold planSize metaSize codeBytes
  dsimp only
  omega

theorem hasCodes_planArgs (c : SkipZFPCodec) (shape chunk : Tri)
    (hv : 0 < volume (blocksOf (c.unit chunk))) :
    (planArgs c shape chunk).hasCodes = decide (c.blockErrorBits ≠ 0) := by
  unfold PlanArgs.hasCodes planArgs
  simp only [planSize_eq]
  congr 1
  unfold codeBytes
  split_ifs with h
  · simp [h]
  · simp [h]
    omega

variable (hc : c.ChunkOk chunk) (hs : ∀ a, shape a % chunk a = 0)
include hc

theorem subs_pos (a : Fin 3) : 0 < outer (c.unit chunk) chunk a :=
  Nat.div_pos (Nat.le_of_dvd (hc.pos a) (Nat.dvd_of_mod_eq_zero (hc.unit a))) (hc.unit_pos a)

theorem grid_planArgs : (planArgs c shape chunk).grid = outer chunk shape :=
  funext fun a => Nat.mul_div_cancel _ (subs_pos hc a)

theorem shapeOk_planArgs : (planArgs c shape chunk).shapeOk := by
  refine ⟨fun a => (subs_pos hc a).ne', fun a => Nat.mul_mod_left _ _,
    (volume_pos hc.blocks_unit_pos).ne', ?_⟩
  show planSize c (c.unit chunk) = _ ∨ planSize c (c.unit chunk) = _
  rw [planSize_eq]
  split_ifs
  · exact Or.inl rfl
  · exact Or.inr rfl

include hs in
theorem units_planArgs : (planArgs c shape chunk).units = outer (c.unit chunk) shape := by
  funext a
  obtain ⟨m, hm⟩ := Nat.dvd_of_mod_eq_zero (hs a)
  obtain ⟨k, hk⟩ := Nat.dvd_of_mod_eq_zero (hc.unit a)
  have hup := hc.unit_pos a
  show shape a / chunk a * (chunk a / c.unit chunk a) = shape a / c.unit chunk a
  rw [hm, Nat.mul_div_cancel_left _ (hc.pos a)]
  generalize c.unit chunk a = u at *
  rw [hk, Nat.mul_div_cancel_left _ hup, Nat.mul_assoc, Nat.mul_div_cancel_left _ hup, Nat.mul_comm]

end Args

/-! ### What the layout is -/

theorem ceildiv_of_mod {a b : ℕ} (hb : 0 < b) (h : a % b = 0) : ceildiv a b = a / b := by
  obtain ⟨m, rfl⟩ := Nat.dvd_of_mod_eq_zero h
  unfold ceildiv
  rw [Nat.mul_div_cancel_left _ hb]
  exact Nat.div_eq_of_lt_le (by rw [Nat.mul_comm m]; omega)
    (by rw [Nat.succ_mul, Nat.mul_comm m]; omega)

/-- The layout of an array with `size` payload bytes in each chunk. -/
def layoutOf (c : SkipZFPCodec) (shape chunk : Tri) (size : ℕ) : Layout where
  chunkShape := chunk
  gridShape := outer chunk shape
  rate := c.rate
  blockDim := blockDim
  dataSize := size
  metaSize := metaSize c (c.unit chunk)
  blockSize := size / volume (blocksOf chunk)
  blocksPerChunk := volume (blocksOf chunk)
  valuesPerBlock := blockDim ^ 3
  layers := c.layers
  layerBytes := c.layerBytes
  layerStarts := (cumsum (0 :: c.layerBytes.dropLast)).map (· * volume (blocksOf chunk))
  unitShape := c.unit chunk
  unitGrid := scale (outer chunk shape) (outer (c.unit chunk) chunk)
  blocksPerUnit := volume (blocksOf (c.unit chunk))

section
variable {c : SkipZFPCodec} {shape chunk : Tri}

theorem calcLayout_pos {n : Tri} {rate : ℚ} {d size : ℕ} (h : calcLayout n rate d = some size)
    (a : Fin 3) : 0 < n a := by
  unfold calcLayout at h
  dsimp only at h
  split_ifs at h with h0
  exact Nat.pos_of_ne_zero fun ha => h0 (Or.inl ⟨a, ha⟩)

/-- **What `get_layout` returns** for an array that passes its checks. -/
theorem getLayout_ok {lt : Layout} (h : getLayout c shape chunk = .ok lt) :
    (∀ a, shape a % chunk a = 0) ∧ ∃ size, lt = layoutOf c shape chunk size := by
  unfold getLayout at h
  dsimp only at h
  split_ifs at h with h1 h2 h3 h4
  · split at h <;> cases h
  · push Not at h1
    split at h
    · cases h
    · rename_i size hsize
      split_ifs at h
      cases h
      have hg : (fun a => ceildiv (shape a) (chunk a)) = outer chunk shape :=
        funext fun a => ceildiv_of_mod (calcLayout_pos hsize a) (h1 a)
      refine ⟨h1, size, ?_⟩
      unfold layoutOf
      rw [← hg]
      rfl

theorem pos_of_getLayout {lt : Layout} (h : getLayout c shape chunk = .ok lt) (a : Fin 3) :
    0 < chunk a := by
  unfold getLayout at h
  dsimp only at h
  rcases hsize : calcLayout chunk c.rate blockDim with _ | size
  · rw [hsize] at h
    split_ifs at h
  · exact calcLayout_pos hsize a

/-- `get_layout` rejects a chunk whose values cannot be counted in a `size_t`. -/
theorem volume_lt_of_getLayout {lt : Layout} (h : getLayout c shape chunk = .ok lt) :
    volume chunk < 2 ^ 64 := by
  unfold getLayout at h
  dsimp only at h
  rcases hsize : calcLayout chunk c.rate blockDim with _ | size
  · rw [hsize] at h
    split_ifs at h
  · unfold calcLayout at hsize
    dsimp only at hsize
    split_ifs at hsize with h0 h1 h2 h3
    exact h3.1

theorem volume_eq_blocks {n : Tri} (hn : ∀ a, n a % blockDim = 0) :
    volume n = volume (blocksOf n) * 64 := by
  rw [← scale_blocksOf hn, volume_scale, scale_blocksOf hn]
  rfl

theorem payload_bytes {n : Tri} (hn : ∀ a, n a % blockDim = 0) {r : ℚ}
    (hr : 0 < r ∧ Int.fract (8 * r) = 0) :
    ⌊(volume n : ℚ) * r / 8⌋.toNat = volume (blocksOf n) * blockBytes r := by
  have hb := blockBytes_eq hr
  have h : (volume n : ℚ) * r / 8 = ((volume (blocksOf n) * blockBytes r : ℕ) : ℤ) := by
    rw [volume_eq_blocks hn]
    push_cast
    rw [hb]
    ring
  rw [h, Int.floor_intCast, Int.toNat_natCast]

/-- **Every array of accepted chunks has a layout**, if its chunks are not too large to be stored. -/
theorem getLayout_eq (hc : c.ChunkOk chunk) (hs : ∀ a, shape a % chunk a = 0)
    (hsize : volume chunk < 2 ^ 60) : getLayout c shape chunk =
      .ok (layoutOf c shape chunk (volume (blocksOf chunk) * blockBytes c.rate)) := by
  have hrate := (c.multiple _ c.rate_mem).1
  have hv := volume_eq_blocks hc.block
  have hbp : 0 < volume (blocksOf chunk) := by
    have := volume_pos hc.pos
    omega
  have hpos : volume (blocksOf chunk) * blockBytes c.rate ≠ 0 :=
    (Nat.mul_pos hbp c.blockBytes_rate_pos).ne'
  have hcalc : calcLayout chunk c.rate blockDim =
      some (volume (blocksOf chunk) * blockBytes c.rate) := by
    unfold calcLayout
    dsimp only
    rw [payload_bytes hc.block (c.multiple _ c.rate_mem), if_neg, if_neg (by decide),
      if_neg (by push Not; exact hc.block), if_neg,
      if_neg]
    · refine not_or.mpr ⟨hpos, not_not.mpr ?_⟩
      show 12 + volume (blocksOf chunk) * 2 < 2 ^ 64
      omega
    · refine not_not.mpr ⟨?_, ?_⟩
      · show volume chunk < 2 ^ 64
        omega
      · show volume (blocksOf chunk) * 2 < 2 ^ 64
        omega
    · refine not_or.mpr ⟨?_, not_le.mpr hrate⟩
      rintro ⟨a, ha⟩
      exact (hc.pos a).ne' ha
  have hg : (fun a => ceildiv (shape a) (chunk a)) = outer chunk shape :=
    funext fun a => ceildiv_of_mod (hc.pos a) (hs a)
  unfold getLayout
  dsimp only
  rw [if_neg (by push Not; exact hs), if_neg (not_le.mpr hrate), if_neg (by push Not; exact hc.block),
    hcalc]
  dsimp only
  rw [if_neg hbp.ne', if_neg hpos, if_neg (not_not.mpr (Nat.mul_mod_right _ _))]
  unfold layoutOf
  rw [← hg]
  rfl

theorem planArgs_layoutOf (size : ℕ) : (layoutOf c shape chunk size).planArgs = planArgs c shape chunk :=
  rfl

theorem getD_layerStarts (size : ℕ) {j : ℕ} (hj : j < c.layers.length) :
    (layoutOf c shape chunk size).layerStarts.getD j 0 =
      volume (blocksOf chunk) * (c.layerBytes.take j).sum := by
  have hlen := c.length_layerBytes
  have hd : j ≤ c.layerBytes.dropLast.length := by rw [List.length_dropLast]; omega
  have hj' : j < (cumsum (0 :: c.layerBytes.dropLast)).length := by
    rw [length_cumsum, List.length_cons]; omega
  have hstart := getD_cumsum_zero_cons c.layerBytes.dropLast hd
  rw [List.getD_eq_getElem _ _ hj'] at hstart
  show ((cumsum (0 :: c.layerBytes.dropLast)).map (· * volume (blocksOf chunk))).getD j 0 = _
  rw [List.getD_eq_getElem _ _ (by rw [List.length_map]; exact hj'), List.getElem_map, hstart,
    Nat.mul_comm, List.dropLast_eq_take, List.take_take, Nat.min_eq_left (by omega)]

end

end SkipZFP.Plan.Shapes
