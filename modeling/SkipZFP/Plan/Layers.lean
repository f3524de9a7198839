import SkipZFP.Plan.Records

/-! # One layer of a layered array

`single c k` is the codec of rate `layers[k]` with one layer and the blocks and units of `c`.

* `writeMeta_single`: **`plan_meta` turns the records of a layered array into the records of the
  single-layer array**.
* `planArgs_single`: both arrays are planned alike.
* `Prefixed`: what is assumed of libzfp. -/

namespace SkipZFP.Plan.Layers

open SkipZFP.Lib.Grid SkipZFP.Lib.Rows SkipZFP.Lib.Loops SkipZFP.Lib.Double SkipZFP.Lib.Float32
open SkipZFP.Codec.Config SkipZFP.Codec.Pack SkipZFP.Codec.Meta SkipZFP.Plan.Blocks
open SkipZFP.Plan.Shapes SkipZFP.Plan.Records

/-- **The codec of layer `k` alone.** -/
def single (c : SkipZFPCodec) (k : ℕ) (hk : k < c.layers.length) : SkipZFPCodec where
  rate := c.layers.getD k 0
  layers := [c.layers.getD k 0]
  blockOrder := c.blockOrder
  subChunk := c.subChunk
  blockErrorBits := 0
  increasing := List.pairwise_singleton _ _
  last := rfl
  multiple r hr := by
    rw [List.mem_singleton] at hr
    rw [hr, List.getD_eq_getElem _ _ hk]
    exact c.multiple _ (List.getElem_mem hk)
  bijective := c.bijective
  subMultiple := c.subMultiple
  bits := no_error_bits
  bitsSingle h := absurd rfl h

/-- **What is assumed of libzfp**: the first bits of a block encoded at the full rate are its encoding at
the rate of layer `k`. -/
def Prefixed (nat : Native F32) (c : SkipZFPCodec) (k : ℕ) : Prop :=
  ∀ (s : Tri) (arr : Tri → F32), ∀ b < volume (blocksOf s),
    (encodedBlock nat c.rate s arr b).take (blockBytes (c.layers.getD k 0)) =
      encodedBlock nat (c.layers.getD k 0) s arr b

section Single
variable {c : SkipZFPCodec} {k : ℕ} (hk : k < c.layers.length)

theorem unit_single (shape : Tri) : (single c k hk).unit shape = c.unit shape := rfl

theorem chunkOk_single {shape : Tri} (h : c.ChunkOk shape) : (single c k hk).ChunkOk shape :=
  ⟨h.pos, h.block, h.unit⟩

/-- With layers below the last one there are no error codes. -/
theorem bits_eq_zero (hl : 1 < c.layers.length) : c.blockErrorBits = 0 := by
  by_contra hb
  have := c.bitsSingle hb
  omega

variable (hb : c.blockErrorBits = 0)
include hb

theorem planSize_single (unit : Tri) : planSize (single c k hk) unit = planSize c unit := by
  rw [planSize_eq, planSize_eq, hb]
  rfl

theorem planArgs_single (shape chunk : Tri) :
    planArgs (single c k hk) shape chunk = planArgs c shape chunk := by
  unfold planArgs
  rw [planSize_single hk hb]
  rfl

/-- The record of a unit with the bound of layer `k` only is what the single-layer codec writes. -/
theorem writeMetaOne_single (fl : ℚ → ℚ) (nat : Native F32) (unit : Tri) (y : Tri → F32) :
    writeMetaOne fl nat (single c k hk) unit y =
      (writeMetaOne fl nat c unit y).map (planRow c k) := by
  have hone : ∀ c : SkipZFPCodec, c.blockErrorBits = 0 → ∃ r, writeMetaOne fl nat c unit y = .ok r :=
    fun c hc => by
      unfold writeMetaOne
      dsimp only
      rw [if_pos hc]
      exact ⟨_, rfl⟩
  obtain ⟨r, hr⟩ := hone c hb
  obtain ⟨r', hr'⟩ := hone (single c k hk) rfl
  obtain ⟨codes, hcodes, hrow⟩ := planRow_layout hk hr
  obtain ⟨codes', hcodes', hrow'⟩ := writeMetaOne_layout hr'
  obtain rfl : codes = [] := by
    unfold IsCodes at hcodes
    rwa [if_pos hb] at hcodes
  obtain rfl : codes' = [] := by
    have h0 : (single c k hk).blockErrorBits = 0 := rfl
    unfold IsCodes at hcodes'
    rwa [if_pos h0] at hcodes'
  rw [hr, hr', Except.map, hrow, hrow']
  have heps : ((single c k hk).layers.map fun rate => (layerEps fl nat unit y rate).bytes).flatten =
      (layerEps fl nat unit y (c.layers.getD k 0)).bytes := List.append_nil _
  rw [heps, List.append_assoc]
  rfl

/-- **`plan_meta` turns the zone map of a layered array into the zone map of the single-layer array**,
record by record. -/
theorem writeMeta_single {fl : ℚ → ℚ} {nat : Native F32} {shape chunk : Tri} {data : Tri → F32}
    {zm : List UInt8} (h : writeMeta fl nat c shape chunk data = .ok zm) :
    writeMeta fl nat (single c k hk) shape chunk data =
      .ok (planMeta c k (c.unit chunk) zm) := by
  obtain ⟨hdiv, -⟩ := writeMeta_rows h
  unfold writeMeta at h ⊢
  dsimp only at h ⊢
  rw [if_neg (by push Not; exact hdiv)] at h ⊢
  rw [unit_single]
  cases hrows : (indices (outer (c.unit chunk) shape)).mapM fun idx =>
      writeMetaOne fl nat c (c.unit chunk) ((tileBox (c.unit chunk) idx).view data) with
  | error e => rw [hrows] at h; cases h
  | ok rows =>
    rw [hrows] at h
    obtain rfl := Except.ok.inj h
    have hmap := mapM_map_ok (q := planRow c k).mpr ⟨rows, hrows, rfl⟩
    have hlen : ∀ r ∈ rows, r.length = metaSize c (c.unit chunk) := by
      intro r hr
      obtain ⟨hcount, hget⟩ := getElem?_mapM_ok hrows
      obtain ⟨i, hi, rfl⟩ := List.getElem_of_mem hr
      obtain ⟨y, hy, hone⟩ := hget i _ (List.getElem?_eq_getElem (by omega))
      rw [List.getElem?_eq_getElem hi, Option.some_inj] at hy
      rw [hy]
      exact length_writeMetaOne hone
    simp only [writeMetaOne_single hk hb]
    rw [hmap, planMeta_flatten hk hlen]

end Single

end SkipZFP.Plan.Layers
