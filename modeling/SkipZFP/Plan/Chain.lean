import SkipZFP.Codec.Pack
import SkipZFP.Plan.Shapes

/-! # The codec chain of an array

Zarr encodes a chunk by the array-to-array codecs of its chain, the serializer and the bytes-to-bytes
codecs, one after another. `get_layout` looks for a `SkipZFPCodec` in the chain, and works out from that
codec alone where the blocks of a chunk are stored.

* `slice_tiles`: the layer bytes of the blocks tile the payload.
* `hasLayout_iff`: an object has the layout exactly when it begins with the payload.
* `not_hasLayout`: a codec that reverses the bytes, or one that transposes the axes, is accepted all the
  same. -/

namespace SkipZFP.Plan.Chain

open SkipZFP.Lib.Grid SkipZFP.Lib.Rows SkipZFP.Lib.Float32 SkipZFP.Codec.Config SkipZFP.Codec.Pack
open SkipZFP.Plan.Blocks SkipZFP.Plan.Shapes

abbrev Values3 := Tri × (Tri → F32)

inductive ZCodec where
  | arrayArray (encode : Values3 → Except String Values3)
  | skipzfp (c : SkipZFPCodec)
  | bytesBytes (encode : List UInt8 → List UInt8)

/-- A chain whose serializer is SkipZFP. -/
structure CodecChain where
  filters : List (Values3 → Except String Values3)
  serializer : SkipZFPCodec
  compressors : List (List UInt8 → List UInt8)

namespace CodecChain

/-- `arr.metadata.codecs`. -/
def codecs (ch : CodecChain) : List ZCodec :=
  ch.filters.map .arrayArray ++ .skipzfp ch.serializer :: ch.compressors.map .bytesBytes

/-- The array-to-array codecs, one after another. -/
def filter (ch : CodecChain) (x : Values3) : Except String Values3 :=
  ch.filters.foldlM (fun (y : Values3) (f : Values3 → Except String Values3) => f y) x

/-- The bytes-to-bytes codecs, one after another. -/
def compress (ch : CodecChain) (payload : List UInt8) : List UInt8 :=
  ch.compressors.foldl (fun b f => f b) payload

end CodecChain

/-- The codec itself, if it is `SkipZFPCodec`. -/
def ZCodec.skipzfp? : ZCodec → Option SkipZFPCodec
  | .skipzfp c => some c
  | _ => none

/-- **`find_codec`**. -/
def findCodec (codecs : List ZCodec) : Except String SkipZFPCodec :=
  match codecs.findSome? ZCodec.skipzfp? with
  | none => .error "array does not use the skipzfp codec"
  | some c => .ok c

/-- **`get_layout`**, of an array with a chain of codecs. -/
def getChainLayout (codecs : List ZCodec) (shape chunk : Tri) : Except String Layout :=
  (findCodec codecs).bind fun c => getLayout c shape chunk

section Encode
variable (nat : Native F32)

/-- `_encode_single`. -/
def encodeSingle (c : SkipZFPCodec) (x : Values3) : Except String (List UInt8) :=
  match c.chunkShape [x.1 0, x.1 1, x.1 2] with
  | .error msg => .error msg
  | .ok shape =>
    if ∃ i ∈ indices shape, infMag ≤ (x.2 i).mag then
      .error "SkipZFP cannot encode NaN or infinite values"
    else .ok (pack nat c shape x.2)

/-- **The object that zarr stores** for a chunk. -/
def CodecChain.encode (ch : CodecChain) (x : Values3) : Except String (List UInt8) :=
  ((ch.filter x).bind (encodeSingle nat ch.serializer)).map ch.compress

/-- A chunk that SkipZFP can encode. -/
def Encodes (c : SkipZFPCodec) (x : Values3) : Prop :=
  ∃ shape, c.chunkShape [x.1 0, x.1 1, x.1 2] = .ok shape ∧ ∀ i ∈ indices shape, (x.2 i).mag < infMag

/-- The filters leave a chunk as it is, if SkipZFP can encode what they make of it. -/
def CodecChain.KeepsChunks (ch : CodecChain) (chunk : Tri) : Prop :=
  ∀ x y, ch.filter (chunk, x) = .ok y → Encodes ch.serializer y → y = (chunk, x)

/-- They leave its shape as it is. -/
def CodecChain.KeepsShape (ch : CodecChain) (chunk : Tri) : Prop :=
  ∀ x y, ch.filter (chunk, x) = .ok y → Encodes ch.serializer y → y.1 = chunk

/-- The bytes-to-bytes codecs only append to what is as long as a payload. -/
def CodecChain.OnlyAppends (ch : CodecChain) (chunk : Tri) : Prop :=
  ∀ payload, payload.length = volume (blocksOf chunk) * blockBytes ch.serializer.rate →
    payload <+: ch.compress payload

/-- An object has the bytes of every block of the chunk where the layout says. -/
def HasLayout (c : SkipZFPCodec) (lt : Layout) (chunk : Tri) (x : Tri → F32) (obj : List UInt8) : Prop :=
  ∀ j < lt.layers.length, ∀ b < lt.blocksPerChunk,
    slice obj (lt.layerStarts.getD j 0 + b * lt.layerBytes.getD j 0)
        (lt.layerStarts.getD j 0 + b * lt.layerBytes.getD j 0 + lt.layerBytes.getD j 0) =
      slice ((packRows nat c chunk x).getD b []) (c.layerBytes.take j).sum (c.layerBytes.take (j + 1)).sum

end Encode

/-- Every object of a chunk of this shape has the layout, whatever libzfp writes. -/
def CodecChain.Lays (ch : CodecChain) (lt : Layout) (chunk : Tri) : Prop :=
  ∀ nat x obj, ch.encode nat (chunk, x) = .ok obj → HasLayout nat ch.serializer lt chunk x obj

/-! ### The tiles of a payload -/

theorem slice_blocks (l : List UInt8) (start w n : ℕ) :
    ((List.range n).map fun b => slice l (start + b * w) (start + b * w + w)).flatten =
      slice l start (start + n * w) := by
  induction n with
  | zero => simp [slice_self]
  | succ n ih =>
    rw [List.range_succ, List.map_append, List.flatten_append, ih, List.map_singleton,
      List.flatten_singleton, slice_append_slice l (Nat.le_add_right _ _) (Nat.le_add_right _ _),
      Nat.succ_mul, Nat.add_assoc]

/-- **The layer bytes of all blocks, one after another**, are a prefix of the object. -/
theorem slice_tiles (l : List UInt8) (n : ℕ) (ws : List ℕ) :
    ((List.range ws.length).map fun j => ((List.range n).map fun b =>
      slice l (n * (ws.take j).sum + b * ws.getD j 0)
        (n * (ws.take j).sum + b * ws.getD j 0 + ws.getD j 0)).flatten).flatten =
      slice l 0 (n * ws.sum) := by
  have htake : ∀ j, ((ws.map (n * ·)).take j).sum = n * (ws.take j).sum := fun j => by
    rw [← List.map_take, List.sum_map_mul_left, List.map_id']
  have hlayer : ∀ j ∈ List.range ws.length, ((List.range n).map fun b =>
      slice l (n * (ws.take j).sum + b * ws.getD j 0)
        (n * (ws.take j).sum + b * ws.getD j 0 + ws.getD j 0)).flatten =
      slice l ((ws.map (n * ·)).take j).sum ((ws.map (n * ·)).take (j + 1)).sum := by
    intro j hj
    rw [slice_blocks, htake, htake, sum_take_succ ws (List.mem_range.mp hj), Nat.mul_add]
  rw [List.map_congr_left hlayer]
  have h := flatten_slices (ws.map (n * ·)) l ws.length (by simp)
  rw [h, htake, List.take_length]

theorem getD_sizes (n : Tri) : (fun a : Fin 3 => [n 0, n 1, n 2].getD a 0) = n := by
  funext a
  fin_cases a <;> rfl

theorem tile_le {n b j : ℕ} {ws : List ℕ} (hb : b < n) (hj : j < ws.length) :
    n * (ws.take j).sum + b * ws.getD j 0 + ws.getD j 0 ≤ n * ws.sum := by
  have h1 : (b + 1) * ws.getD j 0 ≤ n * ws.getD j 0 := Nat.mul_le_mul_right _ hb
  have h2 : n * (ws.take (j + 1)).sum ≤ n * ws.sum := Nat.mul_le_mul_left _ (sum_take_le _ _)
  rw [sum_take_succ _ hj, Nat.mul_add] at h2
  rw [Nat.succ_mul] at h1
  omega

section Layout
variable {nat : Native F32} {c : SkipZFPCodec} {shape chunk : Tri}

/-- **An object has the layout exactly when it begins with the payload.** -/
theorem hasLayout_iff (hc : c.ChunkOk chunk) (size : ℕ) (x : Tri → F32) (obj : List UInt8) :
    HasLayout nat c (layoutOf c shape chunk size) chunk x obj ↔ pack nat c chunk x <+: obj := by
  have hlen := length_pack nat c hc x
  have hstart : ∀ j < c.layers.length, (layoutOf c shape chunk size).layerStarts.getD j 0 =
      volume (blocksOf chunk) * (c.layerBytes.take j).sum := fun j hj => getD_layerStarts size hj
  have htile : HasLayout nat c (layoutOf c shape chunk size) chunk x obj ↔
      ∀ j < c.layerBytes.length, ∀ b < volume (blocksOf chunk),
        slice obj (volume (blocksOf chunk) * (c.layerBytes.take j).sum + b * c.layerBytes.getD j 0)
            (volume (blocksOf chunk) * (c.layerBytes.take j).sum + b * c.layerBytes.getD j 0 +
              c.layerBytes.getD j 0) =
          slice (pack nat c chunk x)
            (volume (blocksOf chunk) * (c.layerBytes.take j).sum + b * c.layerBytes.getD j 0)
            (volume (blocksOf chunk) * (c.layerBytes.take j).sum + b * c.layerBytes.getD j 0 +
              c.layerBytes.getD j 0) := by
    rw [c.length_layerBytes]
    refine forall₂_congr fun j hj => forall₂_congr fun b hb => ?_
    rw [hstart j hj, slice_pack nat c hc x hb hj]
    rfl
  rw [htile]
  constructor
  · intro h
    -- the tiles of the object are those of the payload, and so is what they make up
    have heq : slice obj 0 (volume (blocksOf chunk) * c.layerBytes.sum) =
        slice (pack nat c chunk x) 0 (volume (blocksOf chunk) * c.layerBytes.sum) := by
      rw [← slice_tiles, ← slice_tiles]
      refine congrArg List.flatten (List.map_congr_left fun j hj => congrArg List.flatten ?_)
      exact List.map_congr_left fun b hb => h j (List.mem_range.mp hj) b (List.mem_range.mp hb)
    rw [← hlen, slice_full, ← take_eq_slice] at heq
    rw [← heq]
    exact List.take_prefix _ _
  · rintro ⟨rest, rfl⟩ j hj b hb
    refine slice_append_left ?_
    rw [hlen]
    exact tile_le hb hj

theorem findCodec_codecs (ch : CodecChain) : findCodec ch.codecs = .ok ch.serializer := by
  have h : ch.codecs.findSome? ZCodec.skipzfp? = some ch.serializer := by
    unfold CodecChain.codecs
    rw [List.findSome?_append, List.findSome?_eq_none_iff.mpr, Option.none_or]
    · rfl
    · intro z hz
      obtain ⟨f, -, rfl⟩ := List.mem_map.mp hz
      rfl
  unfold findCodec
  rw [h]

/-- An object is made of a chunk exactly when the filters and SkipZFP accept it. -/
theorem encode_ok_iff {ch : CodecChain} {x : Values3} {obj : List UInt8} :
    ch.encode nat x = .ok obj ↔ ∃ y payload, ch.filter x = .ok y ∧
      encodeSingle nat ch.serializer y = .ok payload ∧ ch.compress payload = obj := by
  unfold CodecChain.encode
  rcases hy : ch.filter x with msg | y
  · simp [Except.bind, Except.map]
  rcases hp : encodeSingle nat ch.serializer y with msg | payload
  · simp [Except.bind, Except.map, hp]
  · simp [Except.bind, Except.map, hp]

theorem chunkShape_of_chunkOk {c : SkipZFPCodec} {chunk : Tri} (hc : c.ChunkOk chunk) :
    c.chunkShape [chunk 0, chunk 1, chunk 2] = .ok chunk := by
  have hsizes := getD_sizes chunk
  unfold SkipZFPCodec.chunkShape
  dsimp only
  split_ifs with h1 h2 h3
  · exact absurd rfl h1
  · obtain ⟨a, ha⟩ := h2
    rw [congrFun hsizes a] at ha
    rcases ha with ha | ha
    · exact absurd ha (hc.pos a).ne'
    · exact absurd (hc.block a) ha
  · obtain ⟨a, ha⟩ := h3
    rw [hsizes, congrFun hsizes a] at ha
    exact absurd (hc.unit a) ha
  · rw [hsizes]

/-- **What SkipZFP makes of a chunk**, if it can encode it. -/
theorem encodeSingle_ok_iff {x : Values3} {payload : List UInt8} :
    encodeSingle nat c x = .ok payload ↔ Encodes c x ∧ payload = pack nat c x.1 x.2 := by
  unfold encodeSingle Encodes
  rcases hs : c.chunkShape [x.1 0, x.1 1, x.1 2] with msg | shape
  · simp
  obtain rfl : shape = x.1 := by
    have hok := chunkShape_of_chunkOk (c.chunkOk_of_chunkShape hs)
    unfold SkipZFPCodec.chunkShape at hs
    dsimp only at hs
    split_ifs at hs
    cases hs
    rw [getD_sizes]
  dsimp only
  by_cases hfin : ∃ i ∈ indices x.1, infMag ≤ (x.2 i).mag
  · rw [if_pos hfin]
    obtain ⟨i, hi, hle⟩ := hfin
    refine ⟨fun h => (nomatch h), ?_⟩
    rintro ⟨⟨shape, hshape, hlt⟩, -⟩
    obtain rfl := Except.ok.inj hshape
    exact absurd (hlt i hi) (not_lt.mpr hle)
  · rw [if_neg hfin]
    push Not at hfin
    exact ⟨fun h => ⟨⟨_, rfl, hfin⟩, (Except.ok.inj h).symm⟩, fun h => by rw [h.2]⟩

/-- The chunks of an array are such as SkipZFP can encode: the codec validates the array that is created,
and `get_layout` rejects an empty chunk. -/
theorem chunkOk_of_validate (hvalid : c.validate [shape 0, shape 1, shape 2]
    [chunk 0, chunk 1, chunk 2] = .ok ()) {lt : Layout} (hlt : getLayout c shape chunk = .ok lt) :
    c.ChunkOk chunk := by
  unfold SkipZFPCodec.validate at hvalid
  dsimp only at hvalid
  split_ifs at hvalid with h1 h2 h3 h4 h5
  · exact absurd rfl h2
  push Not at h3 h4
  refine ⟨pos_of_getLayout hlt, fun a => ?_, fun a => ?_⟩
  · rw [← getD_sizes chunk]
    exact h3 a
  · rw [← getD_sizes chunk]
    exact h4 a

end Layout

/-! ### A codec before or after SkipZFP -/

abbrev firstF32 : Native F32 := firstValue F32.bytes F32.ofBytes

def reversed : CodecChain := { filters := [], serializer := oneLayer, compressors := [List.reverse] }

/-- The axes of an array, the last one first. -/
def transpose (x : Values3) : Except String Values3 :=
  .ok (fun a => x.1 (Fin.rev a), fun i => x.2 fun a => i (Fin.rev a))

/-- A filter that transposes the axes, before SkipZFP. -/
def transposed : CodecChain := { filters := [transpose], serializer := oneLayer, compressors := [] }

/-- A chunk with another value in each of its four blocks. -/
def rampValues : Tri → F32 := fun i => F32.ofBytes [0, 0, UInt8.ofNat (2 * i 1 + i 2), 64]

theorem getChainLayout_oneLayer {ch : CodecChain} (h : ch.serializer = oneLayer) :
    getChainLayout ch.codecs ![4, 8, 8] ![4, 8, 8] =
      .ok (layoutOf oneLayer ![4, 8, 8] ![4, 8, 8] 32) := by
  have hc : oneLayer.ChunkOk ![4, 8, 8] := ⟨by decide, by decide, by decide⟩
  unfold getChainLayout
  rw [findCodec_codecs, h]
  have hs : ∀ a, (![4, 8, 8] : Tri) a % (![4, 8, 8] : Tri) a = 0 := by decide
  have hb : volume (blocksOf ![4, 8, 8]) * blockBytes oneLayer.rate = 32 := by decide +kernel
  exact (getLayout_eq hc hs (by decide)).trans (by rw [hb])

/-- A chain that is accepted for an array of one chunk, with an object where the second block is not where
the layout says. -/
def Misplaced (ch : CodecChain) : Prop :=
  ch.serializer.validate [4, 8, 8] [4, 8, 8] = .ok () ∧ ∃ lt obj,
    getChainLayout ch.codecs ![4, 8, 8] ![4, 8, 8] = .ok lt ∧
      ch.encode firstF32 (![4, 8, 8], rampValues) = .ok obj ∧
      ¬ HasLayout firstF32 ch.serializer lt ![4, 8, 8] rampValues obj

theorem not_hasLayout : Misplaced reversed ∧ Misplaced transposed := by
  constructor
  · have hobj : reversed.encode firstF32 (![4, 8, 8], rampValues) =
        .ok (pack firstF32 oneLayer ![4, 8, 8] rampValues).reverse := by decide +kernel
    refine ⟨rfl, _, _, getChainLayout_oneLayer rfl, hobj, fun h => ?_⟩
    exact absurd (h 0 (by decide) 1 (by decide)) (by decide +kernel)
  · have hobj : transposed.encode firstF32 (![4, 8, 8], rampValues) =
        .ok (pack firstF32 oneLayer ![8, 8, 4] fun i => rampValues fun a => i (Fin.rev a)) := by
      decide +kernel
    refine ⟨rfl, _, _, getChainLayout_oneLayer rfl, hobj, fun h => ?_⟩
    exact absurd (h 0 (by decide) 1 (by decide)) (by decide +kernel)

end SkipZFP.Plan.Chain
