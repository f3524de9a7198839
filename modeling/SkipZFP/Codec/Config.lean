import SkipZFP.Lib.Grid
import SkipZFP.Lib.Rows
import Mathlib.Data.Fintype.Inv
import Mathlib.Data.List.Sort
import Mathlib.Data.Rat.Floor

/-! # The codec's configuration and the shapes it accepts

`postInit` is `SkipZFPCodec.__post_init__`: it checks the constructor's arguments and normalises them.
The codec it returns is a `SkipZFPCodec`, a structure whose fields include what was checked, so that
no other module checks it again. A rate is a rational: the rates that pass are multiples of 1/8. The
differences the code takes of them are exact in a double for rates below 2^50; beyond, a block would not
fit in memory.

* `blockBytes r` is `int(8 * r)`, the bytes of a block at rate `r`; `layerBytes` the bytes each layer
  adds, with `sum_take_layerBytes`: the first `k + 1` layers together have the bytes of rate `k`.
* `unitSlices` and `blockRank` are the functions of the same names; the slices partition the chunk
  (`exists_mem_unitSlices_iff`, `pairwise_unitSlices`), the ranks are a permutation of the positions. -/

namespace SkipZFP.Codec.Config

open SkipZFP.Lib.Grid SkipZFP.Lib.Rows

/-- Edge length of a ZFP block, the only one `__post_init__` accepts. -/
def blockDim : ℕ := 4

/-- The shape of a block. -/
def blockShape : Tri := fun _ => blockDim

/-- Blocks along each axis of an array of shape `s`. -/
def blocksOf (s : Tri) : Tri := outer blockShape s

/-- `int(8 * rate)`, the bytes of a block at that rate. -/
def blockBytes (r : ℚ) : ℕ := ⌊8 * r⌋.toNat

/-! ### The constructor's checks -/

/-- The constructor's arguments, with their defaults. -/
structure CodecArgs where
  rate : ℚ := 8
  blockDim : ℤ := 4
  layers : List ℚ := []
  blockOrder : List ℤ := [0, 1, 2]
  subChunk : List ℤ := []
  blockErrorBits : ℤ := 0

theorem no_error_bits : (0 : ℕ) = 0 ∨ (0 : ℕ) = 4 := Or.inl rfl

/-- **A codec** that passed `__post_init__`. -/
structure SkipZFPCodec where
  rate : ℚ
  layers : List ℚ
  blockOrder : Fin 3 → Fin 3
  subChunk : Option Tri
  blockErrorBits : ℕ
  increasing : layers.Pairwise (· < ·)
  last : layers.getLast? = some rate
  multiple : ∀ r ∈ layers, 0 < r ∧ Int.fract (8 * r) = 0
  bijective : Function.Bijective blockOrder
  subMultiple : ∀ s ∈ subChunk, ∀ a, 0 < s a ∧ s a % Config.blockDim = 0
  bits : blockErrorBits = 0 ∨ blockErrorBits = 4
  bitsSingle : blockErrorBits ≠ 0 → layers.length = 1

def axisAt (order : List ℤ) (a : Fin 3) : Fin 3 := Fin.ofNat 3 (order.getD a 0).toNat

def triOf (l : List ℤ) : Tri := fun a => (l.getD a 0).toNat

theorem bijective_axisAt {order : List ℤ} (h : order.insertionSort (· ≤ ·) = [0, 1, 2]) :
    Function.Bijective (axisAt order) := by
  have hp : order.Perm [0, 1, 2] := by rw [← h]; exact (List.perm_insertionSort _ _).symm
  obtain ⟨a, b, c, rfl⟩ := List.length_eq_three.mp hp.length_eq
  have hnd : [a, b, c].Nodup := hp.nodup_iff.mpr (by decide)
  have ha := hp.subset (a := a) (by simp)
  have hb := hp.subset (a := b) (by simp)
  have hc := hp.subset (a := c) (by simp)
  simp only [List.mem_cons, List.not_mem_nil, or_false] at ha hb hc
  rw [Finite.injective_iff_bijective.symm]
  rcases ha with rfl | rfl | rfl <;> rcases hb with rfl | rfl | rfl <;>
    rcases hc with rfl | rfl | rfl <;> first | exact absurd hnd (by decide) | decide

theorem pairwise_of_eq_sorted {l : List ℚ} (h : l = l.dedup.insertionSort (· ≤ ·)) :
    l.Pairwise (· < ·) := by
  have hle : l.Pairwise (· ≤ ·) := by
    rw [h]; exact List.pairwise_insertionSort (· ≤ ·) _
  have hnd : l.Nodup := by
    rw [h]; exact ((List.perm_insertionSort _ _).nodup_iff).mpr (List.nodup_dedup l)
  exact hle.imp₂ (fun a b h1 h2 => lt_of_le_of_ne h1 h2) hnd

theorem subMultiple_triOf {l : List ℤ} (h : l ≠ [] → l.length = 3 ∧ ∀ e ∈ l, 0 < e ∧ e % 4 = 0) :
    ∀ s ∈ (if l = [] then none else some (triOf l)), ∀ a, 0 < s a ∧ s a % blockDim = 0 := by
  intro s hs a
  by_cases hl : l = []
  · rw [if_pos hl] at hs; cases hs
  · rw [if_neg hl, Option.mem_some_iff] at hs
    subst hs
    obtain ⟨hlen, hmem⟩ := h hl
    have ha : (a : ℕ) < l.length := by rw [hlen]; exact a.isLt
    obtain ⟨hpos, hmod⟩ := hmem _ (List.getElem_mem ha)
    unfold triOf blockDim
    rw [List.getD_eq_getElem _ _ ha]
    omega

/-- **`SkipZFPCodec.__post_init__`.** -/
def postInit (x : CodecArgs) : Except String SkipZFPCodec :=
  if x.rate ≤ 0 then .error "rate must be greater than 0"
  else if hd : x.blockDim ≠ 4 then .error "SkipZFP currently requires block_dim=4"
  else
    let layers := if x.layers = [] then [x.rate] else x.layers
    if h1 : ¬ (layers = layers.dedup.insertionSort (· ≤ ·) ∧ layers.getLast? = some x.rate) then
      .error "layers must be increasing and end at rate"
    else if h2 : ∃ r ∈ layers, r ≤ 0 ∨ Int.fract (8 * r) ≠ 0 then
      .error "each layer rate must be a positive multiple of 0.125"
    else if h3 : x.blockOrder.insertionSort (· ≤ ·) ≠ [0, 1, 2] then
      .error "block_order must be a permutation of (0, 1, 2)"
    else if h4 : x.subChunk ≠ [] ∧ (x.subChunk.length ≠ 3 ∨
        ∃ e ∈ x.subChunk, e ≤ 0 ∨ e % x.blockDim ≠ 0) then
      .error "sub_chunk must be three positive multiples of block_dim"
    else if h5 : ¬ (x.blockErrorBits = 0 ∨ x.blockErrorBits = 4) then
      .error "block_error_bits must be 0 or 4"
    else if h6 : x.blockErrorBits ≠ 0 ∧ 1 < layers.length then
      .error "block_error_bits needs a single layer"
    else .ok
      { rate := x.rate
        layers := layers
        blockOrder := axisAt x.blockOrder
        subChunk := if x.subChunk = [] then none else some (triOf x.subChunk)
        blockErrorBits := x.blockErrorBits.toNat
        increasing := pairwise_of_eq_sorted (not_not.mp h1).1
        last := (not_not.mp h1).2
        multiple := fun r hr => by
          by_contra hn
          exact h2 ⟨r, hr, by rcases not_and_or.mp hn with h | h
                              · exact Or.inl (not_lt.mp h)
                              · exact Or.inr h⟩
        bijective := bijective_axisAt (not_not.mp h3)
        subMultiple := subMultiple_triOf fun hne => by
          rw [not_not.mp hd] at h4
          refine ⟨by_contra fun hl => h4 ⟨hne, Or.inl hl⟩, fun e he => by_contra fun hn => ?_⟩
          exact h4 ⟨hne, Or.inr ⟨e, he, by omega⟩⟩
        bits := by omega
        bitsSingle := fun hb => by
          have hne : layers ≠ [] := by rintro h; simp [h] at h1
          have := List.length_pos_iff.mpr hne
          omega }

def SkipZFPCodec.toArgs (c : SkipZFPCodec) : CodecArgs where
  rate := c.rate
  blockDim := 4
  layers := c.layers
  blockOrder := [c.blockOrder 0, c.blockOrder 1, c.blockOrder 2].map fun a => ((a : ℕ) : ℤ)
  subChunk := c.subChunk.elim [] fun s => [(s 0 : ℤ), (s 1 : ℤ), (s 2 : ℤ)]
  blockErrorBits := c.blockErrorBits

theorem sorted_of_bijective : ∀ f : Fin 3 → Fin 3, Function.Bijective f →
    ([f 0, f 1, f 2].map fun a => ((a : ℕ) : ℤ)).insertionSort (· ≤ ·) = [0, 1, 2] := by
  decide

theorem triOf_triple (s : Tri) : triOf [(s 0 : ℤ), (s 1 : ℤ), (s 2 : ℤ)] = s :=
  tri_ext rfl rfl rfl

/-- **Every codec comes from `__post_init__`**, so a `SkipZFPCodec` is exactly what it accepts. -/
theorem postInit_toArgs (c : SkipZFPCodec) : postInit c.toArgs = .ok c := by
  have hne : c.layers ≠ [] := by intro h; have := c.last; simp [h] at this
  have hrate := c.multiple _ (List.mem_of_getLast? c.last)
  have hsort : c.layers = c.layers.dedup.insertionSort (· ≤ ·) := by
    have hnd : c.layers.Nodup := c.increasing.imp ne_of_lt
    rw [hnd.dedup, (c.increasing.imp le_of_lt).insertionSort_eq]
  have hbits := c.bits
  have hsub : ∀ s ∈ c.subChunk, ∀ a, 0 < s a ∧ s a % blockDim = 0 := c.subMultiple
  have hs6 := c.bitsSingle
  obtain ⟨rate, layers, blockOrder, subChunk, bits, h1, h2, h3, h4, h5, h6, h7⟩ := c
  have hax : axisAt ([blockOrder 0, blockOrder 1, blockOrder 2].map fun a => ((a : ℕ) : ℤ)) =
      blockOrder := by
    funext a
    fin_cases a <;> simp [axisAt]
  dsimp only [SkipZFPCodec.toArgs] at *
  unfold postInit
  dsimp only
  rw [if_neg (not_le.mpr hrate.1), dif_neg (by simp)]
  simp only [if_neg hne]
  rw [dif_neg (not_not.mpr ⟨hsort, h2⟩), dif_neg, dif_neg (not_not.mpr (sorted_of_bijective _ h4)),
    dif_neg, dif_neg, dif_neg]
  · congr 2
    rcases subChunk with _ | s
    · rfl
    · simp only [Option.elim_some, reduceCtorEq, if_false]
      rw [triOf_triple]
  · rintro ⟨hb, hl⟩
    have := hs6 (by exact_mod_cast hb)
    omega
  · push Not; omega
  · rintro ⟨hne', hbad⟩
    rcases subChunk with _ | s
    · exact hne' rfl
    · have hs := hsub s rfl
      have h0 := hs 0
      have h1 := hs 1
      have h2 := hs 2
      unfold blockDim at h0 h1 h2
      simp at hbad
      omega
  · rintro ⟨r, hr, hbad⟩
    have := h3 r hr
    rcases hbad with h | h
    · linarith [this.1]
    · exact h this.2

/-! ### Rates and layers -/

theorem blockBytes_eq {r : ℚ} (h : 0 < r ∧ Int.fract (8 * r) = 0) : (blockBytes r : ℚ) = 8 * r := by
  have hf : ((⌊8 * r⌋ : ℤ) : ℚ) = 8 * r := by
    have := Int.floor_add_fract (8 * r)
    rwa [h.2, add_zero] at this
  have hn : 0 ≤ ⌊8 * r⌋ := Int.floor_nonneg.mpr (by linarith [h.1])
  unfold blockBytes
  rw [← hf]
  exact_mod_cast Int.toNat_of_nonneg hn

theorem blockBytes_pos {r : ℚ} (h : 0 < r ∧ Int.fract (8 * r) = 0) : 0 < blockBytes r := by
  have h8 := blockBytes_eq h
  have : (0 : ℚ) < blockBytes r := by rw [h8]; linarith [h.1]
  exact_mod_cast this

/-- `layer_bytes` of a tuple of rates. -/
def layerBytesOf (layers : List ℚ) : List ℕ :=
  List.zipWith (fun r p => ⌊8 * (r - p)⌋.toNat) layers (0 :: layers.dropLast)

/-- The bytes each further layer adds, after a layer of rate `p`. -/
def layerBytesFrom : ℚ → List ℚ → List ℕ
  | _, [] => []
  | p, r :: rs => ⌊8 * (r - p)⌋.toNat :: layerBytesFrom r rs

theorem layerBytesOf_eq_from : ∀ (p : ℚ) (layers : List ℚ),
    List.zipWith (fun r p => ⌊8 * (r - p)⌋.toNat) layers (p :: layers.dropLast) =
      layerBytesFrom p layers
  | _, [] => rfl
  | p, [r] => by simp [layerBytesFrom]
  | p, r :: s :: rs => by
    rw [layerBytesFrom, List.dropLast_cons_cons, List.zipWith_cons_cons, layerBytesOf_eq_from r (s :: rs)]

theorem toNat_floor_sub {p r : ℚ} (hp : Int.fract (8 * p) = 0) (hr : Int.fract (8 * r) = 0)
    (hp0 : 0 ≤ p) (hpr : p < r) :
    0 < ⌊8 * (r - p)⌋.toNat ∧ blockBytes p + ⌊8 * (r - p)⌋.toNat = blockBytes r := by
  obtain ⟨a, ha⟩ := Int.fract_eq_zero_iff.mp hp
  obtain ⟨b, hb⟩ := Int.fract_eq_zero_iff.mp hr
  have hab : a < b := by
    have : (a : ℚ) < b := by rw [ha, hb]; linarith
    exact_mod_cast this
  have ha0 : 0 ≤ a := by
    have : (0 : ℚ) ≤ a := by rw [ha]; linarith
    exact_mod_cast this
  have hsub : 8 * (r - p) = ((b - a : ℤ) : ℚ) := by push_cast; rw [ha, hb]; ring
  unfold blockBytes
  rw [hsub, ← ha, ← hb, Int.floor_intCast, Int.floor_intCast, Int.floor_intCast]
  omega

/-- Up to layer `k`, the widths after a rate `p` add up to the bytes of rate `k` less those of `p`. -/
theorem sum_take_layerBytesFrom : ∀ (p : ℚ) (layers : List ℚ), 0 ≤ p → Int.fract (8 * p) = 0 →
    (p :: layers).Pairwise (· < ·) → (∀ r ∈ layers, Int.fract (8 * r) = 0) → ∀ k < layers.length,
      blockBytes p + ((layerBytesFrom p layers).take (k + 1)).sum = blockBytes (layers.getD k 0)
  | p, r :: rs, hp0, hp, hinc, hm, 0, _ => by
    have hpr := (List.pairwise_cons.mp hinc).1 r List.mem_cons_self
    simpa [layerBytesFrom] using (toNat_floor_sub hp (hm r List.mem_cons_self) hp0 hpr).2
  | p, r :: rs, hp0, hp, hinc, hm, k + 1, hk => by
    have hpr := (List.pairwise_cons.mp hinc).1 r List.mem_cons_self
    have hr := hm r List.mem_cons_self
    have ih := sum_take_layerBytesFrom r rs (hp0.trans hpr.le) hr (List.pairwise_cons.mp hinc).2
      (fun q hq => hm q (List.mem_cons_of_mem _ hq)) k (by simpa using hk)
    have hstep := (toNat_floor_sub hp hr hp0 hpr).2
    rw [layerBytesFrom, List.take_succ_cons, List.sum_cons, List.getD_cons_succ, ← ih]
    omega

theorem layerBytesFrom_pos : ∀ (p : ℚ) (layers : List ℚ), 0 ≤ p → Int.fract (8 * p) = 0 →
    (p :: layers).Pairwise (· < ·) → (∀ r ∈ layers, Int.fract (8 * r) = 0) →
      ∀ w ∈ layerBytesFrom p layers, 0 < w
  | _, [], _, _, _, _ => by simp [layerBytesFrom]
  | p, r :: rs, hp0, hp, hinc, hm => by
    have hpr := (List.pairwise_cons.mp hinc).1 r List.mem_cons_self
    have hr := hm r List.mem_cons_self
    intro w hw
    rcases List.mem_cons.mp hw with rfl | hw
    · exact (toNat_floor_sub hp hr hp0 hpr).1
    · exact layerBytesFrom_pos r rs (hp0.trans hpr.le) hr (List.pairwise_cons.mp hinc).2
        (fun q hq => hm q (List.mem_cons_of_mem _ hq)) w hw

theorem length_layerBytesFrom : ∀ (p : ℚ) (layers : List ℚ),
    (layerBytesFrom p layers).length = layers.length
  | _, [] => rfl
  | _, r :: rs => by simp [layerBytesFrom, length_layerBytesFrom]

namespace SkipZFPCodec

variable (c : SkipZFPCodec)

/-- `layer_bytes`: bytes each layer adds to a block. -/
def layerBytes : List ℕ := layerBytesOf c.layers

theorem layerBytes_eq : c.layerBytes = layerBytesFrom 0 c.layers := layerBytesOf_eq_from 0 c.layers

theorem length_layerBytes : c.layerBytes.length = c.layers.length := by
  rw [layerBytes_eq, length_layerBytesFrom]

theorem layers_ne_nil : c.layers ≠ [] := by
  intro h; have := c.last; simp [h] at this

theorem pairwise_zero_cons : (0 :: c.layers).Pairwise (· < ·) :=
  List.pairwise_cons.mpr ⟨fun r hr => (c.multiple r hr).1, c.increasing⟩

/-- **The first `k + 1` layers have the bytes of rate `k`.** -/
theorem sum_take_layerBytes {k : ℕ} (hk : k < c.layers.length) :
    (c.layerBytes.take (k + 1)).sum = blockBytes (c.layers.getD k 0) := by
  have h := sum_take_layerBytesFrom 0 c.layers le_rfl (by simp) c.pairwise_zero_cons
    (fun r hr => (c.multiple r hr).2) k hk
  rw [layerBytes_eq, ← h]
  simp [blockBytes]

theorem getD_last : c.layers.getD (c.layers.length - 1) 0 = c.rate := by
  have h := c.last
  rw [List.getLast?_eq_getElem?] at h
  rw [List.getD_eq_getElem?_getD, h, Option.getD_some]

theorem rate_mem : c.rate ∈ c.layers := List.mem_of_getLast? c.last

theorem sum_layerBytes : c.layerBytes.sum = blockBytes c.rate := by
  have hp := List.length_pos_iff.mpr c.layers_ne_nil
  have h := c.sum_take_layerBytes (k := c.layers.length - 1) (by omega)
  rw [Nat.sub_add_cancel hp, ← c.length_layerBytes, List.take_length, c.length_layerBytes] at h
  rw [h, getD_last]

theorem layerBytes_pos {w : ℕ} (hw : w ∈ c.layerBytes) : 0 < w := by
  rw [layerBytes_eq] at hw
  exact layerBytesFrom_pos 0 c.layers le_rfl (by simp) c.pairwise_zero_cons
    (fun r hr => (c.multiple r hr).2) w hw

theorem blockBytes_rate_pos : 0 < blockBytes c.rate := blockBytes_pos (c.multiple _ c.rate_mem)

/-! ### Shapes -/

def order : Equiv.Perm (Fin 3) :=
  ⟨c.blockOrder, Fintype.bijInv c.bijective, Fintype.leftInverse_bijInv c.bijective,
    Fintype.rightInverse_bijInv c.bijective⟩

/-- `unit`: the shape of one unit in a chunk of the given shape. -/
def unit (shape : Tri) : Tri := c.subChunk.getD shape

/-- `plain`: the chunk is one unit with one layer in C order. -/
def plain (shape : Tri) : Prop :=
  c.layers.length = 1 ∧ (∀ a, c.blockOrder a = a) ∧ c.unit shape = shape

instance (shape : Tri) : Decidable (c.plain shape) := by unfold plain; infer_instance

/-- `str` of a tuple of numbers. -/
def tupleText : List ℕ → String
  | [n] => s!"({n},)"
  | l => "(" ++ ", ".intercalate (l.map toString) ++ ")"

/-- The tuple `sub_chunk`, empty if there is none. -/
def subChunkTuple : List ℕ := (c.subChunk.map List.ofFn).getD []

/-- `chunk_shape`: the shape of a chunk, if the codec can encode it. -/
def chunkShape (shape : List ℕ) : Except String Tri :=
  if shape.length ≠ 3 then .error s!"SkipZFP requires 3D chunks, received {tupleText shape}"
  else
    let s : Tri := fun a => shape.getD a 0
    if ∃ a, s a = 0 ∨ s a % blockDim ≠ 0 then
      .error s!"each chunk dimension must be divisible by block_dim={blockDim}"
    else if ∃ a, s a % c.unit s a ≠ 0 then
      .error s!"chunk {tupleText shape} is not divisible by sub_chunk {tupleText c.subChunkTuple}"
    else .ok s

/-- The chunk shapes the codec can encode: positive multiples of the block and of the unit. -/
structure ChunkOk (s : Tri) : Prop where
  pos : ∀ a, 0 < s a
  block : ∀ a, s a % blockDim = 0
  unit : ∀ a, s a % c.unit s a = 0

/-- `validate`, for a float32 array of shape `shape` cut into chunks of shape `chunk`. -/
def validate (shape chunk : List ℕ) : Except String Unit :=
  if shape.length ≠ 3 then .error "SkipZFP currently only supports 3D arrays"
  else if chunk.length ≠ 3 then .ok ()
  else
    let s : Tri := fun a => chunk.getD a 0
    let n : Tri := fun a => shape.getD a 0
    if ∃ a, s a % blockDim ≠ 0 then
      .error (s!"chunk shape {tupleText chunk}: each dimension must be divisible by " ++
        s!"block_dim={blockDim}")
    else if ∃ a, s a % c.unit s a ≠ 0 then
      .error s!"chunk {tupleText chunk} is not divisible by sub_chunk {tupleText c.subChunkTuple}"
    else if ∃ a, n a % s a ≠ 0 then
      .error (s!"array shape {tupleText shape} must be a whole multiple of the chunk " ++
        s!"shape {tupleText chunk}; partial edge chunks are not supported")
    else .ok ()

theorem chunkOk_of_chunkShape {l : List ℕ} {s : Tri} (h : c.chunkShape l = .ok s) :
    c.ChunkOk s := by
  unfold chunkShape at h
  dsimp only at h
  split_ifs at h with h1 h2 h3
  cases h
  push Not at h2 h3
  exact ⟨fun a => Nat.pos_of_ne_zero (h2 a).1, fun a => (h2 a).2, h3⟩

end SkipZFPCodec

/-! ### Blocks, units and ranks -/

theorem blocksOf_apply (s : Tri) (a : Fin 3) : blocksOf s a = s a / blockDim := rfl

theorem scale_blocksOf {s : Tri} (h : ∀ a, s a % blockDim = 0) : scale (blocksOf s) blockShape = s :=
  funext fun a => Nat.div_mul_cancel (Nat.dvd_of_mod_eq_zero (h a))

/-- A box `[start, stop)`, the tuple of slices of the three axes. -/
structure Box where
  start : Tri
  stop : Tri
deriving DecidableEq

namespace Box

/-- The box holds the index `i`. -/
def Mem (b : Box) (i : Tri) : Prop := ∀ a, b.start a ≤ i a ∧ i a < b.stop a

instance (b : Box) (i : Tri) : Decidable (b.Mem i) := by unfold Mem; infer_instance

variable {F : Type*}

/-- `arr[box]`. -/
def view (b : Box) (arr : Tri → F) : Tri → F := fun r => arr fun a => b.start a + r a

/-- `arr[box] = v`. -/
def put (b : Box) (v arr : Tri → F) : Tri → F := fun i =>
  if b.Mem i then v (fun a => i a - b.start a) else arr i

end Box

/-- The slices of the tile at `o`. -/
def tileBox (unit o : Tri) : Box := ⟨fun a => o a * unit a, fun a => (o a + 1) * unit a⟩

/-- `unit_slices`: the slices that cut an array of the given shape into units. -/
def unitSlices (shape unit : Tri) : List Box := (indices (outer unit shape)).map (tileBox unit)

/-- `block_rank`: the storage position of each block of a unit, blocks in C order. -/
def blockRank (shape : Tri) (σ : Equiv.Perm (Fin 3)) : List ℕ :=
  (indices (blocksOf shape)).map (rank (blocksOf shape) σ)

theorem view_tileBox {F : Type*} (unit o : Tri) (arr : Tri → F) (r : Tri) :
    (tileBox unit o).view arr r = arr (join unit o r) := rfl

theorem mem_tileBox_iff {unit o i : Tri} (hu : ∀ a, 0 < unit a) :
    (tileBox unit o).Mem i ↔ outer unit i = o := by
  constructor
  · intro h
    funext a
    obtain ⟨h1, h2⟩ := h a
    exact Nat.div_eq_of_lt_le h1 h2
  · rintro rfl a
    refine ⟨Nat.div_mul_le_self _ _, ?_⟩
    have := Nat.lt_mul_div_succ (i a) (hu a)
    rwa [Nat.mul_comm] at this

theorem scale_outer {shape unit : Tri} (h : ∀ a, shape a % unit a = 0) :
    scale (outer unit shape) unit = shape :=
  funext fun a => Nat.div_mul_cancel (Nat.dvd_of_mod_eq_zero (h a))

/-- **The slices cover the chunk and nothing else.** -/
theorem exists_mem_unitSlices_iff {shape unit : Tri} (hu : ∀ a, 0 < unit a)
    (h : ∀ a, shape a % unit a = 0) {i : Tri} :
    (∃ b ∈ unitSlices shape unit, b.Mem i) ↔ Inside shape i := by
  simp only [unitSlices, List.mem_map, mem_indices]
  constructor
  · rintro ⟨b, ⟨o, ho, rfl⟩, hb⟩
    rw [mem_tileBox_iff hu] at hb
    subst hb
    rw [← join_outer_inner unit i, ← scale_outer h]
    exact inside_join ho fun a => Nat.mod_lt _ (hu a)
  · intro hi
    rw [← scale_outer h] at hi
    exact ⟨_, ⟨_, inside_outer hi, rfl⟩, (mem_tileBox_iff hu).mpr rfl⟩

/-- **No two slices meet.** -/
theorem pairwise_unitSlices (shape : Tri) {unit : Tri} (hu : ∀ a, 0 < unit a) :
    (unitSlices shape unit).Pairwise fun b b' => ∀ i, ¬ (b.Mem i ∧ b'.Mem i) := by
  unfold unitSlices
  rw [List.pairwise_map]
  refine (nodup_indices _).imp fun hne i ⟨h1, h2⟩ => hne ?_
  rw [mem_tileBox_iff hu] at h1 h2
  rw [← h1, h2]

theorem length_unitSlices (shape unit : Tri) :
    (unitSlices shape unit).length = volume (outer unit shape) := by
  simp [unitSlices, length_indices]

theorem length_blockRank (shape : Tri) (σ : Equiv.Perm (Fin 3)) :
    (blockRank shape σ).length = volume (blocksOf shape) := by
  simp [blockRank, length_indices]

theorem getElem_blockRank (shape : Tri) (σ : Equiv.Perm (Fin 3)) {k : ℕ}
    (hk : k < (blockRank shape σ).length) :
    (blockRank shape σ)[k] = rank (blocksOf shape) σ (unravel (blocksOf shape) k) := by
  simp [blockRank, getElem_indices]

theorem nodup_blockRank (shape : Tri) (σ : Equiv.Perm (Fin 3)) : (blockRank shape σ).Nodup :=
  List.Nodup.map_on (fun _ hi _ hj h => rank_inj σ (mem_indices.mp hi) (mem_indices.mp hj) h)
    (nodup_indices _)

theorem mem_blockRank {shape : Tri} {σ : Equiv.Perm (Fin 3)} {p : ℕ} :
    p ∈ blockRank shape σ ↔ p < volume (blocksOf shape) := by
  simp only [blockRank, List.mem_map, mem_indices]
  constructor
  · rintro ⟨i, hi, rfl⟩; exact rank_lt σ hi
  · intro hp; exact ⟨_, inside_unrank σ hp, rank_unrank _ σ p⟩

namespace SkipZFPCodec

variable {c : SkipZFPCodec} {s : Tri}

theorem ChunkOk.unit_pos (h : c.ChunkOk s) (a : Fin 3) : 0 < c.unit s a := by
  unfold SkipZFPCodec.unit
  rcases hc : c.subChunk with _ | u
  · exact h.pos a
  · exact (c.subMultiple u hc a).1

theorem ChunkOk.unit_block (h : c.ChunkOk s) (a : Fin 3) : c.unit s a % blockDim = 0 := by
  unfold SkipZFPCodec.unit
  rcases hc : c.subChunk with _ | u
  · exact h.block a
  · exact (c.subMultiple u hc a).2

theorem ChunkOk.scale_unit (h : c.ChunkOk s) : scale (outer (c.unit s) s) (c.unit s) = s :=
  scale_outer h.unit

theorem ChunkOk.blocks_unit_pos (h : c.ChunkOk s) (a : Fin 3) : 0 < blocksOf (c.unit s) a :=
  Nat.div_pos (Nat.le_of_dvd (h.unit_pos a) (Nat.dvd_of_mod_eq_zero (h.unit_block a))) (Nat.succ_pos 3)

theorem ChunkOk.blocksOf_eq (h : c.ChunkOk s) :
    blocksOf s = scale (outer (c.unit s) s) (blocksOf (c.unit s)) := by
  have hu := scale_blocksOf h.unit_block
  have hs := h.scale_unit
  funext a
  have e1 := congrFun hu a
  have e2 := congrFun hs a
  unfold scale at e1 e2 ⊢
  rw [blocksOf_apply s, ← e2, ← e1, ← Nat.mul_assoc]
  exact Nat.mul_div_cancel _ (Nat.succ_pos 3)

theorem ChunkOk.volume_blocks (h : c.ChunkOk s) :
    volume (blocksOf s) = volume (outer (c.unit s) s) * volume (blocksOf (c.unit s)) := by
  rw [h.blocksOf_eq, volume_scale]

end SkipZFPCodec

end SkipZFP.Codec.Config
