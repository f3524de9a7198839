import SkipZFP.Codec.Config

/-! # Writing and reading a chunk

`pack` encodes every unit of a chunk, reorders its blocks by `blockRank`, and lays the bytes out layer
by layer; `unpack` undoes it. libzfp stays abstract: a `Native` is any pair of an encoder, which gives
every block of a unit the bytes of the rate, and a decoder.

* `packRows` are the rows before they are cut into layers, one block each, in storage order.
  `packRows_getElem?`: row `sub * n + rank bi` is the encoding of block `bi` of unit `sub`.
* `pack_eq_columns`: the shortcut for a plain chunk stores the same bytes as the general layout.
* `slice_pack`: where the layer-`j` bytes of a row are in the stored object.
* `unpack_pack`: **reading undoes writing**, unit by unit, for every layout; `firstValue` is a native
  codec small enough to run. -/

namespace SkipZFP.Codec.Pack

open SkipZFP.Lib.Grid SkipZFP.Lib.Rows SkipZFP.Codec.Config

/-- The native codec for values `F`: the encoder fills a buffer with `blockBytes r` bytes for each
block of an array of the given shape, in C order, and the decoder returns an array. -/
structure Native (F : Type*) where
  encode : ℚ → Tri → (Tri → F) → List UInt8
  decode : ℚ → Tri → List UInt8 → Tri → F
  length_encode : ∀ r s arr, (encode r s arr).length = volume (blocksOf s) * blockBytes r

section Scatter
variable {α : Type*}

/-- `ranked[rank] = r` on a new array; every row is overwritten, so what it held is left empty. -/
def ranked (rk : List ℕ) (rows : List (List α)) : List (List α) :=
  scatter rk rows (List.replicate rows.length [])

/-- `l.reshape(n, -1)`. -/
def reshapeRows (n : ℕ) (l : List α) : List (List α) := reshape n (l.length / n) l

theorem length_ranked (rk : List ℕ) (rows : List (List α)) : (ranked rk rows).length = rows.length := by
  simp [ranked, length_scatter]

/-- After the reordering what belongs to block `bi` is at its rank. -/
theorem scatter_rank {shape : Tri} {σ : Equiv.Perm (Fin 3)} {xs : List α} (d : α)
    (hlen : xs.length = volume (blocksOf shape)) {bi : Tri} (hbi : Inside (blocksOf shape) bi) :
    (scatter (blockRank shape σ) xs (List.replicate xs.length d))[rank (blocksOf shape) σ bi]? =
      xs[ravel (blocksOf shape) bi]? := by
  have hk := ravel_lt hbi
  have h := getElem?_scatter (blockRank shape σ) xs (List.replicate xs.length d)
    (nodup_blockRank _ _) (fun p hp => by simpa [hlen] using mem_blockRank.mp hp)
    (ravel (blocksOf shape) bi) (by rw [length_blockRank]; exact hk) (by rw [hlen]; exact hk)
  rw [getElem_blockRank, unravel_ravel hbi] at h
  exact h

theorem forall_mem_scatter_rank {shape : Tri} {σ : Equiv.Perm (Fin 3)} {xs : List α} (d : α)
    (hlen : xs.length = volume (blocksOf shape)) {P : α → Prop} (h : ∀ x ∈ xs, P x) :
    ∀ x ∈ scatter (blockRank shape σ) xs (List.replicate xs.length d), P x := by
  refine forall_mem_scatter (fun q hq => ?_) (nodup_blockRank _ _) (fun p hp => ?_) ?_ h
  · rw [mem_blockRank]; simpa [hlen] using hq
  · simpa [hlen] using mem_blockRank.mp hp
  · rw [length_blockRank, hlen]

end Scatter

variable {F : Type*} (nat : Native F) (c : SkipZFPCodec)

/-- The bytes of block `k` of an array, blocks in C order. -/
def encodedBlock (r : ℚ) (s : Tri) (arr : Tri → F) (k : ℕ) : List UInt8 :=
  slice (nat.encode r s arr) (k * blockBytes r) (k * blockBytes r + blockBytes r)

/-- The rows of a unit: its encoded blocks in storage order. -/
def unitRows (unit : Tri) (arr : Tri → F) : List (List UInt8) :=
  let rk := blockRank unit c.order
  ranked rk (reshapeRows rk.length (nat.encode c.rate unit arr))

/-- All rows of a chunk, unit after unit. -/
def packRows (shape : Tri) (arr : Tri → F) : List (List UInt8) :=
  ((unitSlices shape (c.unit shape)).map fun sl => unitRows nat c (c.unit shape) (sl.view arr)).flatten

/-- **`pack`**: the bytes stored for a chunk. -/
def pack (shape : Tri) (arr : Tri → F) : List UInt8 :=
  if c.plain shape then nat.encode c.rate shape arr
  else
    let cuts := cumsum (0 :: c.layerBytes)
    columns (cuts.dropLast.zip cuts.tail) (packRows nat c shape arr)

/-- **`unpack`**: the chunk read back from stored bytes; `out` is what `np.empty` holds. -/
def unpack (shape : Tri) (out : Tri → F) (buf : List UInt8) : Tri → F :=
  if c.plain shape then nat.decode c.rate shape buf
  else
    let unit := c.unit shape
    let rk := blockRank unit c.order
    let n := volume (blocksOf shape)
    let cuts := cumsum (0 :: c.layerBytes.map (n * ·))
    let rows := uncolumns n (cuts.dropLast.zip cuts.tail) buf
    (unitSlices shape unit).zipIdx.foldl (fun out sl =>
      let ranked := slice rows (sl.2 * rk.length) ((sl.2 + 1) * rk.length)
      sl.1.put (nat.decode c.rate unit (gather rk ranked).flatten) out) out

/-! ### The rows of a unit -/

theorem encode_eq_flatten (r : ℚ) (s : Tri) (arr : Tri → F) :
    reshape (volume (blocksOf s)) (blockBytes r) (nat.encode r s arr) =
      (List.range (volume (blocksOf s))).map (encodedBlock nat r s arr) := rfl

theorem length_encodedBlock {r : ℚ} {s : Tri} {arr : Tri → F} {k : ℕ}
    (hk : k < volume (blocksOf s)) : (encodedBlock nat r s arr k).length = blockBytes r := by
  refine length_of_mem_reshape (nat.length_encode r s arr) ?_
  rw [encode_eq_flatten]
  exact List.mem_map.mpr ⟨k, List.mem_range.mpr hk, rfl⟩

theorem reshapeRows_encode {r : ℚ} {s : Tri} (hs : 0 < volume (blocksOf s)) (arr : Tri → F) :
    reshapeRows (volume (blocksOf s)) (nat.encode r s arr) =
      (List.range (volume (blocksOf s))).map (encodedBlock nat r s arr) := by
  rw [reshapeRows, nat.length_encode, Nat.mul_div_cancel_left _ hs, encode_eq_flatten]

section Unit
variable {unit : Tri} (hu : 0 < volume (blocksOf unit)) (arr : Tri → F)
include hu

theorem unitRows_eq : unitRows nat c unit arr = ranked (blockRank unit c.order)
    ((List.range (volume (blocksOf unit))).map (encodedBlock nat c.rate unit arr)) := by
  unfold unitRows
  dsimp only
  rw [length_blockRank, reshapeRows_encode nat hu]

theorem length_unitRows : (unitRows nat c unit arr).length = volume (blocksOf unit) := by
  rw [unitRows_eq nat c hu, length_ranked]; simp

/-- Row `rank bi` of a unit holds the encoding of its block `bi`. -/
theorem unitRows_rank {bi : Tri} (hbi : Inside (blocksOf unit) bi) :
    (unitRows nat c unit arr)[rank (blocksOf unit) c.order bi]? =
      some (encodedBlock nat c.rate unit arr (ravel (blocksOf unit) bi)) := by
  rw [unitRows_eq nat c hu, ranked, scatter_rank [] (by simp) hbi, List.getElem?_map,
    List.getElem?_range (ravel_lt hbi)]
  rfl

theorem length_of_mem_unitRows {row : List UInt8} (h : row ∈ unitRows nat c unit arr) :
    row.length = blockBytes c.rate := by
  rw [unitRows_eq nat c hu] at h
  refine forall_mem_scatter_rank (P := fun r => r.length = blockBytes c.rate) [] (by simp)
    (fun x hx => ?_) row h
  obtain ⟨k, hk, rfl⟩ := List.mem_map.mp hx
  exact length_encodedBlock nat (List.mem_range.mp hk)

theorem gather_unitRows : (gather (blockRank unit c.order) (unitRows nat c unit arr)).flatten =
    nat.encode c.rate unit arr := by
  rw [unitRows_eq nat c hu, ranked, gather_scatter (nodup_blockRank _ _)]
  · rw [← encode_eq_flatten, flatten_reshape _ _ _ (nat.length_encode _ _ _)]
  · intro p hp; simpa using mem_blockRank.mp hp
  · rw [length_blockRank]; simp

end Unit

/-! ### The rows of a chunk -/

section Chunk
variable {shape : Tri} (hs : c.ChunkOk shape) (arr : Tri → F)
include hs

theorem volume_unit_pos : 0 < volume (blocksOf (c.unit shape)) := volume_pos hs.blocks_unit_pos

theorem length_packRows : (packRows nat c shape arr).length = volume (blocksOf shape) := by
  have hl : ∀ rs ∈ (unitSlices shape (c.unit shape)).map fun sl =>
      unitRows nat c (c.unit shape) (sl.view arr), rs.length = volume (blocksOf (c.unit shape)) := by
    intro rs hrs
    obtain ⟨sl, -, rfl⟩ := List.mem_map.mp hrs
    exact length_unitRows nat c (volume_unit_pos c hs) _
  rw [packRows, length_flatten_rows hl, List.length_map, length_unitSlices, ← hs.volume_blocks]

theorem slice_packRows {sub : ℕ} (hsub : sub < volume (outer (c.unit shape) shape)) :
    slice (packRows nat c shape arr) (sub * volume (blocksOf (c.unit shape)))
        (sub * volume (blocksOf (c.unit shape)) + volume (blocksOf (c.unit shape))) =
      unitRows nat c (c.unit shape)
        ((tileBox (c.unit shape) (unravel (outer (c.unit shape) shape) sub)).view arr) := by
  have hl : ∀ rs ∈ (unitSlices shape (c.unit shape)).map fun sl =>
      unitRows nat c (c.unit shape) (sl.view arr), rs.length = volume (blocksOf (c.unit shape)) := by
    intro rs hrs
    obtain ⟨sl, -, rfl⟩ := List.mem_map.mp hrs
    exact length_unitRows nat c (volume_unit_pos c hs) _
  have hi : sub < ((unitSlices shape (c.unit shape)).map fun sl =>
      unitRows nat c (c.unit shape) (sl.view arr)).length := by
    simpa [length_unitSlices] using hsub
  rw [packRows, slice_flatten_rows hl hi]
  simp [unitSlices, getElem_indices]

/-- **Row `sub * n + rank bi`** of a chunk is the encoding of block `bi` of unit `sub`. -/
theorem packRows_getElem? {sub : ℕ} (hsub : sub < volume (outer (c.unit shape) shape)) {bi : Tri}
    (hbi : Inside (blocksOf (c.unit shape)) bi) :
    (packRows nat c shape arr)[sub * volume (blocksOf (c.unit shape)) +
        rank (blocksOf (c.unit shape)) c.order bi]? =
      some (encodedBlock nat c.rate (c.unit shape)
        ((tileBox (c.unit shape) (unravel (outer (c.unit shape) shape) sub)).view arr)
        (ravel (blocksOf (c.unit shape)) bi)) := by
  have h := congrArg (·[rank (blocksOf (c.unit shape)) c.order bi]?)
    (slice_packRows nat c hs arr hsub)
  simp only [getElem?_slice] at h
  rw [if_pos (by rw [Nat.add_sub_cancel_left]; exact rank_lt _ hbi),
    unitRows_rank nat c (volume_unit_pos c hs) _ hbi] at h
  exact h

theorem packRows_getElem?_of_lt {q : ℕ} (hq : q < volume (blocksOf shape)) :
    (packRows nat c shape arr)[q]? = some (encodedBlock nat c.rate (c.unit shape)
      ((tileBox (c.unit shape) (unravel (outer (c.unit shape) shape)
        (q / volume (blocksOf (c.unit shape))))).view arr)
      (ravel (blocksOf (c.unit shape)) (unrank (blocksOf (c.unit shape)) c.order
        (q % volume (blocksOf (c.unit shape)))))) := by
  rw [hs.volume_blocks] at hq
  have hsub : q / volume (blocksOf (c.unit shape)) < volume (outer (c.unit shape) shape) :=
    Nat.div_lt_of_lt_mul (by rwa [Nat.mul_comm])
  have h := packRows_getElem? nat c hs arr hsub
    (inside_unrank c.order (Nat.mod_lt q (volume_unit_pos c hs)))
  rwa [rank_unrank, Nat.div_add_mod'] at h

theorem length_of_mem_packRows {row : List UInt8} (h : row ∈ packRows nat c shape arr) :
    row.length = c.layerBytes.sum := by
  obtain ⟨rs, hrs, hrow⟩ := List.mem_flatten.mp h
  obtain ⟨sl, -, rfl⟩ := List.mem_map.mp hrs
  rw [c.sum_layerBytes]
  exact length_of_mem_unitRows nat c (volume_unit_pos c hs) _ hrow

theorem unitSlices_plain :
    unitSlices shape shape = [tileBox shape (fun _ => 0)] := by
  have h1 : outer shape shape = fun _ => 1 := funext fun a => Nat.div_self (hs.pos a)
  rw [unitSlices, h1]
  have : indices (fun _ => 1) = [fun _ => 0] := by decide
  rw [this]; rfl

omit hs in
theorem view_tileBox_zero (s : Tri) : (tileBox s fun _ => 0).view arr = arr := by
  funext r; simp [Box.view, tileBox]

/-- **A plain chunk is stored as the general layout would store it.** -/
theorem pack_eq_columns :
    pack nat c shape arr = columns (pairsOf c.layerBytes) (packRows nat c shape arr) := by
  unfold pack
  split_ifs with hp
  · obtain ⟨hl, ho, hu⟩ := hp
    have hv := volume_unit_pos c hs
    have hord : c.order = Equiv.refl _ := Equiv.ext ho
    have hrk : blockRank shape c.order = List.range (volume (blocksOf shape)) := by
      rw [blockRank, hord, indices_eq, List.map_map]
      conv_rhs => rw [← List.map_id (List.range _)]
      exact List.map_congr_left fun k _ => ravel_unravel _ k
    have hrows : packRows nat c shape arr = unitRows nat c shape arr := by
      rw [packRows, hu, unitSlices_plain c hs]
      simp [view_tileBox_zero]
    have hg := gather_unitRows nat c (hu ▸ hv) arr
    have hlen := length_unitRows nat c (hu ▸ hv) arr
    have hid : gather (blockRank shape c.order) (unitRows nat c shape arr) =
        unitRows nat c shape arr := by
      rw [hrk, gather]
      refine List.ext_getElem (by simp [hlen]) fun i h1 h2 => ?_
      rw [List.getElem_map, List.getElem_range, List.getD_eq_getElem _ _ h2]
    obtain ⟨w, hw⟩ := List.length_eq_one_iff.mp (c.length_layerBytes.trans hl)
    have hcut : ∀ r ∈ unitRows nat c shape arr, slice r 0 w = r := by
      intro r hr
      have hlr := length_of_mem_packRows nat c hs arr (hrows ▸ hr)
      rw [hw, List.sum_singleton] at hlr
      rw [← hlr, slice_full]
    rw [hrows, hw, ← hg, hid]
    simp only [columns, pairsOf, List.length_singleton, List.range_one, List.map_cons, List.map_nil,
      List.take_zero, List.sum_nil, List.take_succ_cons, List.sum_cons,
      Nat.add_zero, List.flatten_cons, List.flatten_nil, List.append_nil]
    rw [List.map_congr_left hcut, List.map_id']
  · dsimp only
    rw [zip_cumsum_tail]
    rfl

/-- **The stored object has the layers' bytes for every block.** -/
theorem length_pack :
    (pack nat c shape arr).length = volume (blocksOf shape) * c.layerBytes.sum := by
  rw [pack_eq_columns nat c hs, length_columns fun r hr => length_of_mem_packRows nat c hs arr hr,
    length_packRows nat c hs]

/-- The layer-`j` bytes of row `b` in the stored object. -/
theorem slice_pack {b j : ℕ} (hb : b < volume (blocksOf shape)) (hj : j < c.layers.length) :
    slice (pack nat c shape arr)
        (volume (blocksOf shape) * (c.layerBytes.take j).sum + b * c.layerBytes.getD j 0)
        (volume (blocksOf shape) * (c.layerBytes.take j).sum + b * c.layerBytes.getD j 0 +
          c.layerBytes.getD j 0) =
      slice ((packRows nat c shape arr).getD b []) (c.layerBytes.take j).sum
        (c.layerBytes.take (j + 1)).sum := by
  have hlen := length_packRows nat c hs arr
  have hrow : ∀ r ∈ packRows nat c shape arr, r.length = c.layerBytes.sum :=
    fun r hr => length_of_mem_packRows nat c hs arr hr
  have h := slice_columns hrow (i := b) (j := j) (by omega) (by rw [c.length_layerBytes]; exact hj)
  rw [← List.getD_eq_getElem _ [], hlen] at h
  rw [pack_eq_columns nat c hs, h]

end Chunk

/-! ### Reading back -/

/-- Writing disjoint boxes one after another leaves in each what was written to it. -/
theorem foldl_put (v : Box × ℕ → Tri → F) : ∀ (bs : List (Box × ℕ)) (out : Tri → F),
    bs.Pairwise (fun b b' => ∀ i, ¬ (b.1.Mem i ∧ b'.1.Mem i)) → ∀ b ∈ bs, ∀ i, b.1.Mem i →
      bs.foldl (fun out b => b.1.put (v b) out) out i = v b (fun a => i a - b.1.start a)
  | [], _, _, _, hb, _, _ => by cases hb
  | b :: bs, out, hp, b', hb', i, hi => by
    rw [List.foldl_cons]
    obtain ⟨h1, h2⟩ := List.pairwise_cons.mp hp
    rcases List.mem_cons.mp hb' with rfl | hb'
    · have hout : ∀ (bs : List (Box × ℕ)) (out : Tri → F), (∀ b ∈ bs, ¬ b.1.Mem i) →
          bs.foldl (fun out b => b.1.put (v b) out) out i = out i := by
        intro bs
        induction bs with
        | nil => intro out _; rfl
        | cons d bs ih =>
          intro out hd
          rw [List.foldl_cons, ih _ fun b hb => hd b (List.mem_cons_of_mem _ hb)]
          exact if_neg (hd d List.mem_cons_self)
      rw [hout bs _ fun d hd hdi => h1 d hd i ⟨hi, hdi⟩]
      exact if_pos hi
    · exact foldl_put v bs _ h2 b' hb' i hi

section Chunk
variable {shape : Tri} (hs : c.ChunkOk shape) (arr : Tri → F)
include hs

/-- **Reading undoes writing**: in every unit the chunk read back is what the decoder makes of the
encoder's bytes for that unit. -/
theorem unpack_pack_apply (out : Tri → F) {o r : Tri}
    (ho : Inside (outer (c.unit shape) shape) o) (hr : Inside (c.unit shape) r) :
    unpack nat c shape out (pack nat c shape arr) (join (c.unit shape) o r) =
      nat.decode c.rate (c.unit shape)
        (nat.encode c.rate (c.unit shape) ((tileBox (c.unit shape) o).view arr)) r := by
  have hup := hs.unit_pos
  by_cases hp : c.plain shape
  · have hu := hp.2.2
    have ho' : o = fun _ => 0 := by
      funext a
      have := ho a
      rw [hu] at this
      have h1 : outer shape shape a = 1 := Nat.div_self (hs.pos a)
      omega
    have hj : join shape (fun _ => 0) r = r := by funext a; simp [join]
    unfold unpack pack
    rw [if_pos hp, if_pos hp, hu, ho', hj, view_tileBox_zero]
  · have hcut : ∀ n : ℕ, (cumsum (0 :: c.layerBytes.map (n * ·))).dropLast.zip
        (cumsum (0 :: c.layerBytes.map (n * ·))).tail = pairsOf (c.layerBytes.map (n * ·)) :=
      fun n => zip_cumsum_tail _
    have hrows : uncolumns (volume (blocksOf shape))
        (pairsOf (c.layerBytes.map (volume (blocksOf shape) * ·))) (pack nat c shape arr) =
          packRows nat c shape arr := by
      rw [pack_eq_columns nat c hs, ← length_packRows nat c hs arr]
      exact uncolumns_columns fun r hr => length_of_mem_packRows nat c hs arr hr
    have hmem : (tileBox (c.unit shape) o).Mem (join (c.unit shape) o r) :=
      (mem_tileBox_iff hup).mpr (outer_join hr)
    have hk := ravel_lt ho
    have hidx : (tileBox (c.unit shape) o, ravel (outer (c.unit shape) shape) o) ∈
        (unitSlices shape (c.unit shape)).zipIdx := by
      rw [List.mem_zipIdx_iff_getElem?]
      simp only [unitSlices, List.getElem?_map, indices_eq, List.getElem?_range hk, Option.map_some,
        unravel_ravel ho]
    have hdis : (unitSlices shape (c.unit shape)).zipIdx.Pairwise
        fun b b' => ∀ i, ¬ (b.1.Mem i ∧ b'.1.Mem i) := by
      have h := pairwise_unitSlices shape hup
      rw [← List.zipIdx_map_fst 0 (unitSlices shape (c.unit shape)), List.pairwise_map] at h
      exact h
    unfold unpack
    rw [if_neg hp]
    dsimp only
    rw [hcut, hrows, foldl_put (fun sl => nat.decode c.rate (c.unit shape)
      (gather (blockRank (c.unit shape) c.order) (slice (packRows nat c shape arr)
        (sl.2 * (blockRank (c.unit shape) c.order).length)
        ((sl.2 + 1) * (blockRank (c.unit shape) c.order).length))).flatten) _ _ hdis _ hidx _ hmem]
    have hsl := slice_packRows nat c hs arr hk
    rw [unravel_ravel ho] at hsl
    rw [length_blockRank, Nat.succ_mul, hsl, gather_unitRows nat c (volume_unit_pos c hs)]
    congr 1
    funext a
    simp [join, tileBox]

end Chunk

/-- **Reading undoes writing, for every layout.** On each unit slice the chunk read back is the decoded
encoding of that slice; the stored object has `sum(layer_bytes)` bytes for each block; the slices
partition the chunk; and codecs that differ only in layers or block order read back the same array. -/
theorem unpack_pack (nat : Native F) (c : SkipZFPCodec) {l : List ℕ} {shape : Tri}
    (hs : c.chunkShape l = .ok shape) (arr out : Tri → F) :
    (∀ sl ∈ unitSlices shape (c.unit shape), ∀ r, Inside (c.unit shape) r →
      sl.view (unpack nat c shape out (pack nat c shape arr)) r =
        nat.decode c.rate (c.unit shape) (nat.encode c.rate (c.unit shape) (sl.view arr)) r) ∧
    (pack nat c shape arr).length = volume (blocksOf shape) * c.layerBytes.sum ∧
    (∀ i, (∃ sl ∈ unitSlices shape (c.unit shape), sl.Mem i) ↔ Inside shape i) ∧
    ((unitSlices shape (c.unit shape)).Pairwise fun sl sl' => ∀ i, ¬ (sl.Mem i ∧ sl'.Mem i)) ∧
    ∀ (c' : SkipZFPCodec) (out' : Tri → F), c'.rate = c.rate → c'.subChunk = c.subChunk →
      ∀ i, Inside shape i → unpack nat c' shape out' (pack nat c' shape arr) i =
        unpack nat c shape out (pack nat c shape arr) i := by
  have hok := c.chunkOk_of_chunkShape hs
  refine ⟨fun sl hsl r hr => ?_, length_pack nat c hok arr,
    fun i => exists_mem_unitSlices_iff hok.unit_pos hok.unit, pairwise_unitSlices _ hok.unit_pos,
    fun c' out' hr hsub i hi => ?_⟩
  · obtain ⟨o, ho, rfl⟩ := List.mem_map.mp hsl
    exact unpack_pack_apply nat c hok arr out (mem_indices.mp ho) hr
  · have hunit : c'.unit shape = c.unit shape := by unfold SkipZFPCodec.unit; rw [hsub]
    have hok' : c'.ChunkOk shape := ⟨hok.pos, hok.block, by rw [hunit]; exact hok.unit⟩
    rw [← hok.scale_unit] at hi
    have ho := inside_outer hi
    have hin := inside_inner hi
    have e := unpack_pack_apply nat c hok arr out ho hin
    have e' := unpack_pack_apply nat c' hok' arr out' (hunit ▸ ho) (hunit ▸ hin)
    rw [hunit, hr] at e'
    rw [join_outer_inner] at e e'
    rw [e, e']

/-! ### A native codec to run -/

/-- The native codec that keeps the first value of every block, as bytes followed by zeros. -/
def firstValue (toBytes : F → List UInt8) (ofBytes : List UInt8 → F) : Native F where
  encode r s arr := ((List.range (volume (blocksOf s))).map fun k =>
    (toBytes (arr (join blockShape (unravel (blocksOf s) k) fun _ => 0)) ++
      List.replicate (blockBytes r) 0).take (blockBytes r)).flatten
  decode r s buf := fun i => ofBytes (buf.drop (ravel (blocksOf s) (outer blockShape i) * blockBytes r))
  length_encode r s arr := by
    rw [length_flatten_rows (w := blockBytes r)]
    · simp
    · intro row hrow
      obtain ⟨k, -, rfl⟩ := List.mem_map.mp hrow
      simp

def firstByte : Native ℕ := firstValue (fun n => [UInt8.ofNat n]) fun l => (l.getD 0 0).toNat

/-- Two layers, the blocks of each `4 × 4 × 8` unit with the first axis changing fastest. -/
def twoLayers : SkipZFPCodec where
  rate := 1
  layers := [1 / 2, 1]
  blockOrder := ![1, 2, 0]
  subChunk := some ![4, 4, 8]
  blockErrorBits := 0
  increasing := by norm_num
  last := rfl
  multiple := by
    intro r hr
    simp only [List.mem_cons, List.not_mem_nil, or_false] at hr
    rcases hr with rfl | rfl
    · exact ⟨by norm_num, Int.fract_eq_zero_iff.mpr ⟨4, by norm_num⟩⟩
    · exact ⟨by norm_num, Int.fract_eq_zero_iff.mpr ⟨8, by norm_num⟩⟩
  bijective := by decide
  subMultiple := by
    intro s hs
    cases hs
    decide
  bits := no_error_bits
  bitsSingle h := absurd rfl h

theorem chunkShape_twoLayers : twoLayers.chunkShape [8, 4, 8] = .ok ![8, 4, 8] := by
  have h : (fun a : Fin 3 => [8, 4, 8].getD a 0) = ![8, 4, 8] := by decide
  unfold SkipZFPCodec.chunkShape
  rw [← h]
  rfl

def oneLayer : SkipZFPCodec where
  rate := 1
  layers := [1]
  blockOrder := ![1, 2, 0]
  subChunk := some ![4, 4, 4]
  blockErrorBits := 0
  increasing := by simp
  last := rfl
  multiple := by
    intro r hr
    rw [List.mem_singleton] at hr
    subst hr
    exact ⟨by norm_num, Int.fract_eq_zero_iff.mpr ⟨8, by norm_num⟩⟩
  bijective := by decide +kernel
  subMultiple := by
    intro s hs
    cases hs
    decide
  bits := no_error_bits
  bitsSingle h := absurd rfl h

theorem chunkShape_oneLayer : oneLayer.chunkShape [4, 4, 8] = .ok ![4, 4, 8] := by
  have h : (fun a : Fin 3 => [4, 4, 8].getD a 0) = ![4, 4, 8] := by decide
  unfold SkipZFPCodec.chunkShape
  rw [← h]
  rfl

/-- Two units of two blocks, written and read back: each as it is decoded, whatever the order of its
blocks. -/
theorem unpack_pack_twoLayers :
    (∀ sl ∈ unitSlices ![8, 4, 8] ![4, 4, 8], ∀ r, Inside ![4, 4, 8] r →
      sl.view (unpack firstByte twoLayers ![8, 4, 8] (fun _ => 0)
          (pack firstByte twoLayers ![8, 4, 8] fun i => i 0 + i 2)) r =
        firstByte.decode 1 ![4, 4, 8]
          (firstByte.encode 1 ![4, 4, 8] (sl.view fun i => i 0 + i 2)) r) ∧
      (pack firstByte twoLayers ![8, 4, 8] fun i => i 0 + i 2).length = 32 ∧
      (∀ i, (∃ sl ∈ unitSlices ![8, 4, 8] ![4, 4, 8], sl.Mem i) ↔ Inside ![8, 4, 8] i) ∧
      ((unitSlices ![8, 4, 8] ![4, 4, 8]).Pairwise fun sl sl' => ∀ i, ¬ (sl.Mem i ∧ sl'.Mem i)) ∧
      ∀ (c : SkipZFPCodec) (out : Tri → ℕ), c.rate = 1 → c.subChunk = some ![4, 4, 8] →
        ∀ i, Inside ![8, 4, 8] i →
          unpack firstByte c ![8, 4, 8] out (pack firstByte c ![8, 4, 8] fun i => i 0 + i 2) i =
            unpack firstByte twoLayers ![8, 4, 8] (fun _ => 0)
              (pack firstByte twoLayers ![8, 4, 8] fun i => i 0 + i 2) i := by
  have hlength : volume (blocksOf ![8, 4, 8]) * twoLayers.layerBytes.sum = 32 := by decide +kernel
  obtain ⟨hread, hlen, hslices⟩ :=
    unpack_pack firstByte twoLayers chunkShape_twoLayers (fun i => i 0 + i 2) fun _ => 0
  exact ⟨hread, hlen.trans hlength, hslices⟩

/-- A value of the last block comes back as the first of the block. -/
example : unpack firstByte twoLayers ![8, 4, 8] (fun _ => 0)
    (pack firstByte twoLayers ![8, 4, 8] fun i => i 0 + i 2) ![7, 3, 7] = 8 := by
  decide +kernel

end SkipZFP.Codec.Pack
