import SkipZFP.Plan.Chain

/-! # Codecs that leave the payload where it is

`get_layout` returns the layout of SkipZFP alone, whatever other codecs are in the chain. It is that of
the stored objects if the codecs before SkipZFP leave the chunks as they are and those after it only
append.

* `keepsChunks_of_forall`, `onlyAppends_of_forall`: both follow codec by codec.
* `exists_pack`: as far as the chain can know, libzfp can make any payload of some chunk. `spelled` is the
  native codec that does, and `telling` one that tells two chunks apart.
* `layout_iff`: **the condition is enough**, and it cannot be weakened for a chain with no filter, or for
  one whose filters keep the shape and whose other codecs only append. What is left are filters whose
  effect a later codec undoes. -/

namespace SkipZFP.Plan.Transparent

open SkipZFP.Lib.Grid SkipZFP.Lib.Rows SkipZFP.Lib.Float32 SkipZFP.Codec.Config SkipZFP.Codec.Pack
open SkipZFP.Plan.Blocks SkipZFP.Plan.Shapes SkipZFP.Plan.Chain

/-! ### Codec by codec -/

theorem keepsChunks_of_forall {ch : CodecChain} (h : ∀ f ∈ ch.filters, ∀ x y, f x = .ok y → y = x)
    (chunk : Tri) : ch.KeepsChunks chunk := by
  have hall : ∀ fs : List (Values3 → Except String Values3), (∀ f ∈ fs, ∀ x y, f x = .ok y → y = x) →
      ∀ x y, fs.foldlM (fun (y : Values3) (f : Values3 → Except String Values3) => f y) x = .ok y →
        y = x := by
    intro fs
    induction fs with
    | nil =>
      intro _ x y hy
      exact (Except.ok.inj hy).symm
    | cons f fs ih =>
      intro hfs x y hy
      rw [List.foldlM_cons] at hy
      cases hx : f x with
      | error msg => rw [hx] at hy; cases hy
      | ok z =>
        rw [hx] at hy
        rw [ih (fun g hg => hfs g (List.mem_cons_of_mem f hg)) z y hy, hfs f List.mem_cons_self x z hx]
  exact fun x y hy _ => hall ch.filters h _ y hy

theorem onlyAppends_of_forall {ch : CodecChain} (h : ∀ f ∈ ch.compressors, ∀ b, b <+: f b)
    (chunk : Tri) : ch.OnlyAppends chunk := by
  have hall : ∀ fs : List (List UInt8 → List UInt8), (∀ f ∈ fs, ∀ b, b <+: f b) →
      ∀ payload, payload <+: fs.foldl (fun b f => f b) payload := by
    intro fs
    induction fs with
    | nil => exact fun _ payload => List.prefix_refl payload
    | cons f fs ih =>
      intro hfs payload
      exact (hfs f List.mem_cons_self payload).trans
        (ih (fun g hg => hfs g (List.mem_cons_of_mem f hg)) (f payload))
  exact fun payload _ => hall ch.compressors h payload

/-! ### Two native codecs -/

def ofDigit (n : ℕ) : F32 := ⟨BitVec.ofNat 32 n⟩

theorem mag_ofDigit {n : ℕ} (h : n < 2 ^ 30) : (ofDigit n).mag = n := by
  show n % 2 ^ 32 % 2 ^ 31 = n
  omega

/-- The first byte says whether an array is of a kind. -/
def telling (p : (Tri → F32) → Bool) : Native F32 where
  encode r s arr := List.replicate (volume (blocksOf s) * blockBytes r) (if p arr then 1 else 0)
  decode _ _ buf := fun _ => ofDigit (buf.headD 0).toNat
  length_encode r s arr := by simp

/-- The number that two values of a block spell. -/
def numberOf (v : Tri → F32) : ℕ := (v fun _ => 0).mag * 2 ^ 30 + (v ![0, 0, 1]).mag

/-- Every block is encoded as the row that its values spell. -/
def spelled (row : ℕ → List UInt8) : Native F32 where
  encode r s arr := ((List.range (volume (blocksOf s))).map fun k =>
    (row (numberOf fun i => arr (join blockShape (unravel (blocksOf s) k) i)) ++
      List.replicate (blockBytes r) 0).take (blockBytes r)).flatten
  decode _ _ _ := fun _ => ofDigit 0
  length_encode r s arr := by
    rw [length_flatten_rows (w := blockBytes r)]
    · simp
    · intro row hrow
      obtain ⟨k, -, rfl⟩ := List.mem_map.mp hrow
      simp

theorem encodedBlock_spelled (row : ℕ → List UInt8) {r : ℚ} {s : Tri} (arr : Tri → F32) {bi : Tri}
    (hbi : Inside (blocksOf s) bi)
    (hlen : (row (numberOf fun i => arr (join blockShape bi i))).length = blockBytes r) :
    encodedBlock (spelled row) r s arr (ravel (blocksOf s) bi) =
      row (numberOf fun i => arr (join blockShape bi i)) := by
  have hw : ∀ l ∈ (List.range (volume (blocksOf s))).map fun k =>
      (row (numberOf fun i => arr (join blockShape (unravel (blocksOf s) k) i)) ++
        List.replicate (blockBytes r) 0).take (blockBytes r), l.length = blockBytes r := by
    intro l hl
    obtain ⟨k, -, rfl⟩ := List.mem_map.mp hl
    simp
  have hk : ravel (blocksOf s) bi < ((List.range (volume (blocksOf s))).map fun k =>
      (row (numberOf fun i => arr (join blockShape (unravel (blocksOf s) k) i)) ++
        List.replicate (blockBytes r) 0).take (blockBytes r)).length := by simpa using ravel_lt hbi
  refine (slice_flatten_rows hw hk).trans ?_
  rw [List.getElem_map, List.getElem_range, unravel_ravel hbi, ← hlen, List.take_left]

/-! ### Any payload -/

theorem slice_flatten_widths {α : Type*} {L : List (List α)} {ws : List ℕ} (h : L.map List.length = ws)
    {j : ℕ} (hj : j < L.length) :
    slice L.flatten (ws.take j).sum (ws.take (j + 1)).sum = L[j] := by
  subst h
  have hpiece := slice_flatten L j hj
  rwa [sum_take_succ _ (by simpa using hj), List.getD_eq_getElem _ 0 (by simpa using hj),
    List.getElem_map, ← List.map_take]

section Payload
variable (c : SkipZFPCodec) (chunk : Tri)

/-- The row in which the block of a cell is stored. -/
def rowNumber (i : Tri) : ℕ :=
  ravel (outer (c.unit chunk) chunk) (outer (c.unit chunk) i) * volume (blocksOf (c.unit chunk)) +
    rank (blocksOf (c.unit chunk)) c.order (outer blockShape (inner (c.unit chunk) i))

/-- The chunk in which every block spells its row. -/
def numbered : Tri → F32 := fun i =>
  if inner blockShape (inner (c.unit chunk) i) = fun _ => 0 then ofDigit (rowNumber c chunk i / 2 ^ 30)
  else ofDigit (rowNumber c chunk i % 2 ^ 30)

/-- Row `q` of a payload: the bytes of its block, layer by layer. -/
def rowOf (payload : List UInt8) (q : ℕ) : List UInt8 :=
  ((List.range c.layerBytes.length).map fun j =>
    slice payload (volume (blocksOf chunk) * (c.layerBytes.take j).sum + q * c.layerBytes.getD j 0)
      (volume (blocksOf chunk) * (c.layerBytes.take j).sum + q * c.layerBytes.getD j 0 +
        c.layerBytes.getD j 0)).flatten

variable {c chunk} {payload : List UInt8}
  (hlen : payload.length = volume (blocksOf chunk) * c.layerBytes.sum) {q : ℕ}
  (hq : q < volume (blocksOf chunk))
include hlen hq

theorem map_length_rowOf : ((List.range c.layerBytes.length).map fun j =>
    slice payload (volume (blocksOf chunk) * (c.layerBytes.take j).sum + q * c.layerBytes.getD j 0)
      (volume (blocksOf chunk) * (c.layerBytes.take j).sum + q * c.layerBytes.getD j 0 +
        c.layerBytes.getD j 0)).map List.length = c.layerBytes := by
  refine List.ext_getElem (by simp) fun j h1 h2 => ?_
  rw [List.getElem_map, List.getElem_map, List.getElem_range,
    length_slice (by rw [hlen]; exact tile_le hq h2), Nat.add_sub_cancel_left, List.getD_eq_getElem _ _ h2]

theorem length_rowOf : (rowOf c chunk payload q).length = c.layerBytes.sum := by
  rw [rowOf, List.length_flatten, map_length_rowOf hlen hq]

theorem slice_rowOf {j : ℕ} (hj : j < c.layerBytes.length) :
    slice (rowOf c chunk payload q) (c.layerBytes.take j).sum (c.layerBytes.take (j + 1)).sum =
      slice payload (volume (blocksOf chunk) * (c.layerBytes.take j).sum + q * c.layerBytes.getD j 0)
        (volume (blocksOf chunk) * (c.layerBytes.take j).sum + q * c.layerBytes.getD j 0 +
          c.layerBytes.getD j 0) := by
  have h := slice_flatten_widths (map_length_rowOf hlen hq) (j := j) (by simpa using hj)
  rwa [List.getElem_map, List.getElem_range] at h

end Payload

section Spelled
variable {c : SkipZFPCodec} {chunk : Tri} (hc : c.ChunkOk chunk)
include hc

theorem numbered_cell {o bi i : Tri} (hbi : Inside (blocksOf (c.unit chunk)) bi)
    (hi : Inside blockShape i) :
    numbered c chunk (join (c.unit chunk) o (join blockShape bi i)) =
      if i = fun _ => 0 then
        ofDigit ((ravel (outer (c.unit chunk) chunk) o * volume (blocksOf (c.unit chunk)) +
          rank (blocksOf (c.unit chunk)) c.order bi) / 2 ^ 30)
      else ofDigit ((ravel (outer (c.unit chunk) chunk) o * volume (blocksOf (c.unit chunk)) +
        rank (blocksOf (c.unit chunk)) c.order bi) % 2 ^ 30) := by
  have hin : Inside (c.unit chunk) (join blockShape bi i) := by
    rw [← scale_blocksOf hc.unit_block]
    exact inside_join hbi hi
  unfold numbered rowNumber
  rw [inner_join hin, outer_join hin, inner_join hi, outer_join hi]

theorem numberOf_numbered {q : ℕ} (hq : q < volume (blocksOf chunk))
    (hsmall : volume (blocksOf chunk) ≤ 2 ^ 60) :
    numberOf (fun i => (tileBox (c.unit chunk) (unravel (outer (c.unit chunk) chunk)
      (q / volume (blocksOf (c.unit chunk))))).view (numbered c chunk)
        (join blockShape (unrank (blocksOf (c.unit chunk)) c.order
          (q % volume (blocksOf (c.unit chunk)))) i)) = q := by
  have hbi := inside_unrank (s := blocksOf (c.unit chunk)) c.order (Nat.mod_lt q (volume_unit_pos c hc))
  have hrow : ravel (outer (c.unit chunk) chunk) (unravel (outer (c.unit chunk) chunk)
      (q / volume (blocksOf (c.unit chunk)))) * volume (blocksOf (c.unit chunk)) +
        rank (blocksOf (c.unit chunk)) c.order (unrank (blocksOf (c.unit chunk)) c.order
          (q % volume (blocksOf (c.unit chunk)))) = q := by
    rw [ravel_unravel, rank_unrank, Nat.div_add_mod']
  have hfirst := numbered_cell hc (o := unravel (outer (c.unit chunk) chunk)
    (q / volume (blocksOf (c.unit chunk)))) hbi (i := fun _ => 0) (by decide)
  have hnext := numbered_cell hc (o := unravel (outer (c.unit chunk) chunk)
    (q / volume (blocksOf (c.unit chunk)))) hbi (i := ![0, 0, 1]) (by decide)
  rw [hrow, if_pos rfl] at hfirst
  rw [hrow, if_neg (by decide)] at hnext
  unfold numberOf
  dsimp only
  rw [view_tileBox, view_tileBox, hfirst, hnext, mag_ofDigit (by omega),
    mag_ofDigit (Nat.mod_lt _ (by norm_num)), Nat.div_add_mod']

theorem encodes_numbered (hsmall : volume (blocksOf chunk) ≤ 2 ^ 60) :
    Encodes c (chunk, numbered c chunk) := by
  refine ⟨chunk, chunkShape_of_chunkOk hc, fun i hi => ?_⟩
  have hi : Inside (scale (outer (c.unit chunk) chunk) (c.unit chunk)) i := by
    rw [hc.scale_unit]
    exact mem_indices.mp hi
  have hin : Inside (scale (blocksOf (c.unit chunk)) blockShape) (inner (c.unit chunk) i) := by
    rw [scale_blocksOf hc.unit_block]
    exact inside_inner hi
  have hlt : rowNumber c chunk i < volume (blocksOf chunk) := by
    rw [hc.volume_blocks]
    exact mul_add_lt (ravel_lt (inside_outer hi)) (rank_lt _ (inside_outer hin))
  have hdigit : (numbered c chunk i).mag < 2 ^ 30 := by
    unfold numbered
    split_ifs
    · rw [mag_ofDigit (by omega)]
      omega
    · rw [mag_ofDigit (Nat.mod_lt _ (by norm_num))]
      exact Nat.mod_lt _ (by norm_num)
  exact hdigit.trans (by decide)

/-- **Any payload is that of some chunk**, for some native codec. -/
theorem exists_pack (hsmall : volume (blocksOf chunk) ≤ 2 ^ 60) {payload : List UInt8}
    (hlen : payload.length = volume (blocksOf chunk) * blockBytes c.rate) :
    ∃ nat x, Encodes c (chunk, x) ∧ pack nat c chunk x = payload := by
  rw [← c.sum_layerBytes] at hlen
  refine ⟨spelled (rowOf c chunk payload), numbered c chunk, encodes_numbered hc hsmall, ?_⟩
  have hrow : ∀ q < volume (blocksOf chunk), (packRows (spelled (rowOf c chunk payload)) c chunk
      (numbered c chunk)).getD q [] = rowOf c chunk payload q := by
    intro q hq
    have hbi := inside_unrank (s := blocksOf (c.unit chunk)) c.order
      (Nat.mod_lt q (volume_unit_pos c hc))
    have hnum := numberOf_numbered hc hq hsmall
    have h := packRows_getElem?_of_lt (spelled (rowOf c chunk payload)) c hc (numbered c chunk) hq
    rw [encodedBlock_spelled _ _ hbi (by rw [hnum, length_rowOf hlen hq, c.sum_layerBytes]), hnum] at h
    rw [List.getD_eq_getElem?_getD, h, Option.getD_some]
  have hlayout : HasLayout (spelled (rowOf c chunk payload)) c (layoutOf c chunk chunk 0) chunk
      (numbered c chunk) payload := by
    intro j hj b hb
    have hj : j < c.layers.length := hj
    have hb : b < volume (blocksOf chunk) := hb
    rw [hrow b hb, slice_rowOf hlen hb (by rwa [c.length_layerBytes]), getD_layerStarts 0 hj]
    rfl
  exact ((hasLayout_iff hc 0 _ _).mp hlayout).eq_of_length (by rw [length_pack _ c hc, hlen])

end Spelled

/-! ### The layout of a chain -/

section Chain
variable {ch : CodecChain} {shape chunk : Tri}

/-- Every object has the layout exactly when it begins with the payload. -/
theorem lays_iff (hc : ch.serializer.ChunkOk chunk) (size : ℕ) :
    ch.Lays (layoutOf ch.serializer shape chunk size) chunk ↔
      ∀ nat x y, ch.filter (chunk, x) = .ok y → Encodes ch.serializer y →
        pack nat ch.serializer chunk x <+: ch.compress (pack nat ch.serializer y.1 y.2) := by
  constructor
  · intro h nat x y hy henc
    exact (hasLayout_iff hc size x _).mp
      (h nat x _ (encode_ok_iff.mpr ⟨y, _, hy, encodeSingle_ok_iff.mpr ⟨henc, rfl⟩, rfl⟩))
  · intro h nat x obj hobj
    obtain ⟨y, payload, hy, hp, rfl⟩ := encode_ok_iff.mp hobj
    obtain ⟨henc, rfl⟩ := encodeSingle_ok_iff.mp hp
    exact (hasLayout_iff hc size x _).mpr (h nat x y hy henc)

theorem length_payload (hc : ch.serializer.ChunkOk chunk) (nat : Native F32) (x : Tri → F32) :
    (pack nat ch.serializer chunk x).length =
      volume (blocksOf chunk) * blockBytes ch.serializer.rate := by
  rw [length_pack nat _ hc, ch.serializer.sum_layerBytes]

/-- Two chunks of one payload, whatever libzfp writes, are one. -/
theorem eq_of_pack {c : SkipZFPCodec} (hc : c.ChunkOk chunk) {x y : Tri → F32}
    (h : ∀ nat : Native F32, pack nat c chunk x = pack nat c chunk y) : x = y := by
  classical
  by_contra hne
  have hbytes : 0 < volume (blocksOf (c.unit chunk)) * blockBytes c.rate :=
    Nat.mul_pos (volume_unit_pos c hc) c.blockBytes_rate_pos
  have hread : ∀ z, unpack (telling fun arr => decide (arr = x)) c chunk (fun _ => ofDigit 0)
      (pack (telling fun arr => decide (arr = x)) c chunk z) (join (c.unit chunk) (fun _ => 0) fun _ => 0) =
        ofDigit (if z = x then 1 else 0) := by
    intro z
    have ho : Inside (outer (c.unit chunk) chunk) fun _ => 0 := fun a =>
      Nat.div_pos (Nat.le_of_dvd (hc.pos a) (Nat.dvd_of_mod_eq_zero (hc.unit a))) (hc.unit_pos a)
    rw [unpack_pack_apply _ c hc z _ ho fun a => hc.unit_pos a, view_tileBox_zero]
    obtain ⟨n, hn⟩ := Nat.exists_eq_succ_of_ne_zero hbytes.ne'
    unfold telling
    dsimp only
    rw [hn, List.replicate_succ, List.headD_cons]
    by_cases hz : z = x
    · simp [hz]
    · simp [hz]
  have hx := hread x
  rw [h, hread y, if_pos rfl, if_neg fun h => hne h.symm] at hx
  exact absurd hx (by decide)

/-- **When the layout of an accepted chain is that of its objects.** It is if the codecs before SkipZFP
leave the chunks that are encoded as they are and those after it only append to a payload. With no codec
before it, the latter is also needed; and where those after it only append, so is the former, if they keep
the shape. -/
theorem layout_iff (hvalid : ch.serializer.validate [shape 0, shape 1, shape 2]
    [chunk 0, chunk 1, chunk 2] = .ok ()) {lt : Layout}
    (hlt : getChainLayout ch.codecs shape chunk = .ok lt) :
    (ch.KeepsChunks chunk → ch.OnlyAppends chunk → ch.Lays lt chunk) ∧
    (ch.filters = [] → (ch.Lays lt chunk ↔ ch.OnlyAppends chunk)) ∧
    (ch.OnlyAppends chunk → ch.KeepsShape chunk → (ch.Lays lt chunk ↔ ch.KeepsChunks chunk)) := by
  unfold getChainLayout at hlt
  rw [findCodec_codecs, Except.bind] at hlt
  have hc := chunkOk_of_validate hvalid hlt
  have hvolume := volume_lt_of_getLayout hlt
  have hblocks := volume_eq_blocks hc.block
  obtain ⟨-, size, rfl⟩ := getLayout_ok hlt
  have hlays : ch.Lays (layoutOf ch.serializer shape chunk size) chunk ↔ _ := lays_iff hc size
  have henough : ch.KeepsChunks chunk → ch.OnlyAppends chunk →
      ch.Lays (layoutOf ch.serializer shape chunk size) chunk := by
    intro hkeep happend
    refine hlays.mpr fun nat x y hy henc => ?_
    obtain rfl := hkeep x y hy henc
    exact happend _ (length_payload hc nat x)
  refine ⟨henough, fun hnil => ⟨fun h payload hlen => ?_, henough fun x y hy _ => ?_⟩,
    fun happend hshape => ⟨fun h x y hy henc => ?_, fun hkeep => henough hkeep happend⟩⟩
  · obtain ⟨nat, x, henc, rfl⟩ := exists_pack hc (by omega) hlen
    refine hlays.mp h nat x (chunk, x) ?_ henc
    unfold CodecChain.filter
    rw [hnil]
    rfl
  · unfold CodecChain.filter at hy
    rw [hnil] at hy
    exact (Except.ok.inj hy).symm
  · obtain ⟨s, y⟩ := y
    obtain rfl := hshape x (s, y) hy henc
    refine Prod.ext rfl (eq_of_pack hc fun nat => ?_)
    -- both payloads begin the object
    have hx := hlays.mp h nat x (s, y) hy henc
    have hy := happend _ (length_payload hc nat y)
    exact ((List.prefix_of_prefix_length_le hx hy
      (by rw [length_payload hc, length_payload hc])).eq_of_length
        (by rw [length_payload hc, length_payload hc])).symm

end Chain

/-- A filter that lets no chunk of zeros through, and a codec that appends a byte. -/
def appended : CodecChain where
  filters := [fun x => if x.2 (fun _ => 0) = ofDigit 0 then .error "zero" else .ok x]
  serializer := oneLayer
  compressors := [(· ++ [255])]

/-- The codecs of `appended` leave the payload where it is, and a codec that reverses the bytes does
not. -/
theorem layout_iff_appended :
    (∃ lt, getChainLayout appended.codecs ![4, 8, 8] ![4, 8, 8] = .ok lt ∧ appended.Lays lt ![4, 8, 8]) ∧
    ∃ lt, getChainLayout reversed.codecs ![4, 8, 8] ![4, 8, 8] = .ok lt ∧
      ¬ reversed.Lays lt ![4, 8, 8] := by
  refine ⟨⟨_, getChainLayout_oneLayer rfl, ?_⟩, ⟨_, getChainLayout_oneLayer rfl, ?_⟩⟩
  · refine (layout_iff rfl (getChainLayout_oneLayer rfl)).1 (keepsChunks_of_forall ?_ _)
      (onlyAppends_of_forall ?_ _)
    · intro f hf x y hy
      obtain rfl := List.mem_singleton.mp hf
      dsimp only at hy
      split_ifs at hy
      exact (Except.ok.inj hy).symm
    · intro f hf b
      obtain rfl := List.mem_singleton.mp hf
      exact List.prefix_append b _
  · rw [(layout_iff rfl (getChainLayout_oneLayer rfl)).2.1 rfl]
    intro h
    exact absurd (h (1 :: List.replicate 31 0) (by decide +kernel)) (by decide +kernel)

end SkipZFP.Plan.Transparent
