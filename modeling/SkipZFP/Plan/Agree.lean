import Mathlib.Data.Set.Function
import SkipZFP.Plan.Records

/-! # One numbering of the blocks

Three functions number the blocks of an array on their own: the planner by chunk and position in the
chunk, `write_meta` by unit and rank in the unit, `pack` by the rows it lays out.

* `bijOn_blockOfId`: the planner's ids are the blocks of the array, each once.
* `agrees_id`: the zone map entry the planner consults for an id and the bytes stored for it are about
  the same block.
* `planner_agrees`: both, together with what the planner lists. -/

namespace SkipZFP.Plan.Agree

open SkipZFP.Lib.Grid SkipZFP.Lib.Rows SkipZFP.Lib.Double SkipZFP.Lib.Float32
open SkipZFP.Codec.Config SkipZFP.Codec.Pack SkipZFP.Codec.Meta SkipZFP.Plan.Classify
open SkipZFP.Plan.Blocks SkipZFP.Plan.Shapes SkipZFP.Plan.Records

section Ids
variable (c : SkipZFPCodec) (shape chunk : Tri)

/-- The unit of the array that is unit `sub` of chunk `cid`. -/
def unitOfId (cid sub : ℕ) : Tri :=
  join (outer (c.unit chunk) chunk) (unravel (outer chunk shape) cid)
    (unravel (outer (c.unit chunk) chunk) sub)

/-- The block of the unit that block `b` of a chunk is. -/
def blockInUnit (b : ℕ) : Tri :=
  unrank (blocksOf (c.unit chunk)) c.order (b % volume (blocksOf (c.unit chunk)))

/-- The block of the array that is block `b` of chunk `cid`. -/
def blockOfId (cid b : ℕ) : Tri :=
  join (blocksOf (c.unit chunk))
    (unitOfId c shape chunk cid (b / volume (blocksOf (c.unit chunk)))) (blockInUnit c chunk b)

variable {c shape chunk} (hc : c.ChunkOk chunk) (hs : ∀ a, shape a % chunk a = 0)
include hc

theorem volume_unit_pos : 0 < volume (blocksOf (c.unit chunk)) := volume_pos hc.blocks_unit_pos

theorem inside_blockInUnit (b : ℕ) : Inside (blocksOf (c.unit chunk)) (blockInUnit c chunk b) :=
  inside_unrank _ (Nat.mod_lt _ (volume_unit_pos hc))

theorem div_lt {b : ℕ} (hb : b < volume (blocksOf chunk)) :
    b / volume (blocksOf (c.unit chunk)) < volume (outer (c.unit chunk) chunk) :=
  Nat.div_lt_of_lt_mul (by rwa [Nat.mul_comm, ← hc.volume_blocks])

include hs

theorem outer_shape :
    outer (c.unit chunk) shape = scale (outer chunk shape) (outer (c.unit chunk) chunk) :=
  (units_planArgs hc hs).symm

theorem blocksOf_shape :
    blocksOf shape = scale (outer (c.unit chunk) shape) (blocksOf (c.unit chunk)) := by
  have hchunk := hc.blocksOf_eq
  funext a
  obtain ⟨m, hm⟩ := Nat.dvd_of_mod_eq_zero (hs a)
  obtain ⟨k, hk⟩ := Nat.dvd_of_mod_eq_zero (hc.block a)
  have hca := congrFun hchunk a
  rw [outer_shape hc hs, ← scale_scale, ← hchunk]
  show shape a / blockDim = shape a / chunk a * (chunk a / blockDim)
  have h4 : 0 < blockDim := Nat.succ_pos 3
  rw [hm, Nat.mul_div_cancel_left _ (hc.pos a), hk, Nat.mul_div_cancel_left _ h4, Nat.mul_assoc,
    Nat.mul_div_cancel_left _ h4, Nat.mul_comm]

theorem inside_unitOfId {cid sub : ℕ} (hcid : cid < volume (outer chunk shape))
    (hsub : sub < volume (outer (c.unit chunk) chunk)) :
    Inside (outer (c.unit chunk) shape) (unitOfId c shape chunk cid sub) := by
  rw [outer_shape hc hs]
  exact inside_join (inside_unravel hcid) (inside_unravel hsub)

/-- **The planner's ids number the blocks of the array**, each exactly once. -/
theorem bijOn_blockOfId : Set.BijOn (fun q : ℕ × ℕ => blockOfId c shape chunk q.1 q.2)
    {q | q.1 < volume (outer chunk shape) ∧ q.2 < volume (blocksOf chunk)}
    {B | Inside (blocksOf shape) B} := by
  refine ⟨?_, ?_, ?_⟩
  · rintro ⟨cid, b⟩ ⟨hcid, hb⟩
    show Inside (blocksOf shape) _
    rw [blocksOf_shape hc hs]
    exact inside_join (inside_unitOfId hc hs hcid (div_lt hc hb)) (inside_blockInUnit hc b)
  · rintro ⟨cid, b⟩ ⟨hcid, hb⟩ ⟨cid', b'⟩ ⟨hcid', hb'⟩ h
    dsimp only [blockOfId] at h
    have ho := congrArg (outer (blocksOf (c.unit chunk))) h
    have hi := congrArg (inner (blocksOf (c.unit chunk))) h
    rw [outer_join (inside_blockInUnit hc b), outer_join (inside_blockInUnit hc b')] at ho
    rw [inner_join (inside_blockInUnit hc b), inner_join (inside_blockInUnit hc b')] at hi
    have hsub := inside_unravel (div_lt hc hb)
    have hsub' := inside_unravel (div_lt hc hb')
    have hcc := congrArg (outer (outer (c.unit chunk) chunk)) ho
    have hss := congrArg (inner (outer (c.unit chunk) chunk)) ho
    simp only [unitOfId] at hcc hss
    rw [outer_join hsub, outer_join hsub'] at hcc
    rw [inner_join hsub, inner_join hsub'] at hss
    have e1 := congrArg (ravel (outer chunk shape)) hcc
    have e2 := congrArg (ravel (outer (c.unit chunk) chunk)) hss
    have e3 := congrArg (rank (blocksOf (c.unit chunk)) c.order) hi
    simp only [blockInUnit] at e3
    rw [ravel_unravel, ravel_unravel] at e1 e2
    rw [rank_unrank, rank_unrank] at e3
    rw [Prod.mk.injEq]
    refine ⟨e1, ?_⟩
    rw [← Nat.div_add_mod b (volume (blocksOf (c.unit chunk))), e2, e3, Nat.div_add_mod]
  · intro B hB
    replace hB : Inside (blocksOf shape) B := hB
    rw [blocksOf_shape hc hs] at hB
    have hU := inside_outer hB
    have hbi := inside_inner hB
    rw [outer_shape hc hs] at hU
    have hC := inside_outer hU
    have hS := inside_inner hU
    have hrank := rank_lt c.order hbi
    have hsub := ravel_lt hS
    refine ⟨(ravel (outer chunk shape) (outer (outer (c.unit chunk) chunk)
        (outer (blocksOf (c.unit chunk)) B)),
      ravel (outer (c.unit chunk) chunk) (inner (outer (c.unit chunk) chunk)
        (outer (blocksOf (c.unit chunk)) B)) * volume (blocksOf (c.unit chunk)) +
        rank (blocksOf (c.unit chunk)) c.order (inner (blocksOf (c.unit chunk)) B)),
      ⟨ravel_lt hC, ?_⟩, ?_⟩
    · show _ < volume (blocksOf chunk)
      rw [hc.volume_blocks]
      exact mul_add_lt hsub hrank
    · dsimp only [blockOfId, unitOfId, blockInUnit]
      rw [mul_add_div_of_lt hrank, mul_add_mod_of_lt hrank, unravel_ravel hC, unravel_ravel hS,
        unrank_rank _ hbi, join_outer_inner, join_outer_inner]

end Ids

/-! ### What is found for an id -/

/-- **The three numberings agree on an id**: unit `U` of the array and its block `bi` are the block of
the id, the planner's entry for the id is the one written for that block, and the id's bytes in the
chunk's object are that block's encoding, layer by layer. -/
structure Agrees (fl : ℚ → ℚ) (nat : Native F32) (c : SkipZFPCodec) (shape : Tri) (lt : Layout)
    (layer : ℕ) (data : Tri → F32) (zm : List UInt8) (cid b : ℕ) (U bi : Tri) : Prop where
  inside : Inside (outer lt.unitShape shape) U ∧ Inside (blocksOf lt.unitShape) bi
  block : blockOfId c shape lt.chunkShape cid b = join (blocksOf lt.unitShape) U bi
  values : ∀ r, (tileBox lt.unitShape U).view data (join blockShape bi r) =
    data (join blockShape (blockOfId c shape lt.chunkShape cid b) r)
  entry : IsEntry fl nat c layer lt.unitShape ((tileBox lt.unitShape U).view data) bi
    (recordAt zm lt.planArgs cid (b / lt.blocksPerUnit)) (b % lt.blocksPerUnit)
  bytes : ∀ j < c.layers.length,
    slice (pack nat c lt.chunkShape ((tileBox lt.chunkShape (unravel lt.gridShape cid)).view data))
        (lt.layerStarts.getD j 0 + b * lt.layerBytes.getD j 0)
        (lt.layerStarts.getD j 0 + b * lt.layerBytes.getD j 0 + lt.layerBytes.getD j 0) =
      slice (encodedBlock nat c.rate lt.unitShape ((tileBox lt.unitShape U).view data)
        (ravel (blocksOf lt.unitShape) bi)) (lt.layerBytes.take j).sum (lt.layerBytes.take (j + 1)).sum
  /-- The record lies in the zone map, and the entry in the record. -/
  bounds : lt.planArgs.uid cid (b / lt.blocksPerUnit) * lt.planArgs.metaSize + lt.planArgs.metaSize ≤
      zm.length ∧
    12 + (b % lt.blocksPerUnit * 2 + 1) < lt.planArgs.metaSize ∧
    (lt.planArgs.hasCodes →
      12 + 2 * lt.blocksPerUnit + b % lt.blocksPerUnit / 2 < lt.planArgs.metaSize)

section Agrees
variable {fl : ℚ → ℚ} {nat : Native F32} {c : SkipZFPCodec} {shape chunk : Tri} {data : Tri → F32}
  {zm : List UInt8} {layer : ℕ} (hc : c.ChunkOk chunk)
include hc

/-- The unit of a chunk, taken from the array or from the chunk. -/
theorem view_unit {o p : Tri} :
    (tileBox (c.unit chunk) p).view ((tileBox chunk o).view data) =
      (tileBox (c.unit chunk) (join (outer (c.unit chunk) chunk) o p)).view data := by
  funext r
  rw [view_tileBox, view_tileBox, view_tileBox, join_join, hc.scale_unit]

theorem agrees_id (hl : layer < c.layers.length) (hzm : writeMeta fl nat c shape chunk data = .ok zm)
    (size : ℕ) {cid b : ℕ} (hcid : cid < volume (outer chunk shape))
    (hb : b < volume (blocksOf chunk)) :
    Agrees fl nat c shape (layoutOf c shape chunk size) layer data (planMeta c layer (c.unit chunk) zm)
      cid b (unitOfId c shape chunk cid (b / volume (blocksOf (c.unit chunk))))
      (blockInUnit c chunk b) := by
  have hs := (writeMeta_rows hzm).1
  have hsub := div_lt hc hb
  have hU := inside_unitOfId hc hs hcid hsub
  have hbi := inside_blockInUnit hc b
  have hpos := volume_unit_pos hc
  have hmod := Nat.mod_lt b hpos
  obtain ⟨hlen, hslice⟩ := slice_planMeta hl hzm
  obtain ⟨r, hr, hrec⟩ := hslice _ hU
  have huid : (planArgs c shape chunk).uid cid (b / volume (blocksOf (c.unit chunk))) =
      ravel (outer (c.unit chunk) shape)
        (unitOfId c shape chunk cid (b / volume (blocksOf (c.unit chunk)))) := by
    rw [PlanArgs.uid_eq, units_planArgs hc hs, grid_planArgs hc]
    rfl
  have hrank : rank (blocksOf (c.unit chunk)) c.order (blockInUnit c chunk b) =
      b % volume (blocksOf (c.unit chunk)) := rank_unrank _ _ _
  refine ⟨⟨hU, hbi⟩, rfl, fun x => ?_, ?_, fun j hj => ?_, ?_, ?_, fun hcodes => ?_⟩
  · show data (join (c.unit chunk) _ (join blockShape (blockInUnit c chunk b) x)) = _
    rw [← scale_blocksOf hc.unit_block, ← join_join, scale_blocksOf hc.unit_block]
    rfl
  · show IsEntry fl nat c layer (c.unit chunk) _ _
      (recordAt (planMeta c layer (c.unit chunk) zm) (planArgs c shape chunk) cid
        (b / volume (blocksOf (c.unit chunk)))) (b % volume (blocksOf (c.unit chunk)))
    unfold recordAt
    rw [huid, ← hrank]
    have h := isEntry_planRow hl hr hbi
    rwa [← hrec] at h
  · have hrow := packRows_getElem? nat c hc ((tileBox chunk (unravel (outer chunk shape) cid)).view
      data) hsub hbi
    rw [hrank, Nat.div_add_mod'] at hrow
    rw [getD_layerStarts size hj]
    refine (slice_pack nat c hc ((tileBox chunk (unravel (outer chunk shape) cid)).view data)
      hb hj).trans ?_
    rw [List.getD_eq_getElem?_getD, hrow, Option.getD_some, view_unit hc]
    rfl
  · show (planArgs c shape chunk).uid cid (b / volume (blocksOf (c.unit chunk))) *
      planSize c (c.unit chunk) + planSize c (c.unit chunk) ≤ _
    rw [huid, hlen, ← Nat.succ_mul]
    exact Nat.mul_le_mul_right _ (ravel_lt hU)
  · show _ < planSize c (c.unit chunk)
    rw [planSize_eq]
    show 12 + (b % volume (blocksOf (c.unit chunk)) * 2 + 1) < _
    omega
  · show _ < planSize c (c.unit chunk)
    have hbits : c.blockErrorBits ≠ 0 := by
      have h := hasCodes_planArgs c shape chunk hpos
      rw [show (planArgs c shape chunk).hasCodes = true from hcodes] at h
      exact of_decide_eq_true h.symm
    rw [planSize_eq, if_neg hbits]
    show 12 + 2 * volume (blocksOf (c.unit chunk)) + b % volume (blocksOf (c.unit chunk)) / 2 < _
    unfold codeBytes
    omega

end Agrees

/-- **The planner, the payload writer and the zone map writer agree on which block is which.** For
every codec, every chunk shape it accepts, every array of whole chunks and every layer: the planner's
ids are the blocks of the array, each once; the zone map entry it consults for an id is the one
written for the block whose bytes `pack` stores under that id; and it lists ids in increasing order,
each with its own state and error bound, and counts every block once. -/
theorem planner_agrees {fl : ℚ → ℚ} {nat : Native F32} {c : SkipZFPCodec} {l : List ℕ}
    {shape chunk : Tri} {lt : Layout} {data : Tri → F32} {zm : List UInt8} {layer : ℕ}
    (hchunk : c.chunkShape l = .ok chunk) (hlt : getLayout c shape chunk = .ok lt)
    (hzm : writeMeta fl nat c shape chunk data = .ok zm) (hl : layer < c.layers.length)
    (hfits : lt.planArgs.fits) :
    let m := planMeta c layer lt.unitShape zm
    Set.BijOn (fun q : ℕ × ℕ => blockOfId c shape chunk q.1 q.2)
      {q | q.1 < lt.planArgs.nChunk ∧ q.2 < lt.planArgs.blocksPerChunk} {B | Inside (blocksOf shape) B} ∧
    (∀ cid < lt.planArgs.nChunk, ∀ b < lt.planArgs.blocksPerChunk,
      ∃ U bi, Agrees fl nat c shape lt layer data m cid b U bi) ∧
    ∀ (lo hi : Dbl) (keepIn : Bool) (out : List Listed), lt.planArgs.totalBlocks ≤ out.length →
      ∃ r, planBlocks fl m lt.planArgs lo hi keepIn out = .ok r ∧
        (r.listed.take r.nListed).length = r.nListed ∧
        (r.listed.take r.nListed).Pairwise idLt ∧
        (∀ e, e ∈ r.listed.take r.nListed ↔
          e.chunk < lt.planArgs.nChunk ∧ e.block < lt.planArgs.blocksPerChunk ∧
          e.state = stateAt fl m lt.planArgs lo hi e.chunk e.block ∧
          e.eps = errorAt fl m lt.planArgs e.chunk e.block ∧ isListed keepIn e.state) ∧
        r.nIn + r.nOut + (r.listed.take r.nListed).countP (·.state = .MAYBE) =
          lt.planArgs.totalBlocks := by
  have hc := c.chunkOk_of_chunkShape hchunk
  obtain ⟨hs, size, rfl⟩ := getLayout_ok hlt
  have hn : (layoutOf c shape chunk size).planArgs.nChunk = volume (outer chunk shape) :=
    congrArg volume (grid_planArgs hc)
  have hb : (layoutOf c shape chunk size).planArgs.blocksPerChunk = volume (blocksOf chunk) :=
    hc.volume_blocks.symm
  have hshape : (layoutOf c shape chunk size).planArgs.shapeOk := shapeOk_planArgs hc
  refine ⟨?_, fun cid hcid b hbb => ?_, fun lo hi keepIn out hout => ?_⟩
  · rw [hn, hb]
    exact bijOn_blockOfId hc hs
  · exact ⟨_, _, agrees_id hc hl hzm size (hn ▸ hcid) (hb ▸ hbb)⟩
  · obtain ⟨hf1, hf2, hf3, hf4⟩ := hfits
    obtain ⟨r, hr, hlist, hlen, hin, hout'⟩ := planBlocks_eq fl
      (planMeta c layer (c.unit chunk) zm) lo hi keepIn out hshape
      ⟨hf1, lt_of_le_of_lt hf3 (by decide), hf2, hout, hf3, hf4⟩
    refine ⟨r, hr, ?_, ?_, fun e => ?_, ?_⟩
    · rw [hlist, hlen]
    · rw [hlist]; exact pairwise_listing keepIn
    · rw [hlist]; exact mem_listing
    · rw [hlist, hin, hout', countP_maybe_listing]
      exact count_states _ _ _ _ _

/-- Two chunks of two units of two blocks: the eight ids are the blocks of the array, each has its record
and its bytes, and a query lists them in order. -/
theorem planner_agrees_twoLayers : ∃ zm lt,
    writeMeta id (firstValue F32.bytes F32.ofBytes) twoLayers ![8, 8, 8] ![8, 4, 8]
      (fun _ => F32.fltMax) = .ok zm ∧
    getLayout twoLayers ![8, 8, 8] ![8, 4, 8] = .ok lt ∧
    Set.BijOn (fun q : ℕ × ℕ => blockOfId twoLayers ![8, 8, 8] ![8, 4, 8] q.1 q.2)
      {q | q.1 < 2 ∧ q.2 < 4} {B | Inside (blocksOf ![8, 8, 8]) B} ∧
    (∀ cid < 2, ∀ b < 4, ∃ U bi, Agrees id (firstValue F32.bytes F32.ofBytes) twoLayers ![8, 8, 8] lt 1
      (fun _ => F32.fltMax) (planMeta twoLayers 1 lt.unitShape zm) cid b U bi) ∧
    ∀ out : List Listed, 8 ≤ out.length → ∃ r,
      planBlocks id (planMeta twoLayers 1 lt.unitShape zm) lt.planArgs (.fin 0) .pinf true out = .ok r ∧
        (r.listed.take r.nListed).Pairwise idLt ∧
        r.nIn + r.nOut + (r.listed.take r.nListed).countP (·.state = .MAYBE) = 8 := by
  have hs : ∀ a, (![8, 8, 8] : Tri) a % (![8, 4, 8] : Tri) a = 0 := by decide
  obtain ⟨zm, hzm⟩ := exists_writeMeta twoLayers rfl hs id
    (firstValue F32.bytes F32.ofBytes) fun _ => F32.fltMax
  have hlt := getLayout_eq (twoLayers.chunkOk_of_chunkShape chunkShape_twoLayers) hs (by decide)
  obtain ⟨hblocks, hagree, hlisted⟩ :=
    planner_agrees chunkShape_twoLayers hlt hzm (by decide : 1 < twoLayers.layers.length) (by decide)
  refine ⟨zm, _, hzm, hlt, hblocks, hagree, fun out hout => ?_⟩
  obtain ⟨r, hr, -, hsorted, -, hcount⟩ := hlisted (.fin 0) .pinf true out hout
  exact ⟨r, hr, hsorted, hcount⟩

end SkipZFP.Plan.Agree
