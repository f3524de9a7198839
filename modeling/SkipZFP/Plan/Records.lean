import SkipZFP.Lib.Loops
import SkipZFP.Plan.Shapes

/-! # From the written records to the planner's

`writeMeta` stores a record for every unit, in C order; `planMeta` keeps the error bound of one layer
in each, which is the form the planner reads. `slice_planMeta`: at the offset of a unit the planner finds
that unit's record with the bound of the chosen layer. `isEntry_planRow`: it holds the unit's range and
bound, and at the rank of a block that block's offsets and code. -/

namespace SkipZFP.Plan.Records

open SkipZFP.Lib.Grid SkipZFP.Lib.Rows SkipZFP.Lib.Loops SkipZFP.Lib.Double SkipZFP.Lib.Float32
open SkipZFP.Codec.Config SkipZFP.Codec.Pack SkipZFP.Codec.Meta SkipZFP.Plan.Classify
open SkipZFP.Plan.Blocks SkipZFP.Plan.Shapes

section Layer
variable (c : SkipZFPCodec) (layer : ℕ)

/-- A record with the bound of one layer only. -/
def planRow (r : List UInt8) : List UInt8 :=
  slice r 0 8 ++ slice r (8 + 4 * layer) (12 + 4 * layer) ++
    slice r (8 + 4 * c.layers.length) r.length

/-- **`plan_meta`**. -/
def planMeta (unit : Tri) (zm : List UInt8) : List UInt8 :=
  if c.layers.length = 1 then zm
  else ((reshape (zm.length / metaSize c unit) (metaSize c unit) zm).map (planRow c layer)).flatten

end Layer

/-- **The entry of a block**: record `r` is that of the unit with values `y` for layer `layer`, and
position `pos` of it is about the unit's block `bi`. -/
structure IsEntry (fl : ℚ → ℚ) (nat : Native F32) (c : SkipZFPCodec) (layer : ℕ) (unit : Tri)
    (y : Tri → F32) (bi : Tri) (r : List UInt8) (pos : ℕ) : Prop where
  min : recMin r = unitMin unit y
  max : recMax r = unitMax unit y
  eps : recEps r = epsOf (maxErr unit y (decoded nat (c.layers.getD layer 0) unit y) fl)
  offsets : [recLow r pos, recHigh r pos] =
    offsetsOf fl (unitMin unit y) (unitMax unit y) (blockMin y bi) (blockMax y bi)
  codes : c.blockErrorBits ≠ 0 → ∃ q codes,
    blockErrorCodes unit y (decoded nat c.rate unit y) fl (recEps r) = .ok q ∧
    recCodes r (volume (blocksOf unit)) true = some codes ∧
    some (codeAt codes pos) = (q[ravel (blocksOf unit) bi]?).map UInt8.toNat

section Row
variable {fl : ℚ → ℚ} {nat : Native F32} {c : SkipZFPCodec} {unit : Tri} {y : Tri → F32}
  {r : List UInt8}

/-- The offsets of a unit's blocks, in C order. -/
def offsetRows (fl : ℚ → ℚ) (unit : Tri) (y : Tri → F32) : List (List UInt8) :=
  (unitBlocks unit).map fun b =>
    offsetsOf fl (unitMin unit y) (unitMax unit y) (blockMin y b) (blockMax y b)

variable (fl unit y) in
theorem length_offsetRows : (offsetRows fl unit y).length = volume (blocksOf unit) := by
  simp [offsetRows, unitBlocks, length_indices]

theorem length_of_mem_offsetRows {o : List UInt8} (ho : o ∈ offsetRows fl unit y) : o.length = 2 :=
  length_of_mem_offsets o ho

/-- The codes at the end of a record, if any. -/
def IsCodes (fl : ℚ → ℚ) (nat : Native F32) (c : SkipZFPCodec) (unit : Tri) (y : Tri → F32)
    (eps : F32) (codes : List UInt8) : Prop :=
  if c.blockErrorBits = 0 then codes = []
  else ∃ q, blockErrorCodes unit y (decoded nat c.rate unit y) fl eps = .ok q ∧
    codes = packCodes (rankedBytes (blockRank unit c.order) q)

def layerEps (fl : ℚ → ℚ) (nat : Native F32) (unit : Tri) (y : Tri → F32) (rate : ℚ) : F32 :=
  epsOf (maxErr unit y (decoded nat rate unit y) fl)

theorem writeMetaOne_layout (h : writeMetaOne fl nat c unit y = .ok r) :
    ∃ codes, IsCodes fl nat c unit y (layerEps fl nat unit y c.rate) codes ∧
      r = ((unitMin unit y).bytes ++ (unitMax unit y).bytes) ++
        ((c.layers.map fun rate => (layerEps fl nat unit y rate).bytes).flatten ++
          ((ranked (blockRank unit c.order) (offsetRows fl unit y)).flatten ++ codes)) := by
  have hlast : (c.layers.map fun rate => szfpMeta unit y (decoded nat rate unit y) fl).getLastD [] =
      szfpMeta unit y (decoded nat c.rate unit y) fl := by
    rw [List.getLastD_eq_getLast?, List.getLast?_map, c.last]
    rfl
  have hm : ∀ rate, szfpMeta unit y (decoded nat rate unit y) fl =
      ((unitMin unit y).bytes ++ (unitMax unit y).bytes) ++ ((layerEps fl nat unit y rate).bytes ++
        (offsetRows fl unit y).flatten) := fun rate => by
    simp only [szfpMeta, offsetRows, layerEps, List.append_assoc]
  have h8 : ((unitMin unit y).bytes ++ (unitMax unit y).bytes).length = 8 := rfl
  have h12 : ∀ rate, slice (szfpMeta unit y (decoded nat rate unit y) fl) 8 12 =
      (layerEps fl nat unit y rate).bytes := fun rate => by
    rw [hm, slice_append_add h8 _ 0 4, slice_append_of_length (F32.length_bytes _)]
  have hoffs : reshape (blockRank unit c.order).length 2
      (slice (szfpMeta unit y (decoded nat c.rate unit y) fl) 12
        (szfpMeta unit y (decoded nat c.rate unit y) fl).length) = offsetRows fl unit y := by
    have h12' : (((unitMin unit y).bytes ++ (unitMax unit y).bytes) ++
      (layerEps fl nat unit y c.rate).bytes).length = 12 := rfl
    rw [hm, ← List.append_assoc, slice_append_end h12', length_blockRank,
      ← length_offsetRows fl unit y, reshape_flatten fun _ => length_of_mem_offsetRows]
  unfold writeMetaOne at h
  dsimp only at h
  rw [hlast, hoffs, h12, F32.ofBytes_bytes] at h
  have hparts : slice (szfpMeta unit y (decoded nat c.rate unit y) fl) 0 8 ++
      (List.map (fun m => slice m 8 12) (c.layers.map fun rate =>
        szfpMeta unit y (decoded nat rate unit y) fl)).flatten ++
      (ranked (blockRank unit c.order) (offsetRows fl unit y)).flatten =
        ((unitMin unit y).bytes ++ (unitMax unit y).bytes) ++
        ((c.layers.map fun rate => (layerEps fl nat unit y rate).bytes).flatten ++
          (ranked (blockRank unit c.order) (offsetRows fl unit y)).flatten) := by
    rw [List.map_map, hm, slice_append_of_length h8, List.append_assoc]
    congr 3
  rw [hparts] at h
  unfold IsCodes
  split_ifs at h ⊢ with hb
  · cases h
    exact ⟨[], rfl, by rw [List.append_nil]⟩
  · split at h
    · cases h
    · rename_i q hq
      cases h
      exact ⟨_, ⟨q, hq, rfl⟩, by simp only [List.append_assoc]⟩

theorem length_packCodes : ∀ l : List UInt8, (packCodes l).length = (l.length + 1) / 2
  | [] => rfl
  | [_] => by simp [packCodes]
  | _ :: _ :: l => by
    rw [packCodes, List.length_cons, length_packCodes l]
    simp only [List.length_cons]
    omega

theorem length_rankedOffsets :
    (ranked (blockRank unit c.order) (offsetRows fl unit y)).flatten.length =
      2 * volume (blocksOf unit) := by
  have h : ∀ o ∈ ranked (blockRank unit c.order) (offsetRows fl unit y), o.length = 2 :=
    forall_mem_scatter_rank (P := fun o => o.length = 2) [] (length_offsetRows _ _ _)
      fun _ => length_of_mem_offsetRows
  rw [length_flatten_rows h, length_ranked, length_offsetRows, Nat.mul_comm]

variable (fl nat unit y) in
theorem length_eps (l : List ℚ) :
    (l.map fun rate => (layerEps fl nat unit y rate).bytes).flatten.length = 4 * l.length := by
  rw [length_flatten_rows (w := 4), List.length_map, Nat.mul_comm]
  intro r hr
  obtain ⟨rate, -, rfl⟩ := List.mem_map.mp hr
  rfl

theorem length_writeMetaOne (h : writeMetaOne fl nat c unit y = .ok r) :
    r.length = metaSize c unit := by
  obtain ⟨codes, hcodes, rfl⟩ := writeMetaOne_layout h
  have hlen : codes.length =
      if c.blockErrorBits = 0 then 0 else (volume (blocksOf unit) + 1) / 2 := by
    unfold IsCodes at hcodes
    split_ifs at hcodes ⊢
    · rw [hcodes]; rfl
    · obtain ⟨q, hq, rfl⟩ := hcodes
      rw [length_packCodes, rankedBytes, length_scatter, List.length_replicate,
        length_blockErrorCodes hq, unitBlocks, length_indices]
  simp only [List.length_append, length_eps, length_rankedOffsets, hlen, metaSize, F32.length_bytes]
  omega

theorem planRow_layout {layer : ℕ} (hl : layer < c.layers.length)
    (h : writeMetaOne fl nat c unit y = .ok r) :
    ∃ codes, IsCodes fl nat c unit y (layerEps fl nat unit y c.rate) codes ∧
      planRow c layer r = (unitMin unit y).bytes ++ ((unitMax unit y).bytes ++
        ((layerEps fl nat unit y (c.layers.getD layer 0)).bytes ++
          ((ranked (blockRank unit c.order) (offsetRows fl unit y)).flatten ++ codes))) := by
  obtain ⟨codes, hcodes, rfl⟩ := writeMetaOne_layout h
  refine ⟨codes, hcodes, ?_⟩
  have h8 : ((unitMin unit y).bytes ++ (unitMax unit y).bytes).length = 8 := rfl
  have hrows : ∀ r ∈ c.layers.map fun rate => (layerEps fl nat unit y rate).bytes, r.length = 4 := by
    intro r hr
    obtain ⟨rate, -, rfl⟩ := List.mem_map.mp hr
    rfl
  have hk : layer < (c.layers.map fun rate => (layerEps fl nat unit y rate).bytes).length := by
    simpa using hl
  have hlen := length_eps fl nat unit y c.layers
  have heps := slice_flatten_rows hrows hk
  unfold planRow
  rw [slice_append_of_length h8, show 12 + 4 * layer = 8 + (4 * layer + 4) by omega,
    slice_append_add h8, Nat.mul_comm 4 layer, slice_append_left (by rw [hlen]; omega), heps,
    List.getElem_map, ← List.getD_eq_getElem _ 0 hl, ← List.append_assoc,
    slice_append_end (by rw [List.length_append, hlen, h8])]
  simp only [List.append_assoc]

theorem length_planRow_of_length {c : SkipZFPCodec} {layer : ℕ} (hl : layer < c.layers.length)
    {unit : Tri} {r : List UInt8} (hr : r.length = metaSize c unit) :
    (planRow c layer r).length = planSize c unit := by
  unfold planRow planSize
  have hm := le_metaSize c unit
  rw [List.length_append, List.length_append, length_slice, length_slice, length_slice] <;> omega

theorem length_planRow {layer : ℕ} (hl : layer < c.layers.length)
    (h : writeMetaOne fl nat c unit y = .ok r) : (planRow c layer r).length = planSize c unit :=
  length_planRow_of_length hl (length_writeMetaOne h)

/-- **The planner's record holds the block's entry at the block's rank.** -/
theorem isEntry_planRow {layer : ℕ} (hl : layer < c.layers.length)
    (h : writeMetaOne fl nat c unit y = .ok r) {bi : Tri} (hbi : Inside (blocksOf unit) bi) :
    IsEntry fl nat c layer unit y bi (planRow c layer r) (rank (blocksOf unit) c.order bi) := by
  obtain ⟨codes, hcodes, hr⟩ := planRow_layout hl h
  have hk := ravel_lt hbi
  have hdrop : (planRow c layer r).drop 12 =
      (ranked (blockRank unit c.order) (offsetRows fl unit y)).flatten ++ codes := by rw [hr]; rfl
  have heps : recEps (planRow c layer r) = layerEps fl nat unit y (c.layers.getD layer 0) := by
    rw [hr]; exact F32.ofBytes_bytes _
  refine ⟨by rw [hr]; exact F32.ofBytes_bytes _, by rw [hr]; exact F32.ofBytes_bytes _, heps, ?_,
    fun hb => ?_⟩
  · have hrows : ∀ o ∈ ranked (blockRank unit c.order) (offsetRows fl unit y), o.length = 2 :=
      forall_mem_scatter_rank (P := fun o => o.length = 2) [] (length_offsetRows _ _ _)
        fun _ => length_of_mem_offsetRows
    have hrow : (ranked (blockRank unit c.order) (offsetRows fl unit y))[rank (blocksOf unit)
        c.order bi]? = some (offsetsOf fl (unitMin unit y) (unitMax unit y) (blockMin y bi)
          (blockMax y bi)) := by
      rw [ranked, scatter_rank [] (length_offsetRows _ _ _) hbi, offsetRows, unitBlocks, List.getElem?_map,
        indices_eq, List.getElem?_map, List.getElem?_range hk, Option.map_some, Option.map_some,
        unravel_ravel hbi]
    obtain ⟨o0, o1, ho⟩ := List.length_eq_two.mp
      (hrows _ (List.mem_of_getElem? hrow))
    rw [ho] at hrow ⊢
    have h0 := getElem?_flatten_rows hrows hrow (j := 0) (by omega)
    have h1 := getElem?_flatten_rows hrows hrow (j := 1) (by omega)
    rw [Nat.add_zero] at h0
    unfold recLow recHigh
    rw [hdrop, List.getD_eq_getElem?_getD, List.getD_eq_getElem?_getD,
      List.getElem?_append_left (List.getElem?_eq_some_iff.mp h0).1,
      List.getElem?_append_left (List.getElem?_eq_some_iff.mp h1).1, h0, h1]
    rfl
  · unfold IsCodes at hcodes
    rw [if_neg hb] at hcodes
    obtain ⟨q, hq, rfl⟩ := hcodes
    have hlast : c.layers.getD layer 0 = c.rate := by
      have h1 := c.bitsSingle hb
      rw [← c.getD_last, h1]
      congr 1
      omega
    rw [heps, hlast]
    refine ⟨q, packCodes (rankedBytes (blockRank unit c.order) q), hq, ?_, ?_⟩
    · unfold recCodes
      rw [if_pos rfl, hdrop, List.drop_left' length_rankedOffsets]
    · have hlen : q.length = volume (blocksOf unit) := by
        rw [length_blockErrorCodes hq, unitBlocks, length_indices]
      have hget := scatter_rank (σ := c.order) (0 : UInt8) hlen hbi
      have h16 : ∀ x ∈ rankedBytes (blockRank unit c.order) q, x.toNat < 16 :=
        forall_mem_scatter_rank (P := fun x : UInt8 => x.toNat < 16) 0 hlen
          fun x hx => toNat_lt_of_mem_blockErrorCodes hq hx
      have hq' := List.getElem?_eq_getElem (l := q) (i := ravel (blocksOf unit) bi) (by rwa [hlen])
      rw [hq'] at hget ⊢
      rw [Option.map_some, codeAt_packCodes _ h16 hget]

end Row

/-! ### The whole zone map -/

section Array
variable {fl : ℚ → ℚ} {nat : Native F32} {c : SkipZFPCodec} {shape chunk : Tri} {data : Tri → F32}
  {zm : List UInt8}

theorem writeMeta_rows (h : writeMeta fl nat c shape chunk data = .ok zm) :
    (∀ a, shape a % chunk a = 0) ∧ ∃ rows : List (List UInt8), zm = rows.flatten ∧
      rows.length = volume (outer (c.unit chunk) shape) ∧
      ∀ idx, Inside (outer (c.unit chunk) shape) idx → ∃ r,
        rows[ravel (outer (c.unit chunk) shape) idx]? = some r ∧
          writeMetaOne fl nat c (c.unit chunk) ((tileBox (c.unit chunk) idx).view data) = .ok r := by
  unfold writeMeta at h
  dsimp only at h
  split_ifs at h with hdiv
  push Not at hdiv
  split at h
  · cases h
  · rename_i rows hrows
    cases h
    obtain ⟨hlen, hget⟩ := getElem?_mapM_ok hrows
    refine ⟨hdiv, rows, rfl, by rw [hlen, length_indices], fun idx hidx => hget _ idx ?_⟩
    rw [indices_eq, List.getElem?_map, List.getElem?_range (ravel_lt hidx), Option.map_some,
      unravel_ravel hidx]

variable (c) in
/-- Without codes every array has a zone map. -/
theorem exists_writeMeta (hb : c.blockErrorBits = 0) (hs : ∀ a, shape a % chunk a = 0)
    (fl : ℚ → ℚ) (nat : Native F32) (data : Tri → F32) :
    ∃ zm, writeMeta fl nat c shape chunk data = .ok zm := by
  have hone : ∀ idx, ∃ r, writeMetaOne fl nat c (c.unit chunk)
      ((tileBox (c.unit chunk) idx).view data) = .ok r := fun idx => by
    unfold writeMetaOne
    dsimp only
    rw [if_pos hb]
    exact ⟨_, rfl⟩
  choose r hr using hone
  unfold writeMeta
  dsimp only
  rw [if_neg (by push Not; exact hs), mapM_ok fun idx _ => hr idx]
  exact ⟨_, rfl⟩

/-- Dropping the other layers' bounds, record by record. -/
theorem planMeta_flatten {layer : ℕ} (hl : layer < c.layers.length) {unit : Tri}
    {rows : List (List UInt8)} (hrows : ∀ r ∈ rows, r.length = metaSize c unit) :
    planMeta c layer unit rows.flatten = (rows.map (planRow c layer)).flatten := by
  unfold planMeta
  split_ifs with h1
  · have hid : ∀ r ∈ rows, planRow c layer r = r := by
      intro r hr
      have hlen := hrows r hr
      have h0 : layer = 0 := by omega
      have h12 := le_metaSize c unit
      unfold planRow
      rw [h1, h0, slice_append_slice _ (by omega) (by omega),
        slice_append_slice _ (by omega) (by omega), slice_full]
    rw [List.map_congr_left hid, List.map_id']
  · rw [length_flatten_rows hrows, Nat.mul_div_cancel _ (by have := le_metaSize c unit; omega),
      reshape_flatten hrows]

theorem mem_rows_length {rows : List (List UInt8)}
    (hlen : rows.length = volume (outer (c.unit chunk) shape))
    (hget : ∀ idx, Inside (outer (c.unit chunk) shape) idx → ∃ r,
      rows[ravel (outer (c.unit chunk) shape) idx]? = some r ∧
        writeMetaOne fl nat c (c.unit chunk) ((tileBox (c.unit chunk) idx).view data) = .ok r) :
    ∀ r ∈ rows, ∃ y, writeMetaOne fl nat c (c.unit chunk) y = .ok r := by
  intro r hr
  obtain ⟨k, hk, rfl⟩ := List.getElem_of_mem hr
  rw [hlen] at hk
  obtain ⟨r', hr', hone⟩ := hget _ (inside_unravel hk)
  rw [ravel_unravel, List.getElem?_eq_getElem (by rwa [hlen]), Option.some_inj] at hr'
  rw [hr']
  exact ⟨_, hone⟩

theorem slice_planMeta {layer : ℕ} (hl : layer < c.layers.length)
    (h : writeMeta fl nat c shape chunk data = .ok zm) :
    (planMeta c layer (c.unit chunk) zm).length =
        volume (outer (c.unit chunk) shape) * planSize c (c.unit chunk) ∧
      ∀ idx, Inside (outer (c.unit chunk) shape) idx → ∃ r,
        writeMetaOne fl nat c (c.unit chunk) ((tileBox (c.unit chunk) idx).view data) = .ok r ∧
        slice (planMeta c layer (c.unit chunk) zm)
          (ravel (outer (c.unit chunk) shape) idx * planSize c (c.unit chunk))
          (ravel (outer (c.unit chunk) shape) idx * planSize c (c.unit chunk) +
            planSize c (c.unit chunk)) = planRow c layer r := by
  obtain ⟨-, rows, rfl, hlen, hget⟩ := writeMeta_rows h
  have hone := mem_rows_length hlen hget
  rw [planMeta_flatten hl fun r hr => by
    obtain ⟨y, hy⟩ := hone r hr
    exact length_writeMetaOne hy]
  have hplan : ∀ r ∈ rows.map (planRow c layer), r.length = planSize c (c.unit chunk) := by
    intro r hr
    obtain ⟨r', hr', rfl⟩ := List.mem_map.mp hr
    obtain ⟨y, hy⟩ := hone r' hr'
    exact length_planRow hl hy
  refine ⟨by rw [length_flatten_rows hplan, List.length_map, hlen], fun idx hidx => ?_⟩
  obtain ⟨r, hr, hwrite⟩ := hget idx hidx
  have hk : ravel (outer (c.unit chunk) shape) idx < (rows.map (planRow c layer)).length := by
    rw [List.length_map, hlen]
    exact ravel_lt hidx
  have hr' := (List.getElem?_eq_some_iff.mp hr).2
  refine ⟨r, hwrite, ?_⟩
  rw [slice_flatten_rows hplan hk, List.getElem_map, hr']

end Array

end SkipZFP.Plan.Records
