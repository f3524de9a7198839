import SkipZFP.Plan.Agree
import SkipZFP.Plan.Codes
import SkipZFP.Plan.Slack

/-! # States that are right

The planner decides from a zone map entry alone. For finite values that libzfp decodes with errors in the
range of a float32, none of which is rounded down, what it decides is right: for the original values and
for the decoded ones, in exact arithmetic and in any rounding to 53 bits.

* `epsOf_of_small`: the stored bound covers all errors.
* `recError_isEntry`: so does the bound the planner takes for a block, with error codes or without.
* `sound_isEntry`, `sound_stateAt`: **the state of a block is right for its values**. Float32 values are
  kept by the rounding of the widened bounds.
* `listedError_isEntry`, `errorAt_fin`: the bound listed for a block is a number.
* `decodedAt_fin`: and so are its decoded values. -/

namespace SkipZFP.Plan.Right

open SkipZFP.Lib.Grid SkipZFP.Lib.Rows SkipZFP.Lib.Double SkipZFP.Lib.Float32 SkipZFP.Lib.Precision
open SkipZFP.Lib.Next SkipZFP.Codec.Config SkipZFP.Codec.Pack SkipZFP.Codec.Meta SkipZFP.Plan.Classify
open SkipZFP.Plan.Blocks SkipZFP.Plan.Shapes SkipZFP.Plan.Records SkipZFP.Plan.Agree SkipZFP.Plan.Slack
open SkipZFP.Plan.Codes (hasBits_product)

/-! ### The error bound of a block -/

/-- **No error is rounded down**: the computed difference of a value and its decoded one is not below the
exact one. -/
def KeptErrors (fl : ℚ → ℚ) (shape : Tri) (chunk dec : Tri → F32) : Prop :=
  ∀ i ∈ unitCells shape, errAt chunk dec id i ≤ errAt chunk dec fl i

theorem hasBits_maxFloat : HasBits 53 maxFloat := hasBits_float F32.val_fltMax

section Bound
variable {fl : ℚ → ℚ} (hfl : IsRounding 53 fl) {shape : Tri} {chunk dec : Tri → F32}
  (hfin : FiniteOn chunk (unitCells shape)) (h : SmallErrors shape chunk dec)
include hfin h

theorem exists_error {i : Tri} (hi : i ∈ unitCells shape) : ∃ v d, (chunk i).val = .fin v ∧
    (dec i).val = .fin d ∧ |v - d| ≤ maxFloat := by
  obtain ⟨v, hv⟩ := hfin i hi
  obtain ⟨hlow, hhigh⟩ := between_of_errAt_le hv (h i hi)
  obtain ⟨d, hd⟩ := Dbl.exists_fin_of_between hlow hhigh
  rw [hd, Dbl.fin_le_fin] at hlow hhigh
  exact ⟨v, d, hv, hd, abs_le.mpr ⟨by linarith, by linarith⟩⟩

include hfl

theorem errAt_fin {i : Tri} (hi : i ∈ unitCells shape) :
    ∃ x, errAt chunk dec fl i = .fin x ∧ x ≤ maxFloat := by
  obtain ⟨v, d, hv, hd, hle⟩ := exists_error hfin h hi
  exact ⟨|fl (v - d)|, by rw [errAt, hv, hd, Dbl.sub_fin, Dbl.abs_fin],
    hfl.abs_le_of_le hasBits_maxFloat hle⟩

/-- **The stored bound covers all computed errors.** -/
theorem epsOf_of_small : ∃ e, (epsOf (maxErr shape chunk dec fl)).val = .fin e ∧ 0 ≤ e ∧ e ≤ maxFloat ∧
    ∀ i ∈ unitCells shape, errAt chunk dec fl i ≤ .fin e := by
  obtain ⟨-, hnonneg, hle, hatt⟩ := maxErr_spec shape chunk dec fl
  have hmax : maxErr shape chunk dec fl ≤ .fin maxFloat := by
    rcases hatt with hzero | ⟨i, hi, hmax⟩
    · rw [hzero, Dbl.fin_le_fin]
      norm_num [maxFloat]
    · obtain ⟨x, hx, hxle⟩ := errAt_fin hfl hfin h hi
      rw [← hmax, hx]
      exact (Dbl.fin_le_fin _ _).mpr hxle
  obtain ⟨q, hq⟩ := Dbl.exists_fin_of_between hnonneg hmax
  rw [hq, Dbl.fin_le_fin] at hnonneg hmax
  obtain ⟨e, he, hqe⟩ := F32.castUp_of_le hnonneg hmax (Or.inl rfl)
  refine ⟨e, by rw [hq]; exact he, hnonneg.trans hqe, (abs_le.mp (F32.abs_le_of_val he)).2, fun i hi => ?_⟩
  obtain ⟨x, hx, -⟩ := errAt_fin hfl hfin h hi
  have hmem := hle i hi (by rw [hx]; simp)
  rw [hq] at hmem
  exact Dbl.le_trans hmem ((Dbl.fin_le_fin _ _).mpr hqe)

end Bound

theorem getElem?_unitBlocks {unit bi : Tri} (hbi : Inside (blocksOf unit) bi) :
    (unitBlocks unit)[ravel (blocksOf unit) bi]? = some bi := by
  rw [unitBlocks, indices_eq, List.getElem?_map, List.getElem?_range (ravel_lt hbi), Option.map_some,
    unravel_ravel hbi]

section Entry
variable {fl : ℚ → ℚ} (hfl : IsRounding 53 fl) {nat : Native F32} {c : SkipZFPCodec} {layer : ℕ}
  {unit : Tri} {y : Tri → F32} {bi : Tri} {r : List UInt8} {pos : ℕ}
  (h : IsEntry fl nat c layer unit y bi r pos) (hl : layer < c.layers.length)
  (hbi : Inside (blocksOf unit) bi) (hfin : FiniteOn y (unitCells unit))
  (hsmall : SmallErrors unit y (decoded nat (c.layers.getD layer 0) unit y))
  (hkept : KeptErrors fl unit y (decoded nat (c.layers.getD layer 0) unit y))
include hfl h

section Error
include hl hbi hfin hsmall hkept

/-- **The bound the planner takes for a block** covers its errors. -/
theorem recError_isEntry : ∃ e, recError fl r (volume (blocksOf unit)) (c.blockErrorBits ≠ 0) pos = .fin e ∧
    0 ≤ e ∧ e ≤ maxFloat ∧
      ∀ i ∈ blockCells bi, errAt y (decoded nat (c.layers.getD layer 0) unit y) id i ≤ .fin e := by
  obtain ⟨e, hv, he, hmax, hcov⟩ := epsOf_of_small hfl hfin hsmall
  have hb : bi ∈ unitBlocks unit := List.mem_of_getElem? (getElem?_unitBlocks hbi)
  unfold recError
  by_cases hbits : c.blockErrorBits = 0
  · have hnone : recCodes r (volume (blocksOf unit)) (c.blockErrorBits ≠ 0) = none :=
      if_neg (by simpa using hbits)
    rw [hnone, h.eps]
    exact ⟨e, hv, he, hmax, fun i hi =>
      Dbl.le_trans (hkept i (mem_unitCells hb hi)) (hcov i (mem_unitCells hb hi))⟩
  · obtain ⟨q, codes, hq, hcodes, hcode⟩ := h.codes hbits
    have hlast : c.layers.getD layer 0 = c.rate := by
      have h1 := c.bitsSingle hbits
      rw [← c.getD_last, h1]
      congr 1
      omega
    have heps := h.eps
    rw [hlast] at hv hcov hkept heps ⊢
    rw [heps] at hq
    obtain ⟨n, hn, hqn, hle⟩ := blockErrorCodes_spec hq (fun _ => hfl.nonneg) hv he
      (getElem?_unitBlocks hbi)
    rw [hqn, Option.map_some, Option.some_inj, UInt8.toNat_ofNat', Nat.mod_eq_of_lt (by omega)] at hcode
    have htrue : decide (c.blockErrorBits ≠ 0) = true := by simpa using hbits
    -- the product of the bound and the code is exact
    have hbound : codeBound fl (.fin e) (.fin n) = .fin (fl (e * n / 15)) := by
      rw [codeBound_fin, hfl.eq_self _ (hasBits_product hv hn)]
    rw [hbound] at hle
    have hn15 : (n : ℚ) ≤ 15 := by exact_mod_cast hn
    have herr := (blockErr_spec y (decoded nat c.rate unit y) fl bi).2 fun i hi =>
      (Dbl.ne_nan_of_le (hcov i (mem_unitCells hb hi))).1
    refine ⟨fl (e * n / 15), ?_, hfl.nonneg (by positivity), hfl.le_of_le hasBits_maxFloat ?_,
      fun i hi => ?_⟩
    · rw [htrue, hcodes, heps]
      unfold blockError
      dsimp only
      rw [hcode, hv]
      exact hbound
    · rw [div_le_iff₀ (by norm_num)]
      exact mul_le_mul hmax hn15 (Nat.cast_nonneg n) (by norm_num [maxFloat])
    · exact Dbl.le_trans (hkept i (mem_unitCells hb hi)) (Dbl.le_trans
        (((blockErr_spec y (decoded nat c.rate unit y) fl bi).1 herr).2 i hi) (hle herr))

theorem listedError_isEntry :
    ∃ e, (listedError fl r (volume (blocksOf unit)) (c.blockErrorBits ≠ 0) pos).val = .fin e ∧ 0 ≤ e := by
  obtain ⟨e, he, h0, hmax, -⟩ := recError_isEntry hfl h hl hbi hfin hsmall hkept
  obtain ⟨e', he', hle⟩ := F32.castUp_of_le h0 hmax (Or.inr rfl)
  unfold listedError
  rw [he]
  exact ⟨e', he', h0.trans hle⟩

end Error

/-! ### The state of a block -/

include hbi hfin in
/-- **The bounds that the planner makes of a block's bytes** are outside its values. -/
theorem blockBounds_isEntry : ∃ m M, (∀ i ∈ blockCells bi, ∀ v, (y i).val = .fin v → m ≤ v ∧ v ≤ M) ∧
    blockLow fl r pos (unitSlack fl r) ≤ .fin m ∧ .fin M ≤ blockHigh fl r pos (unitSlack fl r) := by
  have hb : bi ∈ unitBlocks unit := List.mem_of_getElem? (getElem?_unitBlocks hbi)
  obtain ⟨a, ha, hal⟩ := unitMin_spec hfin hb
  obtain ⟨z, hz, hzg⟩ := unitMax_spec hfin hb
  obtain ⟨m, hm, hml⟩ := blockMin_spec hfin hb
  obtain ⟨M, hM, hMg⟩ := blockMax_spec hfin hb
  obtain ⟨h1, h2, h3⟩ := BlockRange.bounds ⟨hal, hzg, hml, hMg⟩ hb
  refine ⟨m, M, fun i hi v hv => ⟨hml.2 ⟨i, hi, hv⟩, hMg.2 ⟨i, hi, hv⟩⟩, ?_⟩
  rw [← h.min] at ha
  rw [← h.max] at hz
  rcases eq_or_lt_of_le (h1.trans (h2.trans h3)) with rfl | haz
  · -- a unit of one value has no span, and its bounds are the values themselves
    have hspan : Dbl.sub fl (recMax r).val (recMin r).val = .fin 0 := by
      rw [hz, ha, Dbl.sub_fin, sub_self, hfl.eq_self 0 ⟨0, 0, by simp, by simp⟩]
    unfold blockLow blockHigh
    rw [if_pos hspan, if_pos hspan, ha, hz, Dbl.fin_le_fin, Dbl.fin_le_fin]
    exact ⟨h1, h3⟩
  · rw [← hm, ← hM]
    refine planner_slack hfl.rounds ha hz haz hm h1 (h2.trans h3) hM (h1.trans h2) h3 ?_
    rw [h.min, h.max]
    exact h.offsets.symm

omit h in
/-- A float32 value is kept by the rounding of a widened bound. -/
theorem widened_of_le {b : Dbl} {m e : ℚ} {f : F32} {x : ℚ} (hx : f.val = .fin x) :
    (b ≤ .fin m → m - e ≤ x → Dbl.sub fl b (.fin e) ≤ .fin x) ∧
      (.fin m ≤ b → x ≤ m + e → .fin x ≤ Dbl.add fl b (.fin e)) := by
  have hbits := hasBits_float hx
  cases b with
  | nan => exact ⟨fun hb => absurd hb (Dbl.not_nan_le _), fun hb => absurd hb (Dbl.not_le_nan _)⟩
  | ninf => exact ⟨fun _ _ => Dbl.ninf_le_fin _, fun hb => absurd hb (Dbl.not_fin_le_ninf _)⟩
  | pinf => exact ⟨fun hb => absurd hb (Dbl.not_pinf_le_fin _), fun _ _ => Dbl.fin_le_pinf _⟩
  | fin b =>
    simp only [Dbl.sub_fin, Dbl.add_fin, Dbl.fin_le_fin]
    exact ⟨fun hb hm => hfl.le_of_le hbits (by linarith), fun hb hm => hfl.le_of_ge hbits (by linarith)⟩

include hl hbi hfin hsmall hkept in
/-- **The state of a block is right** for its original and its decoded values. -/
theorem sound_isEntry (lo hi : Dbl) : ∀ i ∈ blockCells bi,
    ∀ x, x = (y i).val ∨ x = (decoded nat (c.layers.getD layer 0) unit y i).val →
      Sound (classifyBlock fl r (volume (blocksOf unit)) (c.blockErrorBits ≠ 0) pos (unitSlack fl r) lo hi)
        lo hi x := by
  obtain ⟨m, M, hvalues, hlow, hhigh⟩ := blockBounds_isEntry hfl h hbi hfin
  obtain ⟨e, he, h0, -, herr⟩ := recError_isEntry hfl h hl hbi hfin hsmall hkept
  have hb : bi ∈ unitBlocks unit := List.mem_of_getElem? (getElem?_unitBlocks hbi)
  intro i hi' x hx
  obtain ⟨v, d, hv, hd, -⟩ := exists_error hfin hsmall (mem_unitCells hb hi')
  obtain ⟨hmv, hvM⟩ := hvalues i hi' v hv
  obtain ⟨hdlow, hdhigh⟩ := between_of_errAt_le hv (herr i hi')
  rw [hd, Dbl.fin_le_fin] at hdlow hdhigh
  rw [classifyBlock_eq, he]
  rcases hx with rfl | rfl
  · rw [hv]
    exact stateOf_sound_of_between ((widened_of_le hfl hv).1 hlow (by linarith))
      ((widened_of_le hfl hv).2 hhigh (by linarith)) lo hi
  · rw [hd]
    exact stateOf_sound_of_between ((widened_of_le hfl hd).1 hlow (by linarith))
      ((widened_of_le hfl hd).2 hhigh (by linarith)) lo hi

end Entry

/-! ### The planner -/

/-- What libzfp makes of cell `i` of an array, encoded and decoded with its unit. -/
def decodedAt (nat : Native F32) (c : SkipZFPCodec) (chunk : Tri) (rate : ℚ) (data : Tri → F32) (i : Tri) :
    F32 :=
  decoded nat rate (c.unit chunk) ((tileBox (c.unit chunk) (outer (c.unit chunk) i)).view data)
    (inner (c.unit chunk) i)

/-- **An array of numbers that libzfp decodes well** at the rate of a layer: the values are finite, and in
every unit no decoded value is farther off than a float32 can say, or than the computed difference
says. -/
structure WellDecoded (fl : ℚ → ℚ) (nat : Native F32) (c : SkipZFPCodec) (layer : ℕ) (shape chunk : Tri)
    (data : Tri → F32) : Prop where
  finite : ∀ i, Inside shape i → ∃ q, (data i).val = .fin q
  small : ∀ U, Inside (outer (c.unit chunk) shape) U → SmallErrors (c.unit chunk)
    ((tileBox (c.unit chunk) U).view data) (decoded nat (c.layers.getD layer 0) (c.unit chunk)
      ((tileBox (c.unit chunk) U).view data))
  kept : ∀ U, Inside (outer (c.unit chunk) shape) U → KeptErrors fl (c.unit chunk)
    ((tileBox (c.unit chunk) U).view data) (decoded nat (c.layers.getD layer 0) (c.unit chunk)
      ((tileBox (c.unit chunk) U).view data))

section Plan
variable {fl : ℚ → ℚ} {nat : Native F32} {c : SkipZFPCodec} {layer : ℕ} {shape chunk : Tri}
    {data : Tri → F32}
  {zm : List UInt8} (hc : c.ChunkOk chunk)

include hc in
theorem join_unit (U bi r : Tri) : join blockShape (join (blocksOf (c.unit chunk)) U bi) r =
    join (c.unit chunk) U (join blockShape bi r) := by
  rw [join_join, scale_blocksOf hc.unit_block]

include hc in
theorem decodedAt_block (rate : ℚ) {U bi r : Tri} (hbi : Inside (blocksOf (c.unit chunk)) bi)
    (hr : Inside blockShape r) :
    decodedAt nat c chunk rate data (join blockShape (join (blocksOf (c.unit chunk)) U bi) r) =
      decoded nat rate (c.unit chunk) ((tileBox (c.unit chunk) U).view data) (join blockShape bi r) := by
  have hin : Inside (c.unit chunk) (join blockShape bi r) := by
    have h := inside_join hbi hr
    rwa [scale_blocksOf hc.unit_block] at h
  unfold decodedAt
  rw [join_unit hc, outer_join hin, inner_join hin]

include hc in
theorem finiteOn_unit (hs : ∀ a, shape a % chunk a = 0)
    (hfin : ∀ i, Inside shape i → ∃ q, (data i).val = .fin q) {U : Tri}
    (hU : Inside (outer (c.unit chunk) shape) U) :
    FiniteOn ((tileBox (c.unit chunk) U).view data) (unitCells (c.unit chunk)) := by
  intro i hi
  obtain ⟨B, hB, hmem⟩ := List.mem_flatMap.mp hi
  have hunit : ∀ a, shape a % c.unit chunk a = 0 := fun a => Nat.mod_eq_zero_of_dvd
    ((Nat.dvd_of_mod_eq_zero (hc.unit a)).trans (Nat.dvd_of_mod_eq_zero (hs a)))
  have hin : Inside (c.unit chunk) i := by
    have hr : Inside blockShape (inner blockShape i) := fun a => Nat.mod_lt (i a) (Nat.succ_pos 3)
    have h := inside_join (mem_indices.mp hB) hr
    rwa [← mem_blockCells.mp hmem, join_outer_inner, scale_blocksOf hc.unit_block] at h
  have hshape := inside_join hU hin
  rw [scale_outer hunit] at hshape
  exact hfin _ hshape

variable (hfl : IsRounding 53 fl) (hl : layer < c.layers.length)
  (hzm : writeMeta fl nat c shape chunk data = .ok zm) (hw : WellDecoded fl nat c layer shape chunk data)
    {cid b : ℕ} (hcid : cid < volume (outer chunk shape))
  (hb : b < volume (blocksOf chunk))
include hc hl hzm hw hcid hb


include hfl in
/-- **The state that the planner gives a block is right** for its original and its decoded values. -/
theorem sound_stateAt (lo hi : Dbl) {r : Tri} (hr : Inside blockShape r) : ∀ x,
    x = (data (join blockShape (blockOfId c shape chunk cid b) r)).val ∨
      x = (decodedAt nat c chunk (c.layers.getD layer 0) data
        (join blockShape (blockOfId c shape chunk cid b) r)).val →
      Sound (stateAt fl (planMeta c layer (c.unit chunk) zm) (planArgs c shape chunk) lo hi cid b)
        lo hi x := by
  have h := agrees_id hc hl hzm 0 hcid hb
  obtain ⟨hU, hbi⟩ := h.inside
  have hpos := volume_unit_pos hc
  have hsound := sound_isEntry hfl h.entry hl hbi (finiteOn_unit hc (writeMeta_rows hzm).1 hw.finite hU)
    (hw.small _ hU) (hw.kept _ hU) lo hi (join blockShape (blockInUnit c chunk b) r)
      (mem_blockCells.mpr (outer_join hr))
  rw [blockOfId, decodedAt_block hc _ hbi hr, join_unit hc]
  unfold stateAt
  rw [hasCodes_planArgs c shape chunk hpos]
  exact hsound

include hfl in
theorem errorAt_fin : ∃ e, (errorAt fl (planMeta c layer (c.unit chunk) zm) (planArgs c shape chunk)
    cid b).val = .fin e ∧ 0 ≤ e := by
  have h := agrees_id hc hl hzm 0 hcid hb
  obtain ⟨hU, hbi⟩ := h.inside
  unfold errorAt
  rw [hasCodes_planArgs c shape chunk (volume_unit_pos hc)]
  exact listedError_isEntry hfl h.entry hl hbi (finiteOn_unit hc (writeMeta_rows hzm).1 hw.finite hU)
    (hw.small _ hU) (hw.kept _ hU)

theorem decodedAt_fin {r : Tri} (hr : Inside blockShape r) : ∃ q, (decodedAt nat c chunk
    (c.layers.getD layer 0) data (join blockShape (blockOfId c shape chunk cid b) r)).val = .fin q := by
  have h := agrees_id hc hl hzm 0 hcid hb
  obtain ⟨hU, hbi⟩ := h.inside
  have hcell : join blockShape (blockInUnit c chunk b) r ∈ unitCells (c.unit chunk) :=
    mem_unitCells (mem_indices.mpr hbi) (mem_blockCells.mpr (outer_join hr))
  obtain ⟨-, d, -, hd, -⟩ := exists_error (finiteOn_unit hc (writeMeta_rows hzm).1 hw.finite hU)
    (hw.small _ hU) hcell
  rw [blockOfId, decodedAt_block hc _ hbi hr]
  exact ⟨d, hd⟩

end Plan

end SkipZFP.Plan.Right
