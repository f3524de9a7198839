import SkipZFP.Aggregate.Rounded
import SkipZFP.Aggregate.Stored
import SkipZFP.Read.Cover

/-! # What an aggregate says of the values that were written

The answer for the original values is a promise about values that no one reads: those of the blocks that
are decoded are known up to their error bounds, those of the OUT blocks only from the zone map. Here the
promise is kept from end to end, for an array that was written with its zone map: by every run of every
aggregate that returns, in the arithmetic of doubles.

* `errorAt_covers`: the bound that is listed for a block covers the errors of its values.
* `rightOriginals_of_wellDecoded`: the zone map is right for the original values.
* `totals_readGroup`: **a merged read adds up its blocks**, in doubles.
* `perm_originals`: the values of the blocks that are not read are not in the range.
* `originals_within`: **the intervals of an aggregate contain the truth**. -/

namespace SkipZFP.Aggregate.Original

open SkipZFP.Lib.Grid SkipZFP.Lib.Rows SkipZFP.Lib.Loops SkipZFP.Lib.Double SkipZFP.Lib.Float32
open SkipZFP.Lib.Precision SkipZFP.Lib.Next
open SkipZFP.Codec.Config SkipZFP.Codec.Pack SkipZFP.Codec.Meta SkipZFP.Plan.Classify SkipZFP.Plan.Blocks
open SkipZFP.Plan.Shapes SkipZFP.Plan.Records SkipZFP.Plan.Agree SkipZFP.Plan.Right SkipZFP.Plan.Layers
open SkipZFP.Plan.Slabs SkipZFP.Read.Merge SkipZFP.Read.Budget SkipZFP.Read.Gather SkipZFP.Read.Cover
open SkipZFP.Read.Missing SkipZFP.Read.Store SkipZFP.Read.Stream SkipZFP.Query.Run
open SkipZFP.Query.Bounds SkipZFP.Query.Slabs SkipZFP.Query.Layers SkipZFP.Query.Written
open SkipZFP.Query.Reading
open SkipZFP.Query.Absent SkipZFP.Query.Stored SkipZFP.Aggregate.Block SkipZFP.Aggregate.Combine
open SkipZFP.Aggregate.Run SkipZFP.Aggregate.Sound SkipZFP.Aggregate.Rounded SkipZFP.Aggregate.Pipelined
open SkipZFP.Aggregate.Absent SkipZFP.Aggregate.Damaged SkipZFP.Query.Pipelined
open SkipZFP.Query.Count (layer_zero rate_ok blockDim_setup shapeOk_setup shape_mod layoutOf_setup
  valuesPerBlock_setup setup_spec setup_eq setupOfTwo optionsOfTwo)
open SkipZFP.Aggregate.Exact (itemOf)
open SkipZFP.Aggregate.Stored (aggregateOffsets_ok)
open SkipZFP.Aggregate.Answers

/-! ### The zone map -/

theorem exists_listedError {fl : ℚ → ℚ} {cm : List UInt8} {n bid : ℕ} {codes : Bool} {e : ℚ}
    (he : recError fl cm n codes bid = .fin e) (h0 : 0 ≤ e) (hmax : e ≤ maxFloat) :
    ∃ e', (listedError fl cm n codes bid).val = .fin e' ∧ e ≤ e' := by
  unfold listedError
  rw [he]
  exact F32.castUp_of_le h0 hmax (Or.inr rfl)

section Plan
variable {fl : ℚ → ℚ} (hfl : IsRounding 53 fl) {nat : Native F32} {c : SkipZFPCodec} {layer : ℕ}
  {shape chunk : Tri} {data : Tri → F32} {zm : List UInt8} (hc : c.ChunkOk chunk)
  (hl : layer < c.layers.length) (hzm : writeMeta fl nat c shape chunk data = .ok zm)
  (hw : WellDecoded fl nat c layer shape chunk data) {cid b : ℕ} (hcid : cid < volume (outer chunk shape))
  (hb : b < volume (blocksOf chunk))
include hfl hc hl hzm hw hcid hb

/-- **The bound that is listed for a block** covers the errors of all its values. -/
theorem errorAt_covers : ∃ e, (errorAt fl (planMeta c layer (c.unit chunk) zm) (planArgs c shape chunk)
    cid b).val = .fin e ∧ 0 ≤ e ∧ ∀ r, Inside blockShape r → ∃ o d,
      (data (join blockShape (blockOfId c shape chunk cid b) r)).val = .fin o ∧
      (decodedAt nat c chunk (c.layers.getD layer 0) data
        (join blockShape (blockOfId c shape chunk cid b) r)).val = .fin d ∧ |o - d| ≤ e := by
  have h := agrees_id hc hl hzm 0 hcid hb
  obtain ⟨hU, hbi⟩ := h.inside
  have hfin := finiteOn_unit hc (writeMeta_rows hzm).1 hw.finite hU
  obtain ⟨e, he, h0, hmax, herr⟩ := recError_isEntry hfl h.entry hl hbi hfin (hw.small _ hU) (hw.kept _ hU)
  obtain ⟨e', hlisted, hle⟩ := exists_listedError he h0 hmax
  refine ⟨e', ?_, h0.trans hle, fun r hr => ?_⟩
  · unfold errorAt
    rw [hasCodes_planArgs c shape chunk (volume_unit_pos hc)]
    exact hlisted
  · have hcell : join blockShape (blockInUnit c chunk b) r ∈ unitCells (c.unit chunk) :=
      mem_unitCells (mem_indices.mpr hbi) (mem_blockCells.mpr (outer_join hr))
    obtain ⟨o, ho⟩ := hfin _ hcell
    obtain ⟨hlow, hhigh⟩ := between_of_errAt_le ho (herr _ (mem_blockCells.mpr (outer_join hr)))
    obtain ⟨d, hd⟩ := Dbl.exists_fin_of_between hlow hhigh
    rw [hd, Dbl.fin_le_fin] at hlow hhigh
    refine ⟨o, d, ?_, ?_, abs_le.mpr ⟨by linarith, by linarith⟩⟩
    · rw [blockOfId, join_unit hc]
      exact ho
    · rw [blockOfId, decodedAt_block hc _ hbi hr]
      exact hd

end Plan

/-! ### The blocks of an array -/

section Blocks
variable {κ : Type} (E : Env) (nat : Native F32) (a : ZarrArray κ) (st : Setup) (data : Tri → F32)
  (fill : F32) (zm : List UInt8) (lo hi : Dbl)

def blockAt (id : ℕ × ℕ) : ReadBlock where
  eps := (errorAt E.fl (planMeta a.codec st.layer st.lt.unitShape zm) st.lt.planArgs id.1 id.2).val.toRat
  inBlock := blockState E a st zm lo hi id.1 id.2 = .IN
  values := (cellsOf a id).map fun i => ⟨readAt nat a data fill st.layer i, data i⟩

/-- **The zone map is right for the original values**: what it says of the blocks that are read is so, and
the others have no value in the range. -/
structure RightOriginals : Prop where
  known : ∀ id ∈ listedIds E a st zm lo hi, (blockAt E nat a st data fill zm lo hi id).Known lo hi ∧
    ∃ e, (errorAt E.fl (planMeta a.codec st.layer st.lt.unitShape zm) st.lt.planArgs id.1 id.2).val = .fin e
  out : ∀ cid < st.lt.planArgs.nChunk, ∀ b < st.lt.planArgs.blocksPerChunk,
    blockState E a st zm lo hi cid b = .OUT → ∀ i ∈ cellsOf a (cid, b), ¬ InRange lo hi (data i).val

variable {E nat a st data fill zm lo hi} {opts : QueryOptions}

variable (hc : a.codec.ChunkOk a.chunk) (hst : Query.Run.setup a opts = .ok st)
include hc hst

/-- **The zone map is right for the original values**, for numbers that libzfp decodes well. -/
theorem rightOriginals_of_wellDecoded (h : Written nat a st.lt data fill) (hfl : IsRounding 53 E.fl)
    (hzm : writeMeta E.fl nat a.codec a.shape a.chunk data = .ok zm)
    (hw : WellDecoded E.fl nat a.codec st.layer a.shape a.chunk data) :
    RightOriginals E nat a st data fill zm lo hi := by
  obtain ⟨size, hlt⟩ := layoutOf_setup hst
  obtain ⟨-, hn, hblocks⟩ := sizes_setup hc hst
  have hl := (setup_spec hst).2.1
  have hargs : st.lt.planArgs = planArgs a.codec a.shape a.chunk := by rw [hlt]; rfl
  have hunit : st.lt.unitShape = a.codec.unit a.chunk := by rw [hlt]; rfl
  -- the state of a block is right for what was written and for what libzfp makes of it
  have hsound : ∀ cid < st.lt.planArgs.nChunk, ∀ b < st.lt.planArgs.blocksPerChunk,
      ∀ i ∈ cellsOf a (cid, b), ∀ x, x = (data i).val ∨
        x = (decodedAt nat a.codec a.chunk (a.codec.layers.getD st.layer 0) data i).val →
          Sound (blockState E a st zm lo hi cid b) lo hi x := by
    intro cid hcid b hb i hmem x hx
    obtain ⟨r, hr, rfl⟩ := mem_cellsOf.mp hmem
    unfold blockState
    rw [hunit, hargs]
    exact sound_stateAt hc hfl hl hzm hw (by rwa [← hn]) (by rwa [← hblocks]) lo _ hr x hx
  constructor
  · intro id hid
    obtain ⟨hcid, hb, -⟩ := mem_listedIds.mp hid
    obtain ⟨e, he, h0, hcov⟩ := errorAt_covers hfl hc hl hzm hw (by rwa [← hn] : id.1 < _)
      (by rwa [← hblocks] : id.2 < _)
    rw [← hunit, ← hargs] at he
    have heps : (blockAt E nat a st data fill zm lo hi id).eps = e := by
      unfold blockAt
      rw [he, Dbl.toRat_fin]
    refine ⟨⟨by rwa [heps], fun v hv => ?_⟩, e, he⟩
    obtain ⟨i, hmem, rfl⟩ := List.mem_map.mp hv
    have hin := hsound id.1 hcid id.2 hb i hmem
    have hcell := readAt_cell hc hst h hcid hb hmem
    obtain ⟨r, hr, hri⟩ := mem_cellsOf.mp hmem
    obtain ⟨o, d, ho, hd, hnear⟩ := hcov r hr
    rw [← hri] at ho hd
    rw [heps]
    -- the decoded value, or the fill value that was written
    obtain ⟨x, hx, hxo, hxin⟩ : ∃ x, (readAt nat a data fill st.layer i).val = .fin x ∧ |o - x| ≤ e ∧
        ((x = o ∨ x = d)) := by
      rcases hcell with ⟨-, hread, hfill⟩ | ⟨-, hread⟩
      · exact ⟨o, by rw [hread, ← hfill, ho], by rwa [sub_self, abs_zero], Or.inl rfl⟩
      · exact ⟨d, by rw [hread, hd], hnear, Or.inr rfl⟩
    refine ⟨x, o, hx, ho, hxo, fun hblock => ?_⟩
    have hIN : blockState E a st zm lo hi id.1 id.2 = .IN := of_decide_eq_true hblock
    have ho' := (hin _ (Or.inl ho.symm)).1 hIN
    have hd' := (hin _ (Or.inr hd.symm)).1 hIN
    refine ⟨ho', ?_⟩
    rcases hxin with rfl | rfl
    · exact ho'
    · exact hd'
  · intro cid hcid b hb hout i hmem
    exact (hsound cid hcid b hb i hmem _ (Or.inl rfl)).2 hout

/-- **The values of the blocks that are not read are not in the range.** -/
theorem perm_originals (h : RightOriginals E nat a st data fill zm lo hi) :
    (matching lo hi ((listedIds E a st zm lo hi).flatMap fun id => (cellsOf a id).map data)).Perm
      (matching lo hi ((indices a.shape).map data)) := by
  obtain ⟨-, hn, hblocks⟩ := sizes_setup hc hst
  have hcells := (perm_cells hc (shape_mod hst)).map data
  rw [List.map_flatMap, ← hn, ← hblocks] at hcells
  unfold listedIds
  rw [matching_filter fun id hid hout => ?_]
  · exact (hcells.filter _).map _
  · obtain ⟨hcid, hb⟩ := mem_blockIds.mp hid
    have hstate : blockState E a st zm lo hi id.1 id.2 = .OUT := by
      unfold isListed at hout
      cases hs : blockState E a st zm lo hi id.1 id.2 <;> rw [hs] at hout <;> simp_all
    unfold matching
    rw [List.filter_eq_nil_iff.mpr, List.map_nil]
    intro v hv
    obtain ⟨i, hmem, rfl⟩ := List.mem_map.mp hv
    simpa using h.out id.1 hcid id.2 hb hstate i hmem

end Blocks

/-! ### Reads -/

section Read
variable {κ : Type} {E : Env} {A : Arith} {a : ZarrArray κ} {st : Setup} {lo hi : Dbl}
  {g : List (ℕ × ℕ)} {entry : ℕ × ℕ → Listed} {block : ℕ × ℕ → ReadBlock} {x : (SzAggregate × ℕ) × ℕ}

/-- **A merged read adds up its blocks.** -/
theorem totals_readGroup (hbytes : st.layerBytes 0 = blockBytes st.rate)
    (hrate : st.lt.layers.getD 0 0 = st.rate) (hg : Stored a (a.keyOf st.lt) (blockBytes st.rate) 0 g)
    (hentry : ∀ id, (entry id).block = id.2)
    (hblock : ∀ id ∈ g, (entry id).eps.val = .fin (block id).eps ∧
      (block id).inBlock = decide ((entry id).state = .IN) ∧
      List.ofFn (E.decode st.rate (storedBlock a (a.keyOf st.lt) (blockBytes st.rate) 0 id)) =
        (block id).values.map Value.decoded)
    (h : readGroup a (a.keyOf st.lt) (st.layerBytes 0) 0 (aggRead E A lo hi st) g (g.map entry) = .ok x) :
    x.1 = (roundedTotals A lo hi (g.map block), (g.map block).length) := by
  obtain ⟨data, hdata, hid⟩ := readOne_group hg 0
  set n := blockBytes st.rate with hn
  set items := (g.map entry).map (itemOf n (g.headD (0, 0)).2) with hitems
  have hread : ((checked "szfp_aggregate_offsets_range" (aggregateOffsets E.decode A data items n
      st.rate st.lt.blockDim lo hi) : Except (QueryError κ) SzAggregate).map fun out =>
        (out, (g.map entry).length)).map (fun y => (y, groupBytes n g)) = .ok x := by
    unfold readGroup at h
    rw [hbytes] at h
    dsimp only at h
    rw [hdata, Except.bind, size_groupRead] at h
    unfold aggRead at h
    rw [hbytes, hrate] at h
    exact h
  cases hagg : aggregateOffsets E.decode A data items n st.rate st.lt.blockDim lo hi with
  | error e =>
    rw [hagg] at hread
    cases hread
  | ok acc =>
    rw [hagg] at hread
    obtain rfl := Except.ok.inj hread
    rw [List.length_map, List.length_map]
    refine Prod.ext ?_ rfl
    show acc = _
    rw [(aggregateOffsets_ok hagg).2, hitems, List.map_map, roundedTotals, List.foldl_map, List.foldl_map]
    refine List.foldl_ext _ _ _ fun acc id hmem => ?_
    obtain ⟨heps, hin, hvalues⟩ := hblock id hmem
    rw [← heps, ← hvalues, hin, ← (hid id hmem).2, ← hentry id]
    rfl

end Read

/-! ### Aggregates -/

section Runs
variable {κ : Type} [LinearOrder κ] {E : Env} {A : Arith} {nat : Native F32} {a : ZarrArray κ} {st : Setup}
  {data : Tri → F32} {fill : F32} {lo hi : Dbl} {opts : QueryOptions} {returnBlocks : Bool}
  {m : List UInt8 × ℕ × ℕ} {r : AggregateResult}
  (hc : a.codec.ChunkOk a.chunk) (hst : Query.Run.setup a opts = .ok st) (h0 : st.layer = 0)
  (hW : Written nat a st.lt data fill) (hdec : Blockwise nat E.decode st.rate)
  (hpre : Prefixed nat a.codec st.layer) (hfits : st.lt.planArgs.fits)
  (hright : RightOriginals E nat a st data fill m.1 lo hi)

include hc hst h0 hW hdec hpre in
theorem totals_listed {g : List (ℕ × ℕ)} {gap : ℕ} (hright : RightOriginals E nat a st data fill m.1 lo hi)
    (hg : g ∈ groups gap (listedIds E a st m.1 lo hi)) {x : (SzAggregate × ℕ) × ℕ}
    (h : readGroup a (a.keyOf st.lt) (st.layerBytes 0) 0 (aggRead E A lo hi st) g
      (g.map (entryOf E a st m.1 lo hi)) = .ok x) :
    x.1 = (roundedTotals A lo hi (g.map (blockAt E nat a st data fill m.1 lo hi)),
      (g.map (blockAt E nat a st data fill m.1 lo hi)).length) := by
  obtain ⟨hbytes, -⟩ := layer_zero hst h0
  have hrate : st.lt.layers.getD 0 0 = st.rate := by
    unfold Setup.rate
    rw [h0]
  obtain ⟨bytes, hbytesRead, -⟩ := bind_ok.mp h
  have hread : readOne a (rangeOf (groupRead (a.keyOf st.lt) (blockBytes st.rate) 0 0 g)) = .ok bytes := by
    rw [← hbytes]
    exact hbytesRead
  -- the chunk of the group is stored
  have hsome : ∀ id ∈ g, (a.get (a.keyOf st.lt id.1)).isSome := by
    intro id hid
    obtain ⟨obj, hget, -⟩ :=
      end_le_of_readGroup (blockBytes_pos (rate_ok hst)) pairwise_listedIds hg hread hid
    rw [hget]
    rfl
  have hin := fun id hid => mem_listedIds.mp ((mem_group hg).1 id hid)
  obtain ⟨hstored, hblock⟩ := stored_planned hc hst hW h0 pairwise_listedIds
    (fun id hid => ⟨(mem_listedIds.mp hid).1, (mem_listedIds.mp hid).2.1⟩) hg
      (hsome _ (mem_group hg).2.1)
  refine totals_readGroup hbytes hrate hstored (fun _ => rfl) (fun id hid => ⟨?_, rfl, ?_⟩) h
  · obtain ⟨e, he⟩ := (hright.known id ((mem_group hg).1 id hid)).2
    show (errorAt _ _ _ _ _).val = .fin (Dbl.toRat _)
    rw [he, Dbl.toRat_fin]
  · rw [hblock id hid, decode_stored hc hst hW hdec hpre (hin id hid).1 (hin id hid).2.1 (hsome id hid)]
    unfold blockAt
    rw [List.map_map]
    rfl

variable (hA : Doubles A) (hlo : IsDouble A lo) (hhi : IsDouble A hi) (hlohi : lo < hi)
  (hsmall : 2 * (((st.lt.planArgs.blocksPerChunk * 64 : ℕ) : ℚ) + 3) ^ 2 * A.u ≤ 1)
  (htotal : st.lt.planArgs.totalBlocks * 64 + 2 ≤ 2 ^ 53)

include hA hlo hhi hlohi hsmall htotal hright in
omit [LinearOrder κ] in
/-- **The intervals that are combined out of the reads** of the listed blocks. -/
theorem exists_combined (gap : ℕ) :
    ∃ c, combine A 64 ((groups gap (listedIds E a st m.1 lo hi)).map fun g =>
        (roundedTotals A lo hi (g.map (blockAt E nat a st data fill m.1 lo hi)),
          (g.map (blockAt E nat a st data fill m.1 lo hi)).length)) = .ok c ∧
      Within (matching lo hi ((listedIds E a st m.1 lo hi).flatMap fun id =>
        (cellsOf a id).map data)) c := by
  set ids := listedIds E a st m.1 lo hi with hids
  set block := blockAt E nat a st data fill m.1 lo hi with hblock
  set reads := (groups gap ids).map fun g => g.map block with hreads
  -- a group has no more blocks than a chunk
  have hlen : ∀ read ∈ reads, read.length ≤ st.lt.planArgs.blocksPerChunk := by
    intro read hread
    obtain ⟨g, hg, rfl⟩ := List.mem_map.mp hread
    have hlast := (mem_listedIds.mp ((mem_group hg).1 _ (mem_group hg).2.2)).2.1
    have hle := length_group_le pairwise_listedIds hg
    rw [List.length_map]
    omega
  have hsum : (reads.map List.length).sum ≤ st.lt.planArgs.totalBlocks := by
    rw [← List.length_flatten, hreads, ← List.map_flatten, flatten_groups, List.length_map]
    refine (List.length_filter_le _ _).trans (le_of_eq ?_)
    rw [blockIds, List.length_product, List.length_range, List.length_range]
    rfl
  obtain ⟨c, hc, hwithin⟩ := within_rounded (k := 64) hA hlo hhi hlohi
    (fun read (hread : read ∈ reads) b hb => by
      obtain ⟨g, hg, rfl⟩ := List.mem_map.mp hread
      obtain ⟨id, hid, rfl⟩ := List.mem_map.mp hb
      refine ⟨(hright.known id ((mem_group hg).1 id hid)).1, ?_⟩
      show ((cellsOf a id).map _).length ≤ 64
      rw [List.length_map, length_cellsOf])
    (fun read hread => by
      have hu := hA.u_nonneg
      have hle : ((read.length * 64 : ℕ) : ℚ) ≤ ((st.lt.planArgs.blocksPerChunk * 64 : ℕ) : ℚ) := by
        exact_mod_cast Nat.mul_le_mul_right 64 (hlen read hread)
      refine le_trans ?_ hsmall
      gcongr)
    (by omega)
  refine ⟨c, ?_, ?_⟩
  · rw [hreads, List.map_map] at hc
    exact hc
  · have horiginals : reads.flatMap originals = ids.flatMap fun id => (cellsOf a id).map data := by
      rw [← flatten_values _ gap ids, List.flatMap_def, hreads, List.map_map]
      refine congrArg List.flatten (List.map_congr_left fun g _ => ?_)
      show originals (g.map block) = _
      unfold originals
      rw [List.flatMap_map]
      refine List.flatMap_congr fun id _ => ?_
      rw [hblock, blockAt, List.map_map]
      rfl
    rwa [horiginals] at hwithin

include hc hst h0 hW hdec hpre hfits hright hA hlo hhi hlohi hsmall htotal in
/-- **What an aggregate with the whole zone map has returned.** -/
theorem within_whole (hm : (readMeta E a opts st).Returns (· = m))
    (h : (wholeAggregate E A a lo hi opts returnBlocks st).MayReturn r) :
    Within (matching lo hi ((indices a.shape).map data)) r.combined := by
  obtain ⟨nIn, nOut, hplan⟩ := planAggregate_listed h0 (shapeOk_setup hc hst) hfits E a lo hi opts m
  have h := mayReturn_of_bind (returns_done hplan rfl) (mayReturn_of_bind hm h)
  obtain ⟨parts, peak, hparts, hres⟩ := mayReturn_reads h
  unfold aggregateTasks at hparts
  rw [mapM_readsOf, List.drop_zero, deal_groups, List.mapM_map] at hparts
  have hread := forall₂_mapM_ok (fun g hg x hx =>
    totals_listed hc hst h0 hW hdec hpre hright hg hx) hparts
  obtain ⟨c, hcomb, hwithin⟩ := exists_combined hright hA hlo hhi hlohi hsmall htotal
    (opts.mergeGapBlocks % 2 ^ 64)
  have hfst : parts.map Prod.fst = (groups (opts.mergeGapBlocks % 2 ^ 64) (listedIds E a st m.1 lo hi)).map
      fun g => (roundedTotals A lo hi (g.map (blockAt E nat a st data fill m.1 lo hi)),
        (g.map (blockAt E nat a st data fill m.1 lo hi)).length) := by
    have heq := List.forall₂_map_left_iff.mpr (List.forall₂_map_right_iff.mpr
      (hread.imp fun g x hx => hx.symm))
    rw [List.forall₂_eq_eq_eq] at heq
    exact heq.symm
  have hres : wholeResult A returnBlocks st m _ parts peak = .ok r := hres
  unfold wholeResult combined at hres
  rw [hfst, valuesPerBlock_setup hst, hcomb] at hres
  obtain rfl := Except.ok.inj hres
  exact hwithin.perm (perm_originals hc hst hright)

omit hc hst h0 in
include hW hdec hpre hfits hright hA hlo hhi hlohi hsmall htotal in
/-- **What any run of an aggregate has returned**, pipelined or not. -/
theorem within_of_reachable {l : List ℕ} (hchunk : a.codec.chunkShape l = .ok a.chunk)
    (hagg : Aggregate.Run.setup a opts = .ok st) (hm : (readMeta E a opts st).Returns (· = m))
    (h : (aggregateAsync E A a lo hi opts returnBlocks).Reachable (.returned (.ok r))) :
    Within (matching lo hi ((indices a.shape).map data)) r.combined := by
  have hc := a.codec.chunkOk_of_chunkShape hchunk
  have h0 := layer_of_setup hagg
  have hst := query_setup_of_aggregate hagg
  unfold aggregateAsync aggregate at h
  rw [hagg] at h
  dsimp only at h
  cases hmo : st.pipelined opts with
  | none =>
    rw [hmo] at h
    exact within_whole hc hst h0 hW hdec hpre hfits hright hA hlo hhi hlohi hsmall htotal hm
      (mayReturn_of_reachable h)
  | some mo =>
    rw [hmo] at h
    have hsame : (wholeAggregate E A a lo hi opts returnBlocks st).SameUpTo _ _ :=
      same_aggregate (slabbed_of_setup hchunk hst hmo hfits) hmo
    obtain ⟨v, hv, hpeak⟩ := exists_of_always (hsame.2 r h)
    have hwhole := within_whole hc hst h0 hW hdec hpre hfits hright hA hlo hhi hlohi hsmall htotal hm
      (mayReturn_of_reachable hv)
    rw [hpeak]
    exact hwhole

end Runs

/-! ### Written arrays -/

section Written
variable {κ : Type} [LinearOrder κ] {Z : Zarr} (hZ : ∀ x, Z.decompress (Z.compress x) = some x)
  {E : Env} (hE : E.zstd = Z.decompress) {a : ZarrArray κ} {l : List ℕ}
  (hchunk : a.codec.chunkShape l = .ok a.chunk) (hpos : ∀ i, 0 < a.shape i) {lt : Layout}
  (hlt : getLayout a.codec a.shape a.chunk = .ok lt) {key : ℕ → κ} (hkey : Function.Injective key)
  {t : ℕ} (ht : 0 < t) {compress : Bool} {nat : Native F32} {data : Tri → F32} {rec : List (List UInt8)}
  {opts : QueryOptions} {st : Setup}

include hZ hE hchunk hpos hlt hkey ht in
/-- **The intervals of an aggregate contain the truth about the values that were written**, from end to
end in the arithmetic of doubles. For every array written chunk by chunk, whatever chunks full of the fill
value are left out, followed by `write_meta` on the same data, all numbers that libzfp decodes well, every
range that is not empty and all options: each run of an aggregate that returns, pipelined or not and in
any order, has intervals that contain the number of these values in the range, their sum, and, when there
are any, their mean. Every run returns unless a chunk is missing that has an IN or a MAYBE block.

Twice the square of the number of values of a chunk has to be below `1 / u`: for doubles, a chunk has less
than `2 ^ 26` values. -/
theorem originals_within
    (hrec : metaRecords E.fl nat a.codec a.shape a.chunk data = .ok rec) {b : ZarrArray κ}
    (hb : b = storeMeta Z a lt key t compress rec) (hagg : Aggregate.Run.setup b opts = .ok st) {fill : F32}
    (hdisj : ∀ i p, key i ≠ a.chunkKey p) (hW : Written nat a lt data fill) (hfits : lt.planArgs.fits)
    (hdec : Blockwise nat E.decode st.rate) (hpre : Prefixed nat a.codec 0) (hfl : IsRounding 53 E.fl)
    (hw : WellDecoded E.fl nat a.codec 0 a.shape a.chunk data) {A : Arith} (hA : Doubles A) {lo hi : Dbl}
    (hlo : IsDouble A lo) (hhi : IsDouble A hi) (hlohi : lo < hi)
    (hsmall : 2 * (((lt.planArgs.blocksPerChunk * 64 : ℕ) : ℚ) + 3) ^ 2 * A.u ≤ 1)
    (htotal : lt.planArgs.totalBlocks * 64 + 2 ≤ 2 ^ 53) (returnBlocks : Bool) :
    (∀ r, (aggregateAsync E A b lo hi opts returnBlocks).Reachable (.returned (.ok r)) →
      Within (matching lo hi ((indices a.shape).map data)) r.combined) ∧
    ((¬ ∃ cid, Missing E b st rec.flatten lo hi true cid) →
      (aggregateAsync E A b lo hi opts returnBlocks).Always fun r =>
        Within (matching lo hi ((indices a.shape).map data)) r.combined) := by
  subst hb
  have hc := a.codec.chunkOk_of_chunkShape hchunk
  have h0 := layer_of_setup hagg
  have hst := query_setup_of_aggregate hagg
  obtain ⟨m, hm, hrows⟩ := exists_readMeta hZ hE hchunk hpos hlt hkey ht hrec hst
  obtain ⟨rfl, -⟩ := setup_storeMeta hlt ht hst
  have hwritten := written_storeMeta (Z := Z) hdisj t compress rec hW
  rw [← h0] at hw hpre
  have hzm : writeMeta E.fl nat a.codec a.shape a.chunk data = .ok m.1 := by
    rw [hrows]
    exact writeMeta_of_metaRecords (getLayout_ok hlt).1 hrec
  have hright : RightOriginals E nat (storeMeta Z a st.lt key t compress rec) st data fill m.1 lo hi :=
    rightOriginals_of_wellDecoded hc hst hwritten hfl hzm hw
  have hwithin : ∀ r, (aggregateAsync E A (storeMeta Z a st.lt key t compress rec) lo hi opts
      returnBlocks).Reachable (.returned (.ok r)) →
        Within (matching lo hi ((indices a.shape).map data)) r.combined := fun r hr =>
    within_of_reachable (a := storeMeta Z a st.lt key t compress rec) hwritten hdec hpre hfits hright hA hlo
      hhi hlohi hsmall htotal hchunk hagg hm hr
  refine ⟨hwithin, fun hall => ?_⟩
  obtain ⟨hstates, hsum⟩ := right_of_wellDecoded (a := storeMeta Z a st.lt key t compress rec)
    hc hst hwritten
    hfl hzm hw
  obtain ⟨hlo', hhi'⟩ := Dbl.ne_nan_of_lt hlohi
  rw [← hrows] at hall
  have halways := always_aggregate hst h0 hwritten hdec hpre hlo' hhi' (hsum lo hi) hfits hm A returnBlocks
    hchunk hall (hstates lo hi)
  refine ⟨halways.1, fun q hq => (halways.2 q hq).imp_right ?_⟩
  rintro ⟨v, rfl, -⟩
  exact ⟨v, rfl, hwithin v hq⟩

end Written

/-! ### An array of zeros -/

def arrayOfStored : ZarrArray ℕ :=
  { arrayOfZeros with
    get := fun k => if k = 0 then
      some (pack (firstValue F32.bytes F32.ofBytes) oneLayer ![4, 4, 8] fun _ => zeroValue) else none }

/-- The array after `write_meta`. -/
def writtenOfStored : ZarrArray ℕ :=
  storeMeta markFirst arrayOfStored setupOfTwo.lt (2 * · + 1) 1 false
    [List.replicate 14 0, List.replicate 14 0]

theorem setup_stored : Query.Run.setup writtenOfStored optionsOfTwo = .ok setupOfTwo :=
  setup_eq (a := writtenOfStored) (k := 0) (oneLayer.chunkOk_of_chunkShape chunkShape_oneLayer)
    (by decide) (by decide) (by decide +kernel) (by decide) rfl (Or.inl rfl) rfl

theorem written_stored : Written (firstValue F32.bytes F32.ofBytes) arrayOfStored setupOfTwo.lt
    (fun _ => zeroValue) zeroValue where
  object cid hcid := by
    have h1 : volume setupOfTwo.lt.gridShape = 1 := by decide +kernel
    obtain rfl : cid = 0 := by omega
    exact Or.inl rfl
  distinct cid hcid cid' hcid' _ := by
    have h1 : volume setupOfTwo.lt.gridShape = 1 := by decide +kernel
    omega

theorem isDouble_neg_one : IsDouble doubles (.fin (-1)) := by
  rintro q ⟨⟩
  have h : HasBits 53 ((-1 : ℤ) : ℚ) := hasBits_intCast (by norm_num)
  push_cast at h
  exact (toNearest_roundEven (by norm_num)).eq_self h

theorem isDouble_pinf : IsDouble doubles .pinf := fun q h => by cases h

def envOfDoubles : Env := { envOfZeros with fl := roundEven 53 }

theorem metaRecords_doubles : metaRecords (roundEven 53) (firstValue F32.bytes F32.ofBytes) oneLayer
    ![4, 4, 8] ![4, 4, 8] (fun _ => zeroValue) = .ok [List.replicate 14 0, List.replicate 14 0] := by
  decide +kernel

theorem wellDecoded_doubles : WellDecoded (roundEven 53) (firstValue F32.bytes F32.ofBytes) oneLayer 0
    ![4, 4, 8] ![4, 4, 8] fun _ => zeroValue where
  finite := wellDecoded_zeros.finite
  small := wellDecoded_zeros.small
  kept _ _ := by
    show KeptErrors (roundEven 53) (oneLayer.unit ![4, 4, 8]) (fun _ => zeroValue)
      (decoded (firstValue F32.bytes F32.ofBytes) 1 (oneLayer.unit ![4, 4, 8]) fun _ => zeroValue)
    unfold KeptErrors
    decide +kernel

/-- All values are above -1, and they are all read: the intervals say so. -/
theorem originals_within_stored : (aggregateAsync envOfDoubles doubles writtenOfStored (.fin (-1)) .pinf
    optionsOfTwo false).Always fun r =>
      Within (matching (.fin (-1)) .pinf ((indices ![4, 4, 8]).map fun _ => zeroValue)) r.combined := by
  have h1 : setupOfTwo.lt.planArgs.nChunk = 1 := by decide +kernel
  have h2 : setupOfTwo.lt.planArgs.blocksPerChunk = 2 := by decide +kernel
  refine (originals_within (Z := markFirst) (fun x => rfl) (E := envOfDoubles) rfl (a := arrayOfStored)
    chunkShape_oneLayer (by decide) getLayout_ofTwo injective_zeros Nat.one_pos metaRecords_doubles
    (b := writtenOfStored) rfl (setup_of_query setup_stored rfl) key_zeros written_stored
    (by decide +kernel)
    (blockwise_firstValue (by decide +kernel))
    (prefixed_firstValue F32.bytes F32.ofBytes oneLayer (by decide))
    (isRounding_of_toNearest (toNearest_roundEven (by norm_num))) wellDecoded_doubles doubles_spec
    isDouble_neg_one isDouble_pinf (Dbl.fin_lt_pinf _) (by rw [h2]; norm_num [doubles])
    (by rw [PlanArgs.totalBlocks, h1, h2]; norm_num) false).2 ?_
  rintro ⟨cid, hcid⟩
  have hlt := hcid.lt
  rw [h1] at hlt
  obtain rfl : cid = 0 := by omega
  have habsent := hcid.absent
  cases habsent

end SkipZFP.Aggregate.Original
