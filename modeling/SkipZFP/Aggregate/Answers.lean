import SkipZFP.Aggregate.Absent
import SkipZFP.Query.Bounds
import SkipZFP.Query.Written

/-! # Answers of written arrays

An array is written chunk by chunk, where zarr leaves out the object of a chunk that is full of the fill
value, and `write_meta` stores its zone map beside the chunks.

* `written_storeMeta`: the chunks are as before.
* `exists_readMeta`: the zone map that is read is the one that was written.
* `answers_written`: **queries and aggregates answer for the values that reading the array returns**, and
  raise `FileNotFoundError` exactly where they need a chunk that is not stored. -/

namespace SkipZFP.Aggregate.Answers

open SkipZFP.Lib.Grid SkipZFP.Lib.Rows SkipZFP.Lib.Loops SkipZFP.Lib.Double SkipZFP.Lib.Float32
open SkipZFP.Lib.Next
open SkipZFP.Codec.Config SkipZFP.Codec.Pack SkipZFP.Codec.Meta SkipZFP.Plan.Classify SkipZFP.Plan.Blocks
open SkipZFP.Plan.Shapes SkipZFP.Plan.Records SkipZFP.Plan.Layers SkipZFP.Plan.Slabs SkipZFP.Plan.Right
open SkipZFP.Read.Merge SkipZFP.Read.Budget SkipZFP.Read.Gather SkipZFP.Read.Raise SkipZFP.Read.Missing
open SkipZFP.Read.Store SkipZFP.Read.ZoneMap SkipZFP.Read.Stream SkipZFP.Read.Slabs SkipZFP.Query.Run
open SkipZFP.Query.Slabs SkipZFP.Query.Pipelined SkipZFP.Query.Fill SkipZFP.Query.Layers
open SkipZFP.Query.Reading
open SkipZFP.Query.Absent SkipZFP.Query.Bounds SkipZFP.Aggregate.Block SkipZFP.Aggregate.Combine
open SkipZFP.Aggregate.Run SkipZFP.Aggregate.Pipelined SkipZFP.Aggregate.Damaged SkipZFP.Aggregate.Exact
open SkipZFP.Aggregate.Absent
open SkipZFP.Query.Written (Zarr storeMeta putObjects writtenObjects metaRecords metaObjects_withMeta
  returns_readMeta readMetaZarr_written ofLayout_metaRecords writeMeta_of_metaRecords markFirst
  getLayout_ofTwo metaRecords_of_writeMeta)
open SkipZFP.Query.Count (layer_zero rate_ok blockDim_setup shapeOk_setup shape_mod layoutOf_setup
  setup_spec arrayOfTwo envOfTwo optionsOfTwo setupOfTwo setup_eq)
open SkipZFP.Aggregate.Sound (matching)
open SkipZFP.Lib.Float32.F32 (Nearest nearest_ofDouble ofDouble)

/-! ### What is stored -/

section Store
variable {κ : Type} [LinearOrder κ] {Z : Zarr} {a : ZarrArray κ} {lt : Layout} {key : ℕ → κ}
  (hdisj : ∀ i p, key i ≠ a.chunkKey p) (t : ℕ) (compress : Bool) (rec : List (List UInt8))
include hdisj

/-- **The zone map is stored beside the chunks.** -/
theorem get_storeMeta (p : Tri) :
    (storeMeta Z a lt key t compress rec).get (a.chunkKey p) = a.get (a.chunkKey p) := by
  have hfind : (List.range (ceildiv (lt.unitGrid 0) t)).find? (fun i => key i = a.chunkKey p) = none :=
    List.find?_eq_none.mpr fun i _ => by simpa using hdisj i p
  show putObjects Z a lt key t compress rec (a.chunkKey p) = _
  unfold putObjects
  rw [hfind]

theorem written_storeMeta {nat : Native F32} {data : Tri → F32} {fill : F32}
    (h : Written nat a lt data fill) : Written nat (storeMeta Z a lt key t compress rec) lt data fill where
  object cid hcid := by
    have hget : (storeMeta Z a lt key t compress rec).get
        ((storeMeta Z a lt key t compress rec).keyOf lt cid) = a.get (a.keyOf lt cid) :=
      get_storeMeta hdisj t compress rec (unravel lt.gridShape cid)
    rw [hget]
    exact h.object cid hcid
  distinct := h.distinct

theorem readAt_storeMeta (nat : Native F32) (data : Tri → F32) (fill : F32) (layer : ℕ) :
    readAt nat (storeMeta Z a lt key t compress rec) data fill layer = readAt nat a data fill layer := by
  funext i
  unfold readAt
  rw [show (storeMeta Z a lt key t compress rec).get ((storeMeta Z a lt key t compress rec).chunkKey
    (outer (storeMeta Z a lt key t compress rec).chunk i)) = a.get (a.chunkKey (outer a.chunk i)) from
      get_storeMeta hdisj t compress rec _]
  rfl

end Store

/-! ### The zone map -/

/-- What `read_meta` returns does not depend on the bytes it holds at once. -/
theorem eq_of_returns_readMeta {κ : Type} {E : Env} {a : ZarrArray κ} {opts : QueryOptions} {st : Setup}
    {Q : List UInt8 × ℕ × ℕ → Prop} (h : (readMeta E a opts st).Returns Q) :
    ∃ m, (readMeta E a opts st).Returns (· = m) ∧ Q m := by
  unfold readMeta at h ⊢
  cases hmo : st.mo.filter fun _ => opts.metaByKey with
  | none =>
    rw [hmo] at h
    obtain ⟨m, hm, hQ⟩ := h
    exact ⟨m, returns_done hm rfl, hQ⟩
  | some mo =>
    rw [hmo] at h
    obtain ⟨g, hg, hnext⟩ := h
    obtain ⟨m, hm, hQ⟩ := hnext 0
    exact ⟨m, ⟨g, hg, fun _ => returns_done hm rfl⟩, hQ⟩

theorem layer_of_setup {κ : Type} {a : ZarrArray κ} {opts : QueryOptions} {st : Setup}
    (h : Aggregate.Run.setup a opts = .ok st) : st.layer = 0 := by
  unfold Aggregate.Run.setup at h
  cases hlt : getLayout a.codec a.shape a.chunk with
  | error msg => rw [hlt] at h; cases h
  | ok lt =>
    rw [hlt] at h
    dsimp only at h
    split_ifs at h
    cases hmo : metaObjects a lt with
    | error e => rw [hmo] at h; cases h
    | ok mo =>
      rw [hmo] at h
      obtain rfl := Except.ok.inj h
      rfl

section Zones
variable {κ : Type} [LinearOrder κ] {Z : Zarr} (hZ : ∀ x, Z.decompress (Z.compress x) = some x)
  {E : Env} (hE : E.zstd = Z.decompress) {a : ZarrArray κ} {l : List ℕ}
  (hchunk : a.codec.chunkShape l = .ok a.chunk) (hpos : ∀ i, 0 < a.shape i) {lt : Layout}
  (hlt : getLayout a.codec a.shape a.chunk = .ok lt) {key : ℕ → κ} (hkey : Function.Injective key)
  {t : ℕ} (ht : 0 < t) {compress : Bool} {wfl : ℚ → ℚ} {nat : Native F32} {data : Tri → F32}
  {rec : List (List UInt8)} (hrec : metaRecords wfl nat a.codec a.shape a.chunk data = .ok rec)
  {opts : QueryOptions} {st : Setup}
  (hst : Query.Run.setup (storeMeta Z a lt key t compress rec) opts = .ok st)
include hlt ht hst

theorem setup_storeMeta : st.lt = lt ∧ st.mo = some (writtenObjects lt t compress) := by
  obtain ⟨h1, -, h3⟩ := setup_spec hst
  have hlayout : getLayout a.codec a.shape a.chunk = .ok st.lt := h1
  obtain rfl : lt = st.lt := Except.ok.inj (hlt.symm.trans hlayout)
  have hmo : metaObjects (storeMeta Z a st.lt key t compress rec) st.lt = .ok (some _) :=
    metaObjects_withMeta ht _
  exact ⟨rfl, Except.ok.inj (h3.symm.trans hmo)⟩

include hZ hE hchunk hpos hkey hrec in
/-- **The zone map that is read** is the one that was written. -/
theorem exists_readMeta : ∃ m, (readMeta E (storeMeta Z a lt key t compress rec) opts st).Returns (· = m) ∧
    m.1 = rec.flatten := by
  have h := ofLayout_metaRecords (a.codec.chunkOk_of_chunkShape hchunk) hpos hlt hrec
  obtain ⟨hst', hmo⟩ := setup_storeMeta hlt ht hst
  refine eq_of_returns_readMeta ?_
  by_cases hby : opts.metaByKey = true
  · exact returns_readMeta hZ ht h hkey hE hst' (by rw [hmo]; simp [hby])
  · obtain ⟨m, hm, hrows⟩ : ∃ m, readMetaZarr (storeMeta Z a lt key t compress rec) lt = .ok m ∧
      m.1 = rec.flatten := readMetaZarr_written hZ ht h hkey
    have hzarr : readMeta E (storeMeta Z a lt key t compress rec) opts st =
        .done (readMetaZarr (storeMeta Z a lt key t compress rec) lt) := by
      unfold readMeta
      rw [hmo, hst']
      simp [hby]
    rw [hzarr]
    exact returns_done hm hrows

/-! ### The answers -/

omit hst in
include hZ hE hchunk hpos hkey in
/-- **Queries and aggregates answer for the values that are decoded at the layer queried**, or notice that
they need a chunk that is not stored. For every array written chunk by chunk, whatever chunks full of the
fill value are left out, followed by `write_meta` on the same data, every range that `range_bounds`
accepts and all options with which the array is queried:

* a query that needs a missing chunk, one with a MAYBE block, raises `FileNotFoundError` for one in every
  run; if libzfp decodes the data well, every other query returns the number of the values in the range;
* then so does an aggregate, which also needs the chunks with an IN block, with the sum and the mean of
  these values.

At the last layer these values are those that reading the array returns. -/
theorem answers_written
    (hrec : metaRecords E.fl nat a.codec a.shape a.chunk data = .ok rec) {b : ZarrArray κ}
    (hb : b = storeMeta Z a lt key t compress rec) (hst : Query.Run.setup b opts = .ok st) {fill : F32}
    (hdisj : ∀ i p, key i ≠ a.chunkKey p) (hW : Written nat a lt data fill) (hfits : lt.planArgs.fits)
    {round : Dbl → F32} (hround : Nearest round) {lower upper : Option Dbl} {loInclusive hiInclusive : Bool}
    {lo hi : Dbl} (hrange : rangeBounds round lower upper loInclusive hiInclusive = .ok (lo, hi))
    (hdec : Blockwise nat E.decode st.rate) (hpre : Prefixed nat a.codec st.layer)
    (hfl : IsRounding 53 E.fl) (A : Arith) (returnBlocks : Bool) :
    ((∃ cid, Missing E b st rec.flatten lo hi false cid) →
      Raises (fun e => ∃ cid, Missing E b st rec.flatten lo hi false cid ∧
        e = .FileNotFoundError (a.keyOf lt cid)) (queryAsync E b lo hi opts)) ∧
    (WellDecoded E.fl nat a.codec st.layer a.shape a.chunk data →
      ((¬ ∃ cid, Missing E b st rec.flatten lo hi false cid) →
        (∀ mo, st.pipelined opts = some mo → 64 * lt.planArgs.totalBlocks < 2 ^ 53) →
        (queryAsync E b lo hi opts).Always fun r => r.count =
          (indices a.shape).countP fun i => InRange lo hi (readAt nat a data fill st.layer i).val) ∧
      (Aggregate.Run.setup b opts = .ok st →
        ((∃ cid, Missing E b st rec.flatten lo hi true cid) →
          Raises (fun e => ∃ cid, Missing E b st rec.flatten lo hi true cid ∧
            e = .FileNotFoundError (a.keyOf lt cid)) (aggregateAsync E A b lo hi opts returnBlocks)) ∧
        ((¬ ∃ cid, Missing E b st rec.flatten lo hi true cid) →
          (aggregateAsync E A b lo hi opts returnBlocks).Always fun r => Reports A
            (matching lo hi ((indices a.shape).map (readAt nat a data fill st.layer))) r.combined))) ∧
    ∀ memory i, Inside a.shape i →
      readAt nat a data fill (a.codec.layers.length - 1) i = zarrAt nat a fill memory i := by
  subst hb
  have hc := a.codec.chunkOk_of_chunkShape hchunk
  obtain ⟨hs, -⟩ := getLayout_ok hlt
  obtain ⟨m, hm, hrows⟩ := exists_readMeta hZ hE hchunk hpos hlt hkey ht hrec hst
  obtain ⟨hst', -⟩ := setup_storeMeta hlt ht hst
  obtain ⟨hlo, hhi⟩ := rangeBounds_ne_nan hround hrange
  have hread : readAt nat (storeMeta Z a lt key t compress rec) data fill st.layer = _ :=
    readAt_storeMeta hdisj t compress rec nat data fill st.layer
  have hwritten := written_storeMeta (Z := Z) hdisj t compress rec hW
  have hzarr := fun memory i (hi : Inside a.shape i) => readAt_eq_zarrAt hc hlt hW memory hi
  have hzm : writeMeta E.fl nat a.codec a.shape a.chunk data = .ok m.1 := by
    rw [hrows]
    exact writeMeta_of_metaRecords hs hrec
  rw [← hrows]
  subst hst'
  refine ⟨fun hmiss => raises_query hst hwritten hchunk hfits hm hmiss, fun hw => ?_, hzarr⟩
  obtain ⟨hright, hsum⟩ :=
    right_of_wellDecoded (a := storeMeta Z a st.lt key t compress rec) hc hst hwritten hfl hzm hw
  refine ⟨fun hall hpipe => ?_, fun hagg => ⟨fun hmiss => ?_, fun hall => ?_⟩⟩
  · rw [← hread]
    exact always_query hst hwritten hchunk hfits hm hall hdec hpre
      (fun mo hmo => ⟨fun _ => hfl.natCast, hpipe mo hmo⟩) (hright lo hi)
  · have h0 := layer_of_setup hagg
    exact raises_aggregate hst h0 hwritten hdec hpre hlo hhi (hsum lo hi) hfits hm A
      returnBlocks hchunk hmiss
  · have h0 := layer_of_setup hagg
    rw [← hread]
    exact always_aggregate hst h0 hwritten hdec hpre hlo hhi (hsum lo hi) hfits hm A
      returnBlocks hchunk hall
      (hright lo hi)

end Zones

/-! ### An array of zeros -/

theorem ofBytes_take {n : ℕ} (hn : 4 ≤ n) (l : List UInt8) : F32.ofBytes (l.take n) = F32.ofBytes l := by
  have hget : ∀ k < 4, (l.take n).getD k 0 = l.getD k 0 := fun k hk => by
    rw [List.getD_eq_getElem?_getD, List.getElem?_take, if_pos (by omega), List.getD_eq_getElem?_getD]
  unfold F32.ofBytes
  rw [hget 0 (by omega), hget 1 (by omega), hget 2 (by omega), hget 3 (by omega)]

theorem blockwise_firstValue {rate : ℚ} (h : 4 ≤ blockBytes rate) :
    Blockwise (firstValue F32.bytes F32.ofBytes) (fun _ bytes _ => F32.ofBytes bytes) rate := by
  intro s y b _ hb k
  have hk : Inside blockShape (unravel blockShape k.val) := inside_unravel k.isLt
  show F32.ofBytes (slice _ _ _) = F32.ofBytes (List.drop _ _)
  rw [outer_join hk, slice, Nat.add_sub_cancel_left, ofBytes_take h]

/-- An array of zeros, whose only chunk is not stored. Chunks have even keys. -/
def arrayOfZeros : ZarrArray ℕ :=
  { arrayOfTwo with
    get := fun _ => none
    chunkKey := fun p => 2 * ravel ![1, 1, 1] p }

def zeroValue : F32 := F32.ofBytes [0, 0, 0, 0]

/-- The same, after `write_meta`. The zone map has odd keys. -/
def writtenOfZeros : ZarrArray ℕ :=
  storeMeta markFirst arrayOfZeros setupOfTwo.lt (2 * · + 1) 1 false
    [List.replicate 14 0, List.replicate 14 0]

def envOfZeros : Env := { envOfTwo with zstd := markFirst.decompress }

theorem metaRecords_zeros : metaRecords id (firstValue F32.bytes F32.ofBytes) oneLayer ![4, 4, 8] ![4, 4, 8]
    (fun _ => zeroValue) = .ok [List.replicate 14 0, List.replicate 14 0] := by decide +kernel

theorem setup_zeros : Query.Run.setup writtenOfZeros optionsOfTwo = .ok setupOfTwo :=
  setup_eq (a := writtenOfZeros) (k := 0) (oneLayer.chunkOk_of_chunkShape chunkShape_oneLayer)
    (by decide) (by decide) (by decide +kernel) (by decide) rfl (Or.inl rfl) rfl

theorem written_zeros : Written (firstValue F32.bytes F32.ofBytes) arrayOfZeros setupOfTwo.lt
    (fun _ => zeroValue) zeroValue where
  object _ _ := Or.inr ⟨rfl, fun _ _ => rfl⟩
  distinct cid hcid cid' hcid' _ := by
    have h1 : volume setupOfTwo.lt.gridShape = 1 := by decide +kernel
    omega

theorem wellDecoded_zeros : WellDecoded id (firstValue F32.bytes F32.ofBytes) oneLayer 0 ![4, 4, 8]
    ![4, 4, 8] fun _ => zeroValue where
  finite _ _ := ⟨0, by decide +kernel⟩
  small _ _ := by
    show SmallErrors (oneLayer.unit ![4, 4, 8]) (fun _ => zeroValue)
      (decoded (firstValue F32.bytes F32.ofBytes) 1 (oneLayer.unit ![4, 4, 8]) fun _ => zeroValue)
    unfold SmallErrors
    decide +kernel
  kept _ _ := by
    show KeptErrors id (oneLayer.unit ![4, 4, 8]) (fun _ => zeroValue)
      (decoded (firstValue F32.bytes F32.ofBytes) 1 (oneLayer.unit ![4, 4, 8]) fun _ => zeroValue)
    unfold KeptErrors
    decide +kernel

theorem key_zeros (i : ℕ) (p : Tri) : 2 * i + 1 ≠ arrayOfZeros.chunkKey p := by
  show 2 * i + 1 ≠ 2 * _
  omega

theorem injective_zeros : Function.Injective fun i : ℕ => 2 * i + 1 := fun i j h => by
  dsimp only at h
  omega

theorem blockState_zeros : ∀ b < setupOfTwo.lt.planArgs.blocksPerChunk, blockState envOfZeros writtenOfZeros
    setupOfTwo [List.replicate 14 0, List.replicate 14 0].flatten (.fin (-1)) .pinf 0 b = .IN := by
  decide +kernel

/-- **An aggregate reads the chunk that is not stored**: all values are above -1. -/
theorem not_answers_zeros : rangeBounds ofDouble (some (.fin (-1))) none false true =
    .ok (.fin (-1), .pinf) ∧
    Written (firstValue F32.bytes F32.ofBytes) arrayOfZeros setupOfTwo.lt (fun _ => zeroValue) zeroValue ∧
      metaRecords id (firstValue F32.bytes F32.ofBytes) oneLayer ![4, 4, 8] ![4, 4, 8]
        (fun _ => zeroValue) = .ok [List.replicate 14 0, List.replicate 14 0] ∧
      (∀ memory i, InRange (.fin (-1)) .pinf
        (zarrAt (firstValue F32.bytes F32.ofBytes) arrayOfZeros zeroValue memory i).val) ∧
      Raises (fun e => e = .FileNotFoundError 0)
        (aggregateAsync envOfZeros .exact writtenOfZeros (.fin (-1)) .pinf optionsOfTwo false) := by
  have hc : writtenOfZeros.codec.ChunkOk writtenOfZeros.chunk :=
    oneLayer.chunkOk_of_chunkShape chunkShape_oneLayer
  have hw : Written (firstValue F32.bytes F32.ofBytes) writtenOfZeros setupOfTwo.lt
    (fun _ => zeroValue) zeroValue := written_storeMeta key_zeros 1 false _ written_zeros
  have h1 : setupOfTwo.lt.planArgs.nChunk = 1 := by decide +kernel
  obtain ⟨m, hm, hrows⟩ : ∃ m,
      (readMeta envOfZeros writtenOfZeros optionsOfTwo setupOfTwo).Returns (· = m) ∧
      m.1 = [List.replicate 14 0, List.replicate 14 0].flatten :=
    exists_readMeta (Z := markFirst) (fun x => rfl) rfl (a := arrayOfZeros) chunkShape_oneLayer (by decide)
      getLayout_ofTwo injective_zeros Nat.one_pos metaRecords_zeros setup_zeros
  have hmiss : ∃ cid, Missing envOfZeros writtenOfZeros setupOfTwo m.1 (.fin (-1)) .pinf true cid := by
    rw [hrows]
    refine ⟨0, by omega, rfl, 0, by decide +kernel, ?_⟩
    rw [blockState_zeros 0 (by decide +kernel)]
    rfl
  have hsum : Summable envOfZeros (firstValue F32.bytes F32.ofBytes) writtenOfZeros setupOfTwo
      (fun _ => zeroValue) zeroValue m.1 (.fin (-1)) .pinf := by
    rw [hrows]
    exact (right_of_wellDecoded (E := envOfZeros) (a := writtenOfZeros) hc setup_zeros hw (isRounding_id 53)
      (writeMeta_of_metaRecords (by decide) metaRecords_zeros) wellDecoded_zeros).2 _ _
  refine ⟨rfl, written_zeros, metaRecords_zeros, fun memory i => ?_, raises_mono (fun e he => ?_)
    (raises_aggregate setup_zeros rfl hw (blockwise_firstValue (by decide +kernel))
      (prefixed_firstValue F32.bytes F32.ofBytes oneLayer (by decide)) (by simp) (by simp) hsum
      (by decide +kernel) hm .exact false chunkShape_oneLayer hmiss)⟩
  · show InRange (.fin (-1)) .pinf zeroValue.val
    exact ⟨by decide +kernel, by decide +kernel⟩
  · obtain ⟨cid, hcid, rfl⟩ := he
    have := hcid.lt
    obtain rfl : cid = 0 := by omega
    rfl

/-- A query of the same array needs no chunk, an aggregate needs the one that is not stored. -/
theorem answers_written_zeros :
    ((queryAsync envOfZeros writtenOfZeros (.fin (-1)) .pinf optionsOfTwo).Always fun r =>
      r.count = 128) ∧
    Raises (fun e => e = .FileNotFoundError 0)
      (aggregateAsync envOfZeros .exact writtenOfZeros (.fin (-1)) .pinf optionsOfTwo false) := by
  have hrange : rangeBounds ofDouble (some (.fin (-1))) none false true = .ok (.fin (-1), .pinf) := rfl
  have h1 : setupOfTwo.lt.planArgs.nChunk = 1 := by decide +kernel
  have hagg : Aggregate.Run.setup writtenOfZeros optionsOfTwo = .ok setupOfTwo :=
    setup_of_query setup_zeros rfl
  obtain ⟨-, hanswers, -⟩ := answers_written (Z := markFirst) (fun x => rfl) rfl (a := arrayOfZeros)
    chunkShape_oneLayer (by decide) getLayout_ofTwo injective_zeros Nat.one_pos (E := envOfZeros)
    metaRecords_zeros (b := writtenOfZeros) rfl setup_zeros key_zeros written_zeros (by decide +kernel)
    nearest_ofDouble hrange (blockwise_firstValue (by decide +kernel))
    (prefixed_firstValue F32.bytes F32.ofBytes oneLayer (by decide)) (isRounding_id 53) .exact false
  obtain ⟨hquery, haggregate⟩ := hanswers wellDecoded_zeros
  refine ⟨always_mono (fun r hr => ?_) (hquery ?_ ?_), raises_mono (fun e he => ?_)
    ((haggregate hagg).1 ⟨0, h1.symm ▸ Nat.one_pos, rfl, 0, by decide +kernel, ?_⟩)⟩
  · rw [hr, List.countP_eq_length.mpr fun i _ => ?_]
    · decide +kernel
    · show decide (InRange (.fin (-1)) .pinf zeroValue.val) = true
      decide +kernel
  · rintro ⟨cid, hcid, -, b, hb, hlisted⟩
    obtain rfl : cid = 0 := by omega
    rw [blockState_zeros b hb] at hlisted
    cases hlisted
  · intro mo hmo
    cases hmo
  · obtain ⟨cid, hcid, rfl⟩ := he
    have := hcid.lt
    obtain rfl : cid = 0 := by omega
    rfl
  · show isListed true (blockState envOfZeros writtenOfZeros setupOfTwo
      [List.replicate 14 0, List.replicate 14 0].flatten (.fin (-1)) .pinf 0 0)
    rw [blockState_zeros 0 (by decide +kernel)]
    rfl

end SkipZFP.Aggregate.Answers
