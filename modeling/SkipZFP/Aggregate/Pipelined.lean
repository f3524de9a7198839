import SkipZFP.Aggregate.Run
import SkipZFP.Query.Pipelined
import SkipZFP.Query.Together

/-! # The pipelined aggregate

`_aggregate_pipelined` plans as the pipelined query does, and lists the IN blocks too. `same_aggregate`:
**it returns what the aggregate with the whole zone map returns**, the bytes held at once apart. Its
totals are integers, so that no count has to be small. -/

namespace SkipZFP.Aggregate.Pipelined

open SkipZFP.Lib.Grid SkipZFP.Lib.Rows SkipZFP.Lib.Loops SkipZFP.Lib.Double SkipZFP.Lib.Float32
open SkipZFP.Codec.Config SkipZFP.Codec.Pack SkipZFP.Plan.Classify SkipZFP.Plan.Blocks
open SkipZFP.Plan.Shapes SkipZFP.Plan.Records SkipZFP.Plan.Slabs SkipZFP.Read.Merge SkipZFP.Read.Budget
open SkipZFP.Read.Gather SkipZFP.Read.Store SkipZFP.Read.ZoneMap SkipZFP.Read.Stream
open SkipZFP.Read.Slabs SkipZFP.Query.Run SkipZFP.Query.Count SkipZFP.Query.Slabs
open SkipZFP.Query.Pipelined SkipZFP.Query.Together SkipZFP.Aggregate.Block SkipZFP.Aggregate.Combine
open SkipZFP.Aggregate.Run

section Aggregate
variable {κ : Type} {E : Env} {A : Arith} {a : ZarrArray κ} {lo hi : Dbl} {opts : QueryOptions}
  {returnBlocks : Bool} {st : Setup} {mo : MetaObjects}

theorem mergeListed_eq {listed : List Listed} (hs : (listed.map idOf).Pairwise IdLt)
    (h32 : ∀ id ∈ listed.map idOf, id.2 < 2 ^ 32) : mergeListed a opts st listed =
      .ok (readsOf (a.keyOf st.lt) (st.layerBytes 0) 0 0
        (groups (opts.mergeGapBlocks % 2 ^ 64) (listed.map idOf))) := by
  unfold mergeListed
  rw [mergeRanges_eq (a.keyOf st.lt) hs h32, checked]
  dsimp only
  rw [if_neg]
  rintro ⟨-, hchain⟩
  exact hchain (isChain_idKey hs h32)

theorem planSlab_eq (h : Slabbed a st mo) (i : ℕ) (hcount : i < mo.count) (data : List UInt8) :
    planSlab E a lo hi opts st mo i data = (openObject E.zstd st.lt mo i data).map fun slab =>
      plannedObject a st mo E.fl lo hi true opts.mergeGapBlocks id (i, (slab, data.length)) := by
  unfold planSlab
  cases openObject E.zstd st.lt mo i data with
  | error e => rfl
  | ok slab =>
    dsimp only [Except.map]
    have hargs : objectArgs st (min mo.tChunk (st.lt.unitGrid 0 - i * mo.tChunk)) =
        Plan.Slabs.slab st.lt.planArgs mo.tChunk i := rfl
    have hlisted := h.shift_listing E.fl lo hi true (x := (i, (slab, data.length))) hcount
    rw [hargs, ← objectZones, planRead_eq (shapeOk_slab h.shapeOk h.whole) (h.fits_object hcount),
      checked]
    dsimp only at hlisted ⊢
    rw [hlisted, mergeListed_eq (Slabbed.pairwise_objectIds E.fl lo hi true _)
      (h.block_lt E.fl lo hi true)]
    unfold plannedObject
    rw [List.map_id]

/-- What the reads of an object return. -/
def readSlab (E : Env) (A : Arith) (a : ZarrArray κ) (lo hi : Dbl) (opts : QueryOptions) (st : Setup)
    (mo : MetaObjects) (x : ℕ × (List UInt8 × ℕ)) :
    Except (QueryError κ) (List ((SzAggregate × ℕ) × ℕ)) :=
  (deal (groups (opts.mergeGapBlocks % 2 ^ 64)
    ((objectListed a st mo E.fl lo hi true x).map idOf))
    ((objectListed a st mo E.fl lo hi true x).map id)).mapM fun y =>
      readGroup a (a.keyOf st.lt) (st.layerBytes 0) 0 (aggRead E A lo hi st) y.1 y.2

/-- **The pipelined aggregate, one object after another.** -/
theorem slabTasks_ok (h : Slabbed a st mo)
    {rows : List (PlannedObject κ Listed × List ((SzAggregate × ℕ) × ℕ))} :
    (List.range mo.count).mapM (slabTasks E A a lo hi opts st mo).evalZone = .ok rows ↔
      ∃ ss bss, (List.range mo.count).mapM (openedObject E.zstd a st.lt mo) = .ok ss ∧
        ((List.range mo.count).zip ss).mapM (readSlab E A a lo hi opts st mo) = .ok bss ∧
        rows = (((List.range mo.count).zip ss).map (plannedObject a st mo E.fl lo hi true
          opts.mergeGapBlocks id)).zip bss :=
  evalZones_ok (planSlab_eq h) fun _ => rfl

/-- What is planned for opened zone map objects. -/
def listedOf (E : Env) (a : ZarrArray κ) (lo hi : Dbl) (st : Setup) (mo : MetaObjects)
    (ss : List (List UInt8 × ℕ)) : List Listed :=
  listing E.fl (wholeZones a st mo ss) st.lt.planArgs lo hi true

/-- The ids of listed blocks are in order, and those of blocks have 32 bits. -/
theorem ids_listing {p : PlanArgs} (hfits : p.fits) (fl : ℚ → ℚ) (zm : List UInt8) (lo hi : Dbl) :
    ((listing fl zm p lo hi true).map idOf).Pairwise IdLt ∧
      ∀ id ∈ (listing fl zm p lo hi true).map idOf, id.2 < 2 ^ 32 := by
  constructor
  · rw [List.pairwise_map]
    exact pairwise_listing true
  · intro id hid
    obtain ⟨l, hl, rfl⟩ := List.mem_map.mp hid
    have hb := (mem_listing.mp hl).2.1
    have hf := hfits.2.2.1
    unfold uint32Max at hf
    show l.block < 2 ^ 32
    omega

/-- **What an aggregate plans** with the whole zone map: the listed blocks and the reads of their
groups. -/
theorem planAggregate_eq (hshape : st.lt.planArgs.shapeOk) (hfits : st.lt.planArgs.fits)
    (m : List UInt8 × ℕ × ℕ) : planAggregate E a lo hi opts st m =
      .ok (listing E.fl (planMeta a.codec 0 st.lt.unitShape m.1) st.lt.planArgs lo hi true,
        countAll E.fl (planMeta a.codec 0 st.lt.unitShape m.1) st.lt.planArgs lo hi .IN,
        countAll E.fl (planMeta a.codec 0 st.lt.unitShape m.1) st.lt.planArgs lo hi .OUT,
        readsOf (a.keyOf st.lt) (st.layerBytes 0) 0 0 (groups (opts.mergeGapBlocks % 2 ^ 64)
          ((listing E.fl (planMeta a.codec 0 st.lt.unitShape m.1) st.lt.planArgs lo hi
            true).map idOf))) := by
  obtain ⟨hs, h32⟩ := ids_listing hfits E.fl (planMeta a.codec 0 st.lt.unitShape m.1) lo hi
  unfold planAggregate
  rw [planRead_eq hshape hfits, checked]
  dsimp only
  rw [mergeListed_eq hs h32]
  rfl

/-- **The reads of the whole aggregate** are those of the objects, one object after another. -/
theorem aggregateTasks_ok (h : Slabbed a st mo) {ss : List (List UInt8 × ℕ)}
    (hlen : ss.length = mo.count) (hsize : ∀ s ∈ ss, s.1.length = mo.size)
    {parts : List ((SzAggregate × ℕ) × ℕ)} :
    ((readsOf (a.keyOf st.lt) (st.layerBytes 0) 0 0 (groups (opts.mergeGapBlocks % 2 ^ 64)
        ((listedOf E a lo hi st mo ss).map idOf))).map fun req =>
          (req, listedOf E a lo hi st mo ss)).mapM
        (aggregateTasks E A a lo hi opts st).readResult = .ok parts ↔
      ∃ bss, ((List.range mo.count).zip ss).mapM (readSlab E A a lo hi opts st mo) = .ok bss ∧
        parts = bss.flatten := by
  have hdeal := h.deal_objects E.fl lo hi true hlen hsize (opts.mergeGapBlocks % 2 ^ 64) id
  rw [List.map_id] at hdeal
  unfold aggregateTasks listedOf
  rw [mapM_readsOf, List.drop_zero, hdeal, mapM_flatMap_ok]
  rfl

theorem slabsResult_eq (h : Slabbed a st mo) {ss : List (List UInt8 × ℕ)}
    {bss : List (List ((SzAggregate × ℕ) × ℕ))} (hlen : ss.length = mo.count)
    (hsize : ∀ s ∈ ss, s.1.length = mo.size) (hbss : bss.length = mo.count) (peak : ℕ) :
    slabsResult A returnBlocks st mo ((((List.range mo.count).zip ss).map (plannedObject a st mo
        E.fl lo hi true opts.mergeGapBlocks id)).zip bss) peak =
      wholeResult A returnBlocks st (joinObjects st.lt mo ss) (listedOf E a lo hi st mo ss,
        countAll E.fl (wholeZones a st mo ss) st.lt.planArgs lo hi .IN,
        countAll E.fl (wholeZones a st mo ss) st.lt.planArgs lo hi .OUT,
        readsOf (a.keyOf st.lt) (st.layerBytes 0) 0 0 (groups (opts.mergeGapBlocks % 2 ^ 64)
          ((listedOf E a lo hi st mo ss).map idOf))) bss.flatten peak := by
  obtain ⟨hin, hout, hitems, hmerged, hstored⟩ :=
    h.sum_plannedObject E.fl lo hi true hlen hsize opts.mergeGapBlocks id
  set objects := ((List.range mo.count).zip ss).map (plannedObject a st mo E.fl lo hi true
    opts.mergeGapBlocks id) with hobjects
  have hzip : objects.length = bss.length := by
    rw [hobjects, List.length_map, List.length_zip, List.length_range, hlen, hbss, Nat.min_self]
  have hrow := fun f : PlannedObject κ Listed → ℕ => (map_zip_sides hzip f fun _ => 0).1
  have hpart := fun g : List ((SzAggregate × ℕ) × ℕ) → ℕ => (map_zip_sides hzip (fun _ => 0) g).2
  have hfst : ((objects.zip bss).flatMap fun r => r.2.map Prod.fst) = bss.flatten.map Prod.fst := by
    rw [List.flatMap_def, (map_zip_sides hzip (fun _ => 0) fun bs => bs.map Prod.fst).2,
      List.map_flatten]
  have hsnd : (bss.map fun bs => (bs.map Prod.snd).sum).sum = (bss.flatten.map Prod.snd).sum := by
    rw [List.map_flatten, List.sum_flatten, List.map_map]
    rfl
  have hids : ((objects.zip bss).flatMap fun r => r.1.items.map idOf) =
      (listedOf E a lo hi st mo ss).map idOf := by
    unfold listedOf
    rw [List.flatMap_def, (map_zip_sides hzip (fun o => o.items.map idOf) fun _ => 0).1,
      h.listing_objects hlen hsize E.fl lo hi true, List.map_flatMap, List.flatMap_def, hobjects,
      List.map_map]
    refine congrArg List.flatten (List.map_congr_left fun x _ => ?_)
    exact congrArg (List.map idOf) (List.map_id _)
  unfold slabsResult wholeResult
  dsimp only
  rw [hfst, hids, hrow fun o => o.nIn, hrow fun o => o.nOut, hrow fun o => o.items.length,
    hrow fun o => o.stored, hrow fun o => o.merged.length, hpart fun bs => (bs.map Prod.snd).sum,
    hin, hout, hitems, hmerged, hstored, hsnd, length_readsOf]
  rfl

theorem wholeResult_withPeak {m : List UInt8 × ℕ × ℕ}
    {p : List Listed × ℕ × ℕ × List (MergedRange κ)} {parts : List ((SzAggregate × ℕ) × ℕ)}
    {peak : ℕ} {v : AggregateResult} (hv : wholeResult A returnBlocks st m p parts peak = .ok v)
    (peak' : ℕ) : wholeResult A returnBlocks st m p parts peak' = .ok (v.withPeak peak') := by
  unfold wholeResult at hv ⊢
  cases hc : (combined A st (parts.map Prod.fst) : Except (QueryError κ) Combined) with
  | error e => rw [hc] at hv; cases hv
  | ok c =>
    rw [hc] at hv
    obtain rfl := Except.ok.inj hv
    rfl

/-- **The pipelined aggregate returns what the aggregate with the whole zone map returns.** -/
theorem same_aggregate (h : Slabbed a st mo) (hpipe : st.pipelined opts = some mo) :
    (wholeAggregate E A a lo hi opts returnBlocks st).SameUpTo
      (fun v v' => v' = v.withPeak v'.peakInflightBytes)
      (pipelinedAggregate E A a lo hi opts returnBlocks st mo) := by
  obtain ⟨hmo, hkey, -, -⟩ := pipelined_spec hpipe
  have hcount : ∀ {ss : List (List UInt8 × ℕ)} {bss : List (List ((SzAggregate × ℕ) × ℕ))},
      ss.length = mo.count → ((List.range mo.count).zip ss).mapM
        (readSlab E A a lo hi opts st mo) = .ok bss → bss.length = mo.count := fun hlen hbss => by
    rw [(getElem?_mapM_ok hbss).1, List.length_zip, List.length_range, hlen, Nat.min_self]
  refine sameUpTo_of_returns (fun v hv => ?_) fun v' hv' => ?_
  · obtain ⟨m, hm, hv⟩ := mayReturn_bind hv
    obtain ⟨ss, hss, rfl⟩ := mayReturn_readMeta hmo hkey hm
    obtain ⟨hlen, hsize⟩ := opened_sizes hss
    obtain ⟨p, hp, hv⟩ := mayReturn_bind hv
    obtain rfl := Except.ok.inj ((planAggregate_eq h.shapeOk h.fits _).symm.trans hp)
    obtain ⟨parts, peak, hparts, hv⟩ := mayReturn_reads hv
    obtain ⟨bss, hbss, rfl⟩ := (aggregateTasks_ok h hlen hsize).mp hparts
    refine returns_zones ((slabTasks_ok h).mpr ⟨ss, bss, hss, hbss, rfl⟩) fun peak' => ?_
    refine returns_done ((slabsResult_eq h hlen hsize (hcount hlen hbss) peak').trans
      (wholeResult_withPeak hv peak')) rfl
  · obtain ⟨rows, peak', hrows, hv⟩ := mayReturn_zones hv'
    obtain ⟨ss, bss, hss, hbss, rfl⟩ := (slabTasks_ok h).mp hrows
    obtain ⟨hlen, hsize⟩ := opened_sizes hss
    have hv := (slabsResult_eq h hlen hsize (hcount hlen hbss) peak').symm.trans hv
    refine returns_bind (returns_mono (fun m hm => ?_) (returns_readMeta hmo hkey hss))
    subst hm
    refine returns_bind (returns_done (planAggregate_eq h.shapeOk h.fits _) ?_)
    refine returns_reads ((aggregateTasks_ok h hlen hsize).mpr ⟨bss, hbss, rfl⟩) fun peak => ?_
    exact returns_done (wholeResult_withPeak hv peak) rfl

theorem setup_of_query (hst : Query.Run.setup a opts = .ok st) (h0 : st.layer = 0) :
    Aggregate.Run.setup a opts = .ok st := by
  unfold Query.Run.setup at hst
  unfold Aggregate.Run.setup
  cases hlt : getLayout a.codec a.shape a.chunk with
  | error msg => rw [hlt] at hst; cases hst
  | ok lt =>
    rw [hlt] at hst
    dsimp only at hst ⊢
    split_ifs at hst with h1 h2
    cases hm : metaObjects a lt with
    | error e => rw [hm] at hst; cases hst
    | ok mo =>
      rw [hm] at hst
      obtain rfl := Except.ok.inj hst
      obtain ⟨hlow, hhigh⟩ := h1
      have hzero : opts.layer.getD ((lt.layers.length : ℤ) - 1) = 0 := by
        change (opts.layer.getD _).toNat = 0 at h0
        omega
      split_ifs with hother
      · rcases hother with hany | ⟨hnone, hlayers⟩
        · rw [Option.any_eq_true] at hany
          obtain ⟨n, hn, hne⟩ := hany
          rw [hn, Option.getD_some] at hzero
          exact absurd hzero (of_decide_eq_true hne)
        · rw [hnone, Option.getD_none] at hzero
          omega
      · rw [hzero]
        rfl

variable [LinearOrder κ]

/-- **Pipelined execution refines execution with the whole zone map.** For every array of whole chunks
that the planner can number, all bounds and all options with which a query is pipelined:

* for zone map objects of any bytes, planning them one by one gives the blocks, states and error bounds
  of planning the whole zone map, and their merged reads are its merged reads;
* a query returns the same, pipelined or not, where its counts are below `2 ^ 53`;
* an aggregate returns the same, pipelined or not, with the same listed blocks. -/
theorem pipelined_refines {l : List ℕ} (hchunk : a.codec.chunkShape l = .ok a.chunk)
    (hst : Query.Run.setup a opts = .ok st) (hpipe : st.pipelined opts = some mo)
    (hfits : st.lt.planArgs.fits) (hfl : FixesIntegers E.fl) :
    (∀ ss : List (List UInt8 × ℕ), ss.length = mo.count → (∀ s ∈ ss, s.1.length = mo.size) →
      (∃ plans, ((List.range mo.count).zip ss).mapM (planMaybe E.fl a lo hi st mo) = .ok plans ∧
        planChunks E.fl (wholeZones a st mo ss) st.lt.planArgs lo hi = .ok (together plans) ∧
        ∀ blockSize gap, MergesAlike (a.keyOf st.lt) blockSize gap id plans) ∧
      ∃ plans, ((List.range mo.count).zip ss).mapM (planListed E.fl a lo hi st mo) = .ok plans ∧
        planRead E.fl (wholeZones a st mo ss) st.lt.planArgs lo hi = .ok (together plans) ∧
        ∀ blockSize gap, MergesAlike (a.keyOf st.lt) blockSize gap idOf plans) ∧
    (queryAsync E a lo hi { opts with pipeline := false }).SameUpTo SameSmall
      (queryAsync E a lo hi opts) ∧
    (aggregateAsync E A a lo hi { opts with pipeline := false } returnBlocks).SameUpTo
      (fun v v' => v' = v.withPeak v'.peakInflightBytes)
      (aggregateAsync E A a lo hi opts returnBlocks) := by
  have h := slabbed_of_setup hchunk hst hpipe hfits
  obtain ⟨-, -, h0, -⟩ := pipelined_spec hpipe
  have hst' : Query.Run.setup a { opts with pipeline := false } = .ok st := hst
  have hnone : st.pipelined { opts with pipeline := false } = none := pipelined_eq_none rfl
  refine ⟨fun ss hlen hsize => ⟨together_maybe E.fl lo hi h hlen hsize,
    together_listed E.fl lo hi h hlen hsize⟩, ?_, ?_⟩
  · have hwhole : queryAsync E a lo hi { opts with pipeline := false } =
        wholeQuery E a lo hi opts st := by
      rw [query_eq_wholeQuery hst' hnone]
      unfold wholeQuery
      simp only [if_pos h0]
      rfl
    rw [hwhole, query_eq_pipelinedQuery hst hpipe]
    exact same_query h hpipe hfl (layer_zero hst h0).1
  · have hwhole : aggregateAsync E A a lo hi { opts with pipeline := false } returnBlocks =
        wholeAggregate E A a lo hi opts returnBlocks st := by
      unfold aggregateAsync aggregate
      rw [setup_of_query hst' h0]
      dsimp only
      rw [hnone]
      rfl
    have hpipelined : aggregateAsync E A a lo hi opts returnBlocks =
        pipelinedAggregate E A a lo hi opts returnBlocks st mo := by
      unfold aggregateAsync aggregate
      rw [setup_of_query hst h0]
      dsimp only
      rw [hpipe]
    rw [hwhole, hpipelined]
    exact same_aggregate h hpipe

end Aggregate

/-! ### An array of three chunks -/

/-- Three chunks of two blocks. The second of its two zone map objects is padded. -/
def arrayOfThree : ZarrArray ℕ where
  codec := oneLayer
  shape := ![12, 4, 8]
  chunk := ![4, 4, 8]
  get k :=
    if k < 3 then some (List.replicate 8 0 ++ [0, 0, 128, 63, 0, 0, 0, 0])
    else if k = 3 then some (zonesOfTwo ++ zonesOfTwo)
    else some (zonesOfTwo ++ List.replicate 28 0)
  chunkKey := ravel ![3, 1, 1]
  metaKey := some fun i => i + 3
  source := none
  tChunk := some 2
  packing := none
  metaArray := .error .zstd

def setupOfThree : Setup where
  lt := layoutOf oneLayer ![12, 4, 8] ![4, 4, 8] 16
  layer := 0
  mo := some ⟨2, 28, 2, false, 3⟩

theorem setup_ofThree : Query.Run.setup arrayOfThree optionsPipelined = .ok setupOfThree :=
  setup_eq (a := arrayOfThree) (k := 0) (oneLayer.chunkOk_of_chunkShape chunkShape_oneLayer)
    (by decide) (by decide) (by decide +kernel) (by decide) rfl (Or.inl rfl) rfl

/-- A query and an aggregate of three chunks, two and one at a time. -/
theorem pipelined_refines_ofThree :
    (queryAsync envOfTwo arrayOfThree (.fin 0) .pinf { optionsPipelined with pipeline := false }).SameUpTo
        SameSmall (queryAsync envOfTwo arrayOfThree (.fin 0) .pinf optionsPipelined) ∧
      (aggregateAsync envOfTwo .exact arrayOfThree (.fin 0) .pinf
        { optionsPipelined with pipeline := false } true).SameUpTo
        (fun v v' => v' = v.withPeak v'.peakInflightBytes)
        (aggregateAsync envOfTwo .exact arrayOfThree (.fin 0) .pinf optionsPipelined true) := by
  have hfits : setupOfThree.lt.planArgs.fits := by decide +kernel
  exact (pipelined_refines chunkShape_oneLayer setup_ofThree rfl hfits fun n _ => rfl).2

end SkipZFP.Aggregate.Pipelined
