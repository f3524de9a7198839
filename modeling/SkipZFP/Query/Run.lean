import SkipZFP.Lib.Table
import SkipZFP.Plan.Records
import SkipZFP.Read.Gather
import SkipZFP.Read.Stream

/-! # A count query

`queryAsync` is `_query_async` as a program over tasks that run in any order. A query reads the zone map,
plans, turns the MAYBE blocks into reads, and counts what they return: read by read as they arrive for
layer 0 (`streamLayer`), after all have arrived for a higher layer (`readLayers`), or object by object
without waiting for the whole zone map (`pipelinedQuery`).

`returns_readBatches`: reads in batches return what they return one after another. -/

namespace SkipZFP.Query.Run

open SkipZFP.Lib.Grid SkipZFP.Lib.Rows SkipZFP.Lib.Loops SkipZFP.Lib.Table SkipZFP.Lib.Double
open SkipZFP.Lib.Float32
open SkipZFP.Codec.Config SkipZFP.Plan.Blocks SkipZFP.Plan.Shapes SkipZFP.Plan.Records
open SkipZFP.Read.Merge SkipZFP.Read.Budget SkipZFP.Read.Gather SkipZFP.Read.Store
open SkipZFP.Read.ZoneMap SkipZFP.Read.Stream

/-- `QueryOptions`, as `__post_init__` accepts them. Threads, copies and traces have no part in a
result. -/
structure QueryOptions where
  requestConcurrency : ℕ := 32
  requestBatchSize : Option ℕ := none
  mergeGapBlocks : ℕ := 0
  layer : Option ℤ := none
  maxChunkRequests : ℕ := 1
  pipeline : Bool := true
  maxInflightBytes : Option ℕ := none
  metaByKey : Bool := true
  concurrency_pos : 0 < requestConcurrency := by decide
  batch_pos : ∀ n ∈ requestBatchSize, 0 < n := by simp
  requests_pos : 0 < maxChunkRequests := by decide
  inflight_pos : ∀ n ∈ maxInflightBytes, 0 < n := by simp

/-- `QueryResult` without the times. -/
structure QueryResult where
  count : ℕ
  inBlocks : ℕ
  outBlocks : ℕ
  maybeBlocks : ℕ
  totalBlocks : ℕ
  metadataBytesRead : ℕ
  payloadBytesRead : ℕ
  metadataRequests : ℕ
  payloadRequests : ℕ
  usefulPayloadBytes : ℕ
  payloadOverreadBytes : ℤ
  peakInflightBytes : ℕ

def QueryResult.withPeak (r : QueryResult) (peak : ℕ) : QueryResult :=
  { r with peakInflightBytes := peak }

/-- What a query calls that is not in the package: the rounding of double arithmetic, the decoder of a
block, zstd, and what `np.empty` finds in memory. -/
structure Env where
  fl : ℚ → ℚ
  decode : ℚ → List UInt8 → Values
  zstd : List UInt8 → Option (List UInt8)
  memory : ℕ → ℕ → UInt8

/-- What a query knows before it reads: the layout, the layer and where the zone map objects are. -/
structure Setup where
  lt : Layout
  layer : ℕ
  mo : Option MetaObjects

section Query
variable {κ : Type} [LinearOrder κ] (E : Env) (a : ZarrArray κ) (lo hi : Dbl) (opts : QueryOptions)

/-- The checks of `_query_async` before the first read. -/
def setup : Except (QueryError κ) Setup :=
  match getLayout a.codec a.shape a.chunk with
  | .error msg => .error (.layout msg)
  | .ok lt =>
    let layer := opts.layer.getD ((lt.layers.length : ℤ) - 1)
    if ¬ (0 ≤ layer ∧ layer < lt.layers.length) then
      .error (.ValueError s!"layer must be in [0, {lt.layers.length - 1}]")
    else if 0 < layer ∧ opts.maxInflightBytes.isSome then
      .error (.ValueError ("max_inflight_bytes needs layer 0: other layers hold every read " ++
        "until all have arrived"))
    else (metaObjects a lt).map fun mo => ⟨lt, layer.toNat, mo⟩

variable (st : Setup)

/-- `lt.layers[layer]`. -/
def Setup.rate : ℚ := st.lt.layers.getD st.layer 0

/-- `lt.layer_bytes[j]`. -/
def Setup.layerBytes (j : ℕ) : ℕ := st.lt.layerBytes.getD j 0

/-- `cols`: where each layer starts in a row. -/
def Setup.cols : List ℕ := cumsum (0 :: st.lt.layerBytes.take (st.layer + 1))

/-- `len(keys)`. -/
def Setup.nChunk : ℕ := volume st.lt.gridShape

/-- The objects of the zone map, when the query is pipelined. -/
def Setup.pipelined (opts : QueryOptions) : Option MetaObjects :=
  st.mo.filter fun mo =>
    opts.pipeline ∧ opts.metaByKey ∧ st.layer = 0 ∧ mo.tChunk % st.lt.unitGridPerChunk 0 = 0

/-! ### Planning -/

/-- What is known after planning. `perLayer` has the reads of every layer up to the chosen one, with the
block ids they index into. -/
structure Planned (κ : Type) where
  metaBytes : ℕ
  metaRequests : ℕ
  ids : List (ℕ × ℕ)
  nIn : ℕ
  nOut : ℕ
  perLayer : List (List (MergedRange κ) × List ℕ)

/-- `per_layer[0][1]`. -/
def Planned.sortedBlocks (p : Planned κ) : List ℕ := (p.perLayer.headD ([], [])).2

/-- Steps 2 and 3 of `_query_async`. -/
def planQuery (m : List UInt8 × ℕ × ℕ) : Except (QueryError κ) (Planned κ) :=
  match checked "szfp_plan_range_chunks" (planChunks E.fl
      (planMeta a.codec st.layer st.lt.unitShape m.1) st.lt.planArgs lo hi) with
  | .error e => .error e
  | .ok (ids, nIn, nOut) =>
    ((List.range (st.layer + 1)).mapM fun j => checked "szfp_merge_ranges" (mergeRanges
      (a.keyOf st.lt) ids (st.layerBytes j) opts.mergeGapBlocks (st.lt.layerStarts.getD j 0))).map
      fun perLayer => ⟨m.2.1, m.2.2, ids, nIn, nOut, perLayer⟩

def queryResult (p : Planned κ) (nMaybeVal payloadBytes nReqs peak : ℕ) : QueryResult :=
  let useful := p.sortedBlocks.length * blockBytes st.rate
  { count := p.nIn * st.lt.valuesPerBlock + nMaybeVal
    inBlocks := p.nIn
    outBlocks := p.nOut
    maybeBlocks := p.sortedBlocks.length
    totalBlocks := st.nChunk * st.lt.blocksPerChunk
    metadataBytesRead := p.metaBytes
    payloadBytesRead := payloadBytes
    metadataRequests := p.metaRequests
    payloadRequests := nReqs
    usefulPayloadBytes := useful
    payloadOverreadBytes := (payloadBytes : ℤ) - useful
    peakInflightBytes := peak }

/-! ### Layer 0 -/

/-- The reads of layer 0 with the block ids they index into. -/
def Planned.streamReads (p : Planned κ) : List (MergedRange κ × List ℕ) :=
  (p.perLayer.headD ([], [])).1.map fun req => (req, p.sortedBlocks)

/-- The call of `stream_count`. -/
def streamTasks : Work Empty (MergedRange κ × List ℕ) (List UInt8) Empty (ℕ × ℕ) (QueryError κ) :=
  streamWork a (countRead E.decode (st.layerBytes 0) st.rate st.lt.blockDim lo hi)
    opts.maxInflightBytes

def streamResult (p : Planned κ) (parts : List (ℕ × ℕ)) (peak : ℕ) : QueryResult :=
  queryResult st p (parts.map Prod.fst).sum (parts.map Prod.snd).sum p.streamReads.length peak

/-! ### Higher layers -/

/-- `batched`. -/
def batched {α : Type*} (size : ℕ) (l : List α) : List (List α) :=
  (List.range (ceildiv l.length size)).map fun i => slice l (i * size) ((i + 1) * size)

/-- What a read is for: the blocks of a merged range of layer `j`, or all layers of a dense chunk. -/
inductive Fill (κ : Type) where
  | layer (j : ℕ) (req : MergedRange κ)
  | dense (key : κ)

def Planned.readKeys (p : Planned κ) : List κ := p.perLayer.flatMap fun l => l.1.map (·.key)

/-- `dense`: the chunks with more than `max_chunk_requests` reads, sorted. -/
def Planned.dense (p : Planned κ) (maxChunkRequests : ℕ) : List κ :=
  ((p.readKeys.dedup).filter fun k => maxChunkRequests < p.readKeys.count k).insertionSort (· ≤ ·)

/-- `payload_reqs` and `fills`. -/
def payloadReqs (p : Planned κ) : List (Range κ × Fill κ) :=
  let dense := p.dense opts.maxChunkRequests
  (p.perLayer.zipIdx.flatMap fun l => (l.1.1.filter fun req => req.key ∉ dense).map fun req =>
    (rangeOf req, Fill.layer l.2 req)) ++
  dense.map fun k => (⟨k, 0, st.cols.getLastD 0 * st.lt.blocksPerChunk⟩, Fill.dense k)

/-- The reads of layer `j` that are not of dense chunks. -/
def sparseReads (p : Planned κ) (gap m j : ℕ) : List (MergedRange κ) :=
  (readsOf (a.keyOf st.lt) (st.layerBytes j) (st.lt.layerStarts.getD j 0) 0 (groups gap p.ids)).filter
    fun req => req.key ∉ p.dense m

/-- `buf.reshape(-1, w)[rows]`. -/
def takeRows (w : ℕ) (buf : List UInt8) (rows : List ℕ) : List (List UInt8) :=
  rows.map fun r => (reshape (buf.length / w) w buf).getD r []

/-- `np.searchsorted` in a sorted list. -/
def searchsorted (l : List ℕ) (x : ℕ) : ℕ := l.countP (· < x)

/-- `chunk_of[k]`: a later chunk with the same key replaces an earlier one. -/
def chunkOf (k : κ) : ℕ :=
  ((List.range st.nChunk).reverse.find? fun c => a.keyOf st.lt c = k).getD 0

/-- What one read writes into the matrix `out`, which has a row for each MAYBE block. -/
def fillWrites (p : Planned κ) (buf : List UInt8) : Fill κ → List (Write UInt8)
  | .layer j req =>
    let rows := (slice p.sortedBlocks req.itemStart req.itemEnd).map (· - req.firstBlock)
    [⟨req.itemStart, req.itemEnd, st.cols.getD j 0, st.cols.getD (j + 1) 0,
      takeRows (st.layerBytes j) buf rows⟩]
  | .dense k =>
    let c := chunkOf a st k
    let sortedChunks := (p.ids.insertionSort idLe).map Prod.fst
    let bLo := searchsorted sortedChunks c
    let bHi := searchsorted sortedChunks (c + 1)
    let ids := slice p.sortedBlocks bLo bHi
    (List.range (st.layer + 1)).map fun jj =>
      let start := st.lt.layerStarts.getD jj 0
      let seg := slice buf start (start + st.lt.blocksPerChunk * st.layerBytes jj)
      ⟨bLo, bHi, st.cols.getD jj 0, st.cols.getD (jj + 1) 0, takeRows (st.layerBytes jj) seg ids⟩

/-- All writes into `out`, read by read. -/
def allWrites (p : Planned κ) (parts : List (List UInt8)) : List (Write UInt8) :=
  (parts.zip ((payloadReqs opts st p).map Prod.snd)).flatMap fun r => fillWrites a st p r.1 r.2

/-- The matrix `out`, once everything is written. -/
def assemble (p : Planned κ) (parts : List (List UInt8)) : List (List UInt8) :=
  let empty := (List.range p.sortedBlocks.length).map fun i =>
    (List.range (st.cols.getLastD 0)).map (E.memory i)
  (allWrites a opts st p parts).foldl (fun out w => w.put out) empty

/-- The call of `read_ranges`, which has no byte budget. -/
def batchTasks : Work Empty (Range κ) (List UInt8) Empty (List UInt8) (QueryError κ) where
  readZone := Empty.elim
  plan z _ := z.elim
  reads := Empty.elim
  size _ := 0
  read := readOne a
  decode _ data := .ok data
  limit := none

/-- What is returned once all payload is read. -/
def layersResult (p : Planned κ) (parts : List (List UInt8)) : Except (QueryError κ) QueryResult :=
  let payload := (parts.map List.length).sum
  (checked "szfp_count_range_blocks" (nativeCount E.decode (assemble E a opts st p parts).flatten
    p.sortedBlocks.length (blockBytes st.rate) st.rate st.lt.blockDim lo hi)).map fun n =>
      queryResult st p n payload (payloadReqs opts st p).length payload

/-- `request_batch_size or 4 * request_concurrency`. -/
def QueryOptions.batchSize : ℕ := opts.requestBatchSize.getD (4 * opts.requestConcurrency)

/-! ### Pipelined -/

/-- The planner's arguments for an object of `nUnits` rows of units. -/
def objectArgs (nUnits : ℕ) : PlanArgs where
  metaSize := st.lt.metaSize - 4 * (st.lt.layers.length - 1)
  units := ![nUnits, st.lt.unitGrid 1, st.lt.unitGrid 2]
  subs := st.lt.unitGridPerChunk
  blocksPerUnit := st.lt.blocksPerUnit

/-- `u0 // subs[0] * chunks_per_step`: the chunks before object `i`. -/
def chunksBefore (mo : MetaObjects) (i : ℕ) : ℕ :=
  i * mo.tChunk / st.lt.unitGridPerChunk 0 * (st.lt.gridShape 1 * st.lt.gridShape 2)

/-- `one` of `_query_pipelined`, between the read of object `i` and its payload reads. -/
def planObject (mo : MetaObjects) (i : ℕ) (data : List UInt8) :
    Except (QueryError κ) (PlannedObject κ ℕ) :=
  match openObject E.zstd st.lt mo i data with
  | .error e => .error e
  | .ok slab =>
    let nUnits := min mo.tChunk (st.lt.unitGrid 0 - i * mo.tChunk)
    match checked "szfp_plan_range_chunks" (planChunks E.fl
        (planMeta a.codec 0 st.lt.unitShape (slab.take (nUnits * mo.rows))) (objectArgs st nUnits)
        lo hi) with
    | .error e => .error e
    | .ok (ids, nIn, nOut) =>
      let ids := ids.map fun id => ((id.1 + chunksBefore st mo i) % 2 ^ 32, id.2)
      (checked "szfp_merge_ranges" (mergeRanges (a.keyOf st.lt) ids (st.layerBytes 0)
        opts.mergeGapBlocks 0)).map fun m => ⟨nIn, nOut, m.2, m.1, data.length⟩

/-- The tasks of `_query_pipelined`. -/
def pipelinedTasks (mo : MetaObjects) :
    Work ℕ (MergedRange κ × List ℕ) (List UInt8) (PlannedObject κ ℕ) (ℕ × ℕ) (QueryError κ) :=
  slabWork a (planObject E a lo hi opts st mo)
    (countRead E.decode (st.layerBytes 0) (st.lt.layers.getD 0 0) st.lt.blockDim lo hi)
    opts.maxInflightBytes

/-- `int(parts[:, k].sum())`: integers added up as doubles. -/
def floatSum (fl : ℚ → ℚ) (l : List ℕ) : ℕ := ⌊l.foldl (fun acc (x : ℕ) => fl (acc + fl x)) 0⌋.toNat

/-- What `_query_pipelined` returns for its objects, each with the results of its reads. -/
def pipelinedResult (mo : MetaObjects) (rows : List (PlannedObject κ ℕ × List (ℕ × ℕ)))
    (peak : ℕ) : QueryResult :=
  let total := fun f : PlannedObject κ ℕ × List (ℕ × ℕ) → ℕ => floatSum E.fl (rows.map f)
  let nMaybe := total fun r => r.1.items.length
  let payload := total fun r => (r.2.map Prod.snd).sum
  let useful := nMaybe * st.layerBytes 0
  { count := (total fun r => r.1.nIn) * st.lt.valuesPerBlock + total fun r => (r.2.map Prod.fst).sum
    inBlocks := total fun r => r.1.nIn
    outBlocks := total fun r => r.1.nOut
    maybeBlocks := nMaybe
    totalBlocks := st.nChunk * st.lt.blocksPerChunk
    metadataBytesRead := (rows.map fun r => r.1.stored).sum
    payloadBytesRead := payload
    metadataRequests := mo.count
    payloadRequests := total fun r => r.1.merged.length
    usefulPayloadBytes := useful
    payloadOverreadBytes := (payload : ℤ) - useful
    peakInflightBytes := peak }

/-! ### The query -/

/-- `read_meta`. -/
def readMeta : Program (QueryError κ) (List UInt8 × ℕ × ℕ) :=
  match st.mo.filter fun _ => opts.metaByKey with
  | some mo =>
    zones (metaWork E.zstd a st.lt mo) opts.concurrency_pos (List.range mo.count) fun rows _ =>
      .done (.ok (joinObjects st.lt mo (rows.map Prod.fst)))
  | none => .done (readMetaZarr a st.lt)

/-- Step 4 at layer 0: `stream_count`. -/
def streamLayer (p : Planned κ) : Program (QueryError κ) QueryResult :=
  reads (streamTasks E a lo hi opts st) opts.concurrency_pos p.streamReads fun parts peak =>
    .done (.ok (streamResult st p parts peak))

/-- `read_ranges`, one batch after another; `parts` is what is read already. -/
def readBatches : List (List (Range κ)) → List (List UInt8) →
    Program (QueryError κ) (List (List UInt8))
  | [], parts => .done (.ok parts)
  | b :: todo, parts =>
    reads (batchTasks a) opts.concurrency_pos b fun now _ => readBatches todo (parts ++ now)

/-- Step 4 at a higher layer. -/
def readLayers (p : Planned κ) : Program (QueryError κ) QueryResult :=
  (readBatches a opts (batched opts.batchSize ((payloadReqs opts st p).map Prod.fst)) []).bind
    fun parts => .done (layersResult E a lo hi opts st p parts)

/-- `_query_async` with the whole zone map. -/
def wholeQuery : Program (QueryError κ) QueryResult :=
  (readMeta E a opts st).bind fun m => (Program.done (planQuery E a lo hi opts st m)).bind fun p =>
    if st.layer = 0 then streamLayer E a lo hi opts st p else readLayers E a lo hi opts st p

/-- **`_query_pipelined`**. -/
def pipelinedQuery (mo : MetaObjects) : Program (QueryError κ) QueryResult :=
  zones (pipelinedTasks E a lo hi opts st mo) opts.concurrency_pos (List.range mo.count)
    fun rows peak => .done (.ok (pipelinedResult E st mo rows peak))

/-- A query after its checks. -/
def query : Program (QueryError κ) QueryResult :=
  match st.pipelined opts with
  | some mo => pipelinedQuery E a lo hi opts st mo
  | none => wholeQuery E a lo hi opts st

/-- **`_query_async`**. -/
def queryAsync : Program (QueryError κ) QueryResult :=
  match setup a opts with
  | .error e => .done (.error e)
  | .ok st => query E a lo hi opts st

/-! ### Batches -/

variable {E a lo hi opts st}

theorem flatten_batched {α : Type*} {size : ℕ} (hs : 0 < size) (l : List α) :
    (batched size l).flatten = l := by
  have h : ∀ n, ((List.range n).map fun i => slice l (i * size) ((i + 1) * size)).flatten =
      slice l 0 (n * size) := by
    intro n
    induction n with
    | zero => simp [slice_self]
    | succ n ih =>
      rw [List.range_succ, List.map_append, List.flatten_append, ih]
      simp only [List.map_cons, List.map_nil, List.flatten_cons, List.flatten_nil, List.append_nil]
      exact slice_append_slice l (Nat.zero_le _) (Nat.mul_le_mul_right _ n.le_succ)
  have hlen : l.length ≤ ceildiv l.length size * size := by
    unfold ceildiv
    have := Nat.div_add_mod (l.length + size - 1) size
    have := Nat.mod_lt (l.length + size - 1) hs
    rw [Nat.mul_comm]
    omega
  rw [batched, h, slice, List.drop_zero, Nat.sub_zero, List.take_of_length_le hlen]

theorem batchSize_pos : 0 < opts.batchSize := by
  unfold QueryOptions.batchSize
  have hc := opts.concurrency_pos
  cases h : opts.requestBatchSize with
  | none => rw [Option.getD_none]; omega
  | some n => exact opts.batch_pos n h

omit [LinearOrder κ] in
theorem returns_readBatches {Q : List (List UInt8) → Prop} : ∀ {todo : List (List (Range κ))}
    {parts later : List (List UInt8)}, todo.flatten.mapM (batchTasks a).readResult = .ok later →
      Q (parts ++ later) → (readBatches a opts todo parts).Returns Q
  | [], parts, later, h, hq => by
    have hl : later = [] := by cases h; rfl
    rw [hl, List.append_nil] at hq
    exact returns_done rfl hq
  | b :: todo, parts, later, h, hq => by
    obtain ⟨now, later', h1, h2, rfl⟩ := mapM_append_ok.mp h
    rw [← List.append_assoc] at hq
    exact returns_reads h1 fun _ => returns_readBatches h2 hq

end Query

end SkipZFP.Query.Run
