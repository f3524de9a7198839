import SkipZFP.Aggregate.Combine
import SkipZFP.Query.Run

/-! # An aggregate

`aggregateAsync` is `_aggregate_async` as a program over tasks that run in any order. An aggregate plans
as a query does, but reads the IN blocks too, each with the error bound of its values. -/

namespace SkipZFP.Aggregate.Run

open SkipZFP.Lib.Grid SkipZFP.Lib.Rows SkipZFP.Lib.Double SkipZFP.Lib.Float32
open SkipZFP.Codec.Config SkipZFP.Plan.Classify SkipZFP.Plan.Blocks SkipZFP.Plan.Shapes
open SkipZFP.Plan.Records SkipZFP.Read.Merge SkipZFP.Read.Budget SkipZFP.Read.Gather
open SkipZFP.Read.Store SkipZFP.Read.ZoneMap SkipZFP.Read.Stream SkipZFP.Query.Run
open SkipZFP.Aggregate.Block SkipZFP.Aggregate.Combine

/-- `AggregateResult` without the times. -/
structure AggregateResult where
  combined : Combined
  inBlocks : ℕ
  outBlocks : ℕ
  maybeBlocks : ℤ
  totalBlocks : ℕ
  metadataBytesRead : ℕ
  payloadBytesRead : ℕ
  metadataRequests : ℕ
  payloadRequests : ℕ
  usefulPayloadBytes : ℕ
  payloadOverreadBytes : ℤ
  peakInflightBytes : ℕ
  readBlocks : Option (List (ℕ × ℕ))

def AggregateResult.withPeak (r : AggregateResult) (peak : ℕ) : AggregateResult :=
  { r with peakInflightBytes := peak }

section Aggregate
variable {κ : Type} [LinearOrder κ] (E : Env) (A : Arith) (a : ZarrArray κ) (lo hi : Dbl)
  (opts : QueryOptions) (returnBlocks : Bool)

/-- The checks of `_aggregate_async` before the first read. An aggregate reads layer 0. -/
def setup : Except (QueryError κ) Setup :=
  match getLayout a.codec a.shape a.chunk with
  | .error msg => .error (.layout msg)
  | .ok lt =>
    if opts.layer.any (· ≠ 0) ∨ (opts.layer = none ∧ 1 < lt.layers.length) then
      .error (.ValueError "aggregates read layer 0 only; pass layer=0 for a layered array")
    else (metaObjects a lt).map fun mo => ⟨lt, 0, mo⟩

variable (st : Setup)

/-! ### Reading the listed blocks -/

/-- What `agg` makes of the bytes of a read: the totals and the number of blocks. -/
def aggRead (firstBlock : ℕ) (items : List Listed) (data : List UInt8) :
    Except (QueryError κ) (SzAggregate × ℕ) :=
  (checked "szfp_aggregate_offsets_range" (aggregateOffsets E.decode A data
    (items.map fun l => ⟨(l.block - firstBlock) * st.layerBytes 0, l.eps, l.state = .IN⟩)
    (st.layerBytes 0) (st.lt.layers.getD 0 0) st.lt.blockDim lo hi)).map fun out =>
      (out, items.length)

/-- `_read_listed` up to the reads: the merged reads of the listed blocks. -/
def mergeListed (listed : List Listed) : Except (QueryError κ) (List (MergedRange κ)) :=
  match checked "szfp_merge_ranges" (mergeRanges (a.keyOf st.lt) (listed.map idOf) (st.layerBytes 0)
      opts.mergeGapBlocks 0) with
  | .error e => .error e
  | .ok (merged, blocks) =>
    if blocks ≠ [] ∧ ¬ (listed.map idOf).IsChain fun x y => idKey x < idKey y then
      .error (.order "the planner must list blocks in chunk order")
    else .ok merged

/-- The call of `stream_aggregate`. -/
def aggregateTasks : Work Empty (MergedRange κ × List Listed) (List UInt8) Empty
    ((SzAggregate × ℕ) × ℕ) (QueryError κ) :=
  streamWork a (aggRead E A lo hi st) opts.maxInflightBytes

/-- `combine`, whose exceptions end the aggregate. -/
def combined (parts : List (SzAggregate × ℕ)) : Except (QueryError κ) Combined :=
  match combine A st.lt.valuesPerBlock parts with
  | .error msg => .error (.ValueError msg)
  | .ok c => .ok c

def aggregateResult (c : Combined) (nIn nOut nListed metaBytes metaRequests nReqs payloadBytes : ℕ)
    (listed : List (ℕ × ℕ)) (peak : ℕ) : AggregateResult :=
  let useful := nListed * st.layerBytes 0
  { combined := c
    inBlocks := nIn
    outBlocks := nOut
    maybeBlocks := (nListed : ℤ) - nIn
    totalBlocks := st.nChunk * st.lt.blocksPerChunk
    metadataBytesRead := metaBytes
    payloadBytesRead := payloadBytes
    metadataRequests := metaRequests
    payloadRequests := nReqs
    usefulPayloadBytes := useful
    payloadOverreadBytes := (payloadBytes : ℤ) - useful
    peakInflightBytes := peak
    readBlocks := if returnBlocks then some listed else none }

/-! ### With the whole zone map -/

/-- Step 2 of `_aggregate_async` and the merging of step 3: the listed blocks, the counts and the
reads. -/
def planAggregate (m : List UInt8 × ℕ × ℕ) :
    Except (QueryError κ) (List Listed × ℕ × ℕ × List (MergedRange κ)) :=
  match checked "szfp_plan_read_chunks" (planRead E.fl
      (planMeta a.codec 0 st.lt.unitShape m.1) st.lt.planArgs lo hi) with
  | .error e => .error e
  | .ok (listed, nIn, nOut) =>
    (mergeListed a opts st listed).map fun merged => (listed, nIn, nOut, merged)

/-- What `_aggregate_async` returns for its plan and the results of its reads. -/
def wholeResult (m : List UInt8 × ℕ × ℕ) (p : List Listed × ℕ × ℕ × List (MergedRange κ))
    (parts : List ((SzAggregate × ℕ) × ℕ)) (peak : ℕ) : Except (QueryError κ) AggregateResult :=
  (combined A st (parts.map Prod.fst)).map fun c =>
    aggregateResult returnBlocks st c p.2.1 p.2.2.1 p.1.length m.2.1 m.2.2 p.2.2.2.length
      (parts.map Prod.snd).sum (p.1.map idOf) peak

/-- `_aggregate_async` with the whole zone map. -/
def wholeAggregate : Program (QueryError κ) AggregateResult :=
  (readMeta E a opts st).bind fun m => (Program.done (planAggregate E a lo hi opts st m)).bind fun p =>
    reads (aggregateTasks E A a lo hi opts st) opts.concurrency_pos
      (p.2.2.2.map fun req => (req, p.1)) fun parts peak =>
        .done (wholeResult A returnBlocks st m p parts peak)

/-! ### Pipelined -/

/-- `one` of `_aggregate_pipelined`, between the read of object `i` and its payload reads. -/
def planSlab (mo : MetaObjects) (i : ℕ) (data : List UInt8) :
    Except (QueryError κ) (PlannedObject κ Listed) :=
  match openObject E.zstd st.lt mo i data with
  | .error e => .error e
  | .ok slab =>
    let nUnits := min mo.tChunk (st.lt.unitGrid 0 - i * mo.tChunk)
    match checked "szfp_plan_read_chunks" (planRead E.fl
        (planMeta a.codec 0 st.lt.unitShape (slab.take (nUnits * mo.rows))) (objectArgs st nUnits)
        lo hi) with
    | .error e => .error e
    | .ok (listed, nIn, nOut) =>
      let listed := listed.map fun l => { l with chunk := (l.chunk + chunksBefore st mo i) % 2 ^ 32 }
      (mergeListed a opts st listed).map fun merged => ⟨nIn, nOut, listed, merged, data.length⟩

/-- The tasks of `_aggregate_pipelined`. -/
def slabTasks (mo : MetaObjects) : Work ℕ (MergedRange κ × List Listed) (List UInt8)
    (PlannedObject κ Listed) ((SzAggregate × ℕ) × ℕ) (QueryError κ) :=
  slabWork a (planSlab E a lo hi opts st mo) (aggRead E A lo hi st) opts.maxInflightBytes

/-- What `_aggregate_pipelined` returns for its objects, each with the results of its reads. -/
def slabsResult (mo : MetaObjects)
    (rows : List (PlannedObject κ Listed × List ((SzAggregate × ℕ) × ℕ))) (peak : ℕ) :
    Except (QueryError κ) AggregateResult :=
  let total := fun f : PlannedObject κ Listed × List ((SzAggregate × ℕ) × ℕ) → ℕ =>
    (rows.map f).sum
  (combined A st (rows.flatMap fun r => r.2.map Prod.fst)).map fun c =>
    aggregateResult returnBlocks st c (total fun r => r.1.nIn) (total fun r => r.1.nOut)
      (total fun r => r.1.items.length) (total fun r => r.1.stored) mo.count
      (total fun r => r.1.merged.length) (total fun r => (r.2.map Prod.snd).sum)
      (rows.flatMap fun r => r.1.items.map idOf) peak

/-- **`_aggregate_pipelined`**. -/
def pipelinedAggregate (mo : MetaObjects) : Program (QueryError κ) AggregateResult :=
  zones (slabTasks E A a lo hi opts st mo) opts.concurrency_pos (List.range mo.count)
    fun rows peak => .done (slabsResult A returnBlocks st mo rows peak)

def aggregate : Program (QueryError κ) AggregateResult :=
  match st.pipelined opts with
  | some mo => pipelinedAggregate E A a lo hi opts returnBlocks st mo
  | none => wholeAggregate E A a lo hi opts returnBlocks st

/-- **`_aggregate_async`**. -/
def aggregateAsync : Program (QueryError κ) AggregateResult :=
  match setup a opts with
  | .error e => .done (.error e)
  | .ok st => aggregate E A a lo hi opts returnBlocks st

end Aggregate

end SkipZFP.Aggregate.Run
