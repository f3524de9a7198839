import SkipZFP.Query.Cost

/-! # What a query reads at a higher layer

A chunk whose MAYBE blocks would take more than `max_chunk_requests` reads, over all layers, is read at
once. The ids of a plan come chunk by chunk, and so do its reads: the cost of a query is the sum over the
chunks.

* `groups_flatMap`: the groups of ids that come chunk by chunk.
* `mem_dense_iff`: **which chunks are read at once**.
* `perm_payloadReqs`: the payload reads, chunk by chunk.
* `traffic_of_maxChunkRequests`: **no query makes more than `max_chunk_requests` requests for a chunk**,
  and a larger limit never reads more. -/

namespace SkipZFP.Query.Dense

open SkipZFP.Lib.Grid SkipZFP.Lib.Groups SkipZFP.Lib.Rows SkipZFP.Lib.Double SkipZFP.Lib.Float32
open SkipZFP.Codec.Config SkipZFP.Codec.Pack
open SkipZFP.Plan.Classify SkipZFP.Plan.Blocks SkipZFP.Plan.Shapes SkipZFP.Plan.Records
open SkipZFP.Plan.Layers
open SkipZFP.Read.Merge SkipZFP.Read.Gather SkipZFP.Read.Missing SkipZFP.Read.Store SkipZFP.Read.Stream
open SkipZFP.Query.Run SkipZFP.Query.Count SkipZFP.Query.Fill SkipZFP.Query.Layers SkipZFP.Query.Stored
open SkipZFP.Query.Absent SkipZFP.Query.Pipelined SkipZFP.Query.Cost

/-! ### Ids that come chunk by chunk -/

section Chunks
variable {f : ℕ → List (ℕ × ℕ)} (hf : ∀ c, ∀ id ∈ f c, id.1 = c)
include hf

/-- **The groups of ids that come chunk by chunk** do too. -/
theorem groups_flatMap (gap : ℕ) : ∀ {l : List ℕ}, l.Pairwise (· < ·) →
    groups gap (l.flatMap f) = l.flatMap fun c => groups gap (f c)
  | [], _ => rfl
  | c :: l, h => by
    obtain ⟨hc, hl⟩ := List.pairwise_cons.mp h
    rw [List.flatMap_cons, List.flatMap_cons, groups_append gap ?_, groups_flatMap gap hl]
    intro x hx y hy
    obtain ⟨d, hd, hy⟩ := List.mem_flatMap.mp hy
    rw [hf c x hx, hf d y hy]
    exact hc d hd

theorem chunk_of_group {gap c : ℕ} {g : List (ℕ × ℕ)} (hg : g ∈ groups gap (f c)) :
    (g.headD (0, 0)).1 = c := by
  obtain ⟨hmem, hhead, -⟩ := mem_group hg
  exact hf c _ (hmem _ hhead)

/-- The bytes of the groups of a chunk: at least those of its ids, at most those of all its blocks. -/
theorem sum_groupBytes_chunk (gap w : ℕ) {n c : ℕ} (hs : (f c).Pairwise IdLt) (hn : ∀ id ∈ f c, id.2 < n) :
    (f c).length * w ≤ ((groups gap (f c)).map (groupBytes w)).sum ∧
      ((groups gap (f c)).map (groupBytes w)).sum ≤ n * w := by
  rw [sum_groupBytes hs]
  refine ⟨Nat.mul_le_mul_right w (Nat.le_add_right _ _), Nat.mul_le_mul_right w ?_⟩
  cases hfc : f c with
  | nil => exact Nat.zero_le n
  | cons x l =>
    rw [← hfc]
    have hle : ((f c).headD (0, 0)).1 * n + ((f c).headD (0, 0)).2 +
        ((f c).length + joined (joins gap) between (f c)) ≤ (c + 1) * n :=
      length_add_joined_le hs hn fun id hid => by
        rw [hf c id hid]
        exact Nat.lt_succ_self c
    have hhead : ((f c).headD (0, 0)).1 = c := by
      rw [hfc]
      exact hf c x (by rw [hfc]; exact List.mem_cons_self)
    rw [hhead, Nat.add_one_mul] at hle
    omega

end Chunks

theorem map_readsOf_bytes {κ : Type} (keys : ℕ → κ) (w base : ℕ) : ∀ (i : ℕ) (gs : List (List (ℕ × ℕ))),
    (readsOf keys w base i gs).map (fun r => (r.key, r.stop - r.start)) =
      gs.map fun g => (keys (g.headD (0, 0)).1, groupBytes w g)
  | _, [] => rfl
  | i, g :: gs => by
    have hlen : (groupRead keys w base i g).stop - (groupRead keys w base i g).start = groupBytes w g := by
      unfold groupRead groupBytes
      dsimp only
      rw [Nat.add_sub_add_left, Nat.sub_mul]
    rw [readsOf, List.map_cons, List.map_cons, map_readsOf_bytes keys w base _ gs, hlen]
    rfl

theorem sum_range_map (n : ℕ) (f : ℕ → ℕ) : ((List.range n).map f).sum = ∑ c ∈ Finset.range n, f c := rfl

/-! ### The reads of a chunk -/

section Plan
variable {κ : Type} [LinearOrder κ] {a : ZarrArray κ} {st : Setup} {p : Planned κ} {gap : ℕ}
  {f : ℕ → List (ℕ × ℕ)}

/-- A chunk that is read at once. -/
def IsDense (st : Setup) (gap m : ℕ) (f : ℕ → List (ℕ × ℕ)) (c : ℕ) : Prop :=
  m < (st.layer + 1) * (groups gap (f c)).length

instance (st : Setup) (gap m : ℕ) (f : ℕ → List (ℕ × ℕ)) (c : ℕ) : Decidable (IsDense st gap m f c) := by
  unfold IsDense; infer_instance

/-- The requests for a chunk. -/
def chunkRequests (st : Setup) (gap m : ℕ) (f : ℕ → List (ℕ × ℕ)) (c : ℕ) : ℕ :=
  if IsDense st gap m f c then 1 else (st.layer + 1) * (groups gap (f c)).length

/-- The bytes read of a chunk. -/
def chunkBytes (st : Setup) (gap m : ℕ) (f : ℕ → List (ℕ × ℕ)) (c : ℕ) : ℕ :=
  if IsDense st gap m f c then st.lt.blocksPerChunk * blockBytes st.rate
  else ((groups gap (f c)).map (groupBytes (blockBytes st.rate))).sum

variable (a) in
/-- The reads of a chunk, each with the key and the number of bytes. -/
def chunkReads (st : Setup) (gap m : ℕ) (f : ℕ → List (ℕ × ℕ)) (c : ℕ) : List (κ × ℕ) :=
  if IsDense st gap m f c then [(a.keyOf st.lt c, st.lt.blocksPerChunk * blockBytes st.rate)]
  else (List.range (st.layer + 1)).flatMap fun j =>
    (groups gap (f c)).map fun g => (a.keyOf st.lt c, groupBytes (st.layerBytes j) g)

variable (a) in
/-- The payload reads of a chunk. -/
def chunkReqs (st : Setup) (opts : QueryOptions) (p : Planned κ) (c : ℕ) : List (Range κ × Fill κ) :=
  (payloadReqs opts st p).filter fun q => q.1.key = a.keyOf st.lt c

omit [LinearOrder κ] in
theorem key_of_chunkReads {m c : ℕ} {x : κ × ℕ} (h : x ∈ chunkReads a st gap m f c) :
    x.1 = a.keyOf st.lt c := by
  unfold chunkReads at h
  split_ifs at h
  · rw [List.mem_singleton.mp h]
  · obtain ⟨j, -, h⟩ := List.mem_flatMap.mp h
    obtain ⟨g, -, rfl⟩ := List.mem_map.mp h
    rfl

omit [LinearOrder κ] in
theorem length_chunkReads (m c : ℕ) : (chunkReads a st gap m f c).length = chunkRequests st gap m f c := by
  unfold chunkReads chunkRequests
  split_ifs
  · rfl
  · simp [List.length_flatMap]

omit [LinearOrder κ] in
theorem sum_chunkReads (hsum : ((List.range (st.layer + 1)).map st.layerBytes).sum = blockBytes st.rate)
    (m c : ℕ) : ((chunkReads a st gap m f c).map Prod.snd).sum = chunkBytes st gap m f c := by
  have hgroup : ∀ w, ((groups gap (f c)).map (groupBytes w)).sum =
      ((groups gap (f c)).map (groupBytes 1)).sum * w := by
    intro w
    rw [← List.sum_map_mul_right]
    refine congrArg List.sum (List.map_congr_left fun g _ => ?_)
    rw [groupBytes, groupBytes, Nat.mul_one]
  unfold chunkReads chunkBytes
  split_ifs
  · rfl
  · rw [List.map_flatMap, List.flatMap_def, List.sum_flatten, List.map_map, hgroup, ← hsum,
      ← List.sum_map_mul_left]
    refine congrArg List.sum (List.map_congr_left fun j _ => ?_)
    rw [Function.comp_apply, List.map_map]
    exact hgroup _

/-- The reads of each item of one list for each of another, in the order of either. -/
theorem perm_flatMap_flatMap {α β γ : Type*} (l : List α) (l' : List β) (h : α → β → List γ) :
    (l.flatMap fun x => l'.flatMap fun y => h x y).Perm (l'.flatMap fun y => l.flatMap fun x => h x y) := by
  rw [← Multiset.coe_eq_coe, ← Multiset.coe_bind, ← Multiset.coe_bind]
  simp only [← Multiset.coe_bind]
  exact Multiset.bind_bind _ _

theorem flatMap_ite {α β : Type*} (p : α → Prop) [DecidablePred p] (g : α → β) : ∀ l : List α,
    (l.flatMap fun x => if p x then [g x] else []) = (l.filter fun x => p x).map g
  | [] => rfl
  | x :: l => by
    rw [List.flatMap_cons, flatMap_ite p g l, List.filter_cons]
    by_cases h : p x <;> simp [h]

theorem flatMap_single {α β : Type*} [DecidableEq α] (g : α → List β) {c : α} : ∀ {l : List α}, l.Nodup →
    c ∈ l → (l.flatMap fun d => if d = c then g d else []) = g c
  | x :: l, hnd, hc => by
    obtain ⟨hx, hl⟩ := List.nodup_cons.mp hnd
    rw [List.flatMap_cons]
    rcases List.mem_cons.mp hc with rfl | hc
    · rw [if_pos rfl, List.flatMap_eq_nil_iff.mpr, List.append_nil]
      intro d hd
      exact if_neg fun h : d = c => hx (h ▸ hd)
    · rw [if_neg fun h : x = c => hx (h ▸ hc), List.nil_append]
      exact flatMap_single g hl hc

section Ids
variable (hids : p.ids = (List.range st.nChunk).flatMap f) (hf : ∀ c, ∀ id ∈ f c, id.1 = c)
include hids hf

omit [LinearOrder κ] in
theorem map_perLayer (gap j : ℕ) : (readsOf (a.keyOf st.lt) (st.layerBytes j) (st.lt.layerStarts.getD j 0) 0
      (groups gap p.ids)).map (fun r => (r.key, r.stop - r.start)) =
    (List.range st.nChunk).flatMap fun c =>
      (groups gap (f c)).map fun g => (a.keyOf st.lt c, groupBytes (st.layerBytes j) g) := by
  rw [map_readsOf_bytes, hids, groups_flatMap hf gap List.pairwise_lt_range, List.map_flatMap]
  refine List.flatMap_congr fun c _ => List.map_congr_left fun g hg => ?_
  rw [chunk_of_group hf hg]

variable (hp : Regular a st p gap) (hkeys : DistinctKeys a st)
include hp

omit [LinearOrder κ] in
/-- The keys of all reads, layer by layer and chunk by chunk. -/
theorem readKeys_eq : p.readKeys = (List.range (st.layer + 1)).flatMap fun _ =>
    (List.range st.nChunk).flatMap fun c =>
      List.replicate (groups gap (f c)).length (a.keyOf st.lt c) := by
  unfold Planned.readKeys
  rw [hp.reads, List.flatMap_map]
  refine List.flatMap_congr fun j _ => ?_
  have h := congrArg (List.map Prod.fst) (map_perLayer (a := a) hids hf gap j)
  rw [List.map_map, List.map_flatMap] at h
  refine h.trans (List.flatMap_congr fun c _ => ?_)
  rw [List.map_map]
  exact List.map_const

include hkeys

/-- The requests that a chunk would take if it were not read at once. -/
theorem count_readKeys {c : ℕ} (hc : c < st.nChunk) :
    p.readKeys.count (a.keyOf st.lt c) = (st.layer + 1) * (groups gap (f c)).length := by
  have hchunk : ((List.range st.nChunk).flatMap fun d =>
      List.replicate (groups gap (f d)).length (a.keyOf st.lt d)).count (a.keyOf st.lt c) =
        (groups gap (f c)).length := by
    rw [List.count_flatMap, sum_range_map]
    have hone : ∀ d ∈ Finset.range st.nChunk, (List.count (a.keyOf st.lt c) ∘ fun d =>
        List.replicate (groups gap (f d)).length (a.keyOf st.lt d)) d =
          if d = c then (groups gap (f d)).length else 0 := by
      intro d hd
      rw [Function.comp_apply, List.count_replicate]
      refine if_congr ?_ rfl rfl
      rw [beq_iff_eq]
      exact ⟨hkeys d (Finset.mem_range.mp hd) c hc, congrArg (a.keyOf st.lt)⟩
    rw [Finset.sum_congr rfl hone, Finset.sum_ite_eq', if_pos (Finset.mem_range.mpr hc)]
  rw [readKeys_eq hids hf hp, List.count_flatMap, sum_range_map]
  simp only [Function.comp_apply, hchunk, Finset.sum_const, Finset.card_range, smul_eq_mul]

/-- **Which chunks are read at once**: those that would take more than `max_chunk_requests` reads. -/
theorem mem_dense_iff {m c : ℕ} (hc : c < st.nChunk) :
    a.keyOf st.lt c ∈ p.dense m ↔ IsDense st gap m f c := by
  unfold Planned.dense IsDense
  rw [List.mem_insertionSort, List.mem_filter, List.mem_dedup, decide_eq_true_eq,
    count_readKeys hids hf hp hkeys hc]
  refine and_iff_right_of_imp fun h => List.count_pos_iff.mp ?_
  rw [count_readKeys hids hf hp hkeys hc]
  exact (Nat.zero_le m).trans_lt h

theorem perm_dense (m : ℕ) : (p.dense m).Perm
    (((List.range st.nChunk).filter fun c => IsDense st gap m f c).map (a.keyOf st.lt)) := by
  refine (List.perm_ext_iff_of_nodup (nodup_dense p m) ?_).mpr fun k => ?_
  · refine (List.nodup_range.filter _).map_on fun c hc d hd => ?_
    exact hkeys c (List.mem_range.mp (List.mem_of_mem_filter hc)) d
      (List.mem_range.mp (List.mem_of_mem_filter hd))
  · constructor
    · intro hk
      obtain ⟨id, hid, rfl⟩ := hp.mem_dense hk
      have hc := (hp.inside id hid).1
      exact List.mem_map_of_mem (List.mem_filter.mpr ⟨List.mem_range.mpr hc,
        decide_eq_true ((mem_dense_iff hids hf hp hkeys hc).mp hk)⟩)
    · intro hk
      obtain ⟨c, hc, rfl⟩ := List.mem_map.mp hk
      obtain ⟨hc, hdense⟩ := List.mem_filter.mp hc
      exact (mem_dense_iff hids hf hp hkeys (List.mem_range.mp hc)).mpr (of_decide_eq_true hdense)

theorem map_sparseReads (m j : ℕ) :
    (sparseReads a st p gap m j).map (fun r => (r.key, r.stop - r.start)) =
      (List.range st.nChunk).flatMap fun c => if IsDense st gap m f c then [] else
        (groups gap (f c)).map fun g => (a.keyOf st.lt c, groupBytes (st.layerBytes j) g) := by
  have hsplit : (sparseReads a st p gap m j).map (fun r => (r.key, r.stop - r.start)) =
      ((readsOf (a.keyOf st.lt) (st.layerBytes j) (st.lt.layerStarts.getD j 0) 0 (groups gap p.ids)).map
        fun r => (r.key, r.stop - r.start)).filter fun x => x.1 ∉ p.dense m := by
    unfold sparseReads
    rw [List.filter_map]
    rfl
  rw [hsplit, map_perLayer hids hf, List.filter_flatMap]
  refine List.flatMap_congr fun c hc => ?_
  have hdense := mem_dense_iff hids hf hp hkeys (m := m) (List.mem_range.mp hc)
  by_cases h : IsDense st gap m f c
  · rw [if_pos h, List.filter_eq_nil_iff.mpr]
    intro x hx
    obtain ⟨g, -, rfl⟩ := List.mem_map.mp hx
    simpa using hdense.mpr h
  · rw [if_neg h, List.filter_eq_self.mpr]
    intro x hx
    obtain ⟨g, -, rfl⟩ := List.mem_map.mp hx
    simpa using mt hdense.mp h

/-- **The payload reads of a query at a higher layer**, chunk by chunk. -/
theorem perm_payloadReqs (opts : QueryOptions) (hlast : st.cols.getLastD 0 = blockBytes st.rate) :
    ((payloadReqs opts st p).map fun q => (q.1.key, q.1.stop - q.1.start)).Perm
      ((List.range st.nChunk).flatMap (chunkReads a st gap opts.maxChunkRequests f)) := by
  have hsparse : (((List.range (st.layer + 1)).flatMap fun j =>
      (sparseReads a st p gap opts.maxChunkRequests j).map fun req => (rangeOf req, Fill.layer j req)).map
        fun q => (q.1.key, q.1.stop - q.1.start)).Perm ((List.range st.nChunk).flatMap fun c =>
          (List.range (st.layer + 1)).flatMap fun j =>
            if IsDense st gap opts.maxChunkRequests f c then [] else
            (groups gap (f c)).map fun g => (a.keyOf st.lt c, groupBytes (st.layerBytes j) g)) := by
    rw [List.map_flatMap, List.flatMap_congr fun j _ => (List.map_map).trans
      (map_sparseReads hids hf hp hkeys opts.maxChunkRequests j)]
    exact perm_flatMap_flatMap _ _ _
  have hdense : (((p.dense opts.maxChunkRequests).map fun k => (denseRange st k, Fill.dense k)).map
      fun q => (q.1.key, q.1.stop - q.1.start)).Perm ((List.range st.nChunk).flatMap fun c =>
        if IsDense st gap opts.maxChunkRequests f c then
          [(a.keyOf st.lt c, st.lt.blocksPerChunk * blockBytes st.rate)] else []) := by
    rw [List.map_map]
    refine ((perm_dense hids hf hp hkeys opts.maxChunkRequests).map _).trans (List.Perm.of_eq ?_)
    rw [List.map_map, flatMap_ite]
    refine List.map_congr_left fun c _ => ?_
    show (a.keyOf st.lt c, st.cols.getLastD 0 * st.lt.blocksPerChunk - 0) = _
    rw [hlast, Nat.sub_zero, Nat.mul_comm]
  rw [hp.payloadReqs_eq, List.map_append]
  refine (hsparse.append hdense).trans ((List.flatMap_append_perm _ _ _).trans (List.Perm.of_eq ?_))
  refine List.flatMap_congr fun c _ => ?_
  unfold chunkReads
  split_ifs with h
  · simp
  · rw [List.append_nil]

theorem length_payloadReqs (opts : QueryOptions) (hlast : st.cols.getLastD 0 = blockBytes st.rate) :
    (payloadReqs opts st p).length =
      ∑ c ∈ Finset.range st.nChunk, chunkRequests st gap opts.maxChunkRequests f c := by
  have h := (perm_payloadReqs hids hf hp hkeys opts hlast).length_eq
  rw [List.length_map, List.length_flatMap, sum_range_map] at h
  simpa only [length_chunkReads] using h

theorem sum_payloadReqs (opts : QueryOptions) (hsum : ((List.range (st.layer + 1)).map st.layerBytes).sum =
      blockBytes st.rate) (hlast : st.cols.getLastD 0 = blockBytes st.rate) :
    ((payloadReqs opts st p).map fun q => q.1.stop - q.1.start).sum =
      ∑ c ∈ Finset.range st.nChunk, chunkBytes st gap opts.maxChunkRequests f c := by
  have h := ((perm_payloadReqs hids hf hp hkeys opts hlast).map Prod.snd).sum_eq
  rw [List.map_map, List.map_flatMap, List.flatMap_def, List.sum_flatten, List.map_map, sum_range_map] at h
  refine h.trans (Finset.sum_congr rfl fun c _ => ?_)
  exact sum_chunkReads hsum opts.maxChunkRequests c

theorem perm_chunkReqs (opts : QueryOptions) (hlast : st.cols.getLastD 0 = blockBytes st.rate) {c : ℕ}
    (hc : c < st.nChunk) :
    ((chunkReqs a st opts p c).map fun q => (q.1.key, q.1.stop - q.1.start)).Perm
      (chunkReads a st gap opts.maxChunkRequests f c) := by
  have hfilter : (chunkReqs a st opts p c).map (fun q => (q.1.key, q.1.stop - q.1.start)) =
      ((payloadReqs opts st p).map fun q => (q.1.key, q.1.stop - q.1.start)).filter
        fun x => x.1 = a.keyOf st.lt c := by
    unfold chunkReqs
    rw [List.filter_map]
    rfl
  have hone : ((List.range st.nChunk).flatMap (chunkReads a st gap opts.maxChunkRequests f)).filter
      (fun x => x.1 = a.keyOf st.lt c) = chunkReads a st gap opts.maxChunkRequests f c := by
    have hchunk : ∀ d ∈ List.range st.nChunk, (chunkReads a st gap opts.maxChunkRequests f d).filter
        (fun x => x.1 = a.keyOf st.lt c) =
          if d = c then chunkReads a st gap opts.maxChunkRequests f d else [] := by
      intro d hd
      split_ifs with h
      · subst h
        exact List.filter_eq_self.mpr fun x hx => decide_eq_true (key_of_chunkReads hx)
      · refine List.filter_eq_nil_iff.mpr fun x hx heq => h ?_
        exact hkeys d (List.mem_range.mp hd) c hc
          ((key_of_chunkReads hx).symm.trans (of_decide_eq_true heq))
    rw [List.filter_flatMap, List.flatMap_congr hchunk]
    exact flatMap_single _ List.nodup_range (List.mem_range.mpr hc)
  rw [hfilter]
  exact ((perm_payloadReqs hids hf hp hkeys opts hlast).filter _).trans (List.Perm.of_eq hone)

end Ids

/-! ### Bounds for a chunk -/

omit [LinearOrder κ] in
theorem groups_eq_nil (st : Setup) {c : ℕ} (h : f c = []) (gap m : ℕ) : groups gap (f c) = [] ∧
    ¬ IsDense st gap m f c := by
  have hgroups : groups gap (f c) = [] := by
    rw [h]
    rfl
  refine ⟨hgroups, ?_⟩
  unfold IsDense
  rw [hgroups]
  exact Nat.not_lt_zero m

omit [LinearOrder κ] in
theorem chunkRequests_le {m : ℕ} (hm : 0 < m) (gap c : ℕ) :
    chunkRequests st gap m f c ≤ if f c = [] then 0 else m := by
  unfold chunkRequests
  by_cases hnil : f c = []
  · obtain ⟨hgroups, hdense⟩ := groups_eq_nil st hnil gap m
    rw [if_pos hnil, if_neg hdense, hgroups]
    exact le_rfl
  · rw [if_neg hnil]
    split_ifs with h
    · exact hm
    · exact Nat.le_of_not_lt h

omit [LinearOrder κ] in
theorem chunkRequests_mono {m m' : ℕ} (hmm : m ≤ m') (gap c : ℕ) :
    chunkRequests st gap m f c ≤ chunkRequests st gap m' f c := by
  unfold chunkRequests
  by_cases h' : IsDense st gap m' f c
  · have h : IsDense st gap m f c := hmm.trans_lt h'
    rw [if_pos h, if_pos h']
  · rw [if_neg h']
    split_ifs with h
    · exact (Nat.succ_le_of_lt ((Nat.zero_le m).trans_lt h))
    · exact le_rfl

section Bytes
variable (hf : ∀ c, ∀ id ∈ f c, id.1 = c) (hs : ∀ c, (f c).Pairwise IdLt)
  (hn : ∀ c, ∀ id ∈ f c, id.2 < st.lt.blocksPerChunk)
include hf hs hn

omit [LinearOrder κ] in
/-- Of a chunk its MAYBE blocks are read, and at most all blocks. -/
theorem chunkBytes_bounds (gap m c : ℕ) : (f c).length * blockBytes st.rate ≤ chunkBytes st gap m f c ∧
    chunkBytes st gap m f c ≤ if f c = [] then 0 else st.lt.blocksPerChunk * blockBytes st.rate := by
  obtain ⟨hlow, hhigh⟩ := sum_groupBytes_chunk hf gap (blockBytes st.rate) (hs c) (hn c)
  unfold chunkBytes
  by_cases hnil : f c = []
  · obtain ⟨hgroups, hdense⟩ := groups_eq_nil st hnil gap m
    rw [if_pos hnil, if_neg hdense, hgroups, hnil]
    exact ⟨(Nat.zero_mul _).le, le_rfl⟩
  · rw [if_neg hnil]
    split_ifs
    · exact ⟨hlow.trans hhigh, le_rfl⟩
    · exact ⟨hlow, hhigh⟩

omit [LinearOrder κ] in
theorem chunkBytes_mono {m m' : ℕ} (hmm : m ≤ m') (gap c : ℕ) :
    chunkBytes st gap m' f c ≤ chunkBytes st gap m f c := by
  have hhigh := (sum_groupBytes_chunk hf gap (blockBytes st.rate) (hs c) (hn c)).2
  unfold chunkBytes
  by_cases h' : IsDense st gap m' f c
  · have h : IsDense st gap m f c := hmm.trans_lt h'
    rw [if_pos h, if_pos h']
  · rw [if_neg h']
    split_ifs
    · exact hhigh
    · exact le_rfl

end Bytes

end Plan

/-! ### What is reported -/

section Queries
variable {κ : Type} [LinearOrder κ] {E : Env} {a : ZarrArray κ} {st : Setup} {lo hi : Dbl}
  {opts : QueryOptions} {m : List UInt8 × ℕ × ℕ}

/-- The MAYBE blocks of a chunk. -/
def maybeOf (E : Env) (a : ZarrArray κ) (st : Setup) (lo hi : Dbl) (m : List UInt8 × ℕ × ℕ) (c : ℕ) :
    List (ℕ × ℕ) :=
  ((List.range st.lt.blocksPerChunk).filter fun b =>
    stateAt E.fl (planMeta a.codec st.layer st.lt.unitShape m.1) st.lt.planArgs lo hi c b = .MAYBE).map
      fun b => (c, b)

variable (E a st lo hi m) in
omit [LinearOrder κ] in
theorem maybeOf_spec (c : ℕ) : (∀ id ∈ maybeOf E a st lo hi m c, id.1 = c) ∧
    (maybeOf E a st lo hi m c).Pairwise IdLt ∧
      ∀ id ∈ maybeOf E a st lo hi m c, id.2 < st.lt.blocksPerChunk := by
  unfold maybeOf
  refine ⟨fun id hid => ?_, ?_, fun id hid => ?_⟩
  · obtain ⟨b, -, rfl⟩ := List.mem_map.mp hid
    rfl
  · rw [List.pairwise_map]
    exact (List.pairwise_lt_range.filter _).imp fun h => Or.inr ⟨rfl, h⟩
  · obtain ⟨b, hb, rfl⟩ := List.mem_map.mp hid
    exact List.mem_range.mp (List.mem_of_mem_filter hb)

variable (E lo hi m) in
omit [LinearOrder κ] in
theorem ids_plannedOf (hc : a.codec.ChunkOk a.chunk) (hst : setup a opts = .ok st) :
    (plannedOf E a lo hi opts st m).ids = (List.range st.nChunk).flatMap (maybeOf E a st lo hi m) := by
  obtain ⟨hnChunk, hblocks⟩ := counts_setup hc hst
  unfold plannedOf maybeOf
  rw [hnChunk, hblocks]
  exact maybeIds_eq

/-- The reads of a query at a higher layer, as it reports them. -/
structure LayerTraffic (E : Env) (a : ZarrArray κ) (st : Setup) (lo hi : Dbl) (opts : QueryOptions)
    (m : List UInt8 × ℕ × ℕ) (r : QueryResult) : Prop where
  maybeBlocks : r.maybeBlocks = ∑ c ∈ Finset.range st.nChunk, (maybeOf E a st lo hi m c).length
  requests : r.payloadRequests = ∑ c ∈ Finset.range st.nChunk,
    chunkRequests st (opts.mergeGapBlocks % 2 ^ 64) opts.maxChunkRequests (maybeOf E a st lo hi m) c
  bytes : r.payloadBytesRead = ∑ c ∈ Finset.range st.nChunk,
    chunkBytes st (opts.mergeGapBlocks % 2 ^ 64) opts.maxChunkRequests (maybeOf E a st lo hi m) c
  overread : r.payloadOverreadBytes = (r.payloadBytesRead : ℤ) - (r.maybeBlocks * blockBytes st.rate : ℕ)

/-- **The reads of a chunk**: none without a MAYBE block, else at most `max_chunk_requests`, of all MAYBE
blocks and at most all blocks. -/
structure ChunkBounded (st : Setup) (opts : QueryOptions) (maybe : List (ℕ × ℕ))
    (reqs : List (Range κ × Fill κ)) : Prop where
  requests : reqs.length ≤ if maybe = [] then 0 else opts.maxChunkRequests
  least : maybe.length * blockBytes st.rate ≤ (reqs.map fun q => q.1.stop - q.1.start).sum
  most : (reqs.map fun q => q.1.stop - q.1.start).sum ≤
    if maybe = [] then 0 else st.lt.blocksPerChunk * blockBytes st.rate

variable {l : List ℕ} (hchunk : a.codec.chunkShape l = .ok a.chunk) (hst : setup a opts = .ok st)
  (hkeys : DistinctKeys a st) (hfits : st.lt.planArgs.fits) (h0 : st.layer ≠ 0)
  (hm : (readMeta E a opts st).Returns (· = m))
include hchunk hst hkeys hfits h0 hm

/-- **What any run of a query at a higher layer reports of its reads.** -/
theorem layerTraffic_returned {r : QueryResult}
    (h : (queryAsync E a lo hi opts).Reachable (.returned (.ok r))) :
    LayerTraffic E a st lo hi opts m r ∧ counts r = storedCounts E a st lo hi opts m := by
  have hc := a.codec.chunkOk_of_chunkShape hchunk
  -- only layer 0 is pipelined
  have hmo : st.pipelined opts = none := by
    unfold Setup.pipelined
    cases st.mo <;> simp [h0]
  rw [query_eq_wholeQuery hst hmo] at h
  have h := mayReturn_of_reachable h
  have hcounts := (mayReturn_whole hc hst hkeys hfits hm h).2
  have hplan : planQuery E a lo hi opts st m = .ok (plannedOf E a lo hi opts st m) :=
    planQuery_eq (shapeOk_setup hc hst) hfits m
  have h := mayReturn_of_bind (returns_done hplan rfl) (mayReturn_of_bind hm h)
  rw [if_neg h0] at h
  obtain ⟨parts, hparts, -⟩ := mayReturn_bind h
  have hread : ∀ q ∈ payloadReqs opts st (plannedOf E a lo hi opts st m), ∃ x, readOne a q.1 = .ok x :=
    fun q hq => mayReturn_readBatches hparts q.1
      (by rw [flatten_batched batchSize_pos]; exact List.mem_map_of_mem hq)
  have hr := mayReturn_unique (returns_layersRead hc hst hkeys hread) h
  have hids := ids_plannedOf E lo hi m hc hst
  have hf := fun c => (maybeOf_spec E a st lo hi m c).1
  have hp := regular_plannedOf hc hst E lo hi m
  obtain ⟨hlast, hrate⟩ := getLastD_cols hst
  have hsum : ((List.range (st.layer + 1)).map st.layerBytes).sum = blockBytes st.rate := by
    rw [sum_layerBytes (holds_padded hc hst hkeys) le_rfl, ← hlast, hrate]
  have hmaybe : r.maybeBlocks = (plannedOf E a lo hi opts st m).ids.length := by
    have hsorted : (plannedOf E a lo hi opts st m).sortedBlocks.length =
        (plannedOf E a lo hi opts st m).ids.length := by rw [sortedBlocks_plannedOf, List.length_map]
    rw [hr]
    exact hsorted
  refine ⟨⟨?_, ?_, ?_, ?_⟩, hcounts⟩
  · rw [hmaybe, hids, List.length_flatMap]
    rfl
  · rw [← length_payloadReqs hids hf hp hkeys opts hrate, hr]
    rfl
  · rw [← sum_payloadReqs hids hf hp hkeys opts hsum hrate, hr]
    rfl
  · rw [hr]
    rfl

omit hfits h0 hm in
/-- The requests and the bytes of a chunk are those of its reads. -/
theorem chunkReqs_plannedOf (E : Env) (lo hi : Dbl) (m : List UInt8 × ℕ × ℕ) {c : ℕ} (hc : c < st.nChunk) :
    (chunkReqs a st opts (plannedOf E a lo hi opts st m) c).length =
        chunkRequests st (opts.mergeGapBlocks % 2 ^ 64) opts.maxChunkRequests (maybeOf E a st lo hi m) c ∧
      ((chunkReqs a st opts (plannedOf E a lo hi opts st m) c).map fun q => q.1.stop - q.1.start).sum =
        chunkBytes st (opts.mergeGapBlocks % 2 ^ 64) opts.maxChunkRequests (maybeOf E a st lo hi m) c := by
  have hok := a.codec.chunkOk_of_chunkShape hchunk
  obtain ⟨hlast, hrate⟩ := getLastD_cols hst
  have hsum : ((List.range (st.layer + 1)).map st.layerBytes).sum = blockBytes st.rate := by
    rw [sum_layerBytes (holds_padded hok hst hkeys) le_rfl, ← hlast, hrate]
  have hperm := perm_chunkReqs (ids_plannedOf E lo hi m hok hst) (fun c =>
    (maybeOf_spec E a st lo hi m c).1)
    (regular_plannedOf hok hst E lo hi m) hkeys opts hrate hc
  have hbytes := (hperm.map Prod.snd).sum_eq
  rw [List.map_map, sum_chunkReads hsum] at hbytes
  refine ⟨?_, hbytes⟩
  rw [← length_chunkReads, ← hperm.length_eq, List.length_map]

omit hm in
/-- **What `max_chunk_requests` bounds.** For every array, whatever its store and its zone map hold, and
any run of a query at a layer above 0 that has returned:

* its reads are those of the chunks: for a chunk without a MAYBE block there is none, for any other at
  most `max_chunk_requests`, of at least its MAYBE blocks and at most all its blocks, up to the layer;
* the bytes read are the MAYBE blocks and the over-read, which is not negative;
* what any run of the same query with a larger `max_chunk_requests` has returned differs in that it has
  made no fewer requests and read no more bytes; it counts the same. -/
theorem traffic_of_maxChunkRequests {opts' : QueryOptions} {m' : List UInt8 × ℕ × ℕ}
    (hst' : setup a opts' = .ok st) (hm : (readMeta E a opts st).Returns (· = m))
    (hm' : (readMeta E a opts' st).Returns (· = m')) (hzm : m'.1 = m.1)
    (hgap : opts'.mergeGapBlocks = opts.mergeGapBlocks)
    (hmax : opts.maxChunkRequests ≤ opts'.maxChunkRequests)
    {r r' : QueryResult} (h : (queryAsync E a lo hi opts).Reachable (.returned (.ok r)))
    (h' : (queryAsync E a lo hi opts').Reachable (.returned (.ok r'))) :
    ((∀ c < st.nChunk, ChunkBounded st opts (maybeOf E a st lo hi m c)
        (chunkReqs a st opts (plannedOf E a lo hi opts st m) c)) ∧
      r.payloadRequests = ∑ c ∈ Finset.range st.nChunk,
        (chunkReqs a st opts (plannedOf E a lo hi opts st m) c).length ∧
      r.payloadBytesRead = ∑ c ∈ Finset.range st.nChunk,
        ((chunkReqs a st opts (plannedOf E a lo hi opts st m) c).map fun q => q.1.stop - q.1.start).sum) ∧
    ((r.payloadBytesRead : ℤ) = r.maybeBlocks * blockBytes st.rate + r.payloadOverreadBytes ∧
      0 ≤ r.payloadOverreadBytes) ∧
    r.payloadRequests ≤ r'.payloadRequests ∧ r'.payloadBytesRead ≤ r.payloadBytesRead ∧
      counts r' = counts r := by
  obtain ⟨htraffic, hcounts⟩ := layerTraffic_returned hchunk hst hkeys hfits h0 hm h
  obtain ⟨htraffic', hcounts'⟩ := layerTraffic_returned hchunk hst' hkeys hfits h0 hm' h'
  have hmaybe : maybeOf E a st lo hi m' = maybeOf E a st lo hi m := by
    unfold maybeOf
    rw [hzm]
  have hf := fun c => (maybeOf_spec E a st lo hi m c).1
  have hs := fun c => (maybeOf_spec E a st lo hi m c).2.1
  have hn := fun c => (maybeOf_spec E a st lo hi m c).2.2
  have hreqs : ∀ c < st.nChunk, _ ∧ _ := fun c hc =>
    chunkReqs_plannedOf hchunk hst hkeys E lo hi m hc
  set gap := opts.mergeGapBlocks % 2 ^ 64 with hgapdef
  have hrequests := htraffic.requests
  have hrequests' := htraffic'.requests
  have hbytes := htraffic.bytes
  have hbytes' := htraffic'.bytes
  rw [hgap, ← hgapdef, hmaybe] at hrequests' hbytes'
  rw [← hgapdef] at hrequests hbytes
  have huseful : r.maybeBlocks * blockBytes st.rate ≤ r.payloadBytesRead := by
    rw [htraffic.maybeBlocks, hbytes, Finset.sum_mul]
    exact Finset.sum_le_sum fun c _ => (chunkBytes_bounds hf hs hn gap _ c).1
  refine ⟨⟨fun c hc => ⟨?_, ?_, ?_⟩, ?_, ?_⟩, ⟨?_, ?_⟩, ?_, ?_, ?_⟩
  · rw [(hreqs c hc).1]
    exact chunkRequests_le opts.requests_pos gap c
  · rw [(hreqs c hc).2]
    exact (chunkBytes_bounds hf hs hn gap _ c).1
  · rw [(hreqs c hc).2]
    exact (chunkBytes_bounds hf hs hn gap _ c).2
  · rw [hrequests]
    exact Finset.sum_congr rfl fun c hc => (hreqs c (Finset.mem_range.mp hc)).1.symm
  · rw [hbytes]
    exact Finset.sum_congr rfl fun c hc => (hreqs c (Finset.mem_range.mp hc)).2.symm
  · rw [htraffic.overread]
    push_cast
    ring
  · rw [htraffic.overread]
    exact Int.sub_nonneg_of_le (by exact_mod_cast huseful)
  · rw [hrequests, hrequests']
    exact Finset.sum_le_sum fun c _ => chunkRequests_mono hmax gap c
  · rw [hbytes, hbytes']
    exact Finset.sum_le_sum fun c _ => chunkBytes_mono hf hs hn hmax gap c
  · rw [hcounts, hcounts', storedCounts_eq, storedCounts_eq, hzm]

end Queries

/-! ### Two layers -/

def optionsOfMore : QueryOptions :=
  { optionsOfTwoLayers with maxChunkRequests := 4, requests_pos := Nat.succ_pos 3 }

theorem setup_ofMore : setup arrayOfTwoLayers optionsOfMore = .ok setupOfTwoLayers := setup_ofTwoLayers

theorem exists_ofTwoLayers {opts : QueryOptions} (hkey : opts.metaByKey = true)
    (hst : setup arrayOfTwoLayers opts = .ok setupOfTwoLayers) : ∃ r,
    (queryAsync envOfTwo arrayOfTwoLayers (.fin (7 / 4)) .pinf opts).Reachable (.returned (.ok r)) := by
  obtain ⟨r, hr, -⟩ := exists_of_always (always_of_returns (returns_layer
    (twoLayers.chunkOk_of_chunkShape chunkShape_ofTwoLayers) hst (by decide) (by decide +kernel)
    (readMeta_ofTwoLayers hkey) packed_ofTwoLayers))
  exact ⟨r, hr⟩

/-- At most two requests for a chunk, where the first chunk is read at once, and at most four. -/
theorem traffic_of_maxChunkRequests_two : ∃ r r',
    (queryAsync envOfTwo arrayOfTwoLayers (.fin (7 / 4)) .pinf optionsOfTwoLayers).Reachable
        (.returned (.ok r)) ∧
      (queryAsync envOfTwo arrayOfTwoLayers (.fin (7 / 4)) .pinf optionsOfMore).Reachable
        (.returned (.ok r')) ∧
      (r.payloadRequests = 3 ∧ r.payloadBytesRead = 64) ∧
      ((64 : ℤ) = r.maybeBlocks * 8 + r.payloadOverreadBytes ∧ 0 ≤ r.payloadOverreadBytes) ∧
      r.payloadRequests ≤ r'.payloadRequests ∧ r'.payloadBytesRead ≤ r.payloadBytesRead ∧
        counts r' = counts r := by
  obtain ⟨r, hr⟩ := exists_ofTwoLayers rfl setup_ofTwoLayers
  obtain ⟨r', hr'⟩ := exists_ofTwoLayers rfl setup_ofMore
  have hkeys : DistinctKeys arrayOfTwoLayers setupOfTwoLayers := by
    unfold DistinctKeys
    decide +kernel
  obtain ⟨⟨-, hreqs, hbytes⟩, hread, hmore⟩ := traffic_of_maxChunkRequests chunkShape_ofTwoLayers
    setup_ofTwoLayers hkeys (by decide +kernel) (by decide) setup_ofMore (readMeta_ofTwoLayers rfl)
    (readMeta_ofTwoLayers rfl) rfl rfl (by decide) hr hr'
  have hreqs : r.payloadRequests = 3 := hreqs.trans (by decide +kernel)
  have hbytes : r.payloadBytesRead = 64 := hbytes.trans (by decide +kernel)
  have hblock : blockBytes setupOfTwoLayers.rate = 8 := by decide +kernel
  rw [hbytes, hblock] at hread
  exact ⟨r, r', hr, hr', ⟨hreqs, hbytes⟩, hread, hmore⟩

end SkipZFP.Query.Dense
