import SkipZFP.Lib.Groups
import SkipZFP.Query.Stored

/-! # What a query reads

A query of layer 0 reads each group of its MAYBE blocks at once, with the blocks between them. What that
costs adds up over the neighbours that share a read (`joined`).

* `sum_groupBytes`: the bytes of all groups.
* `traffic_returned`: what any run of a query reports of its reads, whatever its store holds.
* `traffic_of_gap`: **over-read is at most the gap for each request saved**; a larger gap counts the same,
  and takes no more requests and no fewer bytes as long as it does not wrap around. -/

namespace SkipZFP.Query.Cost

open SkipZFP.Lib.Grid SkipZFP.Lib.Groups SkipZFP.Lib.Double SkipZFP.Codec.Config SkipZFP.Plan.Classify
open SkipZFP.Codec.Pack SkipZFP.Plan.Blocks SkipZFP.Plan.Shapes SkipZFP.Plan.Records SkipZFP.Plan.Layers
open SkipZFP.Read.Merge
open SkipZFP.Read.Gather SkipZFP.Read.Missing SkipZFP.Read.Store SkipZFP.Read.Stream SkipZFP.Query.Run
open SkipZFP.Query.Count SkipZFP.Query.Layers SkipZFP.Query.Fill SkipZFP.Query.Pipelined
open SkipZFP.Query.Stored

/-! ### The bytes of groups -/

/-- The blocks between two that share a read. -/
def between (a b : ℕ × ℕ) : ℕ := b.2 - (a.2 + 1)

/-- The blocks that a group reads are its own and those between them. -/
theorem span_of_isChain {gap : ℕ} : ∀ {g : List (ℕ × ℕ)}, g ≠ [] → g.Pairwise IdLt →
    (g.IsChain fun a b => joins gap a b) →
      (g.getLastD (0, 0)).2 + 1 - (g.headD (0, 0)).2 = g.length + joined (joins gap) between g ∧
        (g.headD (0, 0)).2 ≤ (g.getLastD (0, 0)).2
  | [], h, _, _ => absurd rfl h
  | [a], _, _, _ => by simp [joined]
  | a :: b :: g, _, hs, hc => by
    rw [List.isChain_cons_cons] at hc
    obtain ⟨hab, hs'⟩ := List.pairwise_cons.mp hs
    obtain ⟨ih, hle⟩ := span_of_isChain (List.cons_ne_nil b g) hs' hc.2
    have hlast : (a :: b :: g).getLastD (0, 0) = (b :: g).getLastD (0, 0) := by
      simp [List.getLastD_eq_getLast?, List.getLast?_cons_cons]
    have hlt := hab b List.mem_cons_self
    obtain ⟨hchunk, -⟩ := of_decide_eq_true hc.1
    unfold IdLt at hlt
    rw [hlast, joined, if_pos hc.1]
    simp only [List.headD_cons, List.length_cons, between] at ih hle ⊢
    omega

/-- **The bytes of all groups**: the blocks that are needed and those between two that share a read. -/
theorem sum_groupBytes {gap w : ℕ} {ids : List (ℕ × ℕ)} (hs : ids.Pairwise IdLt) :
    ((groups gap ids).map (groupBytes w)).sum = (ids.length + joined (joins gap) between ids) * w := by
  have hgroup : ∀ g ∈ groups gap ids, groupBytes w g =
      g.length * w + joined (joins gap) between g * w := by
    intro g hg
    have hsub : g.Sublist ids := by
      have := List.sublist_flatten_of_mem hg
      rwa [flatten_groups] at this
    have hspan := (span_of_isChain (List.ne_nil_of_mem_splitBy hg) (hs.sublist hsub)
      (List.isChain_of_mem_splitBy hg)).1
    rw [groupBytes, hspan, Nat.add_mul]
  rw [List.map_congr_left hgroup, List.sum_map_add, List.sum_map_mul_right, List.sum_map_mul_right,
    Nat.add_mul]
  congr 2
  · rw [← List.length_flatten, flatten_groups]
  · exact joined_splitBy ids

theorem length_add_joined_le {gap n : ℕ} : ∀ {ids : List (ℕ × ℕ)}, ids.Pairwise IdLt →
    (∀ id ∈ ids, id.2 < n) → ∀ {N : ℕ}, (∀ id ∈ ids, id.1 < N) →
      (ids.headD (0, 0)).1 * n + (ids.headD (0, 0)).2 +
        (ids.length + joined (joins gap) between ids) ≤ N * n
  | [], _, _, N, _ => by simp [joined]
  | [a], _, hn, N, hN => by
    have h1 := hn a List.mem_cons_self
    have h2 : (a.1 + 1) * n ≤ N * n := Nat.mul_le_mul_right n (hN a List.mem_cons_self)
    rw [Nat.add_one_mul] at h2
    simp only [List.headD_cons, List.length_singleton, joined]
    omega
  | a :: b :: ids, hs, hn, N, hN => by
    obtain ⟨hab, hs'⟩ := List.pairwise_cons.mp hs
    have ih : ((b :: ids).headD (0, 0)).1 * n + ((b :: ids).headD (0, 0)).2 +
        ((b :: ids).length + joined (joins gap) between (b :: ids)) ≤ N * n :=
      length_add_joined_le hs' (fun id hid => hn id (List.mem_cons_of_mem a hid))
        fun id hid => hN id (List.mem_cons_of_mem a hid)
    have hlt := hab b List.mem_cons_self
    have h1 := hn a List.mem_cons_self
    unfold IdLt at hlt
    simp only [List.headD_cons, List.length_cons, joined] at ih ⊢
    rcases hlt with hlt | ⟨hchunk, hlt⟩
    · have hjoin : joins gap a b = false := decide_eq_false fun h => by omega
      have h2 : (a.1 + 1) * n ≤ b.1 * n := Nat.mul_le_mul_right n hlt
      rw [Nat.add_one_mul] at h2
      rw [hjoin, if_neg Bool.false_ne_true]
      omega
    · rw [hchunk]
      by_cases hjoin : joins gap a b = true
      · rw [if_pos hjoin, between]
        omega
      · rw [if_neg hjoin]
        omega

theorem between_le {gap : ℕ} {a b : ℕ × ℕ} (h : joins gap a b) : between a b ≤ gap := by
  obtain ⟨-, hle⟩ := of_decide_eq_true h
  have := Nat.mod_le (a.2 + gap + 1) (2 ^ 64)
  unfold between
  omega

theorem joins_mono {gap gap' : ℕ} (hgap : gap ≤ gap') {a b : ℕ × ℕ} (hwrap : a.2 + gap' + 1 < 2 ^ 64)
    (h : joins gap a b) : joins gap' a b := by
  obtain ⟨hchunk, hle⟩ := of_decide_eq_true h
  refine decide_eq_true ⟨hchunk, ?_⟩
  rw [Nat.mod_eq_of_lt (by omega)] at hle ⊢
  omega

/-! ### What is reported -/

/-- The reads of a query of layer 0, as it reports them. -/
structure Traffic (gap w : ℕ) (ids : List (ℕ × ℕ)) (r : QueryResult) : Prop where
  maybeBlocks : r.maybeBlocks = ids.length
  requests : r.payloadRequests = (groups gap ids).length
  bytes : r.payloadBytesRead = ((groups gap ids).map (groupBytes w)).sum
  useful : r.usefulPayloadBytes = ids.length * w
  overread : r.payloadOverreadBytes = (r.payloadBytesRead : ℤ) - r.usefulPayloadBytes

section Traffic
variable {gap w : ℕ} {ids : List (ℕ × ℕ)} {r : QueryResult} (h : Traffic gap w ids r)
include h

/-- A request is saved for each pair that is joined. -/
theorem Traffic.saved : r.payloadRequests + joined (joins gap) (fun _ _ => 1) ids = r.maybeBlocks := by
  rw [h.requests, h.maybeBlocks]
  exact length_splitBy ids

variable (hs : ids.Pairwise IdLt)
include hs

/-- The over-read are the blocks between the pairs that are joined. -/
theorem Traffic.overread_eq : r.payloadOverreadBytes = ((joined (joins gap) between ids * w : ℕ) : ℤ) := by
  rw [h.overread, h.bytes, sum_groupBytes hs, h.useful, Nat.add_mul]
  push_cast
  ring

/-- **A larger gap** saves requests and reads more. -/
theorem Traffic.mono {gap' : ℕ} {r' : QueryResult} (h' : Traffic gap' w ids r') (hgap : gap ≤ gap')
    (hwrap : ∀ id ∈ ids, id.2 + gap' + 1 < 2 ^ 64) :
    r'.payloadRequests ≤ r.payloadRequests ∧ r.payloadBytesRead ≤ r'.payloadBytesRead := by
  have hmore : ∀ c, joined (joins gap) c ids ≤ joined (joins gap') c ids := fun c =>
    joined_mono fun x hx y hxy => joins_mono hgap (hwrap x hx) hxy
  have hsaved := h.saved
  have hsaved' := h'.saved
  have hone := hmore fun _ _ => 1
  rw [h.maybeBlocks] at hsaved
  rw [h'.maybeBlocks] at hsaved'
  refine ⟨by omega, ?_⟩
  rw [h.bytes, h'.bytes, sum_groupBytes hs, sum_groupBytes hs]
  exact Nat.mul_le_mul_right _ (Nat.add_le_add_left (hmore between) _)

end Traffic

section Queries
variable {κ : Type} [LinearOrder κ] {E : Env} {a : ZarrArray κ} {st : Setup} {lo hi : Dbl}
  {opts : QueryOptions} {m : List UInt8 × ℕ × ℕ}

/-- A query with the whole zone map. -/
theorem traffic_whole (hc : a.codec.ChunkOk a.chunk) (hst : setup a opts = .ok st)
    (hkeys : DistinctKeys a st) (hfits : st.lt.planArgs.fits)
    (hm : (readMeta E a opts st).Returns (· = m)) (h0 : st.layer = 0) {r : QueryResult}
    (h : (wholeQuery E a lo hi opts st).MayReturn r) : Traffic (opts.mergeGapBlocks % 2 ^ 64)
      (blockBytes st.rate) (plannedOf E a lo hi opts st m).ids r := by
  obtain ⟨hbytes, hstart⟩ := layer_zero hst h0
  have hin := (mayReturn_whole hc hst hkeys hfits hm h).1
  have hret : (streamLayer E a lo hi opts st (plannedOf E a lo hi opts st m)).Returns
      (Traffic (opts.mergeGapBlocks % 2 ^ 64) (blockBytes st.rate)
        (plannedOf E a lo hi opts st m).ids) := by
    refine returns_streamLayer hst h0 (fun id hid => ?_) fun peak => ?_
    · obtain ⟨obj, hget, hlen⟩ := hin id hid 0 (Nat.zero_le _)
      rw [hstart, hbytes, Nat.zero_add] at hlen
      exact ⟨obj, hget, hlen⟩
    · have hsorted : (plannedOf E a lo hi opts st m).sortedBlocks.length =
          (plannedOf E a lo hi opts st m).ids.length := by rw [sortedBlocks_plannedOf, List.length_map]
      refine ⟨hsorted, ?_, ?_, ?_, rfl⟩
      · show (plannedOf E a lo hi opts st m).streamReads.length = _
        rw [streamReads_plannedOf E a lo hi opts hstart, List.length_map, length_readsOf]
      · show (List.map Prod.snd (List.map _ _)).sum = _
        rw [List.map_map]
        rfl
      · exact congrArg (· * blockBytes st.rate) hsorted
  refine mayReturn_unique (returns_wholeQuery lo hi (shapeOk_setup hc hst) hfits hm ?_) h
  rwa [if_pos h0]

variable {l : List ℕ} (hchunk : a.codec.chunkShape l = .ok a.chunk) (hkeys : DistinctKeys a st)
  (hfits : st.lt.planArgs.fits) (h0 : st.layer = 0)
include hchunk hkeys hfits h0

omit hchunk hkeys hfits h0 in
omit [LinearOrder κ] in
theorem sum_groupBytes_le (gap w : ℕ) :
    ((groups gap (plannedOf E a lo hi opts st m).ids).map (groupBytes w)).sum ≤
      st.lt.planArgs.totalBlocks * w := by
  have hs : (plannedOf E a lo hi opts st m).ids.Pairwise IdLt := pairwise_maybeIds
  rw [sum_groupBytes hs]
  refine Nat.mul_le_mul_right w ((Nat.le_add_left _ _).trans (length_add_joined_le hs
    (fun id hid => ?_) fun id hid => ?_))
  · exact (mem_maybeIds.mp hid).2.1
  · exact (mem_maybeIds.mp hid).1

/-- **What any run of a query reports of its reads.** -/
theorem traffic_returned (hst : setup a opts = .ok st) (hm : (readMeta E a opts st).Returns (· = m))
    (hpipe : ∀ mo, st.pipelined opts = some mo → FixesIntegers E.fl ∧
      64 * st.lt.planArgs.totalBlocks < 2 ^ 53 ∧ st.lt.planArgs.totalBlocks * blockBytes st.rate < 2 ^ 53)
    {r : QueryResult} (h : (queryAsync E a lo hi opts).Reachable (.returned (.ok r))) :
    Traffic (opts.mergeGapBlocks % 2 ^ 64) (blockBytes st.rate) (plannedOf E a lo hi opts st m).ids r ∧
      counts r = storedCounts E a st lo hi opts m := by
  have hc := a.codec.chunkOk_of_chunkShape hchunk
  refine ⟨?_, (counts_returned hchunk hst hkeys hfits hm (fun mo hmo =>
    ⟨(hpipe mo hmo).1, (hpipe mo hmo).2.1⟩) h).2⟩
  cases hmo : st.pipelined opts with
  | none =>
    rw [query_eq_wholeQuery hst hmo] at h
    exact traffic_whole hc hst hkeys hfits hm h0 (mayReturn_of_reachable h)
  | some mo =>
    obtain ⟨hfl, hlt, hltb⟩ := hpipe mo hmo
    rw [query_eq_pipelinedQuery hst hmo] at h
    have hsame : (wholeQuery E a lo hi opts st).SameUpTo SameSmall _ :=
      same_query (slabbed_of_setup hchunk hst hmo hfits) hmo hfl (layer_zero hst h0).1
    obtain ⟨v, hv, hsmall⟩ := exists_of_always (hsame.2 r h)
    have hv := mayReturn_of_reachable hv
    have htraffic := traffic_whole hc hst hkeys hfits hm h0 hv
    have hcounts := (mayReturn_whole hc hst hkeys hfits hm hv).2
    have hbytes : v.payloadBytesRead < 2 ^ 53 := by
      rw [htraffic.bytes]
      exact (sum_groupBytes_le _ _).trans_lt hltb
    have hn : ∀ n ∈ counts v, n < 2 ^ 53 := fun n hn => by
      rw [hcounts] at hn
      exact (le_storedCounts n hn).trans_lt hlt
    have hrequests : v.payloadRequests < 2 ^ 53 := by
      have hmaybe := hn v.maybeBlocks (by simp [counts])
      rw [htraffic.maybeBlocks] at hmaybe
      rw [htraffic.requests]
      have := length_splitBy (r := joins (opts.mergeGapBlocks % 2 ^ 64)) (plannedOf E a lo hi opts st m).ids
      unfold groups
      omega
    rw [(hsmall hn).2 hbytes hrequests]
    exact ⟨htraffic.1, htraffic.2, htraffic.3, htraffic.4, htraffic.5⟩

/-- **What a query of layer 0 reads, for any gap.** For every array, whatever its store and its zone map
hold, and any run of a query of layer 0 that has returned:

* it has made at most one request for each MAYBE block, and read no more bytes than the blocks of the
  array;
* what it reports as over-read is what it has read beyond the MAYBE blocks, never negative, and at most
  the gap for each request saved; so it is zero where nothing is merged over a gap;
* what any run of the same query with a larger gap has returned counts the same; it has made at most as many
  requests and read at least as many bytes, unless the larger gap is within 2^32 of 2^64, where the end of a
  group and the gap wrap around.

A pipelined query adds up its counts as doubles: its array has fewer than 2^53 values and bytes. -/
theorem traffic_of_gap {opts' : QueryOptions} {m' : List UInt8 × ℕ × ℕ} (hst : setup a opts = .ok st)
    (hst' : setup a opts' = .ok st) (hm : (readMeta E a opts st).Returns (· = m))
    (hm' : (readMeta E a opts' st).Returns (· = m')) (hzm : m'.1 = m.1)
    (hpipe : ∀ mo, st.pipelined opts = some mo ∨ st.pipelined opts' = some mo → FixesIntegers E.fl ∧
      64 * st.lt.planArgs.totalBlocks < 2 ^ 53 ∧ st.lt.planArgs.totalBlocks * blockBytes st.rate < 2 ^ 53)
    (hgap : opts.mergeGapBlocks ≤ opts'.mergeGapBlocks)
    {r r' : QueryResult} (h : (queryAsync E a lo hi opts).Reachable (.returned (.ok r)))
    (h' : (queryAsync E a lo hi opts').Reachable (.returned (.ok r'))) :
    (r.payloadRequests ≤ r.maybeBlocks ∧
      r.payloadBytesRead ≤ st.lt.planArgs.totalBlocks * blockBytes st.rate) ∧
    ((r.payloadBytesRead : ℤ) = r.maybeBlocks * blockBytes st.rate + r.payloadOverreadBytes ∧
      0 ≤ r.payloadOverreadBytes ∧ r.payloadOverreadBytes ≤
        ((opts.mergeGapBlocks * (r.maybeBlocks - r.payloadRequests) * blockBytes st.rate : ℕ) : ℤ)) ∧
    counts r' = counts r ∧
    (opts'.mergeGapBlocks + 2 ^ 32 < 2 ^ 64 →
      r'.payloadRequests ≤ r.payloadRequests ∧ r.payloadBytesRead ≤ r'.payloadBytesRead) := by
  obtain ⟨htraffic, hcounts⟩ := traffic_returned hchunk hkeys hfits h0 hst hm
    (fun mo hmo => hpipe mo (Or.inl hmo)) h
  obtain ⟨htraffic', hcounts'⟩ := traffic_returned hchunk hkeys hfits h0 hst' hm'
    (fun mo hmo => hpipe mo (Or.inr hmo)) h'
  have hids : (plannedOf E a lo hi opts' st m').ids = (plannedOf E a lo hi opts st m).ids := by
    unfold plannedOf
    dsimp only
    rw [hzm]
  rw [hids] at htraffic'
  have hs : (plannedOf E a lo hi opts st m).ids.Pairwise IdLt := pairwise_maybeIds
  have h32 : ∀ id ∈ (plannedOf E a lo hi opts st m).ids, id.2 < 2 ^ 32 := lt_of_mem_maybeIds hfits
  have hsaved := htraffic.saved
  have hover := htraffic.overread_eq hs
  refine ⟨⟨by omega, ?_⟩, ⟨?_, ?_, ?_⟩, ?_, fun hwrap => ?_⟩
  · rw [htraffic.bytes]
    exact sum_groupBytes_le _ _
  · rw [htraffic.overread, htraffic.useful, htraffic.maybeBlocks]
    push_cast
    ring
  · rw [hover]
    exact Int.natCast_nonneg _
  · rw [hover, ← hsaved, Nat.add_sub_cancel_left]
    exact_mod_cast Nat.mul_le_mul_right _ ((joined_le (fun x y h => between_le h) _).trans
      (Nat.mul_le_mul_right _ (Nat.mod_le _ _)))
  · rw [hcounts, hcounts', storedCounts_eq, storedCounts_eq, hzm]
  · refine htraffic.mono hs htraffic' ?_ fun id hid => ?_
    · rw [Nat.mod_eq_of_lt (by omega), Nat.mod_eq_of_lt (by omega)]
      exact hgap
    · have := h32 id hid
      have := Nat.mod_le opts'.mergeGapBlocks (2 ^ 64)
      omega

end Queries

/-! ### Two blocks -/

def optionsGap : QueryOptions := { optionsPipelined with mergeGapBlocks := 2 }

theorem setup_gap : setup arrayOfTwo optionsGap = .ok setupOfTwo := setup_ofTwo

theorem readMeta_gap : (readMeta envOfTwo arrayOfTwo optionsGap setupOfTwo).Returns
    (· = (zonesOfTwo, 28, 1)) := readMeta_two

theorem exists_gap : ∃ r, (queryAsync envOfTwo arrayOfTwo (.fin (-1)) .pinf optionsGap).Reachable
    (.returned (.ok r)) := by
  obtain ⟨r, hr, -⟩ := exists_of_always (always_stored chunkShape_oneLayer setup_gap
    distinct_two (by decide +kernel) readMeta_gap (fun _ _ => ⟨fun n _ => rfl, by decide +kernel⟩)
    (allIn_two (.fin (-1)) .pinf) fun h => absurd h (lt_irrefl 0))
  exact ⟨r, hr⟩

/-- Gaps of one and of two blocks. -/
theorem traffic_of_gap_two : ∃ r r',
    (queryAsync envOfTwo arrayOfTwo (.fin (-1)) .pinf optionsPipelined).Reachable (.returned (.ok r)) ∧
      (queryAsync envOfTwo arrayOfTwo (.fin (-1)) .pinf optionsGap).Reachable (.returned (.ok r')) ∧
      counts r' = counts r ∧ r'.payloadRequests ≤ r.payloadRequests ∧
        r.payloadBytesRead ≤ r'.payloadBytesRead ∧ 0 ≤ r.payloadOverreadBytes := by
  obtain ⟨r, hr⟩ := exists_returned (.fin (-1)) .pinf
  obtain ⟨r', hr'⟩ := exists_gap
  have hsmall : 64 * setupOfTwo.lt.planArgs.totalBlocks < 2 ^ 53 ∧
      setupOfTwo.lt.planArgs.totalBlocks * blockBytes setupOfTwo.rate < 2 ^ 53 := by decide +kernel
  have h := traffic_of_gap chunkShape_oneLayer distinct_two (by decide +kernel) rfl setup_pipelined
    setup_gap readMeta_two readMeta_gap rfl (fun _ _ => ⟨fun n _ => rfl, hsmall⟩) (by decide)
    hr hr'
  obtain ⟨hrequests, hbytes⟩ := h.2.2.2 (by decide)
  exact ⟨r, r', hr, hr', h.2.2.1, hrequests, hbytes, h.2.1.2.1⟩

end SkipZFP.Query.Cost
