import SkipZFP.Read.Stream

/-! # What merged reads cover

`Covers` says that reads are those of some sorted ids: their items are the ids from the first to the last,
each read has the bytes of its blocks, and the reads of a chunk follow one another. `mergeRanges_covers`:
**merged reads cover exactly the blocks they are for**, whatever the order of the ids.

* `pairwise_sortIds`: the ids are sorted, unless they are already.
* `covers_readsOf`: the reads of the groups cover them.
* `length_group_le`, `length_group_eq`: the blocks read for a group are at least its ids, and no others
  without a gap. -/

namespace SkipZFP.Read.Cover

open SkipZFP.Lib.Rows SkipZFP.Plan.Blocks SkipZFP.Read.Merge SkipZFP.Read.Stream

/-! ### Sorting -/

instance total_idLe : Std.Total idLe where
  total a b := by unfold idLe; omega

instance isTrans_idLe : IsTrans (ℕ × ℕ) idLe where
  trans a b c hab hbc := by unfold idLe at *; omega

/-- **The ids in chunk order**, if no id comes twice and all are of 32 bits. -/
theorem pairwise_sortIds {ids : List (ℕ × ℕ)} (hnd : ids.Nodup) (h32 : ∀ id ∈ ids, id.2 < 2 ^ 32) :
    (sortIds ids).Pairwise IdLt := by
  unfold sortIds
  split_ifs with hchain
  · have hlt : ids.Pairwise fun a b => idKey a < idKey b :=
      (List.isChain_iff_pairwise (R := fun a b => idKey a < idKey b)).mp hchain
    refine hlt.imp_of_mem fun {a b} ha hb hab => ?_
    have h1 := h32 a ha
    have h2 := h32 b hb
    unfold idKey at hab
    unfold IdLt
    omega
  · have hle : (ids.insertionSort idLe).Pairwise idLe := List.pairwise_insertionSort _ _
    have hne : (ids.insertionSort idLe).Nodup := (List.perm_insertionSort _ _).nodup_iff.mpr hnd
    refine (hle.and hne).imp fun {a b} hab => ?_
    obtain ⟨hle, hne⟩ := hab
    unfold idLe at hle
    unfold IdLt
    have : a.1 ≠ b.1 ∨ a.2 ≠ b.2 := by
      by_contra h
      push Not at h
      exact hne (Prod.ext h.1 h.2)
    omega

/-! ### The ids of a group -/

theorem length_le_of_isChain : ∀ (a : ℕ × ℕ) (g : List (ℕ × ℕ)),
    (a :: g).IsChain (fun a b => a.2 < b.2) → a.2 + (a :: g).length ≤ ((a :: g).getLastD (0, 0)).2 + 1
  | a, [], _ => le_rfl
  | a, b :: g, h => by
    obtain ⟨hab, hchain⟩ := List.isChain_cons_cons.mp h
    have ih := length_le_of_isChain b g hchain
    rw [List.length_cons] at ih ⊢
    show a.2 + (g.length + 1 + 1) ≤ ((b :: g).getLastD (0, 0)).2 + 1
    omega

theorem length_eq_of_isChain : ∀ (a : ℕ × ℕ) (g : List (ℕ × ℕ)),
    (a :: g).IsChain (fun a b => b.2 = a.2 + 1) →
      a.2 + (a :: g).length = ((a :: g).getLastD (0, 0)).2 + 1
  | a, [], _ => rfl
  | a, b :: g, h => by
    obtain ⟨hab, hchain⟩ := List.isChain_cons_cons.mp h
    have ih := length_eq_of_isChain b g hchain
    rw [List.length_cons] at ih ⊢
    show a.2 + (g.length + 1 + 1) = ((b :: g).getLastD (0, 0)).2 + 1
    omega

section Group
variable {gap : ℕ} {ids g : List (ℕ × ℕ)} (hs : ids.Pairwise IdLt) (hg : g ∈ groups gap ids)
include hs hg

theorem pairwise_group : g.Pairwise IdLt := by
  have hsub := List.sublist_flatten_of_mem hg
  rw [flatten_groups] at hsub
  exact hs.sublist hsub

/-- Within a group an id joins the one before it and is greater. -/
theorem isChain_group : g.IsChain fun a b => a.2 < b.2 ∧ b.2 ≤ (a.2 + gap + 1) % 2 ^ 64 := by
  have hjoin := List.isChain_iff_getElem.mp (List.isChain_of_mem_splitBy hg)
  have hlt := List.isChain_iff_getElem.mp (pairwise_group hs hg).isChain
  refine List.isChain_iff_getElem.mpr fun i hi => ?_
  obtain ⟨hc, hle⟩ := of_decide_eq_true (hjoin i hi)
  have := hlt i hi
  unfold IdLt at this
  omega

/-- **The blocks read for a group are at least its ids.** -/
theorem length_group_le : g.length ≤ (g.getLastD (0, 0)).2 + 1 - (g.headD (0, 0)).2 := by
  have hchain := (isChain_group hs hg).imp fun {a b} h => h.1
  cases g with
  | nil => exact Nat.zero_le _
  | cons a g =>
    have := length_le_of_isChain a g hchain
    rw [List.headD_cons]
    omega

/-- **Without a gap they are its ids.** -/
theorem length_group_eq (h0 : gap = 0) (h32 : ∀ id ∈ ids, id.2 < 2 ^ 32) :
    g.length = (g.getLastD (0, 0)).2 + 1 - (g.headD (0, 0)).2 := by
  have hmem := (mem_group hg).1
  have hchain : g.IsChain fun a b => b.2 = a.2 + 1 :=
    (isChain_group hs hg).imp_of_mem_imp fun {a b} ha hb h => by
      have := h32 a (hmem a ha)
      omega
  cases g with
  | nil => exact absurd rfl (List.ne_nil_of_mem_splitBy hg)
  | cons a g =>
    have := length_eq_of_isChain a g hchain
    rw [List.headD_cons]
    omega

end Group

/-! ### The reads of the groups -/

section Reads
variable {κ : Type*} (keys : ℕ → κ) (blockSize base : ℕ)

/-- The ids of the groups before group `j`. -/
def startOf (gs : List (List (ℕ × ℕ))) (j : ℕ) : ℕ := ((gs.take j).map List.length).sum

theorem startOf_succ (gs : List (List (ℕ × ℕ))) {j : ℕ} (hj : j < gs.length) :
    startOf gs (j + 1) = startOf gs j + gs[j].length := by
  unfold startOf
  rw [List.take_succ_eq_append_getElem hj, List.map_append, List.sum_append]
  rfl

theorem startOf_length (gs : List (List (ℕ × ℕ))) : startOf gs gs.length = gs.flatten.length := by
  unfold startOf
  rw [List.take_length, List.length_flatten]

/-- Read `j` is that of group `j`, whose ids come behind those of the groups before it. -/
theorem getElem?_readsOf : ∀ (i : ℕ) (gs : List (List (ℕ × ℕ))) (j : ℕ),
    (readsOf keys blockSize base i gs)[j]? =
      gs[j]?.map (groupRead keys blockSize base (i + startOf gs j))
  | _, [], _ => rfl
  | _, _ :: _, 0 => rfl
  | i, g :: gs, j + 1 => by
    have ih := getElem?_readsOf (i + g.length) gs j
    rw [Nat.add_assoc] at ih
    exact ih

variable {keys blockSize base} in
theorem read_spec {gs : List (List (ℕ × ℕ))} {j : ℕ} {r : MergedRange κ}
    (h : (readsOf keys blockSize base 0 gs)[j]? = some r) :
    ∃ hj : j < gs.length, r = groupRead keys blockSize base (startOf gs j) gs[j] ∧
      slice gs.flatten r.itemStart r.itemEnd = gs[j] := by
  rw [getElem?_readsOf, Nat.zero_add, Option.map_eq_some_iff] at h
  obtain ⟨g, hg, rfl⟩ := h
  obtain ⟨hj, rfl⟩ := List.getElem?_eq_some_iff.mp hg
  exact ⟨hj, rfl, slice_flatten gs j hj⟩

/-- **Reads that cover sorted ids.** Their items are the ids, in order and each once; an item is of the
read's chunk, and the bytes read have the block of the item where its row is; the reads of a chunk are
disjoint and increasing. The bounds of `inside` are those that `szfp_count_offsets_range` checks. -/
structure Covers (sorted : List (ℕ × ℕ)) (reads : List (MergedRange κ)) : Prop where
  first : ∀ r ∈ reads.head?, r.itemStart = 0
  next : reads.IsChain fun r r' => r.itemEnd = r'.itemStart
  last : ∀ r ∈ reads.getLast?, r.itemEnd = sorted.length
  nonempty : ∀ r ∈ reads, r.itemStart < r.itemEnd
  items : (reads.map fun r => slice sorted r.itemStart r.itemEnd).flatten = sorted
  chunk : ∀ r ∈ reads, ∀ id ∈ slice sorted r.itemStart r.itemEnd, r.key = keys id.1
  bytes : ∀ r ∈ reads, ∀ id ∈ slice sorted r.itemStart r.itemEnd, r.firstBlock ≤ id.2 ∧
    ∀ obj : List UInt8, slice (slice obj r.start r.stop) ((id.2 - r.firstBlock) * blockSize)
      ((id.2 - r.firstBlock) * blockSize + blockSize) =
        slice obj (base + id.2 * blockSize) (base + (id.2 + 1) * blockSize)
  inside : ∀ r ∈ reads, ∀ id ∈ slice sorted r.itemStart r.itemEnd,
    ¬ (r.stop - r.start < (id.2 - r.firstBlock) * blockSize ∨
      r.stop - r.start - (id.2 - r.firstBlock) * blockSize < blockSize)
  increasing : reads.Pairwise fun r r' => ∀ id ∈ slice sorted r.itemStart r.itemEnd,
    ∀ id' ∈ slice sorted r'.itemStart r'.itemEnd, id.1 = id'.1 → r.stop ≤ r'.start

/-- The rows of a group are inside its read. -/
theorem row_end_le {g : List (ℕ × ℕ)} {id : ℕ × ℕ} (h1 : (g.headD (0, 0)).2 ≤ id.2)
    (h2 : id.2 ≤ (g.getLastD (0, 0)).2) :
    (id.2 - (g.headD (0, 0)).2) * blockSize + (g.headD (0, 0)).2 * blockSize = id.2 * blockSize ∧
      id.2 * blockSize + blockSize ≤ ((g.getLastD (0, 0)).2 + 1) * blockSize := by
  constructor
  · rw [← Nat.add_mul, Nat.sub_add_cancel h1]
  · rw [← Nat.succ_mul]
    exact Nat.mul_le_mul_right _ (by omega)

section Covers
variable {sorted : List (ℕ × ℕ)} (gap : ℕ)

theorem group_of_read {r : MergedRange κ} (hr : r ∈ readsOf keys blockSize base 0 (groups gap sorted)) :
    ∃ g ∈ groups gap sorted, ∃ n, r = groupRead keys blockSize base n g ∧
      slice sorted r.itemStart r.itemEnd = g := by
  obtain ⟨j, hj⟩ := List.getElem?_of_mem hr
  obtain ⟨hlt, hread, hitems⟩ := read_spec hj
  rw [flatten_groups] at hitems
  exact ⟨_, List.getElem_mem hlt, _, hread, hitems⟩

theorem map_items_readsOf : (readsOf keys blockSize base 0 (groups gap sorted)).map
    (fun r => slice sorted r.itemStart r.itemEnd) = groups gap sorted := by
  refine List.ext_getElem? fun j => ?_
  rw [List.getElem?_map]
  cases hr : (readsOf keys blockSize base 0 (groups gap sorted))[j]? with
  | none =>
    rw [List.getElem?_eq_none_iff, length_readsOf] at hr
    exact (List.getElem?_eq_none hr).symm
  | some r =>
    obtain ⟨hj, -, hitems⟩ := read_spec hr
    rw [flatten_groups] at hitems
    rw [Option.map_some, hitems, List.getElem?_eq_getElem hj]

/-- One read ends where the next begins. -/
theorem isChain_readsOf : (readsOf keys blockSize base 0 (groups gap sorted)).IsChain
    fun r r' => r.itemEnd = r'.itemStart := by
  refine List.isChain_iff_getElem.mpr fun j hj => ?_
  obtain ⟨hlt, hr, -⟩ := read_spec (List.getElem?_eq_getElem (Nat.lt_of_succ_lt hj))
  obtain ⟨_, hr', -⟩ := read_spec (List.getElem?_eq_getElem hj)
  rw [hr, hr']
  exact (startOf_succ _ hlt).symm

theorem itemEnd_getLast {r : MergedRange κ}
    (hr : (readsOf keys blockSize base 0 (groups gap sorted)).getLast? = some r) :
    r.itemEnd = sorted.length := by
  rw [List.getLast?_eq_getElem?, length_readsOf] at hr
  obtain ⟨hlt, rfl, -⟩ := read_spec hr
  have h := startOf_succ _ hlt
  rw [Nat.sub_add_cancel (by omega), startOf_length, flatten_groups] at h
  exact h.symm

variable {gap} in
/-- The reads of a chunk do not overlap. -/
theorem stop_le_start (hs : sorted.Pairwise IdLt) {g g' : List (ℕ × ℕ)} (hg : g ∈ groups gap sorted)
    (hg' : g' ∈ groups gap sorted) (hlt : ∀ id ∈ g, ∀ id' ∈ g', IdLt id id') {n n' : ℕ} :
    ∀ id ∈ g, ∀ id' ∈ g', id.1 = id'.1 →
      (groupRead keys blockSize base n g).stop ≤ (groupRead keys blockSize base n' g').start := by
  intro id hid id' hid' hchunk
  have hlast := (mem_group hg).2.2
  have hhead := (mem_group hg').2.1
  have h := hlt _ hlast _ hhead
  have h1 := (joins_group hs hg id hid).1
  have h2 := (joins_group hs hg _ hlast).1
  have h3 := (joins_group hs hg' id' hid').1
  refine Nat.add_le_add_left (Nat.mul_le_mul_right _ ?_) _
  unfold IdLt at h
  omega

variable {gap} in
/-- **The reads of the groups cover the ids.** -/
theorem covers_readsOf (hs : sorted.Pairwise IdLt) :
    Covers keys blockSize base sorted (readsOf keys blockSize base 0 (groups gap sorted)) where
  first r hr := by
    rw [Option.mem_def, List.head?_eq_getElem?] at hr
    obtain ⟨-, rfl, -⟩ := read_spec hr
    rfl
  next := isChain_readsOf keys blockSize base gap
  last r hr := itemEnd_getLast keys blockSize base gap hr
  nonempty r hr := by
    obtain ⟨g, hg, n, rfl, -⟩ := group_of_read keys blockSize base gap hr
    have := List.length_pos_iff.mpr (List.ne_nil_of_mem_splitBy hg)
    simp only [groupRead]
    omega
  items := by rw [map_items_readsOf, flatten_groups]
  chunk r hr id hid := by
    obtain ⟨g, hg, n, rfl, hslice⟩ := group_of_read keys blockSize base gap hr
    rw [hslice] at hid
    exact congrArg keys (joins_group hs hg id hid).1.symm
  bytes r hr id hid := by
    obtain ⟨g, hg, n, rfl, hslice⟩ := group_of_read keys blockSize base gap hr
    rw [hslice] at hid
    obtain ⟨-, h1, h2⟩ := joins_group hs hg id hid
    obtain ⟨h3, h4⟩ := row_end_le blockSize h1 h2
    refine ⟨h1, fun obj => ?_⟩
    simp only [groupRead]
    rw [slice_slice _ (by omega), Nat.succ_mul]
    congr 1 <;> omega
  inside r hr id hid := by
    obtain ⟨g, hg, n, rfl, hslice⟩ := group_of_read keys blockSize base gap hr
    rw [hslice] at hid
    obtain ⟨-, h1, h2⟩ := joins_group hs hg id hid
    obtain ⟨h3, h4⟩ := row_end_le blockSize h1 h2
    simp only [groupRead]
    omega
  increasing := by
    have hpair := hs
    rw [← flatten_groups gap sorted, List.pairwise_flatten] at hpair
    refine List.pairwise_iff_getElem.mpr fun j j' hj hj' hlt => ?_
    obtain ⟨hk, hr, hitems⟩ := read_spec (List.getElem?_eq_getElem hj)
    obtain ⟨hk', hr', hitems'⟩ := read_spec (List.getElem?_eq_getElem hj')
    rw [flatten_groups] at hitems hitems'
    rw [hitems, hitems', hr, hr']
    exact stop_le_start keys blockSize base hs (List.getElem_mem hk) (List.getElem_mem hk')
      (List.pairwise_iff_getElem.mp hpair.2 j j' hk hk' hlt)

/-! ### The bytes read -/

theorem bytes_readsOf : ∀ (i : ℕ) (gs : List (List (ℕ × ℕ))),
    ((readsOf keys blockSize base i gs).map fun r => r.stop - r.start).sum =
      (gs.map (groupBytes blockSize)).sum
  | _, [] => rfl
  | i, g :: gs => by
    rw [readsOf, List.map_cons, List.sum_cons, size_groupRead, bytes_readsOf _ gs, List.map_cons,
      List.sum_cons]

theorem sum_length_groups (ids : List (ℕ × ℕ)) :
    ids.length * blockSize = ((groups gap ids).map fun g => g.length * blockSize).sum := by
  rw [List.sum_map_mul_right]
  conv_lhs => rw [← flatten_groups gap ids, List.length_flatten]

/-- **Merged reads cover exactly the blocks they are for.** For ids of 32 bits in any order, none twice:
the reads cover the sorted ids, they read at least the bytes of the blocks, and no others where the
merged gap is zero. -/
theorem mergeRanges_covers {ids : List (ℕ × ℕ)} (hnd : ids.Nodup) (h32 : ∀ id ∈ ids, id.2 < 2 ^ 32) :
    ∃ reads sorted, mergeRanges keys ids blockSize gap base = .ok (reads, sorted.map Prod.snd) ∧
      sorted.Perm ids ∧ sorted.Pairwise IdLt ∧ Covers keys blockSize base sorted reads ∧
      ids.length * blockSize ≤ (reads.map fun r => r.stop - r.start).sum ∧
      (gap = 0 → ids.length * blockSize = (reads.map fun r => r.stop - r.start).sum) := by
  have hperm := perm_sortIds ids
  have hs := pairwise_sortIds hnd h32
  have h32' : ∀ id ∈ sortIds ids, id.2 < 2 ^ 32 := fun id hid => h32 id (hperm.mem_iff.mp hid)
  refine ⟨_, sortIds ids, mergeRanges_sorted keys blockSize gap base hs, hperm, hs,
    covers_readsOf keys blockSize base hs, ?_, fun h0 => ?_⟩
  · rw [bytes_readsOf, ← hperm.length_eq, sum_length_groups blockSize (gap % 2 ^ 64)]
    refine List.sum_le_sum fun g hg => ?_
    exact Nat.mul_le_mul_right _ (length_group_le hs hg)
  · subst h0
    rw [bytes_readsOf, ← hperm.length_eq, sum_length_groups blockSize (0 % 2 ^ 64)]
    refine congrArg List.sum (List.map_congr_left fun g hg => ?_)
    rw [groupBytes, length_group_eq hs hg rfl h32']

end Covers

end Reads

/-- Reads of three chunks, of blocks of four bytes from byte eight on, with a gap of one. -/
theorem mergeRanges_covers_ofThree : ∃ reads sorted,
    mergeRanges id [(2, 7), (0, 3), (0, 1), (1, 1), (0, 6)] 4 1 8 = .ok (reads, sorted.map Prod.snd) ∧
      sorted.Perm [(2, 7), (0, 3), (0, 1), (1, 1), (0, 6)] ∧ sorted.Pairwise IdLt ∧
      Covers id 4 8 sorted reads ∧ 20 ≤ (reads.map fun r => r.stop - r.start).sum := by
  obtain ⟨reads, sorted, h, hperm, hsorted, hcovers, hbytes, -⟩ := mergeRanges_covers id 4 8 1
    (by decide : [(2, 7), (0, 3), (0, 1), (1, 1), (0, 6)].Nodup) (by decide)
  exact ⟨reads, sorted, h, hperm, hsorted, hcovers, hbytes⟩

end SkipZFP.Read.Cover
