import Mathlib.Data.List.SplitBy
import SkipZFP.Plan.Blocks

/-! # Merging reads

`szfpMergeRanges` is the C function that groups sorted ids into runs that can share one read, skipping
at most `gap` blocks between two of them; `mergeRanges` makes byte ranges of the runs. A run is what
`List.splitBy` makes of the ids, where an id `joins` the one before it.

* `szfpMergeRanges_eq` and `mergeRanges_eq`: for increasing ids the reads are those of the groups, in
  order, each group with its own ids (`readsOf`).
* `joins_group`: within a group all ids have one chunk and increasing blocks.
* `readsOf_append`: ids of later chunks merge on their own. -/

namespace SkipZFP.Read.Merge

open SkipZFP.Lib.Rows SkipZFP.Plan.Blocks

/-- Ids `(chunk, block)` in the planner's order. -/
def IdLt (a b : ℕ × ℕ) : Prop := a.1 < b.1 ∨ (a.1 = b.1 ∧ a.2 < b.2)

instance (a b : ℕ × ℕ) : Decidable (IdLt a b) := by unfold IdLt; infer_instance

/-- A run of ids: its chunk, first and last block and the index of its first id. -/
structure Run where
  chunk : ℕ
  first : ℕ
  last : ℕ
  item : ℕ
deriving DecidableEq

/-- Does the id `b` join a run that ends at `a`? The sum wraps as a `uint64_t`. -/
def joins (gap : ℕ) (a b : ℕ × ℕ) : Bool := a.1 = b.1 ∧ b.2 ≤ (a.2 + gap + 1) % 2 ^ 64

/-- The loop of `szfp_merge_ranges` at id `i`, after the id `prev`, with the run `cur` open. -/
def mergeFrom (gap : ℕ) : ℕ → ℕ × ℕ → Run → List (ℕ × ℕ) → Except SzError (List Run)
  | _, _, cur, [] => .ok [cur]
  | i, prev, cur, id :: ids =>
    if id.1 < prev.1 ∨ (id.1 = prev.1 ∧ id.2 ≤ prev.2) then .error .SZ_ERR_ARG
    else if id.1 = cur.chunk ∧ id.2 ≤ (cur.last + gap + 1) % 2 ^ 64 then
      mergeFrom gap (i + 1) id { cur with last := id.2 } ids
    else
      match mergeFrom gap (i + 1) id ⟨id.1, id.2, id.2, i⟩ ids with
      | .error e => .error e
      | .ok runs => .ok (cur :: runs)

/-- **`szfp_merge_ranges`**. -/
def szfpMergeRanges (gap : ℕ) : List (ℕ × ℕ) → Except SzError (List Run)
  | [] => .ok []
  | id :: ids => mergeFrom gap 1 id ⟨id.1, id.2, id.2, 0⟩ ids

/-- `_MergedRange`: bytes `start` to `stop` of the object `key`, for the ids `itemStart` to
`itemEnd - 1`. -/
structure MergedRange (κ : Type*) where
  key : κ
  start : ℕ
  stop : ℕ
  firstBlock : ℕ
  itemStart : ℕ
  itemEnd : ℕ
deriving DecidableEq

/-- `(chunk << 32) | block`. -/
def idKey (a : ℕ × ℕ) : ℕ := a.1 * 2 ^ 32 + a.2

/-- The order `np.lexsort` sorts by. -/
def idLe (a b : ℕ × ℕ) : Prop := a.1 < b.1 ∨ (a.1 = b.1 ∧ a.2 ≤ b.2)

instance : DecidableRel idLe := fun a b => by unfold idLe; infer_instance

/-- The ids in chunk order. -/
def sortIds (ids : List (ℕ × ℕ)) : List (ℕ × ℕ) :=
  if ids.IsChain fun a b => idKey a < idKey b then ids else ids.insertionSort idLe

theorem perm_sortIds (ids : List (ℕ × ℕ)) : (sortIds ids).Perm ids := by
  unfold sortIds
  split_ifs
  · exact .rfl
  · exact List.perm_insertionSort _ _

section Ranges
variable {κ : Type*} (keys : ℕ → κ)

/-- **`merge_ranges`**: the reads of one layer that starts at byte `base` of each chunk, and the block
ids in chunk order. `gap` reaches the C function as a `size_t`. -/
def mergeRanges (ids : List (ℕ × ℕ)) (blockSize gap base : ℕ) :
    Except SzError (List (MergedRange κ) × List ℕ) :=
  if ids = [] then .ok ([], [])
  else
    let sorted := sortIds ids
    match szfpMergeRanges (gap % 2 ^ 64) sorted with
    | .error e => .error e
    | .ok runs =>
      let itemEnd := (runs.tail.map Run.item) ++ [ids.length]
      .ok ((runs.zip itemEnd).map fun r =>
        { key := keys r.1.chunk
          start := base + r.1.first * blockSize
          stop := base + (r.1.last + 1) * blockSize
          firstBlock := r.1.first
          itemStart := r.1.item
          itemEnd := r.2 }, sorted.map Prod.snd)

/-! ### The runs are the groups -/

/-- The ids that share a read. -/
def groups (gap : ℕ) (ids : List (ℕ × ℕ)) : List (List (ℕ × ℕ)) := ids.splitBy (joins gap)

/-- The run of a group whose first id has index `i`. -/
def runOf (i : ℕ) (g : List (ℕ × ℕ)) : Run :=
  ⟨(g.headD (0, 0)).1, (g.headD (0, 0)).2, (g.getLastD (0, 0)).2, i⟩

/-- The runs of groups whose first id has index `i`. -/
def runsOf : ℕ → List (List (ℕ × ℕ)) → List Run
  | _, [] => []
  | i, g :: gs => runOf i g :: runsOf (i + g.length) gs

/-- The groups closed before do not matter to the loop of `splitBy`. -/
theorem splitByLoop_eq {α : Type*} (r : α → α → Bool) : ∀ (l : List α) (a : α) (g : List α)
    (gs : List (List α)),
      List.splitBy.loop r l a g gs = gs.reverse ++ List.splitBy.loop r l a g []
  | [], a, g, gs => by simp [List.splitBy.loop]
  | b :: l, a, g, gs => by
    unfold List.splitBy.loop
    cases r a b with
    | true => exact splitByLoop_eq r l b (a :: g) gs
    | false =>
      dsimp only
      rw [splitByLoop_eq r l b [] (_ :: gs), splitByLoop_eq r l b [] [_]]
      simp

/-- **One step of the loop**: with a run open for the ids `g.reverse ++ [a]`, the rest of the loop makes
the runs of the groups that start with these ids. -/
theorem mergeFrom_eq (gap : ℕ) : ∀ (l : List (ℕ × ℕ)) (a : ℕ × ℕ) (g : List (ℕ × ℕ)) (i : ℕ)
    (cur : Run), cur = runOf i (g.reverse ++ [a]) → cur.chunk = a.1 →
      (a :: l).Pairwise IdLt → mergeFrom gap (i + g.length + 1) a cur l =
        .ok (runsOf i (List.splitBy.loop (joins gap) l a g []))
  | [], a, g, i, cur, hcur, _, _ => by
    simp [mergeFrom, List.splitBy.loop, runsOf, hcur]
  | b :: l, a, g, i, cur, hcur, hch, hs => by
    obtain ⟨hab, hs'⟩ := List.pairwise_cons.mp hs
    have hlt := hab b List.mem_cons_self
    have hlast : cur.last = a.2 := by rw [hcur]; simp [runOf]
    have hsort : ¬ (b.1 < a.1 ∨ (b.1 = a.1 ∧ b.2 ≤ a.2)) := by
      unfold IdLt at hlt; omega
    unfold mergeFrom List.splitBy.loop
    rw [if_neg hsort, hch, hlast]
    by_cases hj : b.1 = a.1 ∧ b.2 ≤ (a.2 + gap + 1) % 2 ^ 64
    · have hjoin : joins gap a b = true := decide_eq_true ⟨hj.1.symm, hj.2⟩
      rw [if_pos hj, hjoin]
      have ih := mergeFrom_eq gap l b (a :: g) i { cur with last := b.2 }
        (by rw [hcur]; simp [runOf]) (by rw [hj.1]; exact hch) hs'
      rwa [List.length_cons, ← Nat.add_assoc, hch] at ih
    · have hjoin : joins gap a b = false := decide_eq_false fun h => hj ⟨h.1.symm, h.2⟩
      rw [if_neg hj, hjoin]
      have ih := mergeFrom_eq gap l b [] (i + (g.length + 1)) ⟨b.1, b.2, b.2, i + g.length + 1⟩
        (by simp [runOf, Nat.add_assoc]) rfl hs'
      simp only [List.length_nil, Nat.add_zero] at ih
      rw [← Nat.add_assoc] at ih
      rw [ih]
      dsimp only
      rw [splitByLoop_eq _ _ _ _ [_], hcur]
      simp [runsOf, Nat.add_assoc]

/-- **`szfp_merge_ranges` makes the runs of the groups.** -/
theorem szfpMergeRanges_eq (gap : ℕ) {ids : List (ℕ × ℕ)} (hs : ids.Pairwise IdLt) :
    szfpMergeRanges gap ids = .ok (runsOf 0 (groups gap ids)) := by
  cases ids with
  | nil => rfl
  | cons a l => exact mergeFrom_eq gap l a [] 0 _ rfl rfl hs

/-! ### The reads -/

/-- The read of a group whose first id has index `i`. -/
def groupRead (blockSize base i : ℕ) (g : List (ℕ × ℕ)) : MergedRange κ where
  key := keys (g.headD (0, 0)).1
  start := base + (g.headD (0, 0)).2 * blockSize
  stop := base + ((g.getLastD (0, 0)).2 + 1) * blockSize
  firstBlock := (g.headD (0, 0)).2
  itemStart := i
  itemEnd := i + g.length

/-- The reads of groups whose first id has index `i`. -/
def readsOf (blockSize base : ℕ) : ℕ → List (List (ℕ × ℕ)) → List (MergedRange κ)
  | _, [] => []
  | i, g :: gs => groupRead keys blockSize base i g :: readsOf blockSize base (i + g.length) gs

theorem length_readsOf (blockSize base : ℕ) : ∀ (i : ℕ) (gs : List (List (ℕ × ℕ))),
    (readsOf keys blockSize base i gs).length = gs.length
  | _, [] => rfl
  | _, _ :: gs => congrArg (· + 1) (length_readsOf blockSize base _ gs)

theorem zip_runsOf (blockSize base : ℕ) : ∀ (i n : ℕ) (gs : List (List (ℕ × ℕ))),
    i + gs.flatten.length = n → (((runsOf i gs).zip (((runsOf i gs).tail.map Run.item) ++ [n])).map
      fun r => ({ key := keys r.1.chunk
                  start := base + r.1.first * blockSize
                  stop := base + (r.1.last + 1) * blockSize
                  firstBlock := r.1.first
                  itemStart := r.1.item
                  itemEnd := r.2 } : MergedRange κ)) = readsOf keys blockSize base i gs
  | _, _, [], _ => rfl
  | i, n, [g], h => by
    have hn : n = i + g.length := by simpa using h.symm
    subst hn
    rfl
  | i, n, g :: g' :: gs, h => by
    have ih := zip_runsOf blockSize base (i + g.length) n (g' :: gs) (by
      simp only [List.flatten_cons, List.length_append] at h ⊢; omega)
    rw [readsOf, ← ih]
    rfl

theorem isChain_idKey {ids : List (ℕ × ℕ)} (hs : ids.Pairwise IdLt) (h32 : ∀ a ∈ ids, a.2 < 2 ^ 32) :
    ids.IsChain fun a b => idKey a < idKey b := by
  refine List.Pairwise.isChain (hs.imp_of_mem fun {a b} ha hb hab => ?_)
  have := h32 a ha
  unfold idKey
  rcases hab with h | ⟨h1, h2⟩
  · have : (a.1 + 1) * 2 ^ 32 ≤ b.1 * 2 ^ 32 := Nat.mul_le_mul_right _ h
    omega
  · omega

theorem sortIds_eq {ids : List (ℕ × ℕ)} (hs : ids.Pairwise IdLt) (h32 : ∀ a ∈ ids, a.2 < 2 ^ 32) :
    sortIds ids = ids := if_pos (isChain_idKey hs h32)

/-- **`merge_ranges` reads the groups** of the ids in chunk order. -/
theorem mergeRanges_sorted {ids : List (ℕ × ℕ)} (blockSize gap base : ℕ)
    (hs : (sortIds ids).Pairwise IdLt) : mergeRanges keys ids blockSize gap base =
      .ok (readsOf keys blockSize base 0 (groups (gap % 2 ^ 64) (sortIds ids)),
        (sortIds ids).map Prod.snd) := by
  unfold mergeRanges
  dsimp only
  rw [szfpMergeRanges_eq _ hs]
  split_ifs with h0
  · subst h0; rfl
  · dsimp only
    rw [zip_runsOf]
    rw [groups, List.flatten_splitBy, Nat.zero_add, (perm_sortIds ids).length_eq]

/-- Increasing ids of 32 bits are in chunk order. -/
theorem mergeRanges_eq {ids : List (ℕ × ℕ)} (hs : ids.Pairwise IdLt) (h32 : ∀ a ∈ ids, a.2 < 2 ^ 32)
    (blockSize gap base : ℕ) : mergeRanges keys ids blockSize gap base =
      .ok (readsOf keys blockSize base 0 (groups (gap % 2 ^ 64) ids), ids.map Prod.snd) := by
  have heq := sortIds_eq hs h32
  rw [mergeRanges_sorted keys blockSize gap base (by rwa [heq]), heq]

/-! ### Groups -/

theorem flatten_groups (gap : ℕ) (ids : List (ℕ × ℕ)) : (groups gap ids).flatten = ids :=
  List.flatten_splitBy _ _

theorem mem_group {gap : ℕ} {ids g : List (ℕ × ℕ)} (hg : g ∈ groups gap ids) :
    (∀ id ∈ g, id ∈ ids) ∧ g.headD (0, 0) ∈ g ∧ g.getLastD (0, 0) ∈ g := by
  have hne : g ≠ [] := List.ne_nil_of_mem_splitBy hg
  refine ⟨fun id hid => ?_, ?_, ?_⟩
  · rw [← flatten_groups gap ids]
    exact List.mem_flatten.mpr ⟨g, hg, hid⟩
  · cases g with
    | nil => exact absurd rfl hne
    | cons x g => exact List.mem_cons_self
  · rw [List.getLastD_eq_getLast?, List.getLast?_eq_some_getLast hne]
    exact List.getLast_mem hne

theorem isChain_le_of_pairwise {g : List (ℕ × ℕ)} (hs : g.Pairwise IdLt)
    (hc : g.IsChain fun a b => a.1 = b.1) : ∀ a ∈ g, a.1 = (g.headD (0, 0)).1 ∧
      (g.headD (0, 0)).2 ≤ a.2 ∧ a.2 ≤ (g.getLastD (0, 0)).2 := by
  induction g with
  | nil => simp
  | cons x g ih =>
    intro a ha
    obtain ⟨hx, hs'⟩ := List.pairwise_cons.mp hs
    cases g with
    | nil =>
      rw [List.mem_singleton] at ha
      subst ha
      exact ⟨rfl, le_rfl, le_rfl⟩
    | cons y g =>
      rw [List.isChain_cons_cons] at hc
      have ih' := ih hs' hc.2
      have hy := hx y List.mem_cons_self
      have hlast : (x :: y :: g).getLastD (0, 0) = (y :: g).getLastD (0, 0) := by
        simp [List.getLastD_eq_getLast?, List.getLast?_cons_cons]
      rw [hlast]
      unfold IdLt at hy
      rcases List.mem_cons.mp ha with rfl | ha
      · have h := ih' y List.mem_cons_self
        exact ⟨rfl, le_rfl, by have := hc.1; simp only [List.headD_cons] at *; omega⟩
      · have h := ih' a ha
        have h1 := hc.1
        simp only [List.headD_cons] at h ⊢
        omega

/-- **The ids of a group** are in one chunk, between the blocks of the first and the last. -/
theorem joins_group {gap : ℕ} {ids : List (ℕ × ℕ)} (hs : ids.Pairwise IdLt) {g : List (ℕ × ℕ)}
    (hg : g ∈ groups gap ids) : ∀ a ∈ g, a.1 = (g.headD (0, 0)).1 ∧
      (g.headD (0, 0)).2 ≤ a.2 ∧ a.2 ≤ (g.getLastD (0, 0)).2 := by
  have hsub : g.Sublist ids := by
    have := List.sublist_flatten_of_mem hg
    rwa [flatten_groups] at this
  refine isChain_le_of_pairwise (hs.sublist hsub) ?_
  exact (List.isChain_of_mem_splitBy hg).imp fun a b h => (of_decide_eq_true h).1

theorem exists_group (gap : ℕ) {ids : List (ℕ × ℕ)} (hs : ids.Pairwise IdLt) {id : ℕ × ℕ} (hid : id ∈ ids) :
    ∃ g ∈ groups gap ids, id ∈ g ∧ (g.headD (0, 0)).1 = id.1 := by
  rw [← flatten_groups gap ids] at hid
  obtain ⟨g, hg, hid⟩ := List.mem_flatten.mp hid
  exact ⟨g, hg, hid, (joins_group hs hg id hid).1.symm⟩

theorem readsOf_append (blockSize base : ℕ) : ∀ (i : ℕ) (gs hs : List (List (ℕ × ℕ))),
    readsOf keys blockSize base i (gs ++ hs) =
      readsOf keys blockSize base i gs ++ readsOf keys blockSize base (i + gs.flatten.length) hs
  | i, [], hs => by simp [readsOf]
  | i, g :: gs, hs => by
    rw [List.cons_append, readsOf, readsOf_append blockSize base _ gs hs, readsOf, List.flatten_cons,
      List.length_append, Nat.add_assoc]
    rfl

theorem mem_readsOf (blockSize base : ℕ) {r : MergedRange κ} : ∀ (i : ℕ) (gs : List (List (ℕ × ℕ))),
    r ∈ readsOf keys blockSize base i gs → ∃ g ∈ gs, ∃ n,
      r = groupRead keys blockSize base (i + n) g ∧ slice gs.flatten n (n + g.length) = g
  | _, [], h => by cases h
  | i, g :: gs, h => by
    rw [readsOf, List.mem_cons] at h
    rcases h with rfl | h
    · refine ⟨g, List.mem_cons_self, 0, rfl, ?_⟩
      rw [List.flatten_cons, Nat.zero_add, slice_append_of_length rfl]
    · obtain ⟨g', hg', n, rfl, hn⟩ := mem_readsOf _ _ _ gs h
      refine ⟨g', List.mem_cons_of_mem _ hg', g.length + n, by rw [Nat.add_assoc], ?_⟩
      rw [List.flatten_cons, Nat.add_assoc, slice_append_right, hn]

theorem exists_readsOf (blockSize base : ℕ) {g : List (ℕ × ℕ)} : ∀ (i : ℕ) {gs : List (List (ℕ × ℕ))},
    g ∈ gs → ∃ n, groupRead keys blockSize base n g ∈ readsOf keys blockSize base i gs
  | i, h :: gs, hg => by
    rcases List.mem_cons.mp hg with rfl | hg
    · exact ⟨i, List.mem_cons_self⟩
    · obtain ⟨n, hn⟩ := exists_readsOf blockSize base (i + h.length) hg
      exact ⟨n, List.mem_cons_of_mem _ hn⟩

/-- Ids of later chunks make groups of their own. -/
theorem groups_append (gap : ℕ) {ids ids' : List (ℕ × ℕ)}
    (h : ∀ a ∈ ids, ∀ b ∈ ids', a.1 < b.1) : groups gap (ids ++ ids') =
      groups gap ids ++ groups gap ids' := by
  refine List.splitBy_append fun a ha b hb => decide_eq_false fun hj => ?_
  have := h a (List.mem_of_getLast? ha) b (List.mem_of_head? hb)
  omega

end Ranges

end SkipZFP.Read.Merge
