import Mathlib.Data.List.Basic
import Mathlib.Data.List.Chain
import SkipZFP.Read.Merge

/-! # The output arrays of a merge

`szfp_merge_ranges` writes its runs into arrays of the caller, the last one again and again while it
grows. `mergeArrays` is the function with these writes, and `mergeArrays_eq` says that they leave what
`szfpMergeRanges` returns.

* `IsSplit`: a list cut where two neighbours are not near each other.
* `mergeArrays_eq`: the writes stay inside the arrays, and leave the runs.
* `merge_ranges_iff`: **when the runs are cut exactly where more than `gap` blocks lie between two ids**.
  The sum the ids are compared with wraps. -/

namespace SkipZFP.Read.Runs

open SkipZFP.Plan.Blocks SkipZFP.Read.Merge

/-! ### Cutting a list -/

section Split
variable {α : Type*} {p q : α → α → Prop} {l : List α} {gs : List (List α)}

/-- **A list cut where two neighbours are not near each other**: they are in one piece if and only if they
are near. -/
structure IsSplit (near : α → α → Prop) (l : List α) (gs : List (List α)) : Prop where
  flatten : gs.flatten = l
  nonempty : [] ∉ gs
  inside : ∀ g ∈ gs, g.IsChain near
  across : gs.IsChain fun g g' => ∀ a ∈ g.getLast?, ∀ b ∈ g'.head?, ¬ near a b

theorem isSplit_splitBy (r : α → α → Bool) (l : List α) : IsSplit (r · · = true) l (l.splitBy r) where
  flatten := List.flatten_splitBy r l
  nonempty := List.nil_notMem_splitBy r l
  inside _ hg := List.isChain_of_mem_splitBy hg
  across := (List.isChain_getLast_head_splitBy r l).imp fun g g' h => by
    obtain ⟨hg, hg', hr⟩ := h
    intro a ha b hb
    rw [List.getLast?_eq_some_getLast hg] at ha
    rw [List.head?_eq_some_head hg'] at hb
    cases ha
    cases hb
    simp [hr]

theorem isChain_imp₂ {β : Type*} {r s t : β → β → Prop} (h : ∀ a b, r a b → s a b → t a b) {l : List β}
    (hr : l.IsChain r) (hs : l.IsChain s) : l.IsChain t := by
  rw [List.isChain_iff_getElem] at hr hs ⊢
  intro k hk
  exact h _ _ (hr k hk) (hs k hk)

/-- **Two ways to be near cut a list alike** when they agree for neighbours. -/
theorem IsSplit.iff_agree (h : IsSplit p l gs) :
    IsSplit q l gs ↔ l.IsChain fun a b => (p a b ↔ q a b) := by
  rw [← h.flatten, List.isChain_flatten h.nonempty]
  constructor
  · intro h'
    refine ⟨fun g hg => ?_, ?_⟩
    · exact isChain_imp₂ (fun a b => iff_of_true) (h.inside g hg) (h'.inside g hg)
    · exact isChain_imp₂ (fun g g' hp hq a ha b hb => iff_of_false (hp a ha b hb) (hq a ha b hb)) h.across
        h'.across
  · rintro ⟨hin, hout⟩
    refine ⟨rfl, h.nonempty, fun g hg => ?_, ?_⟩
    · exact isChain_imp₂ (fun a b hpq => hpq.mp) (hin g hg) (h.inside g hg)
    · exact isChain_imp₂ (fun g g' hpq hp a ha b hb hq =>
        hp a ha b hb ((hpq a ha b hb).mpr hq)) hout h.across

end Split

/-! ### The arrays -/

/-- The output arrays of `szfp_merge_ranges`. -/
structure OutArrays where
  outChunk : List ℕ
  outFirst : List ℕ
  outLast : List ℕ
  outItemStart : List ℕ

namespace OutArrays

/-- All arrays have `n` entries or more. -/
structure HasRoom (out : OutArrays) (n : ℕ) : Prop where
  chunk : n ≤ out.outChunk.length
  first : n ≤ out.outFirst.length
  last : n ≤ out.outLast.length
  item : n ≤ out.outItemStart.length

instance decidableHasRoom (out : OutArrays) (n : ℕ) : Decidable (out.HasRoom n) :=
  decidable_of_iff (n ≤ out.outChunk.length ∧ n ≤ out.outFirst.length ∧ n ≤ out.outLast.length ∧
    n ≤ out.outItemStart.length) ⟨fun ⟨h1, h2, h3, h4⟩ => ⟨h1, h2, h3, h4⟩, fun ⟨h1, h2, h3, h4⟩ =>
      ⟨h1, h2, h3, h4⟩⟩

/-- Entry `k` of the arrays. -/
def entry (out : OutArrays) (k : ℕ) : Run :=
  ⟨out.outChunk.getD k 0, out.outFirst.getD k 0, out.outLast.getD k 0, out.outItemStart.getD k 0⟩

/-- Writing entry `k`, unless it is outside the arrays. -/
def put (out : OutArrays) (k : ℕ) (r : Run) : Option OutArrays :=
  if out.HasRoom (k + 1) then
    some ⟨out.outChunk.set k r.chunk, out.outFirst.set k r.first, out.outLast.set k r.last,
      out.outItemStart.set k r.item⟩
  else none

/-- `out_last[k] = b`. -/
def putLast (out : OutArrays) (k b : ℕ) : Option OutArrays :=
  if k < out.outLast.length then some { out with outLast := out.outLast.set k b } else none

theorem getD_set {l : List ℕ} {k : ℕ} (hk : k < l.length) (v j : ℕ) :
    (l.set k v).getD j 0 = if j = k then v else l.getD j 0 := by
  by_cases hj : j = k
  · rw [if_pos hj, hj, List.getD_eq_getElem _ _ (by simpa using hk), List.getElem_set_self]
  · rw [if_neg hj, List.getD_eq_getElem?_getD, List.getElem?_set_ne (Ne.symm hj),
      List.getD_eq_getElem?_getD]

/-- **A write inside the arrays** changes one entry. -/
theorem exists_put {out : OutArrays} {n k : ℕ} (h : out.HasRoom n) (hk : k < n) (r : Run) :
    ∃ out', out.put k r = some out' ∧ out'.HasRoom n ∧
      ∀ j, out'.entry j = if j = k then r else out.entry j := by
  obtain ⟨h1, h2, h3, h4⟩ := h
  unfold put
  rw [if_pos ⟨by omega, by omega, by omega, by omega⟩]
  refine ⟨_, rfl, ⟨by simpa, by simpa, by simpa, by simpa⟩, fun j => ?_⟩
  unfold entry
  dsimp only
  rw [getD_set (by omega), getD_set (by omega), getD_set (by omega), getD_set (by omega)]
  split_ifs <;> rfl

theorem exists_putLast {out : OutArrays} {n k : ℕ} (h : out.HasRoom n) (hk : k < n) (b : ℕ) :
    ∃ out', out.putLast k b = some out' ∧ out'.HasRoom n ∧
      ∀ j, out'.entry j = if j = k then { out.entry k with last := b } else out.entry j := by
  obtain ⟨h1, h2, h3, h4⟩ := h
  unfold putLast
  rw [if_pos (by omega)]
  refine ⟨_, rfl, ⟨h1, h2, by simpa, h4⟩, fun j => ?_⟩
  unfold entry
  dsimp only
  rw [getD_set (by omega)]
  split_ifs with hj
  · rw [hj]
  · rfl

end OutArrays

/-- The loop of `szfp_merge_ranges` at id `i`, after the id `prev`, with run `m` open: the number of runs
or an error, and the arrays. `none` stands for a write outside the arrays. -/
def mergeLoop (gap : ℕ) : ℕ → ℕ × ℕ → ℕ → OutArrays → List (ℕ × ℕ) →
    Option (Except SzError ℕ × OutArrays)
  | _, _, m, out, [] => some (.ok (m + 1), out)
  | i, prev, m, out, id :: ids =>
    if id.1 < prev.1 ∨ (id.1 = prev.1 ∧ id.2 ≤ prev.2) then some (.error .SZ_ERR_ARG, out)
    else if id.1 = (out.entry m).chunk ∧ id.2 ≤ ((out.entry m).last + gap + 1) % 2 ^ 64 then
      (out.putLast m id.2).bind fun out => mergeLoop gap (i + 1) id m out ids
    else
      (out.put (m + 1) ⟨id.1, id.2, id.2, i⟩).bind fun out => mergeLoop gap (i + 1) id (m + 1) out ids

/-- What the caller gets: the status, `*out_n` and the arrays. -/
structure MergeResult where
  status : Except SzError Unit
  outN : ℕ
  out : OutArrays

/-- **`szfp_merge_ranges`**, with the arrays. -/
def mergeArrays (gap : ℕ) (ids : List (ℕ × ℕ)) (out : OutArrays) : Option MergeResult :=
  match ids with
  | [] => some ⟨.ok (), 0, out⟩
  | id :: ids =>
    (out.put 0 ⟨id.1, id.2, id.2, 0⟩).bind fun out => (mergeLoop gap 1 id 0 out ids).map fun x =>
      match x.1 with
      | .ok n => ⟨.ok (), n, x.2⟩
      | .error e => ⟨.error e, 0, x.2⟩

/-! ### The writes -/

/-- **Ids that are not in order are refused**, wherever they are not. -/
theorem mergeFrom_refused (gap : ℕ) : ∀ {l : List (ℕ × ℕ)} (i : ℕ) {prev : ℕ × ℕ} (cur : Run),
    ¬ (prev :: l).IsChain IdLt → mergeFrom gap i prev cur l = .error .SZ_ERR_ARG
  | [], _, _, _, h => absurd (List.isChain_singleton _) h
  | id :: l, i, prev, cur, h => by
    rw [List.isChain_cons_cons, IdLt] at h
    unfold mergeFrom
    by_cases hsort : id.1 < prev.1 ∨ (id.1 = prev.1 ∧ id.2 ≤ prev.2)
    · rw [if_pos hsort]
    · have hrest : ¬ (id :: l).IsChain IdLt := fun hchain => h ⟨by omega, hchain⟩
      rw [if_neg hsort, mergeFrom_refused gap (i + 1) _ hrest, mergeFrom_refused gap (i + 1) _ hrest]
      split_ifs <;> rfl

/-- **One iteration after another**: the writes stay inside the arrays. They leave the runs that are
closed already, and behind them the others. -/
theorem mergeLoop_eq (gap : ℕ) {n : ℕ} : ∀ (l : List (ℕ × ℕ)) (i : ℕ) (prev : ℕ × ℕ) (m : ℕ)
    (out : OutArrays), out.HasRoom n → m + 1 + l.length ≤ n →
      ∃ out', mergeLoop gap i prev m out l =
          some ((mergeFrom gap i prev (out.entry m) l).map fun runs => m + runs.length, out') ∧
        ∀ runs, mergeFrom gap i prev (out.entry m) l = .ok runs → m + runs.length ≤ n ∧
          (List.range (m + runs.length)).map out'.entry = (List.range m).map out.entry ++ runs
  | [], i, prev, m, out, _, hle => by
    refine ⟨out, rfl, fun runs hruns => ?_⟩
    cases hruns
    exact ⟨hle, by simp [List.range_succ]⟩
  | id :: l, i, prev, m, out, hroom, hle => by
    rw [List.length_cons] at hle
    unfold mergeLoop mergeFrom
    by_cases hsort : id.1 < prev.1 ∨ (id.1 = prev.1 ∧ id.2 ≤ prev.2)
    · rw [if_pos hsort, if_pos hsort]
      exact ⟨out, rfl, fun runs hruns => by cases hruns⟩
    rw [if_neg hsort, if_neg hsort]
    by_cases hjoin : id.1 = (out.entry m).chunk ∧ id.2 ≤ ((out.entry m).last + gap + 1) % 2 ^ 64
    · -- the open run grows
      rw [if_pos hjoin, if_pos hjoin]
      obtain ⟨out1, hput, hroom1, hentry⟩ := out.exists_putLast hroom (by omega : m < n) id.2
      obtain ⟨out', hloop, hruns⟩ := mergeLoop_eq gap l (i + 1) id m out1 hroom1 (by omega)
      have hkeep : (List.range m).map out1.entry = (List.range m).map out.entry :=
        List.map_congr_left fun k hk => by
          rw [hentry, if_neg (List.mem_range.mp hk).ne]
      have hcur : out1.entry m = { out.entry m with last := id.2 } := by rw [hentry, if_pos rfl]
      rw [hput, Option.bind_some, hloop, ← hcur]
      rw [hkeep] at hruns
      exact ⟨out', rfl, hruns⟩
    · -- it is closed, and the next one opened
      rw [if_neg hjoin, if_neg hjoin]
      obtain ⟨out1, hput, hroom1, hentry⟩ :=
        out.exists_put hroom (by omega : m + 1 < n) ⟨id.1, id.2, id.2, i⟩
      obtain ⟨out', hloop, hruns⟩ := mergeLoop_eq gap l (i + 1) id (m + 1) out1 hroom1 (by omega)
      have hkeep : (List.range (m + 1)).map out1.entry = (List.range (m + 1)).map out.entry :=
        List.map_congr_left fun k hk => by
          rw [hentry, if_neg (List.mem_range.mp hk).ne]
      have hcur : out1.entry (m + 1) = ⟨id.1, id.2, id.2, i⟩ := by rw [hentry, if_pos rfl]
      rw [hcur, hkeep] at hruns
      rw [hput, Option.bind_some, hloop, hcur]
      cases hrest : mergeFrom gap (i + 1) id ⟨id.1, id.2, id.2, i⟩ l with
      | error e => exact ⟨out', rfl, fun runs hruns => by cases hruns⟩
      | ok rest =>
        obtain ⟨hlen, hmap⟩ := hruns rest hrest
        have hsum : m + 1 + rest.length = m + (out.entry m :: rest).length := by
          rw [List.length_cons]
          omega
        refine ⟨out', by rw [Except.map, Except.map, hsum], fun runs hruns => ?_⟩
        cases hruns
        rw [hsum] at hlen hmap
        refine ⟨hlen, hmap.trans ?_⟩
        rw [List.range_succ, List.map_append, List.append_assoc]
        rfl

/-- **The arrays hold the runs** when the function returns, and no run is written outside them. -/
theorem mergeArrays_eq (gap : ℕ) {ids : List (ℕ × ℕ)} {out : OutArrays} (hroom : out.HasRoom ids.length) :
    ∃ r, mergeArrays gap ids out = some r ∧ match szfpMergeRanges gap ids with
      | .error e => r.status = .error e ∧ r.outN = 0
      | .ok runs => r.status = .ok () ∧ r.outN ≤ ids.length ∧
        (List.range r.outN).map r.out.entry = runs := by
  cases ids with
  | nil => exact ⟨_, rfl, rfl, le_rfl, rfl⟩
  | cons id ids =>
    obtain ⟨out1, hput, hroom1, hentry⟩ := out.exists_put hroom (Nat.succ_pos _) ⟨id.1, id.2, id.2, 0⟩
    obtain ⟨out', hloop, hruns⟩ := mergeLoop_eq gap ids 1 id 0 out1 hroom1
      (by rw [List.length_cons]; omega)
    have hcur : out1.entry 0 = ⟨id.1, id.2, id.2, 0⟩ := by rw [hentry, if_pos rfl]
    rw [hcur] at hloop hruns
    unfold mergeArrays szfpMergeRanges
    dsimp only
    rw [hput, Option.bind_some, hloop]
    cases hrest : mergeFrom gap 1 id ⟨id.1, id.2, id.2, 0⟩ ids with
    | error e => exact ⟨_, rfl, rfl, rfl⟩
    | ok runs =>
      obtain ⟨hlen, hmap⟩ := hruns runs hrest
      exact ⟨_, rfl, rfl, hlen, hmap⟩

/-! ### Where the runs are cut -/

instance transIdLt : Trans IdLt IdLt IdLt where
  trans := by
    intro a b c hab hbc
    unfold IdLt at *
    omega

theorem szfpMergeRanges_refused (gap : ℕ) {ids : List (ℕ × ℕ)} (h : ¬ ids.Pairwise IdLt) :
    szfpMergeRanges gap ids = .error .SZ_ERR_ARG := by
  cases ids with
  | nil => exact absurd .nil h
  | cons id ids =>
    rw [← List.isChain_iff_pairwise] at h
    exact mergeFrom_refused gap 1 _ h

/-- **At most `gap` unneeded blocks** lie between two ids of one chunk. -/
def Near (gap : ℕ) (a b : ℕ × ℕ) : Prop := a.1 = b.1 ∧ b.2 - a.2 - 1 ≤ gap

/-- When the code agrees: the sum must not wrap. -/
theorem joins_iff_near {gap : ℕ} (hgap : gap < 2 ^ 64) {a b : ℕ × ℕ} (hab : IdLt a b) (hb : b.2 < 2 ^ 32) :
    (joins gap a b = true ↔ Near gap a b) ↔ (a.1 = b.1 → a.2 + gap + 1 < 2 ^ 64) := by
  unfold joins Near IdLt at *
  rw [decide_eq_true_iff]
  by_cases hchunk : a.1 = b.1
  · simp only [hchunk, true_and, true_imp_iff]
    have hlt : a.2 < b.2 := by omega
    by_cases hwrap : a.2 + gap + 1 < 2 ^ 64
    · rw [Nat.mod_eq_of_lt hwrap]
      simp only [hwrap, iff_true]
      omega
    · have hmod : (a.2 + gap + 1) % 2 ^ 64 = a.2 + gap + 1 - 2 ^ 64 := by
        rw [Nat.mod_eq_sub_mod (by omega), Nat.mod_eq_of_lt (by omega)]
      rw [hmod]
      simp only [hwrap, iff_false]
      omega
  · simp [hchunk]

theorem runsOf_injective : ∀ {gs gs' : List (List (ℕ × ℕ))} {i : ℕ}, gs.flatten = gs'.flatten →
    runsOf i gs = runsOf i gs' → gs = gs'
  | [], [], _, _, _ => rfl
  | [], _ :: _, _, _, h => by cases h
  | _ :: _, [], _, _, h => by cases h
  | [g], [g'], i, hflat, _ => by simpa using hflat
  | [_], _ :: _ :: _, _, _, h => by cases (List.cons.inj h).2
  | _ :: _ :: _, [_], _, _, h => by cases (List.cons.inj h).2
  | g :: h :: gs, g' :: h' :: gs', i, hflat, hruns => by
    obtain ⟨-, hrest⟩ := List.cons.inj hruns
    -- the next run starts behind the first one
    have hitem : i + g.length = i + g'.length := congrArg Run.item (List.cons.inj hrest).1
    have hlen : g.length = g'.length := by omega
    have hparts : g ++ (h :: gs).flatten = g' ++ (h' :: gs').flatten := hflat
    obtain ⟨rfl, htail⟩ := List.append_inj hparts hlen
    rw [runsOf_injective htail hrest]

/-- **What the contract of `szfp_merge_ranges` says**: ids that are not strictly increasing are refused
with `*out_n = 0`. Else the arrays hold the runs, in order, of the ids cut where more than `gap` unneeded
blocks lie between two neighbours, or the chunk ends. -/
structure SplitsRight (gap : ℕ) (ids : List (ℕ × ℕ)) (r : MergeResult) : Prop where
  refused : r.status = .error .SZ_ERR_ARG ∧ r.outN = 0 ↔ ¬ ids.Pairwise IdLt
  runs : ids.Pairwise IdLt → r.status = .ok () ∧ r.outN ≤ ids.length ∧
    ∃ gs, IsSplit (Near gap) ids gs ∧ (List.range r.outN).map r.out.entry = runsOf 0 gs

/-- **When the runs are cut right**: for all arrays of ids and all gaps, unless `last + gap + 1` wraps for
an id that is followed by another one of its chunk. The writes are always inside the arrays. -/
theorem merge_ranges_iff {gap : ℕ} (hgap : gap < 2 ^ 64) {ids : List (ℕ × ℕ)}
    (h32 : ∀ id ∈ ids, id.1 < 2 ^ 32 ∧ id.2 < 2 ^ 32) {out : OutArrays} (hroom : out.HasRoom ids.length) :
    ∃ r, mergeArrays gap ids out = some r ∧ (SplitsRight gap ids r ↔
      (ids.Pairwise IdLt → ids.IsChain fun a b => a.1 = b.1 → a.2 + gap + 1 < 2 ^ 64)) := by
  obtain ⟨r, hr, hspec⟩ := mergeArrays_eq gap hroom
  refine ⟨r, hr, ?_⟩
  by_cases hs : ids.Pairwise IdLt
  · rw [szfpMergeRanges_eq gap hs] at hspec
    obtain ⟨hok, hlen, hruns⟩ := hspec
    have hagree : (ids.IsChain fun a b => (joins gap a b = true ↔ Near gap a b)) ↔
        ids.IsChain fun a b => a.1 = b.1 → a.2 + gap + 1 < 2 ^ 64 := by
      rw [List.isChain_iff_getElem, List.isChain_iff_getElem]
      refine forall₂_congr fun k hk => joins_iff_near hgap ?_ (h32 _ (List.getElem_mem _)).2
      exact List.pairwise_iff_getElem.mp hs k (k + 1) (by omega) hk (by omega)
    have hsplit : IsSplit (fun a b => joins gap a b = true) ids (groups gap ids) :=
      isSplit_splitBy (joins gap) ids
    rw [← hagree, ← hsplit.iff_agree]
    constructor
    · intro h _
      obtain ⟨-, -, gs, hgs, hruns'⟩ := h.runs hs
      have heq : gs = groups gap ids := by
        refine runsOf_injective (i := 0) ?_ (hruns'.symm.trans hruns)
        rw [hgs.flatten, hsplit.flatten]
      rwa [heq] at hgs
    · intro h
      refine ⟨iff_of_false (fun herr => ?_) (not_not.mpr hs), fun _ => ⟨hok, hlen, _, h hs, hruns⟩⟩
      rw [hok] at herr
      cases herr.1
  · rw [szfpMergeRanges_refused gap hs] at hspec
    exact iff_of_true ⟨iff_of_true hspec hs, fun h => absurd h hs⟩ fun h => absurd h hs

/-- Two neighbours that the largest gap does not join. -/
theorem not_splitsRight_max : ∃ r, mergeArrays (2 ^ 64 - 1) [(0, 0), (0, 1)]
      ⟨[0, 0], [0, 0], [0, 0], [0, 0]⟩ = some r ∧ ¬ SplitsRight (2 ^ 64 - 1) [(0, 0), (0, 1)] r := by
  refine ⟨⟨.ok (), 2, ⟨[0, 0], [0, 1], [0, 1], [0, 1]⟩⟩, rfl, fun h => ?_⟩
  obtain ⟨-, -, gs, hgs, hruns⟩ := h.runs (by decide)
  have hcut : runsOf 0 gs = runsOf 0 [[(0, 0)], [(0, 1)]] := hruns.symm
  obtain rfl := runsOf_injective hgs.flatten hcut
  have hfar := List.isChain_pair.mp hgs.across (0, 0) rfl (0, 1) rfl
  exact hfar ⟨rfl, by decide⟩

/-- Three ids of two chunks. -/
theorem merge_ranges_iff_three : ∃ r, mergeArrays 6 [(0, 2), (0, 9), (1, 0)]
      ⟨[0, 0, 0], [0, 0, 0], [0, 0, 0], [0, 0, 0]⟩ = some r ∧ SplitsRight 6 [(0, 2), (0, 9), (1, 0)] r := by
  have hgap : 6 < 2 ^ 64 := by decide
  have h32 : ∀ id ∈ [(0, 2), (0, 9), (1, 0)], id.1 < 2 ^ 32 ∧ id.2 < 2 ^ 32 := by decide
  have hroom : (⟨[0, 0, 0], [0, 0, 0], [0, 0, 0], [0, 0, 0]⟩ : OutArrays).HasRoom 3 := by decide
  obtain ⟨r, hr, h⟩ := merge_ranges_iff hgap h32 hroom
  exact ⟨r, hr, h.mpr fun _ => by decide⟩

end SkipZFP.Read.Runs
