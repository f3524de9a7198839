import SkipZFP.Lib.Rows

/-! # Tables filled piece by piece

A table is a list of rows of one width. A `Write` replaces the entries of a rectangle, as
`out[r0:r1, c0:c1] = vals` does.

* `cell_put`: what one write changes.
* `foldl_put_eq`: if every cell is in the rectangle of some write, and every write of a cell puts there
  what a given table has, then the writes make this table, whatever the cells held before.
* `countP_piece`: of the pieces of a row exactly one has a given index. -/

namespace SkipZFP.Lib.Table

variable {α : Type*}

/-- Rows `r0` to `r1 - 1` and columns `c0` to `c1 - 1`, and what is written there. -/
structure Write (α : Type*) where
  r0 : ℕ
  r1 : ℕ
  c0 : ℕ
  c1 : ℕ
  vals : List (List α)

namespace Write

variable (w : Write α)

/-- `out[r0:r1, c0:c1] = vals`. -/
def put (out : List (List α)) : List (List α) :=
  out.zipIdx.map fun r =>
    if w.r0 ≤ r.2 ∧ r.2 < w.r1 then
      r.1.take w.c0 ++ w.vals.getD (r.2 - w.r0) [] ++ r.1.drop w.c1
    else r.1

/-- The cell is in the rectangle. -/
def Covers (i x : ℕ) : Prop := (w.r0 ≤ i ∧ i < w.r1) ∧ w.c0 ≤ x ∧ x < w.c1

instance (i x : ℕ) : Decidable (w.Covers i x) := by unfold Covers; infer_instance

/-- What the write puts into a cell of its rectangle. -/
def value (i x : ℕ) : Option α := (w.vals.getD (i - w.r0) [])[x - w.c0]?

/-- The values have the shape of the rectangle, which is inside a table of the given width. -/
structure Fits (width : ℕ) : Prop where
  columns : w.c0 ≤ w.c1 ∧ w.c1 ≤ width
  row : ∀ i, w.r0 ≤ i → i < w.r1 → (w.vals.getD (i - w.r0) []).length = w.c1 - w.c0

end Write

/-- The entry of a cell. -/
def cell (out : List (List α)) (i x : ℕ) : Option α := (out[i]?.getD [])[x]?

variable {w : Write α} {width : ℕ} {out : List (List α)}

theorem length_put : (w.put out).length = out.length := by simp [Write.put]

theorem getElem?_put (i : ℕ) : (w.put out)[i]? = out[i]?.map fun r =>
    if w.r0 ≤ i ∧ i < w.r1 then r.take w.c0 ++ w.vals.getD (i - w.r0) [] ++ r.drop w.c1 else r := by
  unfold Write.put
  rw [List.getElem?_map, List.getElem?_zipIdx, Option.map_map]
  cases out[i]? with
  | none => rfl
  | some r => simp

theorem length_of_mem_put (hw : w.Fits width) (ho : ∀ r ∈ out, r.length = width) :
    ∀ r ∈ w.put out, r.length = width := by
  intro r hr
  obtain ⟨i, hi⟩ := List.getElem?_of_mem hr
  rw [getElem?_put] at hi
  obtain ⟨r', hr', rfl⟩ := Option.map_eq_some_iff.mp hi
  have hlen := ho r' (List.mem_of_getElem? hr')
  obtain ⟨h1, h2⟩ := hw.columns
  split_ifs with hc
  · rw [List.length_append, List.length_append, List.length_take, List.length_drop, hlen,
      hw.row i hc.1 hc.2]
    omega
  · exact hlen

theorem cell_put (hw : w.Fits width) (ho : ∀ r ∈ out, r.length = width) {i x : ℕ}
    (hi : i < out.length) :
    cell (w.put out) i x = if w.Covers i x then w.value i x else cell out i x := by
  have hr : out[i]? = some out[i] := List.getElem?_eq_getElem hi
  have hlen := ho _ (List.getElem_mem hi)
  obtain ⟨h1, h2⟩ := hw.columns
  unfold cell Write.value
  rw [getElem?_put, hr, Option.map_some, Option.getD_some, Option.getD_some]
  by_cases hcov : w.Covers i x
  · obtain ⟨hrow, hc0, hc1⟩ := hcov
    have hv := hw.row i hrow.1 hrow.2
    have ht : (out[i].take w.c0).length = w.c0 := by rw [List.length_take, hlen]; omega
    rw [if_pos hrow, if_pos ⟨hrow, hc0, hc1⟩, List.append_assoc,
      List.getElem?_append_right (by omega), ht, List.getElem?_append_left (by omega)]
  · rw [if_neg hcov]
    by_cases hrow : w.r0 ≤ i ∧ i < w.r1
    · have hv := hw.row i hrow.1 hrow.2
      have hx : ¬ (w.c0 ≤ x ∧ x < w.c1) := fun hx => hcov ⟨hrow, hx⟩
      have ht : (out[i].take w.c0).length = w.c0 := by rw [List.length_take, hlen]; omega
      rw [if_pos hrow, List.append_assoc]
      by_cases hx0 : x < w.c0
      · rw [List.getElem?_append_left (by omega), List.getElem?_take, if_pos hx0]
      · rw [List.getElem?_append_right (by omega), ht, List.getElem?_append_right (by omega),
          List.getElem?_drop, hv]
        congr 1
        omega
    · rw [if_neg hrow]

/-- Where the writes of a cell agree, it has their value, or was not written. -/
theorem cell_foldl_put {i x : ℕ} {v : Option α} : ∀ (ws : List (Write α)) (out : List (List α)),
    (∀ w ∈ ws, w.Fits width) → (∀ r ∈ out, r.length = width) → i < out.length →
    (∀ w ∈ ws, w.Covers i x → w.value i x = v) →
      (ws.foldl (fun out w => w.put out) out).length = out.length ∧
      (∀ r ∈ ws.foldl (fun out w => w.put out) out, r.length = width) ∧
      ((∃ w ∈ ws, w.Covers i x) ∨ cell out i x = v →
        cell (ws.foldl (fun out w => w.put out) out) i x = v)
  | [], out, _, ho, _, _ => ⟨rfl, ho, by simp⟩
  | w :: ws, out, hfit, ho, hi, hv => by
    have hw := hfit w List.mem_cons_self
    obtain ⟨h1, h2, h3⟩ := cell_foldl_put ws (w.put out)
      (fun u hu => hfit u (List.mem_cons_of_mem _ hu)) (length_of_mem_put hw ho)
      (by rw [length_put]; exact hi) fun u hu => hv u (List.mem_cons_of_mem _ hu)
    refine ⟨h1.trans length_put, h2, fun h => h3 ?_⟩
    rw [cell_put hw ho hi]
    by_cases hc : w.Covers i x
    · rw [if_pos hc]
      exact Or.inr (hv w List.mem_cons_self hc)
    · rw [if_neg hc]
      rcases h with ⟨u, hu, hcov⟩ | h
      · rcases List.mem_cons.mp hu with rfl | hu
        · exact absurd hcov hc
        · exact Or.inl ⟨u, hu, hcov⟩
      · exact Or.inr h

theorem ext_cell {out out' : List (List α)} (hlen : out.length = out'.length)
    (h1 : ∀ r ∈ out, r.length = width) (h2 : ∀ r ∈ out', r.length = width)
    (h : ∀ i < out.length, ∀ x < width, cell out i x = cell out' i x) : out = out' := by
  refine List.ext_getElem hlen fun i hi hi' => ?_
  have hr := h1 _ (List.getElem_mem hi)
  have hr' := h2 _ (List.getElem_mem hi')
  refine List.ext_getElem? fun x => ?_
  rcases Nat.lt_or_ge x width with hx | hx
  · have := h i hi x hx
    unfold cell at this
    rwa [List.getElem?_eq_getElem hi, List.getElem?_eq_getElem hi', Option.getD_some,
      Option.getD_some] at this
  · rw [List.getElem?_eq_none (by omega), List.getElem?_eq_none (by omega)]

variable (width) in
/-- **Writes that cover a table and agree with it make it**, whatever was there before. -/
theorem foldl_put_eq {ws : List (Write α)} {out target : List (List α)}
    (hfit : ∀ w ∈ ws, w.Fits width) (ho : ∀ r ∈ out, r.length = width)
    (ht : ∀ r ∈ target, r.length = width) (hlen : out.length = target.length)
    (hcov : ∀ i < target.length, ∀ x < width, ∃ w ∈ ws, w.Covers i x)
    (hval : ∀ i < target.length, ∀ x < width, ∀ w ∈ ws, w.Covers i x →
      w.value i x = cell target i x) : ws.foldl (fun out w => w.put out) out = target := by
  have hdim : (ws.foldl (fun out w => w.put out) out).length = out.length ∧
      ∀ r ∈ ws.foldl (fun out w => w.put out) out, r.length = width := by
    clear hcov hval
    induction ws generalizing out with
    | nil => exact ⟨rfl, ho⟩
    | cons w ws ih =>
      have hw := hfit w List.mem_cons_self
      obtain ⟨h1, h2⟩ := ih (fun u hu => hfit u (List.mem_cons_of_mem _ hu))
        (length_of_mem_put hw ho) (by rw [length_put]; exact hlen)
      exact ⟨h1.trans length_put, h2⟩
  refine ext_cell (hdim.1.trans hlen) hdim.2 ht fun i hi x hx => ?_
  rw [hdim.1, hlen] at hi
  exact (cell_foldl_put ws out hfit ho (by rw [hlen]; exact hi) (hval i hi x hx)).2.2
    (Or.inl (hcov i hi x hx))

/-! ### Pieces -/

theorem cut_mono {cut : ℕ → ℕ} {n : ℕ} (hcut : ∀ j < n, cut j ≤ cut (j + 1)) :
    ∀ m ≤ n, ∀ j ≤ m, cut j ≤ cut m
  | 0, _, j, hj => by rw [Nat.le_zero.mp hj]
  | m + 1, hm, j, hj => by
    by_cases hjm : j = m + 1
    · rw [hjm]
    · exact (cut_mono hcut m (by omega) j (by omega)).trans (hcut m (by omega))

/-- **Exactly one piece has the index**, where pieces are cut at increasing places. -/
theorem countP_piece (cut : ℕ → ℕ) {x : ℕ} (h0 : cut 0 ≤ x) : ∀ n,
    (∀ j < n, cut j ≤ cut (j + 1)) → x < cut n →
      (List.range n).countP (fun j => cut j ≤ x ∧ x < cut (j + 1)) = 1
  | 0, _, hx => by omega
  | n + 1, hcut, hx => by
    have hmono := cut_mono fun j (hj : j < n) => hcut j (by omega)
    rw [List.range_succ, List.countP_append, List.countP_singleton]
    by_cases h : x < cut n
    · rw [countP_piece cut h0 n (fun j hj => hcut j (by omega)) h, if_neg (by simp; omega)]
    · have hzero : (List.range n).countP (fun j => cut j ≤ x ∧ x < cut (j + 1)) = 0 := by
        rw [List.countP_eq_zero]
        intro j hj
        have := hmono n le_rfl (j + 1) (List.mem_range.mp hj)
        simp
        omega
      rw [hzero, if_pos (by simp; omega)]

theorem sum_map_ite {α : Type*} (P : α → Bool) (e : ℕ) (l : List α) :
    (l.map fun y => if P y then e else 0).sum = l.countP P * e := by
  induction l with
  | nil => simp
  | cons y l ih =>
    rw [List.map_cons, List.sum_cons, ih, List.countP_cons, Nat.add_mul]
    split_ifs <;> omega

end SkipZFP.Lib.Table
