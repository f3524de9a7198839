import Mathlib.Algebra.BigOperators.Group.List.Basic
import Mathlib.Algebra.BigOperators.Ring.List
import Mathlib.Data.List.Basic
import Mathlib.Data.List.GetD
import Mathlib.Data.List.Nodup
import Mathlib.Data.List.Range
import Mathlib.Tactic.Linarith
import Mathlib.Tactic.Ring

/-! # Flat buffers as rows and columns

The array operations the programs below use, on lists: `slice l a b` is `l[a:b]`, `reshape n w l` cuts
`l` into `n` rows of `w` entries, `gather idx l` is `l[idx]`, `scatter idx xs out` is `out[idx] = xs`
and `cumsum` the running sums.

* `slice_flatten`, `slice_flatten_rows`: a slice of a concatenation at a piece's offset is the piece.
* `reshape_flatten`: rows laid out one after another are read back by `reshape`.
* `gather_scatter`: reading back what was scattered to distinct positions.
* `columns ws rows`: rows cut into columns of widths `ws` and stored column block by column block;
  `slice_columns` finds the piece of row `i` in column block `j`, `uncolumns` undoes it. -/

namespace SkipZFP.Lib.Rows

variable {α β : Type*}

/-! ### Slices -/

/-- `l[a:b]`. -/
def slice (l : List α) (a b : ℕ) : List α := (l.drop a).take (b - a)

theorem length_slice {l : List α} {a b : ℕ} (h : b ≤ l.length) : (slice l a b).length = b - a := by
  simp [slice]; omega

theorem getElem?_slice (l : List α) (a b i : ℕ) :
    (slice l a b)[i]? = if i < b - a then l[a + i]? else none := by
  unfold slice
  rw [List.getElem?_take]
  split_ifs with h
  · rw [List.getElem?_drop]
  · rfl

theorem slice_slice (l : List α) {a b c d : ℕ} (h : a + d ≤ b) :
    slice (slice l a b) c d = slice l (a + c) (a + d) := by
  refine List.ext_getElem? fun i => ?_
  simp only [getElem?_slice]
  rcases Nat.lt_or_ge i (d - c) with hi | hi
  · rw [if_pos hi, if_pos (by omega), if_pos (by omega), Nat.add_assoc]
  · rw [if_neg (by omega), if_neg (by omega)]

theorem slice_append_left {l l' : List α} {a b : ℕ} (h : b ≤ l.length) :
    slice (l ++ l') a b = slice l a b := by
  refine List.ext_getElem? fun i => ?_
  simp only [getElem?_slice]
  split_ifs with hi
  · rw [List.getElem?_append_left (by omega)]
  · rfl

theorem slice_append_right (l l' : List α) (a b : ℕ) :
    slice (l ++ l') (l.length + a) (l.length + b) = slice l' a b := by
  unfold slice
  rw [List.drop_append, List.drop_eq_nil_of_le (by omega), List.nil_append]
  congr 1
  · omega
  · congr 1; omega

theorem mem_of_mem_slice {l : List α} {a b : ℕ} {x : α} (h : x ∈ slice l a b) : x ∈ l :=
  List.mem_of_mem_drop (List.mem_of_mem_take h)

theorem slice_full (l : List α) : slice l 0 l.length = l := by
  unfold slice; simp

theorem slice_self (l : List α) (a : ℕ) : slice l a a = [] := by
  unfold slice; simp

theorem slice_append_slice (l : List α) {a b c : ℕ} (hab : a ≤ b) (hbc : b ≤ c) :
    slice l a b ++ slice l b c = slice l a c := by
  unfold slice
  have hd : l.drop b = (l.drop a).drop (b - a) := by rw [List.drop_drop]; congr 1; omega
  rw [hd, show c - a = (b - a) + (c - b) by omega, List.take_add]

theorem take_eq_slice (l : List α) (b : ℕ) : l.take b = slice l 0 b := by
  unfold slice; simp

theorem map_slice (f : α → β) (l : List α) (a b : ℕ) : (slice l a b).map f = slice (l.map f) a b := by
  unfold slice; rw [List.map_take, List.map_drop]

theorem slice_append_of_length {l : List α} {n : ℕ} (h : l.length = n) (l' : List α) :
    slice (l ++ l') 0 n = l := by
  rw [slice_append_left h.ge, ← h, slice_full]

theorem slice_append_add {l : List α} {n : ℕ} (h : l.length = n) (l' : List α) (a b : ℕ) :
    slice (l ++ l') (n + a) (n + b) = slice l' a b := by
  rw [← h, slice_append_right]

theorem slice_append_end {l : List α} {n : ℕ} (h : l.length = n) (l' : List α) :
    slice (l ++ l') n (l ++ l').length = l' := by
  rw [List.length_append, h, ← Nat.add_zero n, Nat.add_zero n]
  have := slice_append_add h l' 0 l'.length
  rwa [slice_full, Nat.add_zero] at this

/-- A slice of a concatenation at the offset of its piece `j` is that piece. -/
theorem slice_flatten : ∀ (L : List (List α)) (j : ℕ) (hj : j < L.length),
    slice L.flatten ((L.take j).map List.length).sum
      (((L.take j).map List.length).sum + L[j].length) = L[j]
  | l :: L, 0, _ => by
    simp only [List.take_zero, List.map_nil, List.sum_nil, List.flatten_cons, Nat.zero_add,
      List.getElem_cons_zero]
    rw [slice_append_left le_rfl, slice_full]
  | l :: L, j + 1, hj => by
    have ih := slice_flatten L j (by simpa using hj)
    simp only [List.take_succ_cons, List.map_cons, List.sum_cons, List.flatten_cons,
      List.getElem_cons_succ]
    rw [Nat.add_assoc, slice_append_right]
    exact ih

theorem sum_map_length_eq {L : List (List α)} {w : ℕ} (h : ∀ r ∈ L, r.length = w) :
    (L.map List.length).sum = L.length * w := by
  rw [List.map_congr_left h]
  simp

theorem length_flatten_rows {L : List (List α)} {w : ℕ} (h : ∀ r ∈ L, r.length = w) :
    L.flatten.length = L.length * w := by
  rw [List.length_flatten, sum_map_length_eq h]

theorem slice_flatten_rows {L : List (List α)} {w : ℕ} (h : ∀ r ∈ L, r.length = w) {i : ℕ}
    (hi : i < L.length) : slice L.flatten (i * w) (i * w + w) = L[i] := by
  have ht : ((L.take i).map List.length).sum = i * w := by
    rw [sum_map_length_eq fun r hr => h r (List.mem_of_mem_take hr), List.length_take,
      Nat.min_eq_left hi.le]
  have hl := h _ (List.getElem_mem hi)
  have := slice_flatten L i hi
  rwa [ht, hl] at this

/-- Piece `i` of pieces that all have length `w`, but for the last one, which may be shorter. -/
theorem slice_flatten_pieces {w : ℕ} : ∀ {L : List (List α)} {i : ℕ} (hi : i < L.length),
    (∀ j (hj : j < L.length), j + 1 < L.length → L[j].length = w) → (∀ r ∈ L, r.length ≤ w) →
      slice L.flatten (i * w) ((i + 1) * w) = L[i]
  | [], _, hi, _, _ => absurd hi (Nat.not_lt_zero _)
  | l :: L, 0, _, hlen, hle => by
    rw [List.flatten_cons, Nat.zero_mul, Nat.zero_add, Nat.one_mul, List.getElem_cons_zero]
    rcases L with _ | ⟨l', L⟩
    · rw [List.flatten_nil, List.append_nil, slice, List.drop_zero, Nat.sub_zero]
      exact List.take_of_length_le (hle l List.mem_cons_self)
    · exact slice_append_of_length (hlen 0 (Nat.zero_lt_succ _) (by simp)) _
  | l :: L, i + 1, hi, hlen, hle => by
    have hi' : i < L.length := by simpa using hi
    have hl : l.length = w := hlen 0 (Nat.zero_lt_succ _) (by simp; omega)
    have ih := slice_flatten_pieces hi' (fun j hj h => hlen (j + 1) (by simpa using hj) (by simpa using h))
      fun r hr => hle r (List.mem_cons_of_mem _ hr)
    rw [List.flatten_cons, List.getElem_cons_succ, ← ih, Nat.add_one_mul (i + 1), Nat.add_one_mul i,
      Nat.add_comm _ w, Nat.add_comm (w + i * w) w, slice_append_add hl]

theorem getElem?_flatten_rows {L : List (List α)} {w : ℕ} (h : ∀ r ∈ L, r.length = w) {i j : ℕ}
    {r : List α} (hi : L[i]? = some r) (hj : j < w) : L.flatten[i * w + j]? = r[j]? := by
  obtain ⟨hlt, rfl⟩ := List.getElem?_eq_some_iff.mp hi
  rw [← slice_flatten_rows h hlt, getElem?_slice, if_pos (by omega)]

/-! ### Rows -/

/-- `l.reshape(n, w)`. -/
def reshape (n w : ℕ) (l : List α) : List (List α) :=
  (List.range n).map fun i => slice l (i * w) (i * w + w)

theorem length_reshape (n w : ℕ) (l : List α) : (reshape n w l).length = n := by simp [reshape]

theorem getElem_reshape {n w : ℕ} {l : List α} {i : ℕ} (hi : i < (reshape n w l).length) :
    (reshape n w l)[i] = slice l (i * w) (i * w + w) := by simp [reshape]

theorem length_of_mem_reshape {n w : ℕ} {l : List α} (hl : l.length = n * w) {r : List α}
    (hr : r ∈ reshape n w l) : r.length = w := by
  obtain ⟨i, hi, rfl⟩ := List.mem_map.mp hr
  have h : (i + 1) * w ≤ n * w := Nat.mul_le_mul_right w (List.mem_range.mp hi)
  rw [length_slice (by rw [hl, ← Nat.succ_mul]; exact h)]
  omega

theorem reshape_flatten {L : List (List α)} {w : ℕ} (h : ∀ r ∈ L, r.length = w) :
    reshape L.length w L.flatten = L := by
  refine List.ext_getElem (length_reshape _ _ _) fun i h1 h2 => ?_
  rw [getElem_reshape, slice_flatten_rows h h2]

theorem flatten_reshape (w : ℕ) : ∀ (n : ℕ) (l : List α), l.length = n * w →
    (reshape n w l).flatten = l
  | 0, l, h => by
    have : l = [] := List.length_eq_zero_iff.mp (by rw [h, Nat.zero_mul])
    simp [reshape, this]
  | n + 1, l, h => by
    have ih := flatten_reshape w n (l.take (n * w)) (by
      rw [List.length_take, h, Nat.min_eq_left (Nat.mul_le_mul_right w n.le_succ)])
    have hr : reshape n w (l.take (n * w)) = reshape n w l := by
      refine List.map_congr_left fun i hi => ?_
      have hi' : (i + 1) * w ≤ n * w := Nat.mul_le_mul_right w (List.mem_range.mp hi)
      rw [take_eq_slice, slice_slice _ (by rw [Nat.succ_mul] at hi'; omega)]
      simp
    rw [hr] at ih
    have hs : reshape (n + 1) w l = reshape n w l ++ [slice l (n * w) (n * w + w)] := by
      simp [reshape, List.range_succ]
    rw [hs, List.flatten_append, ih, List.flatten_singleton, take_eq_slice,
      slice_append_slice _ (Nat.zero_le _) (Nat.le_add_right _ _), ← Nat.succ_mul, ← h, slice_full]

/-! ### Gathering and scattering -/

/-- `l[idx]`. -/
def gather [Inhabited α] (idx : List ℕ) (l : List α) : List α := idx.map fun i => l.getD i default

/-- `out[idx] = xs`. -/
def scatter (idx : List ℕ) (xs out : List α) : List α :=
  (idx.zip xs).foldl (fun o p => o.set p.1 p.2) out

theorem length_foldl_set (ps : List (ℕ × α)) : ∀ out : List α,
    (ps.foldl (fun o p => o.set p.1 p.2) out).length = out.length := by
  induction ps with
  | nil => intro out; rfl
  | cons p ps ih => intro out; rw [List.foldl_cons, ih, List.length_set]

theorem length_scatter (idx : List ℕ) (xs out : List α) :
    (scatter idx xs out).length = out.length := length_foldl_set _ _

theorem getElem?_foldl_set_of_notMem (ps : List (ℕ × α)) {q : ℕ} : ∀ out : List α,
    (∀ p ∈ ps, p.1 ≠ q) → (ps.foldl (fun o p => o.set p.1 p.2) out)[q]? = out[q]? := by
  induction ps with
  | nil => intro out _; rfl
  | cons p ps ih =>
    intro out h
    rw [List.foldl_cons, ih _ fun p' hp' => h p' (List.mem_cons_of_mem _ hp'),
      List.getElem?_set_ne (h p List.mem_cons_self)]

theorem getElem?_scatter : ∀ (idx : List ℕ) (xs out : List α), idx.Nodup →
    (∀ p ∈ idx, p < out.length) → ∀ k (hk : k < idx.length), k < xs.length →
    (scatter idx xs out)[idx[k]]? = xs[k]?
  | p :: idx, x :: xs, out, hnd, hlt, 0, _, _ => by
    have hp := (List.nodup_cons.mp hnd).1
    simp only [scatter, List.zip_cons_cons, List.foldl_cons, List.getElem_cons_zero,
      List.getElem?_cons_zero]
    rw [getElem?_foldl_set_of_notMem]
    · rw [List.getElem?_set_self (hlt p List.mem_cons_self)]
    · rintro ⟨q, y⟩ hq rfl
      exact hp (List.of_mem_zip hq).1
  | p :: idx, x :: xs, out, hnd, hlt, k + 1, hk, hx => by
    have ih := getElem?_scatter idx xs (out.set p x) (List.nodup_cons.mp hnd).2
      (fun q hq => by rw [List.length_set]; exact hlt q (List.mem_cons_of_mem _ hq)) k
      (by simpa using hk) (by simpa using hx)
    simpa [scatter] using ih

/-- **Gathering undoes scattering.** -/
theorem gather_scatter [Inhabited α] {idx : List ℕ} {xs out : List α} (hnd : idx.Nodup)
    (hlt : ∀ p ∈ idx, p < out.length) (hl : idx.length = xs.length) :
    gather idx (scatter idx xs out) = xs := by
  refine List.ext_getElem (by simp [gather, hl]) fun k h1 h2 => ?_
  have h := getElem?_scatter idx xs out hnd hlt k (by omega) h2
  simp only [gather, List.getElem_map, List.getD_eq_getElem?_getD]
  rw [h, List.getElem?_eq_getElem h2, Option.getD_some]

/-- Scattering to all positions keeps nothing of the old content. -/
theorem forall_mem_scatter {idx : List ℕ} {xs out : List α} {P : α → Prop}
    (hcov : ∀ q < out.length, q ∈ idx) (hnd : idx.Nodup) (hlt : ∀ p ∈ idx, p < out.length)
    (hl : idx.length = xs.length) (h : ∀ x ∈ xs, P x) : ∀ x ∈ scatter idx xs out, P x := by
  intro x hx
  obtain ⟨q, hq, rfl⟩ := List.getElem_of_mem hx
  rw [length_scatter] at hq
  obtain ⟨k, hk, rfl⟩ := List.getElem_of_mem (hcov q hq)
  have he := getElem?_scatter idx xs out hnd hlt k hk (by omega)
  rw [List.getElem?_eq_getElem (by rw [length_scatter]; exact hq),
    List.getElem?_eq_getElem (by omega)] at he
  rw [Option.some.inj he]
  exact h _ (List.getElem_mem _)

/-! ### Running sums -/

/-- Running sums, starting from `acc`. -/
def cumsumFrom : ℕ → List ℕ → List ℕ
  | _, [] => []
  | acc, x :: xs => (acc + x) :: cumsumFrom (acc + x) xs

/-- `np.cumsum(l)`. -/
def cumsum (l : List ℕ) : List ℕ := cumsumFrom 0 l

theorem length_cumsumFrom : ∀ (acc : ℕ) (l : List ℕ), (cumsumFrom acc l).length = l.length
  | _, [] => rfl
  | acc, x :: xs => by simp [cumsumFrom, length_cumsumFrom]

theorem getD_cumsumFrom : ∀ (acc : ℕ) (l : List ℕ) (j : ℕ), j < l.length →
    (cumsumFrom acc l).getD j 0 = acc + (l.take (j + 1)).sum
  | acc, x :: xs, 0, _ => by simp [cumsumFrom]
  | acc, x :: xs, j + 1, hj => by
    rw [cumsumFrom, List.getD_cons_succ, getD_cumsumFrom (acc + x) xs j (by simpa using hj)]
    simp [Nat.add_assoc]

theorem length_cumsum (l : List ℕ) : (cumsum l).length = l.length := length_cumsumFrom 0 l

/-- The `j`-th cut of `np.cumsum((0, *ws))` is the total width before column `j`. -/
theorem getD_cumsum_zero_cons (ws : List ℕ) {j : ℕ} (hj : j ≤ ws.length) :
    (cumsum (0 :: ws)).getD j 0 = (ws.take j).sum := by
  unfold cumsum
  rw [getD_cumsumFrom 0 (0 :: ws) j (by simp; omega)]
  simp

/-- The consecutive pairs of cuts `zip(cuts[:-1], cuts[1:])`. -/
theorem zip_cumsum_tail (ws : List ℕ) :
    (cumsum (0 :: ws)).dropLast.zip (cumsum (0 :: ws)).tail =
      (List.range ws.length).map fun j => ((ws.take j).sum, (ws.take (j + 1)).sum) := by
  have hl : (cumsum (0 :: ws)).length = ws.length + 1 := by simp [length_cumsum]
  refine List.ext_getElem (by simp [hl]) fun j h1 h2 => ?_
  have hj : j < ws.length := by simpa using h2
  have hg : ∀ i (hi : i < (cumsum (0 :: ws)).length), (cumsum (0 :: ws))[i] = (ws.take i).sum := by
    intro i hi
    rw [← List.getD_eq_getElem _ 0 hi, getD_cumsum_zero_cons _ (by omega)]
  simp [List.getElem_dropLast, hg]

theorem sum_take_succ (ws : List ℕ) {j : ℕ} (hj : j < ws.length) :
    (ws.take (j + 1)).sum = (ws.take j).sum + ws.getD j 0 := by
  rw [List.take_add_one, List.sum_append, List.getElem?_eq_getElem hj, List.getD_eq_getElem _ 0 hj]
  simp

theorem sum_take_le (ws : List ℕ) (j : ℕ) : (ws.take j).sum ≤ ws.sum := by
  conv_rhs => rw [← List.take_append_drop j ws, List.sum_append]
  exact Nat.le_add_right _ _

theorem sum_take_mono (ws : List ℕ) {i j : ℕ} (h : i ≤ j) : (ws.take i).sum ≤ (ws.take j).sum := by
  have := sum_take_le (ws.take j) i
  rwa [List.take_take, Nat.min_eq_left h] at this

/-! ### Column blocks -/

/-- Rows cut at the given pairs of columns, stored pair by pair. -/
def columns (cuts : List (ℕ × ℕ)) (rows : List (List α)) : List α :=
  (cuts.map fun ab => (rows.map fun r => slice r ab.1 ab.2).flatten).flatten

/-- The rows that column blocks at the given pairs of offsets hold, `n` rows each. -/
def uncolumns (n : ℕ) (cuts : List (ℕ × ℕ)) (buf : List α) : List (List α) :=
  (List.range n).map fun i => (cuts.map fun ab =>
    (reshape n ((ab.2 - ab.1) / n) (slice buf ab.1 ab.2)).getD i []).flatten

/-- The pairs of columns that widths `ws` cut. -/
def pairsOf (ws : List ℕ) : List (ℕ × ℕ) :=
  (List.range ws.length).map fun j => ((ws.take j).sum, (ws.take (j + 1)).sum)

theorem length_block {rows : List (List α)} {ws : List ℕ} (h : ∀ r ∈ rows, r.length = ws.sum)
    {j : ℕ} (hj : j < ws.length) :
    ((rows.map fun r => slice r (ws.take j).sum (ws.take (j + 1)).sum).flatten).length =
      rows.length * ws.getD j 0 := by
  have hr : ∀ r ∈ rows.map (fun r => slice r (ws.take j).sum (ws.take (j + 1)).sum),
      r.length = ws.getD j 0 := by
    intro q hq
    obtain ⟨r, hr, rfl⟩ := List.mem_map.mp hq
    rw [length_slice (by rw [h r hr]; exact sum_take_le ws _), sum_take_succ ws hj]
    omega
  rw [length_flatten_rows hr, List.length_map]

theorem slice_columns_block {rows : List (List α)} {ws : List ℕ}
    (h : ∀ r ∈ rows, r.length = ws.sum) {j : ℕ} (hj : j < ws.length) :
    slice (columns (pairsOf ws) rows) (rows.length * (ws.take j).sum)
        (rows.length * (ws.take (j + 1)).sum) =
      (rows.map fun r => slice r (ws.take j).sum (ws.take (j + 1)).sum).flatten := by
  have hsum : ∀ m ≤ ws.length, ((((pairsOf ws).map fun ab =>
      (rows.map fun r => slice r ab.1 ab.2).flatten).take m).map List.length).sum =
        rows.length * (ws.take m).sum := by
    intro m
    induction m with
    | zero => simp
    | succ m ih =>
      intro hm
      rw [List.take_add_one, List.map_append, List.sum_append, ih (by omega), sum_take_succ ws hm,
        Nat.mul_add]
      simp only [pairsOf, List.map_map, List.getElem?_map, List.getElem?_range hm, Option.map_some,
        Option.toList_some, List.map_cons, List.map_nil, List.sum_cons, List.sum_nil, Nat.add_zero,
        Function.comp_apply]
      rw [length_block h hm]
  have hjl : j < ((pairsOf ws).map fun ab =>
      (rows.map fun r => slice r ab.1 ab.2).flatten).length := by simpa [pairsOf] using hj
  have hs := slice_flatten _ j hjl
  rw [hsum j hj.le] at hs
  have hg : ((pairsOf ws).map fun ab => (rows.map fun r => slice r ab.1 ab.2).flatten)[j] =
      (rows.map fun r => slice r (ws.take j).sum (ws.take (j + 1)).sum).flatten := by
    simp [pairsOf]
  rw [hg, length_block h hj, ← Nat.mul_add, ← sum_take_succ ws hj] at hs
  exact hs

theorem length_columns {rows : List (List α)} {ws : List ℕ} (h : ∀ r ∈ rows, r.length = ws.sum) :
    (columns (pairsOf ws) rows).length = rows.length * ws.sum := by
  rw [columns, List.length_flatten, List.map_map]
  have hb : ((pairsOf ws).map (List.length ∘ fun ab =>
      (rows.map fun r => slice r ab.1 ab.2).flatten)) =
        (List.range ws.length).map fun j => rows.length * ws.getD j 0 := by
    rw [pairsOf, List.map_map]
    refine List.map_congr_left fun j hj => ?_
    exact length_block h (List.mem_range.mp hj)
  rw [hb, List.sum_map_mul_left]
  congr 2
  refine List.ext_getElem (by simp) fun i h1 h2 => ?_
  rw [List.getElem_map, List.getElem_range, List.getD_eq_getElem _ 0 h2]

/-- **Where a row's columns are**: the piece of row `i` in column block `j`. -/
theorem slice_columns {rows : List (List α)} {ws : List ℕ} (h : ∀ r ∈ rows, r.length = ws.sum)
    {i j : ℕ} (hi : i < rows.length) (hj : j < ws.length) :
    slice (columns (pairsOf ws) rows) (rows.length * (ws.take j).sum + i * ws.getD j 0)
        (rows.length * (ws.take j).sum + i * ws.getD j 0 + ws.getD j 0) =
      slice rows[i] (ws.take j).sum (ws.take (j + 1)).sum := by
  have hb := slice_columns_block h hj
  have hw : ∀ r ∈ rows.map (fun r => slice r (ws.take j).sum (ws.take (j + 1)).sum),
      r.length = ws.getD j 0 := by
    intro q hq
    obtain ⟨r, hr, rfl⟩ := List.mem_map.mp hq
    rw [length_slice (by rw [h r hr]; exact sum_take_le ws _), sum_take_succ ws hj]
    omega
  have hrow := slice_flatten_rows hw (i := i) (by simpa using hi)
  rw [← hb, slice_slice] at hrow
  · rw [List.getElem_map] at hrow
    rw [Nat.add_assoc]
    exact hrow
  · have : (i + 1) * ws.getD j 0 ≤ rows.length * ws.getD j 0 := Nat.mul_le_mul_right _ hi
    rw [sum_take_succ ws hj, Nat.mul_add]
    rw [Nat.succ_mul] at this
    omega

theorem flatten_slices (ws : List ℕ) (r : List α) (m : ℕ) (hm : m ≤ ws.length) :
    ((List.range m).map fun j => slice r (ws.take j).sum (ws.take (j + 1)).sum).flatten =
      slice r 0 (ws.take m).sum := by
  induction m with
  | zero => simp [slice_self]
  | succ m ih =>
    rw [List.range_succ, List.map_append, List.flatten_append, ih (by omega)]
    simp only [List.map_cons, List.map_nil, List.flatten_cons, List.flatten_nil, List.append_nil]
    exact slice_append_slice r (Nat.zero_le _) (sum_take_mono ws (Nat.le_succ m))

/-- **Reading column blocks back gives the rows.** -/
theorem uncolumns_columns {rows : List (List α)} {ws : List ℕ}
    (h : ∀ r ∈ rows, r.length = ws.sum) :
    uncolumns rows.length (pairsOf (ws.map (rows.length * ·))) (columns (pairsOf ws) rows) =
      rows := by
  have htake : ∀ j, ((ws.map (rows.length * ·)).take j).sum = rows.length * (ws.take j).sum := by
    intro j; rw [← List.map_take, List.sum_map_mul_left, List.map_id']
  refine List.ext_getElem (by simp [uncolumns]) fun i h1 h2 => ?_
  have hpos : 0 < rows.length := Nat.zero_lt_of_lt h2
  have hpiece : ∀ j ∈ List.range ws.length,
      (reshape rows.length ((rows.length * (ws.take (j + 1)).sum - rows.length * (ws.take j).sum) /
        rows.length) (slice (columns (pairsOf ws) rows) (rows.length * (ws.take j).sum)
          (rows.length * (ws.take (j + 1)).sum))).getD i [] =
        slice rows[i] (ws.take j).sum (ws.take (j + 1)).sum := by
    intro j hj
    have hj' := List.mem_range.mp hj
    have hwd : (rows.length * (ws.take (j + 1)).sum - rows.length * (ws.take j).sum) / rows.length =
        ws.getD j 0 := by
      rw [← Nat.mul_sub, Nat.mul_div_cancel_left _ hpos, sum_take_succ ws hj', Nat.add_sub_cancel_left]
    rw [hwd, List.getD_eq_getElem _ _ (by rw [length_reshape]; exact h2), getElem_reshape,
      slice_slice, ← slice_columns h h2 hj', Nat.add_assoc]
    have : (i + 1) * ws.getD j 0 ≤ rows.length * ws.getD j 0 := Nat.mul_le_mul_right _ h2
    rw [sum_take_succ ws hj', Nat.mul_add]
    rw [Nat.succ_mul] at this
    omega
  have hrow : (uncolumns rows.length (pairsOf (ws.map (rows.length * ·)))
      (columns (pairsOf ws) rows))[i] = ((List.range ws.length).map fun j =>
        slice rows[i] (ws.take j).sum (ws.take (j + 1)).sum).flatten := by
    simp only [uncolumns, List.getElem_map, List.getElem_range]
    congr 1
    rw [show pairsOf (ws.map (rows.length * ·)) = (List.range ws.length).map fun j =>
      (rows.length * (ws.take j).sum, rows.length * (ws.take (j + 1)).sum) by
        simp only [pairsOf, List.length_map, htake], List.map_map]
    exact List.map_congr_left hpiece
  rw [hrow, flatten_slices ws _ _ le_rfl, List.take_length, ← h _ (List.getElem_mem h2), slice_full]

end SkipZFP.Lib.Rows
