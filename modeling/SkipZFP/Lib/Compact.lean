import SkipZFP.Lib.Rows

/-! # Keeping some items of several lists, in two passes

The first pass counts the items to keep of every list, the prefix sums of the counts are where each
list's items start, and the second pass writes them there. `compact_take`: what was written is the
concatenation of the lists' kept items, whatever the target held before. -/

namespace SkipZFP.Lib.Compact

open SkipZFP.Lib.Rows

variable {α β : Type*}

section
variable (keep : α → Bool) (entry : ℕ → α → β)

/-- The kept items of a list as entries; the first item has number `b`. -/
def kept (b : ℕ) (l : List α) : List β :=
  ((l.zipIdx b).filter fun p => keep p.1).map fun p => entry p.2 p.1

/-- The second pass over one list: item number `b` is next, position `k` is written next. -/
def writeKept : ℕ → List α → ℕ → List β → List β
  | _, [], _, out => out
  | b, x :: l, k, out =>
    if keep x then writeKept (b + 1) l (k + 1) (out.set k (entry b x)) else writeKept (b + 1) l k out

theorem kept_cons (b : ℕ) (x : α) (l : List α) : kept keep entry b (x :: l) =
    if keep x then entry b x :: kept keep entry (b + 1) l else kept keep entry (b + 1) l := by
  unfold kept
  rw [List.zipIdx_cons, List.filter_cons]
  split_ifs <;> rfl

theorem length_kept : ∀ (b : ℕ) (l : List α), (kept keep entry b l).length = l.countP keep
  | _, [] => rfl
  | b, x :: l => by
    rw [kept_cons, List.countP_cons]
    split_ifs
    · rw [List.length_cons, length_kept]
    · rw [length_kept, Nat.add_zero]

/-- The second pass over one list writes its kept items from position `k` on. -/
theorem writeKept_eq : ∀ (b : ℕ) (l : List α) (k : ℕ) (out : List β),
    k + l.countP keep ≤ out.length → writeKept keep entry b l k out =
      out.take k ++ kept keep entry b l ++ out.drop (k + l.countP keep)
  | b, [], k, out, _ => by simp [writeKept, kept]
  | b, x :: l, k, out, h => by
    rw [List.countP_cons] at h ⊢
    rw [writeKept, kept_cons]
    split_ifs at h ⊢ with hx
    · have hk : k < out.length := by omega
      rw [writeKept_eq (b + 1) l (k + 1) _ (by rw [List.length_set]; omega),
        List.take_add_one, List.take_set_of_le le_rfl, List.getElem?_set_self hk,
        List.drop_set_of_lt (by omega)]
      simp [Nat.add_comm, Nat.add_left_comm]
    · exact writeKept_eq (b + 1) l k out h

end

/-- Both passes over the lists `f 0, …, f (n - 1)`, the entries of each made by its own `entry`. -/
def compact (keep : α → Bool) (entry : ℕ → ℕ → α → β) (n : ℕ) (f : ℕ → List α) (out : List β) :
    List β :=
  let starts := cumsum (0 :: (List.range n).map fun c => (f c).countP keep)
  (List.range n).foldl (fun out c => writeKept keep (entry c) 0 (f c) (starts.getD c 0) out) out

/-- The kept items of all lists. -/
def keptAll (keep : α → Bool) (entry : ℕ → ℕ → α → β) (n : ℕ) (f : ℕ → List α) : List β :=
  (List.range n).flatMap fun c => kept keep (entry c) 0 (f c)

section
variable (keep : α → Bool) (entry : ℕ → ℕ → α → β) (f : ℕ → List α)

theorem keptAll_succ (n : ℕ) : keptAll keep entry (n + 1) f =
    keptAll keep entry n f ++ kept keep (entry n) 0 (f n) := by
  simp [keptAll, List.range_succ]

theorem length_keptAll (n : ℕ) :
    (keptAll keep entry n f).length = ((List.range n).map fun c => (f c).countP keep).sum := by
  simp [keptAll, List.length_flatMap, length_kept]

theorem getD_starts {n c : ℕ} (hc : c ≤ n) :
    (cumsum (0 :: (List.range n).map fun c => (f c).countP keep)).getD c 0 =
      (keptAll keep entry c f).length := by
  rw [getD_cumsum_zero_cons _ (by simpa using hc), ← List.map_take, List.take_range,
    Nat.min_eq_left hc, length_keptAll]

theorem foldl_writeKept (n : ℕ) (out : List β) (h : (keptAll keep entry n f).length ≤ out.length) :
    ∀ m ≤ n, (List.range m).foldl (fun out c => writeKept keep (entry c) 0 (f c)
        ((cumsum (0 :: (List.range n).map fun c => (f c).countP keep)).getD c 0) out) out =
      keptAll keep entry m f ++ out.drop (keptAll keep entry m f).length
  | 0, _ => by simp [keptAll]
  | m + 1, hm => by
    have hlen : (keptAll keep entry (m + 1) f).length ≤ (keptAll keep entry n f).length := by
      rw [length_keptAll, length_keptAll]
      have := sum_take_le ((List.range n).map fun c => (f c).countP keep) (m + 1)
      rwa [← List.map_take, List.take_range, Nat.min_eq_left hm] at this
    rw [keptAll_succ, List.length_append, length_kept] at hlen
    rw [List.range_succ, List.foldl_append, foldl_writeKept n out h m (by omega), List.foldl_cons,
      List.foldl_nil, getD_starts keep entry f (by omega), writeKept_eq, keptAll_succ]
    · simp [length_kept, List.drop_append, Nat.add_comm]
    · rw [List.length_append, List.length_drop]
      omega

theorem compact_take (n : ℕ) (out : List β) (h : (keptAll keep entry n f).length ≤ out.length) :
    (compact keep entry n f out).take (keptAll keep entry n f).length = keptAll keep entry n f := by
  unfold compact
  rw [foldl_writeKept keep entry f n out h n le_rfl, List.take_left']
  rfl

theorem getD_starts_last (n : ℕ) :
    (cumsum (0 :: (List.range n).map fun c => (f c).countP keep)).getD n 0 =
      (keptAll keep entry n f).length := getD_starts keep entry f le_rfl

end

end SkipZFP.Lib.Compact
