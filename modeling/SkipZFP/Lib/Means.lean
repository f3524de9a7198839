import Mathlib.Algebra.Order.Field.Basic
import Mathlib.Algebra.Order.Group.MinMax
import Mathlib.Tactic.Linarith
import Mathlib.Tactic.Ring

/-! # Extrema and bounds of a mean

`foldl_best` says what a loop finds that keeps the better one of two items.

A mean of `s` numbers with sum `l` and `k` more that are at least `x`: as a function of `k`, the bound
`(l + k x) / (s + k)` is monotone, so over a range of `k` it is least at an end.

* `foldl_best`, `foldl_best_map`: one of the items, and no worse than any.
* `min_le_mean`: **the least of the bounds.**
* `mean_le_max`: its mirror image. -/

namespace SkipZFP.Lib.Means

/-! ### Extrema -/

/-- **The best item of a list**, by an operation that keeps the better one of two. -/
theorem foldl_best {α : Type*} (better : α → α → Prop) (num : α → Prop) {op : α → α → α}
    (htrans : ∀ a b c, better a b → better b c → better a c) (hrefl : ∀ a, num a → better a a)
    (hop : ∀ x y, num x → num y → (op x y = x ∨ op x y = y) ∧ better (op x y) x ∧ better (op x y) y)
    (l : List α) (x : α) (hnum : ∀ y ∈ x :: l, num y) :
    l.foldl op x ∈ x :: l ∧ ∀ y ∈ x :: l, better (l.foldl op x) y := by
  induction l generalizing x with
  | nil =>
    refine ⟨List.mem_cons_self, fun y hy => ?_⟩
    rw [List.mem_singleton.mp hy]
    exact hrefl x (hnum x List.mem_cons_self)
  | cons z l ih =>
    have hx := hnum x List.mem_cons_self
    have hz := hnum z (List.mem_cons_of_mem x List.mem_cons_self)
    obtain ⟨hone, hbx, hbz⟩ := hop x z hx hz
    have hnum' : ∀ y ∈ op x z :: l, num y := by
      intro y hy
      rcases List.mem_cons.mp hy with rfl | hy
      · rcases hone with h | h
        · rwa [h]
        · rwa [h]
      · exact hnum y (List.mem_cons_of_mem x (List.mem_cons_of_mem z hy))
    obtain ⟨hmem, hbest⟩ := ih (op x z) hnum'
    have hhead := hbest _ List.mem_cons_self
    rw [List.foldl_cons]
    refine ⟨?_, fun y hy => ?_⟩
    · rcases List.mem_cons.mp hmem with heq | hmem
      · rw [heq]
        rcases hone with h | h
        · simp [h]
        · simp [h]
      · exact List.mem_cons_of_mem x (List.mem_cons_of_mem z hmem)
    · rcases List.mem_cons.mp hy with rfl | hy
      · exact htrans _ _ _ hhead hbx
      rcases List.mem_cons.mp hy with rfl | hy
      · exact htrans _ _ _ hhead hbz
      · exact hbest y (List.mem_cons_of_mem _ hy)

/-- The best value of a function on a list, from a start value. -/
theorem foldl_best_map {α β : Type*} (better : α → α → Prop) (num : α → Prop) {op : α → α → α}
    (htrans : ∀ a b c, better a b → better b c → better a c) (hrefl : ∀ a, num a → better a a)
    (hop : ∀ x y, num x → num y → (op x y = x ∨ op x y = y) ∧ better (op x y) x ∧ better (op x y) y)
    {f : β → α} {l : List β} {x : α} (hx : num x) (hnum : ∀ b ∈ l, num (f b)) :
    (∀ b ∈ l, better ((l.map f).foldl op x) (f b)) ∧
      ((l.map f).foldl op x = x ∨ ∃ b ∈ l, (l.map f).foldl op x = f b) := by
  have hnum' : ∀ y ∈ x :: l.map f, num y := by
    intro y hy
    rcases List.mem_cons.mp hy with rfl | hy
    · exact hx
    · obtain ⟨b, hb, rfl⟩ := List.mem_map.mp hy
      exact hnum b hb
  obtain ⟨hmem, hbest⟩ := foldl_best better num htrans hrefl hop (l.map f) x hnum'
  refine ⟨fun b hb => hbest _ (List.mem_cons_of_mem x (List.mem_map_of_mem hb)), ?_⟩
  rcases List.mem_cons.mp hmem with heq | hmem
  · exact Or.inl heq
  · obtain ⟨b, hb, heq⟩ := List.mem_map.mp hmem
    exact Or.inr ⟨b, hb, heq.symm⟩

/-! ### Means -/

variable {K : Type*} [Field K] [LinearOrder K] [IsStrictOrderedRing K]

/-- **The bound is least at an end.** -/
theorem min_le_mean {s k n : K} (hs : 0 < s) (hk : 0 ≤ k) (hkn : k ≤ n) (l x : K) :
    min (l / s) ((l + n * x) / (s + n)) ≤ (l + k * x) / (s + k) := by
  have hsk : 0 < s + k := by linarith
  have hsn : 0 < s + n := by linarith
  by_cases h : l ≤ s * x
  · -- more numbers of at least `x` can only raise the mean
    refine (min_le_left _ _).trans ?_
    rw [div_le_div_iff₀ hs hsk]
    have hmul := mul_le_mul_of_nonneg_left h hk
    calc l * (s + k) = l * s + k * l := by ring
      _ ≤ l * s + k * (s * x) := by linarith
      _ = (l + k * x) * s := by ring
  · refine (min_le_right _ _).trans ?_
    rw [div_le_div_iff₀ hsn hsk]
    have hmul := mul_le_mul_of_nonneg_left (not_le.mp h).le (sub_nonneg.mpr hkn)
    calc (l + n * x) * (s + k) = l * s + l * k + n * x * k + k * (s * x) + (n - k) * (s * x) := by ring
      _ ≤ l * s + l * k + n * x * k + k * (s * x) + (n - k) * l := by linarith
      _ = (l + k * x) * (s + n) := by ring

theorem mean_le_max {s k n : K} (hs : 0 < s) (hk : 0 ≤ k) (hkn : k ≤ n) (l x : K) :
    (l + k * x) / (s + k) ≤ max (l / s) ((l + n * x) / (s + n)) := by
  have h := min_le_mean hs hk hkn (-l) (-x)
  have hneg : ∀ m, (-l + m * -x) / (s + m) = -((l + m * x) / (s + m)) := fun m => by ring
  rw [hneg, hneg, neg_div, min_neg_neg] at h
  exact neg_le_neg_iff.mp h

end SkipZFP.Lib.Means
