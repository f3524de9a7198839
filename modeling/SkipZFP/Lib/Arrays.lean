import Mathlib.Data.Fin.Basic
import Mathlib.Data.List.Nodup
import Mathlib.Logic.Function.Basic

/-! # Arrays that are written by a loop

An array is a function of its index.

* `scatter_eq`: a loop that writes value `i` at index `f i`, for different indices.
* `foldl_disjoint`: a loop whose steps each read and write a part of their own. -/

namespace SkipZFP.Lib.Arrays

variable {ι κ α : Type*}

/-- Writes `v i` at index `f i`, for every `i` of a list. -/
def scatter [DecidableEq κ] (l : List ι) (f : ι → κ) (v : ι → α) (a : κ → α) : κ → α :=
  l.foldl (fun b i => Function.update b (f i) (v i)) a

theorem scatter_of_notMem [DecidableEq κ] {l : List ι} {f : ι → κ} (v : ι → α) (a : κ → α) {k : κ}
    (hk : ∀ i ∈ l, f i ≠ k) : scatter l f v a k = a k := by
  induction l generalizing a with
  | nil => rfl
  | cons j l ih =>
    have h := ih (Function.update a (f j) (v j)) fun i hi => hk i (List.mem_cons_of_mem j hi)
    rw [Function.update_of_ne (hk j List.mem_cons_self).symm] at h
    exact h

/-- **What a scatter writes**, at different indices. -/
theorem scatter_eq [DecidableEq κ] {l : List ι} {f : ι → κ} (v : ι → α) (a : κ → α) (hl : l.Nodup)
    (hf : Function.Injective f) {i : ι} (hi : i ∈ l) : scatter l f v a (f i) = v i := by
  induction l generalizing a with
  | nil => cases hi
  | cons j l ih =>
    obtain ⟨hj, hl⟩ := List.nodup_cons.mp hl
    by_cases hij : i = j
    · subst hij
      have h := scatter_of_notMem v (Function.update a (f i) (v i)) (k := f i) fun i' hi' heq =>
        hj (hf heq ▸ hi')
      rw [Function.update_self] at h
      exact h
    · exact ih (Function.update a (f j) (v j)) hl (List.mem_of_ne_of_mem hij hi)

/-- **A loop whose steps are apart.** A step `p` reads and writes only its part `S p` of the array. -/
theorem foldl_disjoint {S : ι → κ → Prop} {g : (κ → α) → ι → κ → α}
    (hframe : ∀ a p k, ¬ S p k → g a p k = a k)
    (hlocal : ∀ a b p, (∀ k, S p k → a k = b k) → ∀ k, S p k → g a p k = g b p k) :
    ∀ (l : List ι), l.Pairwise (fun p q => ∀ k, S p k → ¬ S q k) → ∀ (a : κ → α), ∀ p ∈ l, ∀ k, S p k →
      l.foldl g a k = g a p k := by
  have hkeep : ∀ (l : List ι) (a : κ → α) (k : κ), (∀ p ∈ l, ¬ S p k) → l.foldl g a k = a k := by
    intro l
    induction l with
    | nil => exact fun _ _ _ => rfl
    | cons q l ih =>
      intro a k hk
      rw [List.foldl_cons, ih _ _ fun p hp => hk p (List.mem_cons_of_mem q hp),
        hframe a q k (hk q List.mem_cons_self)]
  intro l
  induction l with
  | nil => exact fun _ _ p hp => absurd hp List.not_mem_nil
  | cons q l ih =>
    intro hpair a p hp k hk
    obtain ⟨hq, hpair⟩ := List.pairwise_cons.mp hpair
    rw [List.foldl_cons]
    rcases List.mem_cons.mp hp with rfl | hpl
    · exact hkeep l _ k fun p' hp' => hq p' hp' k hk
    · -- the first step leaves the part of `p` alone
      rw [ih hpair (g a q) p hpl k hk]
      refine hlocal _ _ p (fun k' hk' => hframe a q k' fun hqk => ?_) k hk
      exact hq p hpl k' hqk hk'

end SkipZFP.Lib.Arrays
