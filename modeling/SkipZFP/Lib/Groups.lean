import Mathlib.Algebra.BigOperators.Group.List.Basic
import Mathlib.Algebra.Order.Ring.Nat
import Mathlib.Data.List.SplitBy
import Mathlib.Tactic.Ring

/-! # Grouping neighbours

`List.splitBy` splits a list where two neighbours do not belong together. What the groups cost adds up
over the neighbours that do (`joined`), so the cost of a grouping is known without the groups.

* `joined_splitBy`: the groups have the pairs of the list.
* `length_splitBy`: **there are as many groups as items that are not joined to the one before**.
* `joined_mono`, `joined_le`: joining more pairs, and what a pair costs at most. -/

namespace SkipZFP.Lib.Groups

variable {α : Type*} {r r' : α → α → Bool} {c : α → α → ℕ}

/-- What the neighbours that belong together cost. -/
def joined (r : α → α → Bool) (c : α → α → ℕ) : List α → ℕ
  | [] => 0
  | [_] => 0
  | a :: b :: l => (if r a b then c a b else 0) + joined r c (b :: l)

theorem joined_append : ∀ {l m : List α}, (∀ x ∈ l.getLast?, ∀ y ∈ m.head?, r x y = false) →
    joined r c (l ++ m) = joined r c l + joined r c m
  | [], m, _ => (Nat.zero_add _).symm
  | [a], [], _ => rfl
  | [a], b :: m, h => by
    have hab : r a b = false := h a rfl b rfl
    simp [joined, hab]
  | a :: b :: l, m, h => by
    have ih := joined_append (l := b :: l) (m := m) fun x hx => h x (by simpa using hx)
    rw [List.cons_append, List.cons_append, joined, joined, ← List.cons_append, ih, Nat.add_assoc]

theorem joined_flatten : ∀ {gs : List (List α)}, [] ∉ gs →
    (gs.IsChain fun a b => ∃ ha hb, r (a.getLast ha) (b.head hb) = false) →
      (gs.map (joined r c)).sum = joined r c gs.flatten
  | [], _, _ => rfl
  | [g], _, _ => by simp
  | g :: g' :: gs, hne, h => by
    rw [List.isChain_cons_cons] at h
    obtain ⟨⟨hg, hg', hcut⟩, htail⟩ := h
    have ih := joined_flatten (fun hmem => hne (List.mem_cons_of_mem g hmem)) htail
    rw [List.map_cons, List.sum_cons, ih, List.flatten_cons (l := g), joined_append fun x hx y hy => ?_]
    have hx' : g.getLast hg = x := by rwa [List.getLast?_eq_some_getLast hg, Option.mem_some_iff] at hx
    have hy' : g'.head hg' = y := by
      cases g' with
      | nil => exact absurd rfl hg'
      | cons z g' => exact Option.some.inj hy
    rwa [hx', hy'] at hcut

theorem joined_splitBy (l : List α) : ((l.splitBy r).map (joined r c)).sum = joined r c l := by
  rw [joined_flatten (List.nil_notMem_splitBy r l) (List.isChain_getLast_head_splitBy r l),
    List.flatten_splitBy]

theorem joined_one_of_isChain : ∀ {g : List α}, g ≠ [] → (g.IsChain fun a b => r a b) →
    joined r (fun _ _ => 1) g + 1 = g.length
  | [], h, _ => absurd rfl h
  | [a], _, _ => rfl
  | a :: b :: g, _, h => by
    rw [List.isChain_cons_cons] at h
    have ih := joined_one_of_isChain (List.cons_ne_nil b g) h.2
    rw [joined, if_pos h.1, List.length_cons, ← ih]
    omega

theorem length_splitBy (l : List α) : (l.splitBy r).length + joined r (fun _ _ => 1) l = l.length := by
  have hsum : ∀ gs : List (List α), (∀ g ∈ gs, joined r (fun _ _ => 1) g + 1 = g.length) →
      gs.length + (gs.map (joined r fun _ _ => 1)).sum = gs.flatten.length := by
    intro gs
    induction gs with
    | nil => simp
    | cons g gs ih =>
      intro h
      have hg := h g List.mem_cons_self
      have ih := ih fun g' hg' => h g' (List.mem_cons_of_mem g hg')
      rw [List.length_cons, List.map_cons, List.sum_cons, List.flatten_cons, List.length_append]
      omega
  have h := hsum (l.splitBy r) fun g hg =>
    joined_one_of_isChain (List.ne_nil_of_mem_splitBy hg) (List.isChain_of_mem_splitBy hg)
  rwa [joined_splitBy, List.flatten_splitBy] at h

theorem joined_mono : ∀ {l : List α}, (∀ a ∈ l, ∀ b, r a b → r' a b) → joined r c l ≤ joined r' c l
  | [], _ => le_rfl
  | [_], _ => le_rfl
  | a :: b :: l, h => by
    have ih : joined r c (b :: l) ≤ joined r' c (b :: l) :=
      joined_mono fun x hx => h x (List.mem_cons_of_mem a hx)
    have hab := h a List.mem_cons_self b
    rw [joined, joined]
    by_cases hr : r a b
    · rw [if_pos hr, if_pos (hab hr)]
      omega
    · rw [if_neg hr]
      omega

theorem joined_le {k : ℕ} (hk : ∀ a b, r a b → c a b ≤ k) : ∀ l : List α,
    joined r c l ≤ k * joined r (fun _ _ => 1) l
  | [] => Nat.zero_le _
  | [_] => Nat.zero_le _
  | a :: b :: l => by
    have ih := joined_le hk (b :: l)
    rw [joined, joined, Nat.mul_add]
    by_cases hr : r a b
    · have := hk a b hr
      rw [if_pos hr, if_pos hr, Nat.mul_one]
      omega
    · rw [if_neg hr, if_neg hr]
      omega

end SkipZFP.Lib.Groups
