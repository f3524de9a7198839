import Mathlib.Algebra.BigOperators.Fin
import Mathlib.Data.Fin.VecNotation
import Mathlib.Data.List.Range
import Mathlib.Logic.Equiv.Basic
import Mathlib.Tactic.FinCases
import Mathlib.Tactic.Linarith
import Mathlib.Tactic.Ring

/-! # Three-dimensional grids in C order

A shape or an index is a triple `Tri`. `ravel s i` is the position of index `i` in an array of shape
`s` whose last axis changes fastest, `unravel s` its inverse, and `indices s` lists all indices in
that order, as three nested loops do.

* `ravel_unravel`, `unravel_ravel`: the two are inverse on `[0, volume s)` and the indices inside `s`.
* `join`: an index of a grid of tiles and an index in a tile make an index of the whole; `outer` and
  `inner` take it apart again.
* `rank s σ`: the position an index gets when the axes are visited in the order `σ`, a permutation of
  the positions (`rank_lt`, `rank_inj`, `unrank_rank`). -/

namespace SkipZFP.Lib.Grid

/-- Three lengths, or three indices, one per axis. -/
abbrev Tri := Fin 3 → ℕ

/-- The axes are numbered from 0. -/
instance axes_ne_zero : NeZero (3 : ℕ) := ⟨by decide⟩

/-- The index `i` lies in an array of shape `s`. -/
def Inside (s i : Tri) : Prop := ∀ a, i a < s a

instance (s i : Tri) : Decidable (Inside s i) := by unfold Inside; infer_instance

/-- Number of indices of an array of shape `s`. -/
def volume (s : Tri) : ℕ := s 0 * s 1 * s 2

/-- Position of the index `i` in C order. -/
def ravel (s i : Tri) : ℕ := (i 0 * s 1 + i 1) * s 2 + i 2

/-- Index at position `k` in C order. -/
def unravel (s : Tri) (k : ℕ) : Tri := ![k / (s 1 * s 2), k / s 2 % s 1, k % s 2]

/-- All indices, the last axis changing fastest. -/
def indices (s : Tri) : List Tri :=
  (List.range (s 0)).flatMap fun x => (List.range (s 1)).flatMap fun y =>
    (List.range (s 2)).map fun z => ![x, y, z]

theorem tri_ext {i j : Tri} (h0 : i 0 = j 0) (h1 : i 1 = j 1) (h2 : i 2 = j 2) : i = j := by
  funext a
  fin_cases a
  · exact h0
  · exact h1
  · exact h2

theorem inside_iff {s i : Tri} : Inside s i ↔ i 0 < s 0 ∧ i 1 < s 1 ∧ i 2 < s 2 := by
  constructor
  · intro h; exact ⟨h 0, h 1, h 2⟩
  · rintro ⟨h0, h1, h2⟩ a
    fin_cases a
    · exact h0
    · exact h1
    · exact h2

theorem volume_pos {s : Tri} (h : ∀ a, 0 < s a) : 0 < volume s :=
  Nat.mul_pos (Nat.mul_pos (h 0) (h 1)) (h 2)

theorem pos_of_volume_pos {s : Tri} (h : 0 < volume s) (a : Fin 3) : 0 < s a := by
  refine Nat.pos_of_ne_zero fun h0 => h.ne' ?_
  have hp : volume s = ∏ b, s b := by rw [Fin.prod_univ_three]; rfl
  rw [hp, Finset.prod_eq_zero (Finset.mem_univ a) h0]

/-! ### Positions and indices -/

theorem mul_add_lt {a b m n : ℕ} (ha : a < m) (hb : b < n) : a * n + b < m * n := by
  calc a * n + b < a * n + n := by omega
    _ = (a + 1) * n := by ring
    _ ≤ m * n := Nat.mul_le_mul_right n ha

theorem ravel_lt {s i : Tri} (h : Inside s i) : ravel s i < volume s :=
  mul_add_lt (mul_add_lt (h 0) (h 1)) (h 2)

theorem inside_unravel {s : Tri} {k : ℕ} (hk : k < volume s) : Inside s (unravel s k) := by
  have hp := pos_of_volume_pos (Nat.zero_lt_of_lt hk)
  refine inside_iff.mpr ⟨?_, Nat.mod_lt _ (hp 1), Nat.mod_lt _ (hp 2)⟩
  show k / (s 1 * s 2) < s 0
  rw [Nat.div_lt_iff_lt_mul (Nat.mul_pos (hp 1) (hp 2)), ← Nat.mul_assoc]
  exact hk

theorem ravel_unravel (s : Tri) (k : ℕ) : ravel s (unravel s k) = k := by
  show (k / (s 1 * s 2) * s 1 + k / s 2 % s 1) * s 2 + k % s 2 = k
  rw [Nat.mul_comm (s 1), ← Nat.div_div_eq_div_mul, Nat.div_add_mod', Nat.div_add_mod']

theorem mul_add_div_of_lt {a b n : ℕ} (hb : b < n) : (a * n + b) / n = a := by
  rw [Nat.mul_comm, Nat.mul_add_div (Nat.zero_lt_of_lt hb), Nat.div_eq_of_lt hb, Nat.add_zero]

theorem mul_add_mod_of_lt {a b n : ℕ} (hb : b < n) : (a * n + b) % n = b := by
  rw [Nat.mul_comm, Nat.mul_add_mod, Nat.mod_eq_of_lt hb]

theorem unravel_ravel {s i : Tri} (h : Inside s i) : unravel s (ravel s i) = i := by
  refine tri_ext ?_ ?_ ?_
  · show ravel s i / (s 1 * s 2) = i 0
    unfold ravel
    rw [Nat.mul_comm (s 1), ← Nat.div_div_eq_div_mul, mul_add_div_of_lt (h 2),
      mul_add_div_of_lt (h 1)]
  · show ravel s i / s 2 % s 1 = i 1
    unfold ravel
    rw [mul_add_div_of_lt (h 2), mul_add_mod_of_lt (h 1)]
  · exact mul_add_mod_of_lt (h 2)

/-! ### The list of all indices -/

/-- Two nested loops are one loop over the positions. -/
theorem flatMap_range_mul {α : Type*} (f : ℕ → ℕ → α) (n : ℕ) : ∀ m,
    ((List.range m).flatMap fun x => (List.range n).map (f x)) =
      (List.range (m * n)).map fun k => f (k / n) (k % n)
  | 0 => by simp
  | m + 1 => by
    rw [List.range_succ, List.flatMap_append, flatMap_range_mul f n m, Nat.succ_mul,
      List.range_add, List.map_append, List.map_map]
    congr 1
    simp only [List.flatMap_cons, List.flatMap_nil, List.append_nil]
    refine List.map_congr_left fun k hk => ?_
    have hk' := List.mem_range.mp hk
    simp only [Function.comp_apply, mul_add_div_of_lt hk', mul_add_mod_of_lt hk']

theorem indices_eq (s : Tri) : indices s = (List.range (volume s)).map (unravel s) := by
  have h : ∀ x, ((List.range (s 1)).flatMap fun y => (List.range (s 2)).map fun z =>
      (![x, y, z] : Tri)) = (List.range (s 1 * s 2)).map fun k => ![x, k / s 2, k % s 2] :=
    fun x => flatMap_range_mul (fun y z => ![x, y, z]) (s 2) (s 1)
  unfold indices
  simp only [h]
  rw [flatMap_range_mul (fun x k => (![x, k / s 2, k % s 2] : Tri)), ← Nat.mul_assoc]
  refine List.map_congr_left fun k _ => tri_ext rfl ?_ ?_
  · show k % (s 1 * s 2) / s 2 = k / s 2 % s 1
    rw [Nat.mul_comm, Nat.mod_mul_right_div_self]
  · exact Nat.mod_mul_left_mod _ _ _

theorem length_indices (s : Tri) : (indices s).length = volume s := by
  rw [indices_eq]; simp

theorem getElem_indices (s : Tri) {k : ℕ} (hk : k < (indices s).length) :
    (indices s)[k] = unravel s k := by
  simp [indices_eq]

theorem mem_indices {s i : Tri} : i ∈ indices s ↔ Inside s i := by
  simp only [indices, List.mem_flatMap, List.mem_map, List.mem_range, inside_iff]
  constructor
  · rintro ⟨x, hx, y, hy, z, hz, rfl⟩; exact ⟨hx, hy, hz⟩
  · rintro ⟨h0, h1, h2⟩; exact ⟨i 0, h0, i 1, h1, i 2, h2, tri_ext rfl rfl rfl⟩

theorem nodup_indices (s : Tri) : (indices s).Nodup := by
  rw [indices_eq]
  refine List.Nodup.map_on (fun k _ l _ h => ?_) List.nodup_range
  rw [← ravel_unravel s k, h, ravel_unravel]

/-! ### Tiles -/

/-- The shape of a grid of `g` tiles of shape `u`. -/
def scale (g u : Tri) : Tri := fun a => g a * u a

/-- The index at `r` in tile `o`. -/
def join (u o r : Tri) : Tri := fun a => o a * u a + r a

def outer (u i : Tri) : Tri := fun a => i a / u a

def inner (u i : Tri) : Tri := fun a => i a % u a

theorem volume_scale (g u : Tri) : volume (scale g u) = volume g * volume u := by
  unfold volume scale; ring

theorem inside_join {g u o r : Tri} (ho : Inside g o) (hr : Inside u r) :
    Inside (scale g u) (join u o r) := fun a => mul_add_lt (ho a) (hr a)

theorem outer_join {u o r : Tri} (hr : Inside u r) : outer u (join u o r) = o :=
  funext fun a => mul_add_div_of_lt (hr a)

theorem inner_join {u o r : Tri} (hr : Inside u r) : inner u (join u o r) = r :=
  funext fun a => mul_add_mod_of_lt (hr a)

theorem join_outer_inner (u i : Tri) : join u (outer u i) (inner u i) = i :=
  funext fun a => Nat.div_add_mod' (i a) (u a)

theorem inside_outer {g u i : Tri} (hi : Inside (scale g u) i) : Inside g (outer u i) := fun a =>
  Nat.div_lt_of_lt_mul (by rw [Nat.mul_comm]; exact hi a)

theorem inside_inner {g u i : Tri} (hi : Inside (scale g u) i) : Inside u (inner u i) := fun a =>
  Nat.mod_lt _ (Nat.pos_of_mul_pos_left (Nat.zero_lt_of_lt (hi a)))

theorem join_join (u v p q r : Tri) :
    join v (join u p q) r = join (scale u v) p (join v q r) := by
  funext a; unfold join scale; ring

theorem scale_scale (g u v : Tri) : scale g (scale u v) = scale (scale g u) v := by
  funext a; unfold scale; ring

/-! ### Visiting the axes in another order -/

/-- Position of the index `i` when axis `σ 0` changes slowest and `σ 2` fastest. -/
def rank (s : Tri) (σ : Equiv.Perm (Fin 3)) (i : Tri) : ℕ := ravel (s ∘ σ) (i ∘ σ)

/-- The index at a position of that order. -/
def unrank (s : Tri) (σ : Equiv.Perm (Fin 3)) (k : ℕ) : Tri := unravel (s ∘ σ) k ∘ σ.symm

theorem volume_comp (s : Tri) (σ : Equiv.Perm (Fin 3)) : volume (s ∘ σ) = volume s := by
  have h := Equiv.prod_comp σ s
  rw [Fin.prod_univ_three, Fin.prod_univ_three] at h
  exact h

theorem inside_comp {s i : Tri} (σ : Equiv.Perm (Fin 3)) (h : Inside s i) :
    Inside (s ∘ σ) (i ∘ σ) := fun a => h (σ a)

theorem rank_lt {s i : Tri} (σ : Equiv.Perm (Fin 3)) (h : Inside s i) : rank s σ i < volume s := by
  rw [← volume_comp s σ]; exact ravel_lt (inside_comp σ h)

theorem unrank_rank {s i : Tri} (σ : Equiv.Perm (Fin 3)) (h : Inside s i) :
    unrank s σ (rank s σ i) = i := by
  unfold unrank rank
  rw [unravel_ravel (inside_comp σ h)]
  funext a; simp

theorem rank_unrank (s : Tri) (σ : Equiv.Perm (Fin 3)) (k : ℕ) : rank s σ (unrank s σ k) = k := by
  have h : unrank s σ k ∘ σ = unravel (s ∘ σ) k := by funext a; simp [unrank]
  unfold rank
  rw [h, ravel_unravel]

theorem inside_unrank {s : Tri} (σ : Equiv.Perm (Fin 3)) {k : ℕ} (hk : k < volume s) :
    Inside s (unrank s σ k) := by
  intro a
  have h := inside_unravel (s := s ∘ σ) (by rw [volume_comp]; exact hk) (σ.symm a)
  simpa [unrank] using h

theorem rank_inj {s i j : Tri} (σ : Equiv.Perm (Fin 3)) (hi : Inside s i) (hj : Inside s j)
    (h : rank s σ i = rank s σ j) : i = j := by
  rw [← unrank_rank σ hi, h, unrank_rank σ hj]

end SkipZFP.Lib.Grid
