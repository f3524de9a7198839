import SkipZFP.Read.Raise
import SkipZFP.Read.Stream

/-! # Reads of chunks that are not stored

`read_one` raises `FileNotFoundError` for an object that the store does not have.

* `not_ok_of_missing`: reads of which one is of a missing chunk do not all succeed.
* `error_of_reads`: **reads raise nothing else**, if those of the stored chunks succeed.
* `mayReturn_unique`, `not_mayRaise_of_returns`: a program that returns something returns nothing else and
  raises nothing.
* `mayReturn_of_bind`, `mayRaise_of_bind`: what may come after it. -/

namespace SkipZFP.Read.Missing

open SkipZFP.Lib.Loops SkipZFP.Read.Merge SkipZFP.Read.Budget SkipZFP.Read.Gather SkipZFP.Read.Raise
open SkipZFP.Read.Store SkipZFP.Read.Stream

section Groups
variable {κ : Type*} {α β : Type*} {a : ZarrArray κ} {keys : ℕ → κ} {blockSize base gap : ℕ}
  {use : ℕ → List α → List UInt8 → Except (QueryError κ) β} {limit : Option ℕ} {ids : List (ℕ × ℕ)}
  {f : ℕ × ℕ → α}

theorem readOne_missing {req : Range κ} (h : a.get req.key = none) :
    readOne a req = .error (.FileNotFoundError req.key) := by
  unfold readOne
  rw [h]

theorem isSome_of_readOne {req : Range κ} {data : List UInt8} (h : readOne a req = .ok data) :
    (a.get req.key).isSome := by
  cases hget : a.get req.key with
  | none =>
    rw [readOne_missing hget] at h
    cases h
  | some obj => rfl

theorem readGroup_missing {g : List (ℕ × ℕ)} (h : a.get (keys (g.headD (0, 0)).1) = none)
    (items : List α) : readGroup a keys blockSize base use g items =
      .error (.FileNotFoundError (keys (g.headD (0, 0)).1)) := by
  have hread : readOne a (rangeOf (groupRead keys blockSize base 0 g)) = .error _ := readOne_missing h
  unfold readGroup
  dsimp only
  rw [hread]
  rfl

/-- **Reads of which one is of a missing chunk** do not all succeed. -/
theorem not_ok_of_missing (hs : ids.Pairwise IdLt) {id : ℕ × ℕ} (hid : id ∈ ids)
    (h : a.get (keys id.1) = none) (bs : List (β × ℕ)) :
    ((readsOf keys blockSize base 0 (groups gap ids)).map fun req => (req, ids.map f)).mapM
      (streamWork a use limit).readResult ≠ .ok bs := by
  intro hbs
  rw [mapM_readsOf, List.drop_zero, deal_groups, List.mapM_map] at hbs
  obtain ⟨g, hg, -, hchunk⟩ := exists_group gap hs hid
  obtain ⟨k, hk, rfl⟩ := List.getElem_of_mem hg
  obtain ⟨x, -, hx⟩ := (getElem?_mapM_ok hbs).2 k _ (List.getElem?_eq_getElem hk)
  rw [Function.comp_apply, readGroup_missing (by rw [hchunk]; exact h)] at hx
  cases hx

/-- **Reads raise nothing else**, if those of the stored chunks succeed. -/
theorem error_of_reads (hok : ∀ g ∈ groups gap ids, (a.get (keys (g.headD (0, 0)).1)).isSome →
      ∃ x, readGroup a keys blockSize base use g (g.map f) = .ok x)
    {r : MergedRange κ × List α} (hr : r ∈ (readsOf keys blockSize base 0 (groups gap ids)).map
      fun req => (req, ids.map f)) {e : QueryError κ}
    (he : (streamWork a use limit).readResult r = .error e) :
    ∃ id ∈ ids, a.get (keys id.1) = none ∧ e = .FileNotFoundError (keys id.1) := by
  have hmem := List.mem_map_of_mem (f := (streamWork a use limit).readResult) hr
  rw [map_readsOf, List.drop_zero, deal_groups, List.map_map] at hmem
  obtain ⟨g, hg, hread⟩ := List.mem_map.mp hmem
  rw [Function.comp_apply, he] at hread
  refine ⟨_, (mem_group hg).1 _ (mem_group hg).2.1, ?_⟩
  cases hget : a.get (keys (g.headD (0, 0)).1) with
  | none =>
    rw [readGroup_missing hget] at hread
    exact ⟨rfl, (Except.error.inj hread).symm⟩
  | some obj =>
    obtain ⟨x, hx⟩ := hok g hg (by rw [hget]; rfl)
    rw [hx] at hread
    cases hread

end Groups

/-! ### Programs that return -/

section Run
variable {ε R : Type} {Q : R → Prop}

theorem exists_of_returns : ∀ {p : Program ε R}, p.Returns Q → ∃ v, p.MayReturn v ∧ Q v
  | .done _, h => by
    obtain ⟨v, hx, hv⟩ := h
    exact ⟨v, hx, hv⟩
  | .run _ _ _ _ _, h => by
    obtain ⟨g, hg, hnext⟩ := h
    obtain ⟨v, hv, hQ⟩ := exists_of_returns (hnext 0)
    exact ⟨v, ⟨g, 0, hg, hv⟩, hQ⟩

/-- **A program that returns something** returns nothing else. -/
theorem mayReturn_unique {v : R} : ∀ {p : Program ε R}, p.Returns Q → p.MayReturn v → Q v
  | .done _, h, hv => by
    obtain ⟨v', hx, hv'⟩ := h
    obtain rfl : v' = v := Except.ok.inj (hx.symm.trans hv)
    exact hv'
  | .run _ _ _ _ _, h, hv => by
    obtain ⟨g, hg, hnext⟩ := h
    obtain ⟨g', peak, hg', hv⟩ := hv
    obtain rfl : g = g' := Option.some.inj (hg.symm.trans hg')
    exact mayReturn_unique (hnext peak) hv

theorem not_mayRaise_of_returns {e : ε} : ∀ {p : Program ε R}, p.Returns Q → ¬ MayRaise e p
  | .done _, h => by
    obtain ⟨v, rfl, -⟩ := h
    intro hraise
    cases hraise
  | .run _ _ _ _ _, h => by
    obtain ⟨g, hg, hnext⟩ := h
    rintro (⟨t, ht, hf⟩ | ⟨g', peak, hg', he⟩)
    · rw [(done_of_gathered hg t ht).2] at hf
      cases hf
    · obtain rfl : g = g' := Option.some.inj (hg.symm.trans hg')
      exact not_mayRaise_of_returns (hnext peak) he

section Bind
variable {A : Type} {x : A} {f : A → Program ε R} {p : Program ε A} (hp : p.Returns (· = x))
include hp

/-- After a program that returns `x`, the rest is what it is for `x`. -/
theorem mayReturn_of_bind {v : R} (h : (p.bind f).MayReturn v) : (f x).MayReturn v := by
  obtain ⟨y, hy, hv⟩ := mayReturn_bind h
  obtain rfl := mayReturn_unique hp hy
  exact hv

theorem mayRaise_of_bind {e : ε} (h : MayRaise e (p.bind f)) : MayRaise e (f x) := by
  rcases mayRaise_bind h with he | ⟨y, hy, he⟩
  · exact absurd he (not_mayRaise_of_returns hp)
  · obtain rfl := mayReturn_unique hp hy
    exact he

end Bind

end Run

end SkipZFP.Read.Missing
