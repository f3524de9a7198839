import Mathlib.Data.List.Basic
import Mathlib.Data.List.Zip

/-! # Loops that may fail

`List.mapM` in `Except`: what a loop returns when no step of it fails. `mapM_cons_ok` says so of the first
step and the rest, and the other lemmas follow by induction: for loops one after another
(`mapM_append_ok`), loops in a loop (`mapM_flatMap_ok`), and steps that themselves have two parts
(`mapM_bind_ok`). `bind_ok` is the rule for one step, `forall₂_mapM_ok` for what holds of each
item and its result. -/

namespace SkipZFP.Lib.Loops

variable {ε α β γ δ : Type*}

theorem bind_ok {x : Except ε α} {f : α → Except ε β} {y : β} :
    x.bind f = .ok y ↔ ∃ z, x = .ok z ∧ f z = .ok y := by
  cases x with
  | error e =>
    constructor
    · intro h
      cases h
    · rintro ⟨z, hz, -⟩
      cases hz
  | ok z =>
    constructor
    · intro h
      exact ⟨z, rfl, h⟩
    · rintro ⟨z', hz, h⟩
      obtain rfl := Except.ok.inj hz
      exact h

theorem mapM_cons_ok {f : α → Except ε β} {x : α} {l : List α} {r : List β} :
    (x :: l).mapM f = .ok r ↔ ∃ y ys, f x = .ok y ∧ l.mapM f = .ok ys ∧ r = y :: ys := by
  rw [List.mapM_cons]
  constructor
  · intro h
    cases hx : f x with
    | error e => rw [hx] at h; cases h
    | ok y =>
      cases hl : l.mapM f with
      | error e => rw [hx, hl] at h; cases h
      | ok ys =>
        rw [hx, hl] at h
        cases h
        exact ⟨y, ys, rfl, rfl, rfl⟩
  · rintro ⟨y, ys, hx, hl, rfl⟩
    rw [hx, hl]
    rfl

theorem mapM_nil_ok {f : α → Except ε β} {r : List β} : ([] : List α).mapM f = .ok r ↔ r = [] := by
  constructor
  · intro h
    cases h
    rfl
  · rintro rfl
    rfl

theorem getElem?_mapM_ok {f : α → Except ε β} : ∀ {l : List α} {r : List β},
    l.mapM f = .ok r → r.length = l.length ∧
      ∀ (i : ℕ) (x : α), l[i]? = some x → ∃ y, r[i]? = some y ∧ f x = .ok y
  | [], r, h => by
    rw [mapM_nil_ok.mp h]
    exact ⟨rfl, by simp⟩
  | a :: l, r, h => by
    obtain ⟨y, ys, hf, hl, rfl⟩ := mapM_cons_ok.mp h
    obtain ⟨hlen, hget⟩ := getElem?_mapM_ok hl
    refine ⟨by simp [hlen], fun i x hx => ?_⟩
    rcases i with _ | i
    · cases hx
      exact ⟨y, rfl, hf⟩
    · exact hget i x hx

theorem forall₂_mapM_ok {f : α → Except ε β} {R : α → β → Prop} : ∀ {l : List α} {r : List β},
    (∀ x ∈ l, ∀ y, f x = .ok y → R x y) → l.mapM f = .ok r → List.Forall₂ R l r
  | [], r, _, h => by
    rw [mapM_nil_ok.mp h]
    exact .nil
  | x :: l, r, hR, h => by
    obtain ⟨y, ys, hy, hys, rfl⟩ := mapM_cons_ok.mp h
    exact .cons (hR x List.mem_cons_self y hy)
      (forall₂_mapM_ok (fun z hz => hR z (List.mem_cons_of_mem x hz)) hys)

theorem mapM_ok {f : α → Except ε β} {g : α → β} : ∀ {l : List α},
    (∀ x ∈ l, f x = .ok (g x)) → l.mapM f = .ok (l.map g)
  | [], _ => rfl
  | x :: l, h => mapM_cons_ok.mpr ⟨g x, l.map g, h x List.mem_cons_self,
      mapM_ok fun y hy => h y (List.mem_cons_of_mem _ hy), rfl⟩

theorem mapM_congr {f g : α → Except ε β} : ∀ {l : List α}, (∀ x ∈ l, f x = g x) →
    l.mapM f = l.mapM g
  | [], _ => rfl
  | x :: l, h => by
    rw [List.mapM_cons, List.mapM_cons, h x List.mem_cons_self,
      mapM_congr fun y hy => h y (List.mem_cons_of_mem _ hy)]

theorem mapM_append_ok {f : α → Except ε β} : ∀ {l l' : List α} {r : List β},
    (l ++ l').mapM f = .ok r ↔ ∃ r1 r2, l.mapM f = .ok r1 ∧ l'.mapM f = .ok r2 ∧ r = r1 ++ r2
  | [], l', r => by
    constructor
    · intro h
      exact ⟨[], r, rfl, h, rfl⟩
    · rintro ⟨r1, r2, h1, h2, rfl⟩
      rw [mapM_nil_ok.mp h1]
      exact h2
  | x :: l, l', r => by
    rw [List.cons_append, mapM_cons_ok]
    constructor
    · rintro ⟨y, ys, hx, hl, rfl⟩
      obtain ⟨r1, r2, h1, h2, rfl⟩ := mapM_append_ok.mp hl
      exact ⟨y :: r1, r2, mapM_cons_ok.mpr ⟨y, r1, hx, h1, rfl⟩, h2, rfl⟩
    · rintro ⟨r1, r2, h1, h2, rfl⟩
      obtain ⟨y, ys, hx, hl, rfl⟩ := mapM_cons_ok.mp h1
      exact ⟨y, ys ++ r2, hx, mapM_append_ok.mpr ⟨ys, r2, hl, h2, rfl⟩, rfl⟩

theorem mapM_map_ok {o : α → Except ε β} {q : β → γ} : ∀ {l : List α} {r : List γ},
    (l.mapM fun x => (o x).map q) = .ok r ↔ ∃ ys, l.mapM o = .ok ys ∧ r = ys.map q
  | [], r => by
    rw [mapM_nil_ok]
    constructor
    · rintro rfl
      exact ⟨[], rfl, rfl⟩
    · rintro ⟨ys, hys, rfl⟩
      rw [mapM_nil_ok.mp hys]
      rfl
  | x :: l, r => by
    rw [mapM_cons_ok]
    constructor
    · rintro ⟨z, zs, hx, hl, rfl⟩
      obtain ⟨ys, hys, rfl⟩ := mapM_map_ok.mp hl
      cases hy : o x with
      | error e => rw [hy] at hx; cases hx
      | ok y =>
        rw [hy] at hx
        cases hx
        exact ⟨y :: ys, mapM_cons_ok.mpr ⟨y, ys, hy, hys, rfl⟩, rfl⟩
    · rintro ⟨ys', hys', rfl⟩
      obtain ⟨y, ys, hy, hys, rfl⟩ := mapM_cons_ok.mp hys'
      exact ⟨q y, ys.map q, by rw [hy]; rfl, mapM_map_ok.mpr ⟨ys, hys, rfl⟩, rfl⟩

/-- **A loop in a loop.** -/
theorem mapM_flatMap_ok {f : β → Except ε γ} {g : α → List β} : ∀ {l : List α} {r : List γ},
    (l.flatMap g).mapM f = .ok r ↔ ∃ rs, l.mapM (fun x => (g x).mapM f) = .ok rs ∧ r = rs.flatten
  | [], r => by
    rw [List.flatMap_nil, mapM_nil_ok]
    constructor
    · rintro rfl
      exact ⟨[], rfl, rfl⟩
    · rintro ⟨rs, hrs, rfl⟩
      rw [mapM_nil_ok.mp hrs]
      rfl
  | x :: l, r => by
    rw [List.flatMap_cons, mapM_append_ok]
    constructor
    · rintro ⟨r1, r2, h1, h2, rfl⟩
      obtain ⟨rs, hrs, rfl⟩ := mapM_flatMap_ok.mp h2
      exact ⟨r1 :: rs, mapM_cons_ok.mpr ⟨r1, rs, h1, hrs, rfl⟩, rfl⟩
    · rintro ⟨rs, hrs, rfl⟩
      obtain ⟨r1, rs', h1, h2, rfl⟩ := mapM_cons_ok.mp hrs
      exact ⟨r1, rs'.flatten, h1, mapM_flatMap_ok.mpr ⟨rs', h2, rfl⟩, rfl⟩

/-- **Steps of two parts**, the second of which uses what the first returns. -/
theorem mapM_bind_ok {o : α → Except ε β} {h : α × β → Except ε γ} {q : α × β → γ → δ} :
    ∀ {l : List α} {r : List δ},
      (l.mapM fun x => (o x).bind fun y => (h (x, y)).map (q (x, y))) = .ok r ↔
        ∃ ys zs, l.mapM o = .ok ys ∧ (l.zip ys).mapM h = .ok zs ∧
          r = List.zipWith q (l.zip ys) zs
  | [], r => by
    rw [mapM_nil_ok]
    constructor
    · rintro rfl
      exact ⟨[], [], rfl, rfl, rfl⟩
    · rintro ⟨ys, zs, -, -, rfl⟩
      rfl
  | x :: l, r => by
    rw [mapM_cons_ok]
    constructor
    · rintro ⟨d, ds, hx, hl, rfl⟩
      obtain ⟨ys, zs, hys, hzs, rfl⟩ := mapM_bind_ok.mp hl
      cases hy : o x with
      | error e => rw [hy] at hx; cases hx
      | ok y =>
        rw [hy] at hx
        cases hz : h (x, y) with
        | error e => rw [Except.bind, hz] at hx; cases hx
        | ok z =>
          rw [Except.bind, hz] at hx
          cases hx
          exact ⟨y :: ys, z :: zs, mapM_cons_ok.mpr ⟨y, ys, hy, hys, rfl⟩,
            mapM_cons_ok.mpr ⟨z, zs, hz, hzs, rfl⟩, rfl⟩
    · rintro ⟨ys', zs', hys', hzs', rfl⟩
      obtain ⟨y, ys, hy, hys, rfl⟩ := mapM_cons_ok.mp hys'
      obtain ⟨z, zs, hz, hzs, rfl⟩ := mapM_cons_ok.mp hzs'
      refine ⟨q (x, y) z, List.zipWith q (l.zip ys) zs, ?_, mapM_bind_ok.mpr
        ⟨ys, zs, hys, hzs, rfl⟩, rfl⟩
      rw [hy, Except.bind, hz]
      rfl

end SkipZFP.Lib.Loops
