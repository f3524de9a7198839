import SkipZFP.Read.Stream

/-! # Reads of zone map objects

A zone map object that is planned alone leads to the reads of its own ids. `deal_groups_flatMap` says that
ids of later chunks make groups of their own, each with its items, so that the reads of all objects, one
object after another, are the reads of all ids; `evalZones_ok` is what the objects return, and
`evalMeta_ok` what they return when they are only read. -/

namespace SkipZFP.Read.Slabs

open SkipZFP.Lib.Grid SkipZFP.Lib.Rows SkipZFP.Lib.Loops SkipZFP.Plan.Shapes SkipZFP.Read.Merge
open SkipZFP.Read.Budget SkipZFP.Read.Store SkipZFP.Read.ZoneMap SkipZFP.Read.Stream

/-! ### Groups of ids of later chunks -/

section Groups
variable {κ α : Type*}

/-- **Ids of later chunks make groups of their own**, and keep their items. -/
theorem deal_groups_flatMap {ι : Type*} (gap : ℕ) (ids : ι → List (ℕ × ℕ)) (items : ι → List α) :
    ∀ l : List ι, (∀ x ∈ l, (ids x).length = (items x).length) →
      l.Pairwise (fun x y => ∀ a ∈ ids x, ∀ b ∈ ids y, a.1 < b.1) →
      deal (groups gap (l.flatMap ids)) (l.flatMap items) =
        l.flatMap fun x => deal (groups gap (ids x)) (items x)
  | [], _, _ => rfl
  | x :: l, hlen, hp => by
    obtain ⟨hx, hp'⟩ := List.pairwise_cons.mp hp
    have hlt : ∀ a ∈ ids x, ∀ b ∈ l.flatMap ids, a.1 < b.1 := by
      intro a ha b hb
      obtain ⟨y, hy, hby⟩ := List.mem_flatMap.mp hb
      exact hx y hy a ha b hby
    rw [List.flatMap_cons, List.flatMap_cons, List.flatMap_cons, groups_append gap hlt,
      deal_append _ _ _ _ (by rw [flatten_groups]; exact hlen x List.mem_cons_self),
      deal_groups_flatMap gap ids items l (fun y hy => hlen y (List.mem_cons_of_mem _ hy)) hp']

/-- What a merged read is about: its object, its bytes and its items. -/
def readItems (l : List α) (r : MergedRange κ) : κ × ℕ × ℕ × List α :=
  (r.key, r.start, r.stop, slice l r.itemStart r.itemEnd)

/-- The same for a group with its items. -/
def groupItems (keys : ℕ → κ) (blockSize base : ℕ) (x : List (ℕ × ℕ) × List α) :
    κ × ℕ × ℕ × List α :=
  let r := groupRead keys blockSize base 0 x.1
  (r.key, r.start, r.stop, x.2)

theorem map_readItems (keys : ℕ → κ) (blockSize base : ℕ) (l : List α) :
    ∀ (i : ℕ) (gs : List (List (ℕ × ℕ))), (readsOf keys blockSize base i gs).map (readItems l) =
      (deal gs (l.drop i)).map (groupItems keys blockSize base)
  | _, [] => rfl
  | i, g :: gs => by
    have hs : slice l i (i + g.length) = (l.drop i).take g.length := by
      rw [slice, Nat.add_sub_cancel_left]
    rw [readsOf, List.map_cons, map_readItems keys blockSize base l _ gs, deal, List.map_cons,
      List.drop_drop, groupItems, ← hs]
    rfl

theorem length_deal : ∀ (gs : List (List (ℕ × ℕ))) (l : List α), (deal gs l).length = gs.length
  | [], _ => rfl
  | g :: gs, l => by rw [deal, List.length_cons, length_deal gs, List.length_cons]

end Groups

/-! ### Objects -/

section Objects
variable {κ : Type*} {α β : Type*} (zstd : List UInt8 → Option (List UInt8)) (a : ZarrArray κ)
  (lt : Layout) (mo : MetaObjects)

/-- Object `i` opened: its records and its stored size. -/
def openedObject (i : ℕ) : Except (QueryError κ) (List UInt8 × ℕ) :=
  (fetchObject a i).bind fun data =>
    (openObject zstd lt mo i data).map fun slab => (slab, data.length)

variable {zstd a lt mo}

theorem length_openObject {i : ℕ} {data slab : List UInt8}
    (h : (openObject zstd lt mo i data : Except (QueryError κ) _) = .ok slab) :
    slab.length = mo.size := by
  unfold openObject at h
  dsimp only at h
  split at h
  · cases h
  · split_ifs at h with hlen
    cases h
    exact not_not.mp hlen

theorem length_openedObject {i : ℕ} {s : List UInt8 × ℕ} (h : openedObject zstd a lt mo i = .ok s) :
    s.1.length = mo.size := by
  unfold openedObject at h
  cases hd : fetchObject a i with
  | error e => rw [hd] at h; cases h
  | ok data =>
    rw [hd, Except.bind] at h
    cases hs : (openObject zstd lt mo i data : Except (QueryError κ) _) with
    | error e => rw [hs] at h; cases h
    | ok slab =>
      rw [hs] at h
      cases h
      exact length_openObject hs

theorem opened_sizes {ss : List (List UInt8 × ℕ)}
    (h : (List.range mo.count).mapM (openedObject zstd a lt mo) = .ok ss) :
    ss.length = mo.count ∧ ∀ s ∈ ss, s.1.length = mo.size := by
  obtain ⟨hlen, hget⟩ := getElem?_mapM_ok h
  rw [List.length_range] at hlen
  refine ⟨hlen, fun s hs => ?_⟩
  obtain ⟨i, hi, rfl⟩ := List.getElem_of_mem hs
  obtain ⟨y, hy, hopen⟩ := hget i i (List.getElem?_range (by omega))
  rw [List.getElem?_eq_getElem hi] at hy
  cases hy
  exact length_openedObject hopen

/-- **The zone map objects**, when they are only read. -/
theorem evalMeta_ok {rows : List ((List UInt8 × ℕ) × List Unit)} :
    (List.range mo.count).mapM (metaWork zstd a lt mo).evalZone = .ok rows ↔
      ∃ ss, (List.range mo.count).mapM (openedObject zstd a lt mo) = .ok ss ∧
        rows = ss.map fun s => (s, []) := by
  have heval : (metaWork zstd a lt mo).evalZone = fun i =>
      (openedObject zstd a lt mo i).map fun s => (s, ([] : List Unit)) := rfl
  rw [heval, mapM_map_ok]

theorem zoneResult_slabWork {plan : ℕ → List UInt8 → Except (QueryError κ) (PlannedObject κ α)}
    (use : ℕ → List α → List UInt8 → Except (QueryError κ) β) (limit : Option ℕ)
    {P : ℕ × (List UInt8 × ℕ) → PlannedObject κ α}
    (hplan : ∀ i < mo.count, ∀ data, plan i data =
      (openObject zstd lt mo i data).map fun slab => P (i, (slab, data.length))) {i : ℕ}
    (hi : i < mo.count) : (slabWork a plan use limit).zoneResult i =
      (openedObject zstd a lt mo i).map fun s => P (i, s) := by
  show (fetchObject a i).bind (plan i) = _
  unfold openedObject
  cases fetchObject a i with
  | error e => rfl
  | ok data =>
    dsimp only [Except.bind]
    rw [hplan i hi]
    cases (openObject zstd lt mo i data : Except (QueryError κ) _) <;> rfl

/-- **The zone map objects with the reads they lead to.** The plan of an opened object is `P`, and the
reads are those of the groups of the ids `ids`. -/
theorem evalZones_ok {plan : ℕ → List UInt8 → Except (QueryError κ) (PlannedObject κ α)}
    {use : ℕ → List α → List UInt8 → Except (QueryError κ) β} {limit : Option ℕ} {keys : ℕ → κ}
    {blockSize gap : ℕ} {P : ℕ × (List UInt8 × ℕ) → PlannedObject κ α}
    {ids : ℕ × (List UInt8 × ℕ) → List (ℕ × ℕ)}
    (hplan : ∀ i < mo.count, ∀ data, plan i data =
      (openObject zstd lt mo i data).map fun slab => P (i, (slab, data.length)))
    (hmerged : ∀ x, (P x).merged = readsOf keys blockSize 0 0 (groups gap (ids x)))
    {rows : List (PlannedObject κ α × List (β × ℕ))} :
    (List.range mo.count).mapM (slabWork a plan use limit).evalZone = .ok rows ↔
      ∃ ss bss, (List.range mo.count).mapM (openedObject zstd a lt mo) = .ok ss ∧
        (((List.range mo.count).zip ss).mapM fun x => (deal (groups gap (ids x)) (P x).items).mapM
          fun y => readGroup a keys blockSize 0 use y.1 y.2) = .ok bss ∧
        rows = (((List.range mo.count).zip ss).map P).zip bss := by
  have heval : ∀ i ∈ List.range mo.count, (slabWork a plan use limit).evalZone i =
      (openedObject zstd a lt mo i).bind fun s =>
        ((deal (groups gap (ids (i, s))) (P (i, s)).items).mapM fun y =>
          readGroup a keys blockSize 0 use y.1 y.2).map fun bs => (P (i, s), bs) := by
    intro i hi
    unfold Work.evalZone
    rw [zoneResult_slabWork use limit hplan (List.mem_range.mp hi)]
    cases openedObject zstd a lt mo i with
    | error e => rfl
    | ok s =>
      have hreads : ((readsOf keys blockSize 0 0 (groups gap (ids (i, s)))).map fun req =>
          (req, (P (i, s)).items)).mapM (streamWork a use limit).readResult = _ :=
        mapM_readsOf use limit (P (i, s)).items 0 (groups gap (ids (i, s)))
      rw [← hmerged] at hreads
      exact congrArg (fun x => x.map fun bs => (P (i, s), bs)) hreads
  rw [mapM_congr heval, mapM_bind_ok
    (h := fun x => (deal (groups gap (ids x)) (P x).items).mapM fun y =>
      readGroup a keys blockSize 0 use y.1 y.2) (q := fun x bs => (P x, bs))]
  refine exists_congr fun ss => exists_congr fun bss => and_congr_right fun _ =>
    and_congr_right fun _ => ?_
  have hzip : List.zipWith (fun x bs => (P x, bs)) ((List.range mo.count).zip ss) bss =
      (((List.range mo.count).zip ss).map P).zip bss := List.zipWith_map_left.symm
  rw [hzip]

end Objects

end SkipZFP.Read.Slabs
