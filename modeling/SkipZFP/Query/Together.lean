import SkipZFP.Query.Slabs

/-! # The plans of objects, put together

* `together_maybe`, `together_listed`: **planning the zone map objects one by one gives the list of
  planning the whole zone map**, once the chunks before an object are added to its chunk ids.
* `mergesAlike_objects`: the merged reads are the same, each with its items. -/

namespace SkipZFP.Query.Together

open SkipZFP.Lib.Grid SkipZFP.Lib.Rows SkipZFP.Lib.Loops SkipZFP.Lib.Double SkipZFP.Lib.Float32
open SkipZFP.Plan.Classify SkipZFP.Plan.Blocks SkipZFP.Plan.Shapes SkipZFP.Plan.Slabs
open SkipZFP.Read.Merge SkipZFP.Read.Store SkipZFP.Read.ZoneMap SkipZFP.Read.Stream SkipZFP.Read.Slabs
open SkipZFP.Query.Run SkipZFP.Query.Count SkipZFP.Query.Slabs

section Plans
variable {κ α : Type} (fl : ℚ → ℚ) (a : ZarrArray κ) (lo hi : Dbl) (st : Setup) (mo : MetaObjects)

/-- The arguments with which object `i` is planned. -/
def argsOf (i : ℕ) : PlanArgs := objectArgs st (min mo.tChunk (st.lt.unitGrid 0 - i * mo.tChunk))

/-- What a query plans for an opened object: its MAYBE blocks and the counts. -/
def planMaybe (x : ℕ × (List UInt8 × ℕ)) : Except SzError (List (ℕ × ℕ) × ℕ × ℕ) :=
  (planChunks fl (objectZones a st mo x.1 x.2.1) (argsOf st mo x.1) lo hi).map fun r =>
    (r.1.map fun id => ((id.1 + chunksBefore st mo x.1) % 2 ^ 32, id.2), r.2)

/-- What an aggregate plans for an opened object: its listed blocks and the counts. -/
def planListed (x : ℕ × (List UInt8 × ℕ)) : Except SzError (List Listed × ℕ × ℕ) :=
  (planRead fl (objectZones a st mo x.1 x.2.1) (argsOf st mo x.1) lo hi).map fun r =>
    (r.1.map fun l => { l with chunk := (l.chunk + chunksBefore st mo x.1) % 2 ^ 32 }, r.2)

/-- Plans put together: one list after another, the counts added up. -/
def together (plans : List (List α × ℕ × ℕ)) : List α × ℕ × ℕ :=
  (plans.flatMap fun p => p.1, (plans.map fun p => p.2.1).sum, (plans.map fun p => p.2.2).sum)

/-- **Merging the ids of plans one by one** gives the reads of merging all their ids: the same objects,
bytes and items, in the same order. -/
def MergesAlike (keys : ℕ → κ) (blockSize gap : ℕ) (id : α → ℕ × ℕ) (plans : List (List α × ℕ × ℕ)) :
    Prop :=
  ∃ m ms, mergeRanges keys ((together plans).1.map id) blockSize gap 0 = .ok m ∧
    plans.mapM (fun p => mergeRanges keys (p.1.map id) blockSize gap 0) = .ok ms ∧
    m.1.map (readItems (together plans).1) =
      (plans.zip ms).flatMap (fun x => x.2.1.map (readItems x.1.1)) ∧
    m.2 = ms.flatMap Prod.snd

variable {fl a lo hi st mo}

theorem planMaybe_eq (h : Slabbed a st mo) {x : ℕ × (List UInt8 × ℕ)} (hx : x.1 < mo.count) :
    planMaybe fl a lo hi st mo x = .ok ((objectListed a st mo fl lo hi false x).map idOf,
      countAll fl (objectZones a st mo x.1 x.2.1) (slab st.lt.planArgs mo.tChunk x.1) lo hi .IN,
      countAll fl (objectZones a st mo x.1 x.2.1) (slab st.lt.planArgs mo.tChunk x.1) lo hi .OUT) := by
  have hargs : argsOf st mo x.1 = slab st.lt.planArgs mo.tChunk x.1 := rfl
  unfold planMaybe
  rw [hargs, planChunks_eq (shapeOk_slab h.shapeOk h.whole) (h.fits_object hx), Except.map,
    h.shift_ids fl lo hi false hx]

theorem planListed_eq (h : Slabbed a st mo) {x : ℕ × (List UInt8 × ℕ)} (hx : x.1 < mo.count) :
    planListed fl a lo hi st mo x = .ok (objectListed a st mo fl lo hi true x,
      countAll fl (objectZones a st mo x.1 x.2.1) (slab st.lt.planArgs mo.tChunk x.1) lo hi .IN,
      countAll fl (objectZones a st mo x.1 x.2.1) (slab st.lt.planArgs mo.tChunk x.1) lo hi .OUT) := by
  have hargs : argsOf st mo x.1 = slab st.lt.planArgs mo.tChunk x.1 := rfl
  unfold planListed
  rw [hargs, planRead_eq (shapeOk_slab h.shapeOk h.whole) (h.fits_object hx), Except.map,
    h.shift_listing fl lo hi true hx]

/-- The merged reads of lists of ids, each in order and before the ids of the next. -/
theorem mergesAlike_of_pairwise (keys : ℕ → κ) (blockSize gap : ℕ) {id : α → ℕ × ℕ}
    {plans : List (List α × ℕ × ℕ)} (hs : ∀ p ∈ plans, (p.1.map id).Pairwise IdLt)
    (h32 : ∀ p ∈ plans, ∀ u ∈ p.1.map id, u.2 < 2 ^ 32)
    (hlt : plans.Pairwise fun p q => ∀ u ∈ p.1.map id, ∀ v ∈ q.1.map id, u.1 < v.1) :
    MergesAlike keys blockSize gap id plans := by
  have hids : (together plans).1.map id = plans.flatMap fun p => p.1.map id := List.map_flatMap
  have hall : (plans.flatMap fun p => p.1.map id).Pairwise IdLt :=
    List.pairwise_flatMap.mpr ⟨hs, hlt.imp fun h u hu v hv => Or.inl (h u hu v hv)⟩
  have h32' : ∀ u ∈ plans.flatMap fun p => p.1.map id, u.2 < 2 ^ 32 := fun u hu => by
    obtain ⟨p, hp, hup⟩ := List.mem_flatMap.mp hu
    exact h32 p hp u hup
  refine ⟨_, _, by rw [hids]; exact mergeRanges_eq keys hall h32' _ _ _,
    mapM_ok fun p hp => mergeRanges_eq keys (hs p hp) (h32 p hp) _ _ _, ?_, ?_⟩
  · have hdeal := deal_groups_flatMap (gap % 2 ^ 64) (fun p : List α × ℕ × ℕ => p.1.map id)
      (fun p => p.1) plans (fun p _ => List.length_map id) hlt
    rw [map_readItems, List.drop_zero]
    unfold together
    rw [hdeal, List.map_flatMap, ← List.map_prod_left_eq_zip, List.flatMap_map]
    refine List.flatMap_congr fun p _ => ?_
    rw [map_readItems, List.drop_zero]
  · rw [List.flatMap_map, List.map_flatMap]

section Objects
variable (h : Slabbed a st mo) {ss : List (List UInt8 × ℕ)} (hlen : ss.length = mo.count)
  (hsize : ∀ s ∈ ss, s.1.length = mo.size)
include h hlen hsize

variable (fl lo hi) in
theorem together_objects (keepIn : Bool) (item : Listed → α) :
    together (((List.range mo.count).zip ss).map fun x =>
      ((objectListed a st mo fl lo hi keepIn x).map item,
        countAll fl (objectZones a st mo x.1 x.2.1) (slab st.lt.planArgs mo.tChunk x.1) lo hi .IN,
        countAll fl (objectZones a st mo x.1 x.2.1) (slab st.lt.planArgs mo.tChunk x.1) lo hi .OUT)) =
      ((listing fl (wholeZones a st mo ss) st.lt.planArgs lo hi keepIn).map item,
        countAll fl (wholeZones a st mo ss) st.lt.planArgs lo hi .IN,
        countAll fl (wholeZones a st mo ss) st.lt.planArgs lo hi .OUT) := by
  rw [h.listing_objects hlen hsize, h.countAll_objects hlen hsize, h.countAll_objects hlen hsize]
  unfold together
  rw [List.flatMap_map, List.map_flatMap, List.map_map, List.map_map]
  rfl

omit hsize in
/-- The ids of the objects merge alike, whatever else is kept of the listed blocks. -/
theorem mergesAlike_objects (keepIn : Bool) (item : Listed → α) {id : α → ℕ × ℕ}
    (hid : ∀ l, id (item l) = idOf l) (blockSize gap : ℕ) (counts : ℕ × (List UInt8 × ℕ) → ℕ × ℕ) :
    MergesAlike (a.keyOf st.lt) blockSize gap id (((List.range mo.count).zip ss).map fun x =>
      ((objectListed a st mo fl lo hi keepIn x).map item, counts x)) := by
  have hmap : ∀ l : List Listed, (l.map item).map id = l.map idOf := fun l => by
    rw [List.map_map]
    exact List.map_congr_left fun x _ => hid x
  refine mergesAlike_of_pairwise _ _ _ ?_ ?_ ?_
  · intro p hp
    obtain ⟨x, -, rfl⟩ := List.mem_map.mp hp
    rw [hmap]
    exact Slabbed.pairwise_objectIds fl lo hi keepIn x
  · intro p hp
    obtain ⟨x, -, rfl⟩ := List.mem_map.mp hp
    rw [hmap]
    exact h.block_lt fl lo hi keepIn
  · refine List.pairwise_map.mpr ((h.pairwise_objects fl lo hi keepIn hlen).imp ?_)
    intro x y hxy
    rwa [hmap, hmap]

variable (fl lo hi) in
/-- **The MAYBE blocks of the objects are those of the array**, and merge to the same reads. -/
theorem together_maybe : ∃ plans,
    ((List.range mo.count).zip ss).mapM (planMaybe fl a lo hi st mo) = .ok plans ∧
      planChunks fl (wholeZones a st mo ss) st.lt.planArgs lo hi = .ok (together plans) ∧
      ∀ blockSize gap, MergesAlike (a.keyOf st.lt) blockSize gap id plans := by
  refine ⟨_, mapM_ok fun x hx => planMaybe_eq h (mem_zip hx).1, ?_, fun blockSize gap =>
    mergesAlike_objects h hlen false idOf (fun _ => rfl) blockSize gap _⟩
  rw [together_objects fl lo hi h hlen hsize, planChunks_eq h.shapeOk h.fits]
  rfl

variable (fl lo hi) in
/-- **The listed blocks of the objects are those of the array**, each with its state and error bound,
and merge to the same reads. -/
theorem together_listed : ∃ plans,
    ((List.range mo.count).zip ss).mapM (planListed fl a lo hi st mo) = .ok plans ∧
      planRead fl (wholeZones a st mo ss) st.lt.planArgs lo hi = .ok (together plans) ∧
      ∀ blockSize gap, MergesAlike (a.keyOf st.lt) blockSize gap idOf plans := by
  have hplan : ∀ x ∈ (List.range mo.count).zip ss, planListed fl a lo hi st mo x =
      .ok ((objectListed a st mo fl lo hi true x).map id,
        countAll fl (objectZones a st mo x.1 x.2.1) (slab st.lt.planArgs mo.tChunk x.1) lo hi .IN,
        countAll fl (objectZones a st mo x.1 x.2.1) (slab st.lt.planArgs mo.tChunk x.1) lo hi .OUT) :=
    fun x hx => by rw [List.map_id, planListed_eq h (mem_zip hx).1]
  refine ⟨_, mapM_ok hplan, ?_, fun blockSize gap =>
    mergesAlike_objects h hlen true id (fun _ => rfl) blockSize gap _⟩
  rw [together_objects fl lo hi h hlen hsize, planRead_eq h.shapeOk h.fits, List.map_id]

end Objects

end Plans

end SkipZFP.Query.Together
