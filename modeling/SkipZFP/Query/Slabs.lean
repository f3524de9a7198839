import SkipZFP.Plan.Slabs
import SkipZFP.Query.Count
import SkipZFP.Read.Slabs

/-! # Arrays whose zone map objects can be planned alone

`Slabbed` collects what the pipelined paths rely on: the zone map objects are slabs of whole chunks, and
the planner can number the chunks of the array. `objectZones` are the records of one object as it is
planned, `wholeZones` those of the whole zone map.

* `objectZones_eq`: what is planned for an object are the records of its slab.
* `listing_objects`, `countAll_objects`: **the plans of the objects, put together, are the plan of the
  array**. -/

namespace SkipZFP.Query.Slabs

open SkipZFP.Lib.Grid SkipZFP.Lib.Rows SkipZFP.Lib.Loops SkipZFP.Lib.Double SkipZFP.Lib.Float32
open SkipZFP.Codec.Config SkipZFP.Codec.Meta SkipZFP.Plan.Classify SkipZFP.Plan.Blocks
open SkipZFP.Plan.Shapes SkipZFP.Plan.Records SkipZFP.Plan.Slabs SkipZFP.Read.Merge
open SkipZFP.Read.Store SkipZFP.Read.ZoneMap SkipZFP.Read.Stream SkipZFP.Read.Slabs
open SkipZFP.Query.Run SkipZFP.Query.Count

section Slabbed
variable {κ : Type} (a : ZarrArray κ) (st : Setup) (mo : MetaObjects)

/-- **An array whose zone map objects can be planned alone.** -/
structure Slabbed : Prop where
  chunk : a.codec.ChunkOk a.chunk
  layout : getLayout a.codec a.shape a.chunk = .ok st.lt
  objects : metaObjects a st.lt = .ok (some mo)
  whole : mo.tChunk % st.lt.unitGridPerChunk 0 = 0
  fits : st.lt.planArgs.fits

/-- The records of object `i` as they are planned. -/
def objectZones (i : ℕ) (slab : List UInt8) : List UInt8 :=
  planMeta a.codec 0 st.lt.unitShape
    (slab.take (min mo.tChunk (st.lt.unitGrid 0 - i * mo.tChunk) * mo.rows))

/-- The records of the whole zone map as they are planned. -/
def wholeZones (ss : List (List UInt8 × ℕ)) : List UInt8 :=
  planMeta a.codec 0 st.lt.unitShape (joinObjects st.lt mo ss).1

/-- The listed blocks of an opened object, with their chunks counted from the array's first. -/
def objectListed (fl : ℚ → ℚ) (lo hi : Dbl) (keepIn : Bool) (x : ℕ × (List UInt8 × ℕ)) :
    List Listed :=
  (listing fl (objectZones a st mo x.1 x.2.1) (slab st.lt.planArgs mo.tChunk x.1) lo hi keepIn).map
    (shiftListed (chunksBefore st mo x.1))

variable {a st mo}

theorem metaObjects_ok {lt : Layout} (h : metaObjects a lt = .ok (some mo)) :
    mo.rows = lt.unitGrid 1 * lt.unitGrid 2 * lt.metaSize ∧
      mo.count = ceildiv (lt.unitGrid 0) mo.tChunk ∧ 0 < mo.tChunk := by
  unfold metaObjects at h
  split_ifs at h
  split at h
  · cases h
  · rename_i t _
    split_ifs at h with ht
    cases hp : metaPacked a with
    | error e => rw [hp] at h; cases h
    | ok packed =>
      rw [hp] at h
      cases h
      exact ⟨rfl, rfl, Nat.pos_of_ne_zero ht⟩

theorem mem_zip {n : ℕ} {ss : List (List UInt8 × ℕ)} {x : ℕ × (List UInt8 × ℕ)}
    (hx : x ∈ (List.range n).zip ss) : x.1 < n ∧ ss[x.1]? = some x.2 := by
  obtain ⟨k, hk, rfl⟩ := List.getElem_of_mem hx
  rw [List.length_zip] at hk
  rw [List.getElem_zip, List.getElem_range]
  have hk1 : k < (List.range n).length := by omega
  rw [List.length_range] at hk1
  exact ⟨hk1, List.getElem?_eq_getElem (by omega)⟩

namespace Slabbed

variable (h : Slabbed a st mo)
include h

theorem layoutOf_eq : ∃ size, st.lt = layoutOf a.codec a.shape a.chunk size :=
  (getLayout_ok h.layout).2

theorem shapeOk : st.lt.planArgs.shapeOk := by
  obtain ⟨size, hlt⟩ := h.layoutOf_eq
  rw [hlt, planArgs_layoutOf]
  exact shapeOk_planArgs h.chunk

theorem count_eq : mo.count = ceildiv (st.lt.planArgs.units 0) mo.tChunk :=
  (metaObjects_ok h.objects).2.1

theorem pos : 0 < mo.tChunk := (metaObjects_ok h.objects).2.2

theorem start_zero : st.lt.layerStarts.getD 0 0 = 0 := by
  obtain ⟨size, hlt⟩ := h.layoutOf_eq
  rw [hlt, getD_layerStarts size (layers_length_pos a.codec), List.take_zero, List.sum_nil,
    Nat.mul_zero]

/-- The chunks before an object are those before its slab. -/
theorem chunksBefore_eq (i : ℕ) : chunksBefore st mo i = before st.lt.planArgs mo.tChunk i := by
  obtain ⟨size, hlt⟩ := h.layoutOf_eq
  have hg : st.lt.gridShape = st.lt.planArgs.grid := by
    rw [hlt]
    exact (grid_planArgs h.chunk).symm
  unfold chunksBefore before
  rw [hg]
  rfl

/-- **The rows of an object** are those of its slab in the joined objects. -/
theorem take_object_eq {ss : List (List UInt8 × ℕ)} (hlen : ss.length = mo.count)
    (hsize : ∀ s ∈ ss, s.1.length = mo.size) {i : ℕ} {s : List UInt8 × ℕ} (hs : ss[i]? = some s) :
    i * mo.tChunk + slabRows st.lt.planArgs mo.tChunk i ≤ st.lt.planArgs.units 0 ∧
      (joinObjects st.lt mo ss).1.length = st.lt.planArgs.units 0 * mo.rows ∧
      s.1.take (slabRows st.lt.planArgs mo.tChunk i * mo.rows) =
        slice (joinObjects st.lt mo ss).1 (i * mo.tChunk * mo.rows)
          ((i * mo.tChunk + slabRows st.lt.planArgs mo.tChunk i) * mo.rows) := by
  obtain ⟨hi, rfl⟩ := List.getElem?_eq_some_iff.mp hs
  have hcount := h.count_eq
  have hunit := mul_lt_of_lt_ceildiv (by rw [← hcount, ← hlen]; exact hi :
    i < ceildiv (st.lt.planArgs.units 0) mo.tChunk)
  have hslabs : ∀ r ∈ ss.map Prod.fst, r.length = mo.tChunk * mo.rows := by
    intro r hr
    obtain ⟨x, hx, rfl⟩ := List.mem_map.mp hr
    exact hsize x hx
  have hjoin : (joinObjects st.lt mo ss).1 =
      slice (ss.map Prod.fst).flatten 0 (st.lt.planArgs.units 0 * mo.rows) := take_eq_slice _ _
  have hend : i * mo.tChunk + slabRows st.lt.planArgs mo.tChunk i ≤ st.lt.planArgs.units 0 := by
    unfold slabRows
    omega
  have hin : slabRows st.lt.planArgs mo.tChunk i ≤ mo.tChunk := Nat.min_le_left _ _
  refine ⟨hend, ?_, ?_⟩
  · rw [hjoin, length_slice, Nat.sub_zero]
    rw [length_flatten_rows hslabs, List.length_map, hlen, hcount, ← Nat.mul_assoc]
    exact Nat.mul_le_mul_right _ (le_ceildiv_mul _ h.pos)
  · have hi' : i < (ss.map Prod.fst).length := by rwa [List.length_map]
    have hrow := slice_flatten_rows hslabs hi'
    rw [List.getElem_map] at hrow
    have h1 : slabRows st.lt.planArgs mo.tChunk i * mo.rows ≤ mo.tChunk * mo.rows :=
      Nat.mul_le_mul_right _ hin
    have h2 := Nat.mul_le_mul_right mo.rows hend
    rw [Nat.add_mul] at h2
    rw [take_eq_slice, ← hrow, hjoin, slice_slice _ (by rw [← Nat.mul_assoc]; omega),
      slice_slice _ (by rw [Nat.add_mul]; omega), Nat.add_mul, Nat.mul_assoc]
    congr 1 <;> omega

/-- **What is planned for an object are the records of its slab.** -/
theorem objectZones_eq {ss : List (List UInt8 × ℕ)} (hlen : ss.length = mo.count)
    (hsize : ∀ s ∈ ss, s.1.length = mo.size) {i : ℕ} {s : List UInt8 × ℕ} (hs : ss[i]? = some s) :
    objectZones a st mo i s.1 =
      slabZones st.lt.planArgs mo.tChunk i (wholeZones a st mo ss) := by
  obtain ⟨size, hlt⟩ := h.layoutOf_eq
  have hrows := (metaObjects_ok h.objects).1
  obtain ⟨hend, htotal, hcut⟩ := take_object_eq h hlen hsize hs
  unfold objectZones wholeZones slabZones
  rw [show min mo.tChunk (st.lt.unitGrid 0 - i * mo.tChunk) =
    slabRows st.lt.planArgs mo.tChunk i from rfl, hcut]
  have hlayers : 0 < a.codec.layers.length := layers_length_pos a.codec
  have hmeta : mo.rows = st.lt.planArgs.units 1 * st.lt.planArgs.units 2 *
      metaSize a.codec st.lt.unitShape := by
    rw [hrows, hlt]
    rfl
  have hplan : st.lt.planArgs.metaSize = planSize a.codec st.lt.unitShape := by
    rw [hlt]
    rfl
  have hbytes : ∀ x, x * mo.rows = x * (st.lt.planArgs.units 1 * st.lt.planArgs.units 2) *
      metaSize a.codec st.lt.unitShape := fun x => by rw [hmeta, Nat.mul_assoc x]
  rw [hplan, hbytes, hbytes]
  refine planMeta_slice hlayers (htotal.trans (hbytes _)) ?_ ?_
  · exact Nat.mul_le_mul_right _ (Nat.le_add_right _ _)
  · exact Nat.mul_le_mul_right _ hend

variable {ss : List (List UInt8 × ℕ)} (hlen : ss.length = mo.count)
  (hsize : ∀ s ∈ ss, s.1.length = mo.size)
include hlen hsize

/-- What is the same for an object and its slab can be put together object by object. -/
theorem map_objects {α : Type*} (f : List UInt8 → PlanArgs → ℕ → α) :
    ((List.range mo.count).zip ss).map (fun x => f (objectZones a st mo x.1 x.2.1)
      (slab st.lt.planArgs mo.tChunk x.1) (chunksBefore st mo x.1)) =
    (List.range (ceildiv (st.lt.planArgs.units 0) mo.tChunk)).map fun i =>
      f (slabZones st.lt.planArgs mo.tChunk i (wholeZones a st mo ss))
        (slab st.lt.planArgs mo.tChunk i) (before st.lt.planArgs mo.tChunk i) := by
  have hfst : ((List.range mo.count).zip ss).map Prod.fst = List.range mo.count :=
    List.map_fst_zip (by rw [List.length_range, hlen])
  rw [← h.count_eq]
  conv_rhs => rw [← hfst, List.map_map]
  refine List.map_congr_left fun x hx => ?_
  rw [h.objectZones_eq hlen hsize (mem_zip hx).2, h.chunksBefore_eq]
  rfl

variable (fl : ℚ → ℚ) (lo hi : Dbl)

theorem listing_objects (keepIn : Bool) :
    listing fl (wholeZones a st mo ss) st.lt.planArgs lo hi keepIn =
      ((List.range mo.count).zip ss).flatMap (objectListed a st mo fl lo hi keepIn) := by
  rw [listing_slabs h.shapeOk h.whole fl _ lo hi h.pos keepIn, List.flatMap_def, List.flatMap_def]
  exact congrArg List.flatten (h.map_objects hlen hsize fun zm p n =>
    (listing fl zm p lo hi keepIn).map (shiftListed n)).symm

theorem countAll_objects (q : BlockState) :
    countAll fl (wholeZones a st mo ss) st.lt.planArgs lo hi q =
      (((List.range mo.count).zip ss).map fun x => countAll fl (objectZones a st mo x.1 x.2.1)
        (slab st.lt.planArgs mo.tChunk x.1) lo hi q).sum := by
  rw [countAll_slabs h.shapeOk h.whole fl _ lo hi h.pos q]
  exact congrArg List.sum (h.map_objects hlen hsize fun zm p _ => countAll fl zm p lo hi q).symm

end Slabbed

/-! ### The ids of the objects -/

namespace Slabbed

variable (h : Slabbed a st mo) (fl : ℚ → ℚ) (lo hi : Dbl) (keepIn : Bool)
include h

theorem mem_objectListed {x : ℕ × (List UInt8 × ℕ)} {l : Listed}
    (hl : l ∈ objectListed a st mo fl lo hi keepIn x) :
    ∃ c < (slab st.lt.planArgs mo.tChunk x.1).nChunk,
      l.chunk = before st.lt.planArgs mo.tChunk x.1 + c ∧ l.block < st.lt.planArgs.blocksPerChunk := by
  obtain ⟨l', hl', rfl⟩ := List.mem_map.mp hl
  obtain ⟨h1, h2, -⟩ := mem_listing.mp hl'
  refine ⟨l'.chunk, h1, ?_, h2⟩
  rw [← h.chunksBefore_eq]
  exact Nat.add_comm _ _

omit h in
theorem pairwise_objectIds (x : ℕ × (List UInt8 × ℕ)) :
    ((objectListed a st mo fl lo hi keepIn x).map idOf).Pairwise IdLt := by
  unfold objectListed
  rw [List.map_map, List.pairwise_map]
  refine (pairwise_listing keepIn).imp fun {l l'} hlt => ?_
  unfold idLt at hlt
  show l.chunk + _ < l'.chunk + _ ∨ (l.chunk + _ = l'.chunk + _ ∧ l.block < l'.block)
  omega

theorem block_lt {x : ℕ × (List UInt8 × ℕ)} :
    ∀ id ∈ (objectListed a st mo fl lo hi keepIn x).map idOf, id.2 < 2 ^ 32 := by
  intro id hid
  obtain ⟨l, hl, rfl⟩ := List.mem_map.mp hid
  obtain ⟨-, -, -, hb⟩ := h.mem_objectListed fl lo hi keepIn hl
  have hf := h.fits.2.2.1
  unfold uint32Max at hf
  show l.block < 2 ^ 32
  omega

theorem chunk_lt {x : ℕ × (List UInt8 × ℕ)} (hx : x.1 < mo.count) :
    ∀ l ∈ objectListed a st mo fl lo hi keepIn x, l.chunk < 2 ^ 32 := by
  intro l hl
  obtain ⟨c, hc, hchunk, -⟩ := h.mem_objectListed fl lo hi keepIn hl
  have hlt := before_add_lt h.shapeOk h.whole h.pos (by rwa [← h.count_eq]) hc
  have hf := h.fits.2.2.2
  unfold uint32Max at hf
  omega

/-- **No chunk id is cut off** when the chunks before an object are added to it. -/
theorem shift_listing {x : ℕ × (List UInt8 × ℕ)} (hx : x.1 < mo.count) :
    ((listing fl (objectZones a st mo x.1 x.2.1) (slab st.lt.planArgs mo.tChunk x.1) lo hi keepIn).map
      fun l => { l with chunk := (l.chunk + chunksBefore st mo x.1) % 2 ^ 32 }) =
      objectListed a st mo fl lo hi keepIn x := by
  have hlt := h.chunk_lt fl lo hi keepIn hx
  unfold objectListed at hlt ⊢
  refine List.map_congr_left fun l hl => ?_
  have hl' := hlt _ (List.mem_map.mpr ⟨l, hl, rfl⟩)
  unfold shiftListed at hl' ⊢
  rw [Nat.mod_eq_of_lt hl']

theorem shift_ids {x : ℕ × (List UInt8 × ℕ)} (hx : x.1 < mo.count) :
    ((listing fl (objectZones a st mo x.1 x.2.1) (slab st.lt.planArgs mo.tChunk x.1) lo hi keepIn).map
      fun l => (l.chunk, l.block)).map (fun id => ((id.1 + chunksBefore st mo x.1) % 2 ^ 32, id.2)) =
      (objectListed a st mo fl lo hi keepIn x).map idOf := by
  rw [← h.shift_listing fl lo hi keepIn hx, List.map_map, List.map_map]
  rfl

theorem fits_object {i : ℕ} (hcount : i < mo.count) : (slab st.lt.planArgs mo.tChunk i).fits :=
  fits_slab h.shapeOk h.whole h.fits h.pos (by rwa [← h.count_eq])

/-- Later objects have later chunks. -/
theorem pairwise_objects {ss : List (List UInt8 × ℕ)} (hlen : ss.length = mo.count) :
    ((List.range mo.count).zip ss).Pairwise fun x y =>
      ∀ u ∈ (objectListed a st mo fl lo hi keepIn x).map idOf,
        ∀ v ∈ (objectListed a st mo fl lo hi keepIn y).map idOf,
        u.1 < v.1 := by
  have hlt : ((List.range mo.count).zip ss).Pairwise fun x y => x.1 < y.1 := by
    have hsub : (((List.range mo.count).zip ss).map Prod.fst).Pairwise (· < ·) := by
      rw [List.map_fst_zip (by rw [List.length_range, hlen])]
      exact List.pairwise_lt_range
    exact List.pairwise_map.mp hsub
  refine hlt.imp fun {x y} hxy u hu v hv => ?_
  obtain ⟨l, hl, rfl⟩ := List.mem_map.mp hu
  obtain ⟨l', hl', rfl⟩ := List.mem_map.mp hv
  obtain ⟨c, hc, hchunk, -⟩ := h.mem_objectListed fl lo hi keepIn hl
  obtain ⟨c', -, hchunk', -⟩ := h.mem_objectListed fl lo hi keepIn hl'
  rw [nChunk_slab h.shapeOk h.whole] at hc
  rw [before_eq h.whole] at hchunk hchunk'
  have hmul := Nat.mul_le_mul_right (mo.tChunk / st.lt.planArgs.subs 0 *
    (st.lt.planArgs.grid 1 * st.lt.planArgs.grid 2)) (Nat.succ_le_of_lt hxy)
  rw [Nat.succ_mul] at hmul
  show l.chunk < l'.chunk
  omega

variable {ss : List (List UInt8 × ℕ)} (hlen : ss.length = mo.count)
  (hsize : ∀ s ∈ ss, s.1.length = mo.size)
include hlen hsize

/-- **The groups of the objects, put together, are the groups of the array**, each with its items. -/
theorem deal_objects {α : Type*} (gap : ℕ) (item : Listed → α) :
    deal (groups gap ((listing fl (wholeZones a st mo ss) st.lt.planArgs lo hi keepIn).map idOf))
      ((listing fl (wholeZones a st mo ss) st.lt.planArgs lo hi keepIn).map item) =
      ((List.range mo.count).zip ss).flatMap fun x =>
        deal (groups gap ((objectListed a st mo fl lo hi keepIn x).map idOf))
          ((objectListed a st mo fl lo hi keepIn x).map item) := by
  rw [h.listing_objects hlen hsize fl lo hi keepIn, List.map_flatMap, List.map_flatMap]
  exact deal_groups_flatMap gap _ _ _ (fun x _ => by rw [List.length_map, List.length_map])
    (h.pairwise_objects fl lo hi keepIn hlen)

end Slabbed

/-! ### The plan of an object -/

variable (a st mo) in
/-- What is planned for an opened object: the counts, the items and the reads of their groups. -/
def plannedObject {α : Type} (fl : ℚ → ℚ) (lo hi : Dbl) (keepIn : Bool) (gap : ℕ)
    (item : Listed → α) (x : ℕ × (List UInt8 × ℕ)) : PlannedObject κ α where
  nIn := countAll fl (objectZones a st mo x.1 x.2.1) (slab st.lt.planArgs mo.tChunk x.1) lo hi .IN
  nOut := countAll fl (objectZones a st mo x.1 x.2.1) (slab st.lt.planArgs mo.tChunk x.1) lo hi .OUT
  items := (objectListed a st mo fl lo hi keepIn x).map item
  merged := readsOf (a.keyOf st.lt) (st.layerBytes 0) 0 0
    (groups (gap % 2 ^ 64) ((objectListed a st mo fl lo hi keepIn x).map idOf))
  stored := x.2.2

/-! ### What the objects add up to -/

theorem map_zip_sides {α β γ δ : Type*} {xs : List α} {ys : List β} (hlen : xs.length = ys.length)
    (f : α → γ) (g : β → δ) : ((xs.zip ys).map fun r => f r.1) = xs.map f ∧
      ((xs.zip ys).map fun r => g r.2) = ys.map g := by
  have h1 : (xs.zip ys).map Prod.fst = xs := List.map_fst_zip hlen.le
  have h2 : (xs.zip ys).map Prod.snd = ys := List.map_snd_zip hlen.ge
  constructor
  · conv_rhs => rw [← h1, List.map_map]
    rfl
  · conv_rhs => rw [← h2, List.map_map]
    rfl

/-- **The plans of the objects add up** to the plan of the array. -/
theorem Slabbed.sum_plannedObject (h : Slabbed a st mo) (fl : ℚ → ℚ) (lo hi : Dbl) (keepIn : Bool)
    {ss : List (List UInt8 × ℕ)} (hlen : ss.length = mo.count)
    (hsize : ∀ s ∈ ss, s.1.length = mo.size) (gap : ℕ) {α : Type} (item : Listed → α) :
    let objects := ((List.range mo.count).zip ss).map (plannedObject a st mo fl lo hi keepIn gap item)
    let listed := listing fl (wholeZones a st mo ss) st.lt.planArgs lo hi keepIn
    (objects.map fun o => o.nIn).sum =
        countAll fl (wholeZones a st mo ss) st.lt.planArgs lo hi .IN ∧
      (objects.map fun o => o.nOut).sum =
        countAll fl (wholeZones a st mo ss) st.lt.planArgs lo hi .OUT ∧
      (objects.map fun o => o.items.length).sum = listed.length ∧
      (objects.map fun o => o.merged.length).sum = (groups (gap % 2 ^ 64) (listed.map idOf)).length ∧
      (objects.map fun o => o.stored).sum = (ss.map Prod.snd).sum := by
  dsimp only
  simp only [List.map_map]
  refine ⟨?_, ?_, ?_, ?_, ?_⟩
  · rw [h.countAll_objects hlen hsize]
    rfl
  · rw [h.countAll_objects hlen hsize]
    rfl
  · rw [h.listing_objects hlen hsize, List.length_flatMap]
    refine congrArg List.sum (List.map_congr_left fun x _ => ?_)
    exact List.length_map _
  · have hdeal := congrArg List.length (h.deal_objects fl lo hi keepIn hlen hsize (gap % 2 ^ 64) item)
    rw [length_deal, List.length_flatMap] at hdeal
    rw [hdeal]
    refine congrArg List.sum (List.map_congr_left fun x _ => ?_)
    rw [length_deal]
    exact length_readsOf _ _ _ _ _
  · have hsnd : ((List.range mo.count).zip ss).map Prod.snd = ss :=
      List.map_snd_zip (by rw [List.length_range, hlen])
    conv_rhs => rw [← hsnd, List.map_map]
    rfl

end Slabbed

end SkipZFP.Query.Slabs
