import SkipZFP.Plan.Records

/-! # Planning slab by slab

The first axis of the unit grid can be cut into slabs of `t` rows of units, the last one shorter. Where a
slab has whole chunks it can be planned alone: its arguments are `slab`, its records `slabZones`, and the
chunks of earlier slabs are `before` its own.

* `uid_slab`: a unit of a slab has the record of the same unit of the array.
* `listing_slabs` and `countAll_slabs`: **the plans of the slabs, put together, are the plan of the
  array**.
* `planMeta_slice`: dropping the other layers' bounds commutes with cutting out records. -/

namespace SkipZFP.Plan.Slabs

open SkipZFP.Lib.Grid SkipZFP.Lib.Rows SkipZFP.Lib.Double SkipZFP.Lib.Float32
open SkipZFP.Codec.Config SkipZFP.Codec.Meta SkipZFP.Plan.Classify SkipZFP.Plan.Blocks
open SkipZFP.Plan.Shapes SkipZFP.Plan.Records

theorem range_pieces (n m : ℕ) : ∀ c, List.range (min (c * m) n) =
    (List.range c).flatMap fun i => (List.range (min m (n - i * m))).map (i * m + ·)
  | 0 => by simp
  | c + 1 => by
    rw [List.range_succ, List.flatMap_append, ← range_pieces n m c, List.flatMap_singleton]
    rcases Nat.le_total (c * m) n with h | h
    · have hsum : min ((c + 1) * m) n = c * m + min m (n - c * m) := by
        rw [Nat.succ_mul]
        omega
      rw [hsum, List.range_add, Nat.min_eq_left h]
    · have hsum : min ((c + 1) * m) n = n := by
        rw [Nat.succ_mul]
        omega
      rw [hsum, Nat.min_eq_right h, Nat.sub_eq_zero_of_le h, Nat.min_zero]
      simp

theorem le_ceildiv_mul (n : ℕ) {m : ℕ} (hm : 0 < m) : n ≤ ceildiv n m * m := by
  unfold ceildiv
  have := Nat.div_add_mod (n + m - 1) m
  have := Nat.mod_lt (n + m - 1) hm
  rw [Nat.mul_comm]
  omega

theorem mul_lt_of_lt_ceildiv {n m i : ℕ} (h : i < ceildiv n m) : i * m < n := by
  unfold ceildiv at h
  have h1 := Nat.div_mul_le_self (n + m - 1) m
  have h2 : (i + 1) * m ≤ (n + m - 1) / m * m := Nat.mul_le_mul_right m h
  rw [Nat.succ_mul] at h2
  rcases Nat.eq_zero_or_pos m with rfl | hm
  · simp at h
  · omega

/-- The same block in an array with `n` more chunks before it. -/
def shiftListed (n : ℕ) (l : Listed) : Listed := { l with chunk := l.chunk + n }

section Slab
variable (p : PlanArgs) (t i : ℕ)

/-- The rows of units in slab `i`. -/
def slabRows : ℕ := min t (p.units 0 - i * t)

/-- The planner's arguments for slab `i`. -/
def slab : PlanArgs := { p with units := ![slabRows p t i, p.units 1, p.units 2] }

/-- The chunks before slab `i`. -/
def before : ℕ := i * t / p.subs 0 * (p.grid 1 * p.grid 2)

/-- The records of slab `i`. -/
def slabZones (zm : List UInt8) : List UInt8 :=
  slice zm (i * t * (p.units 1 * p.units 2) * p.metaSize)
    ((i * t + slabRows p t i) * (p.units 1 * p.units 2) * p.metaSize)

variable {p t i}

theorem grid_slab (a : Fin 3) (ha : a ≠ 0) : (slab p t i).grid a = p.grid a := by
  fin_cases a
  · exact absurd rfl ha
  · rfl
  · rfl

variable (hshape : p.shapeOk) (ht : t % p.subs 0 = 0)
include hshape ht

theorem rows_mod : slabRows p t i % p.subs 0 = 0 := by
  have hu : p.units 0 % p.subs 0 = 0 := hshape.2.1 0
  have hdvd : p.subs 0 ∣ t := Nat.dvd_of_mod_eq_zero ht
  refine Nat.mod_eq_zero_of_dvd ?_
  unfold slabRows
  rcases Nat.le_total t (p.units 0 - i * t) with h | h
  · rwa [Nat.min_eq_left h]
  · rw [Nat.min_eq_right h]
    exact Nat.dvd_sub (Nat.dvd_of_mod_eq_zero hu) (hdvd.mul_left i)

theorem shapeOk_slab : (slab p t i).shapeOk := by
  refine ⟨hshape.1, fun a => ?_, hshape.2.2⟩
  fin_cases a
  · exact rows_mod hshape ht
  · exact hshape.2.1 1
  · exact hshape.2.1 2

/-- The chunks of slab `i` are a piece of the array's. -/
theorem nChunk_slab : (slab p t i).nChunk = min (t / p.subs 0 * (p.grid 1 * p.grid 2))
    (p.nChunk - i * (t / p.subs 0 * (p.grid 1 * p.grid 2))) := by
  have hs : 0 < p.subs 0 := hshape.subs_pos 0
  obtain ⟨T, rfl⟩ := Nat.dvd_of_mod_eq_zero ht
  obtain ⟨G, hG⟩ := Nat.dvd_of_mod_eq_zero (hshape.2.1 0)
  have hrows : slabRows p (p.subs 0 * T) i = p.subs 0 * min T (G - i * T) := by
    unfold slabRows
    have h3 : i * (p.subs 0 * T) = p.subs 0 * (i * T) := by ring
    rw [hG, h3, ← Nat.mul_sub, Nat.mul_min_mul_left]
  have hg : (slab p (p.subs 0 * T) i).nChunk = min T (G - i * T) * (p.grid 1 * p.grid 2) := by
    show slabRows p (p.subs 0 * T) i / p.subs 0 * p.grid 1 * p.grid 2 = _
    rw [hrows, Nat.mul_div_cancel_left _ hs, Nat.mul_assoc]
  have hn : p.nChunk = G * (p.grid 1 * p.grid 2) := by
    show p.units 0 / p.subs 0 * p.grid 1 * p.grid 2 = _
    rw [hG, Nat.mul_div_cancel_left _ hs, Nat.mul_assoc]
  have hm : i * (T * (p.grid 1 * p.grid 2)) = i * T * (p.grid 1 * p.grid 2) := by ring
  rw [hg, hn, Nat.mul_div_cancel_left _ hs, hm, ← Nat.sub_mul, Nat.mul_min_mul_right]

omit hshape in
theorem before_eq : before p t i = i * (t / p.subs 0 * (p.grid 1 * p.grid 2)) := by
  unfold before
  rw [Nat.mul_div_assoc _ (Nat.dvd_of_mod_eq_zero ht), Nat.mul_assoc]

theorem range_nChunk (ht0 : 0 < t) : List.range p.nChunk =
    (List.range (ceildiv (p.units 0) t)).flatMap fun i =>
      (List.range (slab p t i).nChunk).map (before p t i + ·) := by
  have hs : 0 < p.subs 0 := hshape.subs_pos 0
  have hle : p.nChunk ≤ ceildiv (p.units 0) t * (t / p.subs 0 * (p.grid 1 * p.grid 2)) := by
    have h1 := le_ceildiv_mul (p.units 0) ht0
    have h2 : p.units 0 / p.subs 0 ≤ ceildiv (p.units 0) t * (t / p.subs 0) := by
      rw [← Nat.mul_div_assoc _ (Nat.dvd_of_mod_eq_zero ht)]
      exact Nat.div_le_div_right h1
    show p.units 0 / p.subs 0 * p.grid 1 * p.grid 2 ≤ _
    rw [Nat.mul_assoc, ← Nat.mul_assoc (ceildiv _ _)]
    exact Nat.mul_le_mul_right _ h2
  have h := range_pieces p.nChunk (t / p.subs 0 * (p.grid 1 * p.grid 2)) (ceildiv (p.units 0) t)
  rw [Nat.min_eq_right hle] at h
  rw [h]
  refine List.flatMap_congr fun i _ => ?_
  rw [nChunk_slab hshape ht, before_eq ht]

omit hshape in
/-- **A unit of a slab** has the number of the same unit of the array, counted from the slab's
first. -/
theorem uid_slab {cid : ℕ} (hcid : cid < (slab p t i).nChunk) (sub : ℕ) :
    p.uid (before p t i + cid) sub = i * t * (p.units 1 * p.units 2) + (slab p t i).uid cid sub := by
  have hpos : 0 < (slab p t i).nChunk := Nat.zero_lt_of_lt hcid
  have hg1 : 0 < p.grid 1 := pos_of_volume_pos hpos 1
  have hg2 : 0 < p.grid 2 := pos_of_volume_pos hpos 2
  have hdvd : p.subs 0 ∣ i * t := (Nat.dvd_of_mod_eq_zero ht).mul_left i
  have hrow : i * t / p.subs 0 * p.subs 0 = i * t := Nat.div_mul_cancel hdvd
  have hx : (before p t i + cid) / (p.grid 1 * p.grid 2) =
      i * t / p.subs 0 + cid / (p.grid 1 * p.grid 2) := by
    unfold before
    rw [Nat.add_comm, Nat.add_mul_div_right _ _ (Nat.mul_pos hg1 hg2), Nat.add_comm]
  have hb : before p t i = i * t / p.subs 0 * p.grid 1 * p.grid 2 := by
    unfold before
    rw [Nat.mul_assoc]
  have hy : (before p t i + cid) / p.grid 2 % p.grid 1 = cid / p.grid 2 % p.grid 1 := by
    rw [hb, Nat.add_comm, Nat.add_mul_div_right _ _ hg2, Nat.add_mul_mod_self_right]
  have hz : (before p t i + cid) % p.grid 2 = cid % p.grid 2 := by
    rw [hb, Nat.add_comm, Nat.add_mul_mod_self_right]
  unfold PlanArgs.uid
  rw [grid_slab 1 (by decide), grid_slab 2 (by decide), hx, hy, hz]
  show ((((i * t / p.subs 0 + cid / (p.grid 1 * p.grid 2)) * p.subs 0 + _) * p.units 1 + _) *
    p.units 2 + _) = _ + (((_ * p.subs 0 + _) * p.units 1 + _) * p.units 2 + _)
  rw [Nat.add_mul (i * t / p.subs 0), hrow, show (slab p t i).subs = p.subs from rfl]
  ring

theorem recordAt_slab {cid sub : ℕ} (hcid : cid < (slab p t i).nChunk) (hsub : sub < p.nSub)
    (zm : List UInt8) : recordAt (slabZones p t i zm) (slab p t i) cid sub =
      recordAt zm p (before p t i + cid) sub := by
  have hlt := (shapeOk_slab hshape ht).uid_lt hcid (hsub : sub < (slab p t i).nSub)
  have hvol : volume (slab p t i).units = slabRows p t i * (p.units 1 * p.units 2) := by
    show slabRows p t i * p.units 1 * p.units 2 = _
    rw [Nat.mul_assoc]
  rw [hvol] at hlt
  have hbound : i * t * (p.units 1 * p.units 2) * p.metaSize +
      ((slab p t i).uid cid sub * p.metaSize + p.metaSize) ≤
        (i * t + slabRows p t i) * (p.units 1 * p.units 2) * p.metaSize := by
    have h := Nat.mul_le_mul_right p.metaSize (Nat.succ_le_of_lt hlt)
    rw [Nat.succ_mul] at h
    rw [Nat.add_mul (i * t), Nat.add_mul (i * t * _)]
    omega
  unfold recordAt slabZones
  show slice _ ((slab p t i).uid cid sub * p.metaSize) (_ * p.metaSize + p.metaSize) = _
  rw [slice_slice _ hbound, uid_slab ht hcid, Nat.add_mul]
  congr 1
  omega

section States
variable (fl : ℚ → ℚ) (zm : List UInt8) (lo hi : Dbl)

theorem stateAt_slab {cid b : ℕ} (hcid : cid < (slab p t i).nChunk) (hb : b < p.blocksPerChunk) :
    stateAt fl (slabZones p t i zm) (slab p t i) lo hi cid b =
      stateAt fl zm p lo hi (before p t i + cid) b := by
  have h := recordAt_slab hshape ht hcid (p.div_lt_nSub hb) zm
  unfold stateAt
  show classifyBlock fl (recordAt _ _ cid (b / p.blocksPerUnit)) _ _ _ _ _ _ = _
  rw [show (slab p t i).blocksPerUnit = p.blocksPerUnit from rfl, h]
  rfl

theorem errorAt_slab {cid b : ℕ} (hcid : cid < (slab p t i).nChunk) (hb : b < p.blocksPerChunk) :
    errorAt fl (slabZones p t i zm) (slab p t i) cid b =
      errorAt fl zm p (before p t i + cid) b := by
  have h := recordAt_slab hshape ht hcid (p.div_lt_nSub hb) zm
  unfold errorAt
  rw [show (slab p t i).blocksPerUnit = p.blocksPerUnit from rfl, h]
  rfl

theorem chunkListing_slab {cid : ℕ} (hcid : cid < (slab p t i).nChunk) (keepIn : Bool) :
    chunkListing fl zm p lo hi keepIn (before p t i + cid) =
      (chunkListing fl (slabZones p t i zm) (slab p t i) lo hi keepIn cid).map
        (shiftListed (before p t i)) := by
  unfold chunkListing
  rw [List.map_map, show (slab p t i).blocksPerChunk = p.blocksPerChunk from rfl]
  have hfilter : ((List.range p.blocksPerChunk).filter fun b =>
      isListed keepIn (stateAt fl zm p lo hi (before p t i + cid) b)) =
        (List.range p.blocksPerChunk).filter fun b =>
          isListed keepIn (stateAt fl (slabZones p t i zm) (slab p t i) lo hi cid b) :=
    List.filter_congr fun b hb => by
      rw [stateAt_slab hshape ht fl zm lo hi hcid (List.mem_range.mp hb)]
  rw [hfilter]
  refine List.map_congr_left fun b hb => ?_
  have hb' := List.mem_range.mp (List.mem_of_mem_filter hb)
  rw [Function.comp_apply, stateAt_slab hshape ht fl zm lo hi hcid hb',
    errorAt_slab hshape ht fl zm hcid hb', shiftListed, Nat.add_comm cid]

variable (ht0 : 0 < t)
include ht0

theorem listing_slabs (keepIn : Bool) : listing fl zm p lo hi keepIn =
    (List.range (ceildiv (p.units 0) t)).flatMap fun i =>
      (listing fl (slabZones p t i zm) (slab p t i) lo hi keepIn).map
        (shiftListed (before p t i)) := by
  unfold listing
  rw [range_nChunk hshape ht ht0, List.flatMap_assoc]
  refine List.flatMap_congr fun i _ => ?_
  rw [List.flatMap_map, List.map_flatMap]
  exact List.flatMap_congr fun cid hcid =>
    chunkListing_slab hshape ht fl zm lo hi (List.mem_range.mp hcid) keepIn

theorem countAll_slabs (st : BlockState) : countAll fl zm p lo hi st =
    ((List.range (ceildiv (p.units 0) t)).map fun i =>
      countAll fl (slabZones p t i zm) (slab p t i) lo hi st).sum := by
  unfold countAll
  rw [range_nChunk hshape ht ht0, List.map_flatMap, List.flatMap_def, List.sum_flatten, List.map_map]
  refine congrArg List.sum (List.map_congr_left fun i _ => ?_)
  rw [Function.comp_apply, List.map_map]
  refine congrArg List.sum (List.map_congr_left fun cid hcid => ?_)
  unfold countState
  rw [show (slab p t i).blocksPerChunk = p.blocksPerChunk from rfl]
  refine List.countP_congr fun b hb => ?_
  rw [stateAt_slab hshape ht fl zm lo hi (List.mem_range.mp hcid) (List.mem_range.mp hb)]

end States

/-- The planner accepts a slab where it accepts the array. -/
theorem fits_slab (hfits : p.fits) (ht0 : 0 < t) (hi : i < ceildiv (p.units 0) t) :
    (slab p t i).fits := by
  have hn := nChunk_slab (i := i) hshape ht
  have hle : (slab p t i).nChunk ≤ p.nChunk := by rw [hn]; omega
  refine ⟨?_, ?_, hfits.2.2.1, hle.trans hfits.2.2.2⟩
  · have hvol : 0 < p.nChunk := Nat.pos_of_ne_zero hfits.1
    have hrows : 0 < slabRows p t i := by
      have := mul_lt_of_lt_ceildiv hi
      unfold slabRows
      omega
    have hle' := Nat.le_of_dvd hrows (Nat.dvd_of_mod_eq_zero (rows_mod (i := i) hshape ht))
    have hpos : 0 < slabRows p t i / p.subs 0 := Nat.div_pos hle' (hshape.subs_pos 0)
    show slabRows p t i / p.subs 0 * p.grid 1 * p.grid 2 ≠ 0
    have := pos_of_volume_pos hvol 1
    have := pos_of_volume_pos hvol 2
    positivity
  · refine lt_of_le_of_lt ?_ hfits.2.1
    exact Nat.mul_le_mul_right _ hle

theorem before_add_lt {cid : ℕ} (ht0 : 0 < t) (hi : i < ceildiv (p.units 0) t)
    (hcid : cid < (slab p t i).nChunk) : before p t i + cid < p.nChunk := by
  rw [← List.mem_range, range_nChunk hshape ht ht0]
  exact List.mem_flatMap.mpr ⟨i, List.mem_range.mpr hi,
    List.mem_map.mpr ⟨cid, List.mem_range.mpr hcid, rfl⟩⟩

end Slab

/-! ### Records of one layer -/

theorem slice_flatten_rows_range {α : Type*} {rows : List (List α)} {w : ℕ}
    (h : ∀ r ∈ rows, r.length = w) : ∀ {a b : ℕ}, a ≤ b → b ≤ rows.length →
      slice rows.flatten (a * w) (b * w) = (slice rows a b).flatten := by
  intro a b hab hb
  obtain ⟨n, rfl⟩ := Nat.exists_eq_add_of_le hab
  induction n with
  | zero => simp [slice_self]
  | succ n ih =>
    have hrow := slice_flatten_rows h (i := a + n) (by omega)
    rw [← slice_append_slice rows.flatten (b := (a + n) * w) (Nat.mul_le_mul_right _ (by omega))
      (Nat.mul_le_mul_right _ (by omega)), ih (by omega) (by omega), ← Nat.add_assoc, Nat.succ_mul,
      hrow, ← slice_append_slice rows (b := a + n) (by omega) (Nat.le_succ _), List.flatten_append]
    have hone : slice rows (a + n) (a + n + 1) = [rows[a + n]] := by
      rw [slice, Nat.add_sub_cancel_left]
      exact List.take_one_drop_eq_of_lt_length (by omega)
    rw [hone, List.flatten_singleton]

/-- **Cutting out records and dropping the other layers' bounds** can be done in either order. -/
theorem planMeta_slice {c : SkipZFPCodec} {layer : ℕ} (hl : layer < c.layers.length) {unit : Tri}
    {zm : List UInt8} {n : ℕ} (hlen : zm.length = n * metaSize c unit) {a b : ℕ} (hab : a ≤ b)
    (hb : b ≤ n) : planMeta c layer unit (slice zm (a * metaSize c unit) (b * metaSize c unit)) =
      slice (planMeta c layer unit zm) (a * planSize c unit) (b * planSize c unit) := by
  have hrow : ∀ r ∈ reshape n (metaSize c unit) zm, r.length = metaSize c unit :=
    fun r hr => length_of_mem_reshape hlen hr
  have hplan : ∀ r ∈ (reshape n (metaSize c unit) zm).map (planRow c layer),
      r.length = planSize c unit := by
    intro r hr
    obtain ⟨r', hr', rfl⟩ := List.mem_map.mp hr
    exact length_planRow_of_length hl (hrow r' hr')
  have hzm : zm = (reshape n (metaSize c unit) zm).flatten := (flatten_reshape _ _ _ hlen).symm
  have hbn : b ≤ (reshape n (metaSize c unit) zm).length := by rwa [length_reshape]
  rw [hzm, slice_flatten_rows_range hrow hab hbn, planMeta_flatten hl hrow,
    slice_flatten_rows_range hplan hab (by rwa [List.length_map]), ← map_slice]
  exact planMeta_flatten hl fun r hr => hrow r (mem_of_mem_slice hr)

end SkipZFP.Plan.Slabs
