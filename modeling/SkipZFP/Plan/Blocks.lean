import SkipZFP.Lib.Compact
import SkipZFP.Plan.Classify

/-! # The planner

`planBlocks` is `plan_blocks`: it classifies every block of the array in chunk order and lists the
blocks a query reads. `planChunks` and `planRead` are the two ways it is called.

The grid of units and the units of one chunk are triples. A planner id is a chunk number and the number
of a block in its chunk; `stateAt` and `errorAt` are the state and the error bound that the planner
takes from the zone map for an id.

* `planBlocks_eq`: where the arguments pass the checks, the planner returns `listing`, the kept ids in
  increasing order, each with the state and the bound of its own id, and the counts of both kinds.
* `count_states`: every block has one of the three states. -/

namespace SkipZFP.Plan.Blocks

open SkipZFP.Lib.Grid SkipZFP.Lib.Rows SkipZFP.Lib.Compact SkipZFP.Lib.Double SkipZFP.Lib.Float32
open SkipZFP.Codec.Config SkipZFP.Plan.Classify

/-- The error codes of the C library, those this development meets. -/
inductive SzError where
  | SZ_ERR_ARG
  | SZ_ERR_SIZE
deriving DecidableEq

/-- `UINT32_MAX`. -/
def uint32Max : ℕ := 2 ^ 32 - 1

/-- A number of bytes or of blocks that a `size_t` holds, what `mul_size` checks. -/
def FitsSize (n : ℕ) : Prop := n < 2 ^ 64

instance (n : ℕ) : Decidable (FitsSize n) := by unfold FitsSize; infer_instance

/-- What the planner is called with, besides the zone map and the query. `units` are the units along
each axis of the array (`ux`, `uy`, `uz`), `subs` those of one chunk (`sx`, `sy`, `sz`). -/
structure PlanArgs where
  metaSize : ℕ
  units : Tri
  subs : Tri
  blocksPerUnit : ℕ

structure Listed where
  chunk : ℕ
  block : ℕ
  state : BlockState
  eps : F32
deriving DecidableEq, Inhabited

def idOf (l : Listed) : ℕ × ℕ := (l.chunk, l.block)

/-- What the planner returns: the listed blocks and the numbers of listed, IN and OUT blocks. -/
structure PlanOut where
  listed : List Listed
  nListed : ℕ
  nIn : ℕ
  nOut : ℕ

namespace PlanArgs

variable (p : PlanArgs)

/-- `has_codes`. -/
def hasCodes : Bool := p.metaSize ≠ 12 + 2 * p.blocksPerUnit

/-- Chunks along each axis: `gx`, `gy`, `gz`. -/
def grid : Tri := outer p.subs p.units

def nSub : ℕ := volume p.subs

def nChunk : ℕ := volume p.grid

def blocksPerChunk : ℕ := p.nSub * p.blocksPerUnit

def totalBlocks : ℕ := p.nChunk * p.blocksPerChunk

/-- The first check on the arguments. -/
def shapeOk : Prop :=
  (∀ a, p.subs a ≠ 0) ∧ (∀ a, p.units a % p.subs a = 0) ∧ p.blocksPerUnit ≠ 0 ∧
    (p.metaSize = 12 + 2 * p.blocksPerUnit ∨
      p.metaSize = 12 + 2 * p.blocksPerUnit + codeBytes p.blocksPerUnit)

/-- The second check on the arguments, with `cap` cells for the listed blocks. -/
def sizeOk (cap : ℕ) : Prop :=
  p.nChunk ≠ 0 ∧ FitsSize p.blocksPerChunk ∧ FitsSize p.totalBlocks ∧ p.totalBlocks ≤ cap ∧
    p.blocksPerChunk ≤ uint32Max ∧ p.nChunk ≤ uint32Max

instance : Decidable p.shapeOk := by unfold shapeOk; infer_instance
instance (cap : ℕ) : Decidable (p.sizeOk cap) := by unfold sizeOk; infer_instance

/-- `uid`: the number of the unit record of unit `sub` of chunk `cid`. -/
def uid (cid sub : ℕ) : ℕ :=
  let cx := cid / (p.grid 1 * p.grid 2)
  let cy := cid / p.grid 2 % p.grid 1
  let cz := cid % p.grid 2
  let ix := cx * p.subs 0 + sub / (p.subs 1 * p.subs 2)
  let iy := cy * p.subs 1 + sub / p.subs 2 % p.subs 1
  let iz := cz * p.subs 2 + sub % p.subs 2
  (ix * p.units 1 + iy) * p.units 2 + iz

end PlanArgs

section Plan
variable (fl : ℚ → ℚ) (zm : List UInt8) (p : PlanArgs) (lo hi : Dbl)

/-- The record of unit `sub` of chunk `cid`, at `meta + uid * meta_size`. -/
def recordAt (cid sub : ℕ) : List UInt8 :=
  slice zm (p.uid cid sub * p.metaSize) (p.uid cid sub * p.metaSize + p.metaSize)

/-- The states of a chunk's blocks, unit after unit: pass 1. -/
def chunkStates (cid : ℕ) : List BlockState :=
  (List.range p.nSub).flatMap fun sub =>
    classifyUnit fl (recordAt zm p cid sub) p.blocksPerUnit p.hasCodes
      (unitSlack fl (recordAt zm p cid sub)) lo hi

/-- Is a block of this state listed? -/
def isListed (keepIn : Bool) (st : BlockState) : Bool := st = .MAYBE ∨ (keepIn ∧ st = .IN)

/-- What pass 2 writes for block `b` of chunk `cid`. -/
def listedEntry (cid b : ℕ) (st : BlockState) : Listed where
  chunk := cid % 2 ^ 32
  block := b % 2 ^ 32
  state := st
  eps := listedError fl (recordAt zm p cid (b / p.blocksPerUnit)) p.blocksPerUnit p.hasCodes
    (b % p.blocksPerUnit)

/-- **`plan_blocks`**; `out` is what the output arrays hold before. -/
def planBlocks (keepIn : Bool) (out : List Listed) : Except SzError PlanOut :=
  if ¬ p.shapeOk then .error .SZ_ERR_ARG
  else if ¬ p.sizeOk out.length then .error .SZ_ERR_ARG
  else
    let st := chunkStates fl zm p lo hi
    let counts := (List.range p.nChunk).map fun cid => (st cid).countP (isListed keepIn)
    .ok
      { listed := compact (isListed keepIn) (listedEntry fl zm p) p.nChunk st out
        nListed := (cumsum (0 :: counts)).getD p.nChunk 0
        nIn := ((List.range p.nChunk).map fun cid => (st cid).countP (· = .IN)).sum
        nOut := ((List.range p.nChunk).map fun cid => (st cid).countP (· = .OUT)).sum }

/-- `_Native.plan_chunks`, with arrays made for all blocks (what they hold before has no effect): the ids
of the MAYBE blocks, and the IN and OUT counts. -/
def planChunks : Except SzError (List (ℕ × ℕ) × ℕ × ℕ) := do
  let cap := volume p.units * p.blocksPerUnit
  let out ← planBlocks fl zm p lo hi false (List.replicate cap default)
  .ok ((out.listed.take out.nListed).map fun l => (l.chunk, l.block), out.nIn, out.nOut)

/-- `_Native.plan_read`: the IN and MAYBE blocks, and the IN and OUT counts. -/
def planRead : Except SzError (List Listed × ℕ × ℕ) := do
  let cap := volume p.units * p.blocksPerUnit
  let out ← planBlocks fl zm p lo hi true (List.replicate cap default)
  .ok (out.listed.take out.nListed, out.nIn, out.nOut)

/-! ### What the planner takes from the zone map -/

/-- The state of block `b` of chunk `cid`. -/
def stateAt (cid b : ℕ) : BlockState :=
  classifyBlock fl (recordAt zm p cid (b / p.blocksPerUnit)) p.blocksPerUnit p.hasCodes
    (b % p.blocksPerUnit) (unitSlack fl (recordAt zm p cid (b / p.blocksPerUnit))) lo hi

/-- The error bound of block `b` of chunk `cid`. -/
def errorAt (cid b : ℕ) : F32 :=
  listedError fl (recordAt zm p cid (b / p.blocksPerUnit)) p.blocksPerUnit p.hasCodes
    (b % p.blocksPerUnit)

/-- The listed blocks of chunk `cid`. -/
def chunkListing (keepIn : Bool) (cid : ℕ) : List Listed :=
  ((List.range p.blocksPerChunk).filter fun b => isListed keepIn (stateAt fl zm p lo hi cid b)).map
    fun b => ⟨cid, b, stateAt fl zm p lo hi cid b, errorAt fl zm p cid b⟩

/-- The listed blocks of all chunks. -/
def listing (keepIn : Bool) : List Listed :=
  (List.range p.nChunk).flatMap (chunkListing fl zm p lo hi keepIn)

/-- The blocks of chunk `cid` that have a state. -/
def countState (st : BlockState) (cid : ℕ) : ℕ :=
  (List.range p.blocksPerChunk).countP fun b => stateAt fl zm p lo hi cid b = st

/-- The blocks of the array that have a state. -/
def countAll (st : BlockState) : ℕ := ((List.range p.nChunk).map (countState fl zm p lo hi st)).sum

theorem chunkStates_eq (cid : ℕ) : chunkStates fl zm p lo hi cid =
    (List.range p.blocksPerChunk).map (stateAt fl zm p lo hi cid) := by
  unfold chunkStates classifyUnit PlanArgs.blocksPerChunk
  exact flatMap_range_mul (fun sub bid => classifyBlock fl (recordAt zm p cid sub) p.blocksPerUnit
    p.hasCodes bid (unitSlack fl (recordAt zm p cid sub)) lo hi) _ _

theorem kept_range {α β : Type*} (keep : α → Bool) (entry : ℕ → α → β) (g : ℕ → α) (n : ℕ) :
    kept keep entry 0 ((List.range n).map g) =
      ((List.range n).filter fun b => keep (g b)).map fun b => entry b (g b) := by
  have h : ((List.range n).map g).zipIdx = (List.range n).map fun b => (g b, b) := by
    refine List.ext_getElem (by simp) fun i h1 h2 => ?_
    simp
  unfold kept
  rw [h, List.filter_map, List.map_map]
  rfl

variable {fl zm p lo hi}

theorem kept_chunkStates (keepIn : Bool) {cid : ℕ} (hc : cid < p.nChunk)
    (h1 : p.nChunk ≤ uint32Max) (h2 : p.blocksPerChunk ≤ uint32Max) :
    kept (isListed keepIn) (listedEntry fl zm p cid) 0 (chunkStates fl zm p lo hi cid) =
      chunkListing fl zm p lo hi keepIn cid := by
  rw [chunkStates_eq, kept_range]
  refine List.map_congr_left fun b hb => ?_
  have hb := List.mem_range.mp (List.mem_filter.mp hb).1
  unfold uint32Max at h1 h2
  simp only [listedEntry, errorAt, Listed.mk.injEq, and_true]
  exact ⟨Nat.mod_eq_of_lt (by omega), Nat.mod_eq_of_lt (by omega)⟩

variable (fl zm lo hi) in
theorem keptAll_chunkStates (keepIn : Bool) (h1 : p.nChunk ≤ uint32Max)
    (h2 : p.blocksPerChunk ≤ uint32Max) :
    keptAll (isListed keepIn) (listedEntry fl zm p) p.nChunk (chunkStates fl zm p lo hi) =
      listing fl zm p lo hi keepIn :=
  List.flatMap_congr fun _ hc => kept_chunkStates keepIn (List.mem_range.mp hc) h1 h2

theorem countP_chunkStates (q : BlockState → Bool) (cid : ℕ) :
    (chunkStates fl zm p lo hi cid).countP q =
      (List.range p.blocksPerChunk).countP fun b => q (stateAt fl zm p lo hi cid b) := by
  rw [chunkStates_eq, List.countP_map]
  rfl

theorem length_chunkListing (keepIn : Bool) (cid : ℕ) :
    (chunkListing fl zm p lo hi keepIn cid).length =
      (List.range p.blocksPerChunk).countP fun b => isListed keepIn (stateAt fl zm p lo hi cid b) := by
  rw [chunkListing, List.length_map, List.countP_eq_length_filter]

theorem length_listing_le (keepIn : Bool) :
    (listing fl zm p lo hi keepIn).length ≤ p.totalBlocks := by
  rw [listing, List.length_flatMap]
  calc ((List.range p.nChunk).map fun c => (chunkListing fl zm p lo hi keepIn c).length).sum
      ≤ ((List.range p.nChunk).map fun _ => p.blocksPerChunk).sum := by
        refine List.sum_le_sum fun c _ => ?_
        rw [length_chunkListing]
        exact List.countP_le_length.trans_eq List.length_range
    _ = p.totalBlocks := by simp [PlanArgs.totalBlocks]

variable (fl zm lo hi) in
theorem planBlocks_eq (keepIn : Bool) (out : List Listed) (h1 : p.shapeOk) (h2 : p.sizeOk out.length) :
    ∃ r, planBlocks fl zm p lo hi keepIn out = .ok r ∧
      r.listed.take r.nListed = listing fl zm p lo hi keepIn ∧
      r.nListed = (listing fl zm p lo hi keepIn).length ∧
      r.nIn = countAll fl zm p lo hi .IN ∧ r.nOut = countAll fl zm p lo hi .OUT := by
  have hcap := h2.2.2.2.1
  have hb := h2.2.2.2.2.1
  have hc := h2.2.2.2.2.2
  have hk := keptAll_chunkStates fl zm lo hi keepIn hc hb
  have hn := getD_starts_last (isListed keepIn) (listedEntry fl zm p) (chunkStates fl zm p lo hi) p.nChunk
  rw [hk] at hn
  have hcount : ∀ st, ((List.range p.nChunk).map fun cid =>
      (chunkStates fl zm p lo hi cid).countP (· = st)).sum = countAll fl zm p lo hi st := by
    intro st
    unfold countAll countState
    simp only [countP_chunkStates]
  unfold planBlocks
  rw [if_neg (not_not.mpr h1), if_neg (not_not.mpr h2)]
  refine ⟨_, rfl, ?_, hn, hcount .IN, hcount .OUT⟩
  dsimp only
  rw [hn, ← hk]
  exact compact_take _ _ _ _ _ (by rw [hk]; exact (length_listing_le keepIn).trans hcap)

/-- Ids in the order of the listing. -/
def idLt (a b : Listed) : Prop := a.chunk < b.chunk ∨ (a.chunk = b.chunk ∧ a.block < b.block)

theorem mem_listing {keepIn : Bool} {l : Listed} : l ∈ listing fl zm p lo hi keepIn ↔
    l.chunk < p.nChunk ∧ l.block < p.blocksPerChunk ∧ l.state = stateAt fl zm p lo hi l.chunk l.block ∧
      l.eps = errorAt fl zm p l.chunk l.block ∧ isListed keepIn l.state := by
  simp only [listing, List.mem_flatMap, List.mem_range, chunkListing, List.mem_map, List.mem_filter]
  constructor
  · rintro ⟨c, hc, b, ⟨hb, hs⟩, rfl⟩
    exact ⟨hc, hb, rfl, rfl, hs⟩
  · obtain ⟨c, b, st, e⟩ := l
    rintro ⟨hc, hb, hst, he, hs⟩
    dsimp only at hc hb hst he hs
    subst hst he
    exact ⟨c, hc, b, ⟨hb, hs⟩, rfl⟩

/-- **The ids are listed in increasing order**, each at most once. -/
theorem pairwise_listing (keepIn : Bool) : (listing fl zm p lo hi keepIn).Pairwise idLt := by
  unfold listing
  rw [List.pairwise_flatMap]
  constructor
  · intro c _
    unfold chunkListing
    rw [List.pairwise_map]
    exact (List.pairwise_lt_range.filter _).imp fun h => Or.inr ⟨rfl, h⟩
  · refine List.pairwise_lt_range.imp fun hcd l hl l' hl' => Or.inl ?_
    obtain ⟨b, -, rfl⟩ := List.mem_map.mp hl
    obtain ⟨b', -, rfl⟩ := List.mem_map.mp hl'
    exact hcd

theorem countP_add_states (f : ℕ → BlockState) : ∀ l : List ℕ,
    (l.countP fun b => f b = .IN) + (l.countP fun b => f b = .OUT) +
      (l.countP fun b => f b = .MAYBE) = l.length
  | [] => rfl
  | b :: l => by
    have ih := countP_add_states f l
    simp only [List.countP_cons, List.length_cons]
    cases f b <;> simp <;> omega

variable (fl zm p lo hi) in
theorem count_states : countAll fl zm p lo hi .IN + countAll fl zm p lo hi .OUT +
    countAll fl zm p lo hi .MAYBE = p.totalBlocks := by
  unfold countAll
  have h : ∀ l : List ℕ, (l.map (countState fl zm p lo hi .IN)).sum +
      (l.map (countState fl zm p lo hi .OUT)).sum + (l.map (countState fl zm p lo hi .MAYBE)).sum =
        l.length * p.blocksPerChunk := by
    intro l
    induction l with
    | nil => simp
    | cons c l ih =>
      have hc := countP_add_states (stateAt fl zm p lo hi c) (List.range p.blocksPerChunk)
      rw [List.length_range] at hc
      simp only [List.map_cons, List.sum_cons, List.length_cons, Nat.succ_mul]
      unfold countState at *
      omega
  rw [h, List.length_range, PlanArgs.totalBlocks]

theorem length_chunkListing_false (cid : ℕ) :
    (chunkListing fl zm p lo hi false cid).length = countState fl zm p lo hi .MAYBE cid := by
  rw [length_chunkListing, countState]
  congr 1
  funext b
  simp [isListed]

theorem length_listing_false :
    (listing fl zm p lo hi false).length = countAll fl zm p lo hi .MAYBE := by
  rw [listing, List.length_flatMap, countAll]
  congr 1
  exact List.map_congr_left fun c _ => length_chunkListing_false c

/-- The MAYBE blocks are listed with or without the IN blocks. -/
theorem countP_maybe_listing (keepIn : Bool) : (listing fl zm p lo hi keepIn).countP
    (·.state = .MAYBE) = countAll fl zm p lo hi .MAYBE := by
  rw [listing, List.countP_flatMap, countAll]
  congr 1
  refine List.map_congr_left fun c _ => ?_
  rw [Function.comp_apply, chunkListing, List.countP_map, List.countP_filter, countState]
  refine List.countP_congr fun b _ => ?_
  simp only [Function.comp_apply, isListed, Bool.decide_or, Bool.and_eq_true, decide_eq_true_eq,
    Bool.or_eq_true]
  exact ⟨fun h => h.1, fun h => ⟨h, Or.inl h⟩⟩

/-! ### Units and records -/

theorem PlanArgs.uid_eq (p : PlanArgs) (cid sub : ℕ) :
    p.uid cid sub = ravel p.units (join p.subs (unravel p.grid cid) (unravel p.subs sub)) := rfl

theorem PlanArgs.shapeOk.subs_pos (h : p.shapeOk) (a : Fin 3) : 0 < p.subs a :=
  Nat.pos_of_ne_zero (h.1 a)

theorem PlanArgs.shapeOk.scale_grid (h : p.shapeOk) : scale p.grid p.subs = p.units :=
  scale_outer h.2.1

theorem PlanArgs.shapeOk.volume_units (h : p.shapeOk) : volume p.units = p.nChunk * p.nSub := by
  rw [← h.scale_grid, volume_scale]
  rfl

theorem PlanArgs.shapeOk.inside_unit (h : p.shapeOk) {cid sub : ℕ} (hc : cid < p.nChunk)
    (hs : sub < p.nSub) :
    Inside p.units (join p.subs (unravel p.grid cid) (unravel p.subs sub)) := by
  rw [← h.scale_grid]
  exact inside_join (inside_unravel hc) (inside_unravel hs)

theorem PlanArgs.shapeOk.uid_lt (h : p.shapeOk) {cid sub : ℕ} (hc : cid < p.nChunk)
    (hs : sub < p.nSub) : p.uid cid sub < volume p.units := by
  rw [p.uid_eq]
  exact ravel_lt (h.inside_unit hc hs)

theorem PlanArgs.div_lt_nSub (p : PlanArgs) {b : ℕ} (hb : b < p.blocksPerChunk) :
    b / p.blocksPerUnit < p.nSub :=
  Nat.div_lt_of_lt_mul (by rw [Nat.mul_comm]; exact hb)

/-- The cells for the listed blocks that the wrappers allocate are enough. -/
theorem PlanArgs.shapeOk.totalBlocks_eq (h : p.shapeOk) :
    p.totalBlocks = volume p.units * p.blocksPerUnit := by
  rw [h.volume_units, Nat.mul_assoc]
  rfl

/-- What the planner asks of the sizes of an array, beyond their shape. -/
def PlanArgs.fits (p : PlanArgs) : Prop :=
  p.nChunk ≠ 0 ∧ FitsSize p.totalBlocks ∧ p.blocksPerChunk ≤ uint32Max ∧ p.nChunk ≤ uint32Max

instance (p : PlanArgs) : Decidable p.fits := by unfold PlanArgs.fits; infer_instance

theorem PlanArgs.fits.sizeOk (hf : p.fits) (h : p.shapeOk) :
    p.sizeOk (volume p.units * p.blocksPerUnit) :=
  ⟨hf.1, lt_of_le_of_lt hf.2.2.1 (by decide), hf.2.1, h.totalBlocks_eq.le, hf.2.2.1, hf.2.2.2⟩

theorem planChunks_eq (h : p.shapeOk) (hf : p.fits) : planChunks fl zm p lo hi =
    .ok ((listing fl zm p lo hi false).map fun l => (l.chunk, l.block),
      countAll fl zm p lo hi .IN, countAll fl zm p lo hi .OUT) := by
  obtain ⟨r, hr, hl, -, hi', ho⟩ := planBlocks_eq fl zm lo hi false
    (List.replicate (volume p.units * p.blocksPerUnit) default) h
    (by rw [List.length_replicate]; exact hf.sizeOk h)
  unfold planChunks
  simp only [hr, hl, hi', ho, bind, Except.bind]

theorem planRead_eq (h : p.shapeOk) (hf : p.fits) : planRead fl zm p lo hi =
    .ok (listing fl zm p lo hi true, countAll fl zm p lo hi .IN, countAll fl zm p lo hi .OUT) := by
  obtain ⟨r, hr, hl, -, hi', ho⟩ := planBlocks_eq fl zm lo hi true
    (List.replicate (volume p.units * p.blocksPerUnit) default) h
    (by rw [List.length_replicate]; exact hf.sizeOk h)
  unfold planRead
  simp only [hr, hl, hi', ho, bind, Except.bind]

end Plan

end SkipZFP.Plan.Blocks
