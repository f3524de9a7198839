import SkipZFP.Aggregate.Run
import SkipZFP.Query.Layers
import SkipZFP.Query.Written
import SkipZFP.Read.Raise

/-! # A zone map with missing objects

`write_meta` stores every object of a zone map, so that a missing object means a damaged zone map, and
`read_meta_object` raises. `read_meta_zarr` opens the zone map as an array, and zarr reads a missing
object as zeros, which are the records of units of zeros: it raises nothing.

* `not_mayReturn_zones`: tasks of which one cannot be read return nothing.
* `readMetaZarr_damaged`: opening a damaged zone map as an array succeeds.
* `damaged_iff`: **a damaged zone map is noticed exactly when its objects are read by their keys**. -/

namespace SkipZFP.Aggregate.Damaged

open SkipZFP.Lib.Grid SkipZFP.Lib.Rows SkipZFP.Lib.Loops SkipZFP.Lib.Double SkipZFP.Lib.Float32
open SkipZFP.Codec.Config SkipZFP.Codec.Pack SkipZFP.Plan.Blocks SkipZFP.Plan.Shapes
open SkipZFP.Plan.Records SkipZFP.Read.Budget SkipZFP.Read.Gather SkipZFP.Read.Raise SkipZFP.Read.Store
open SkipZFP.Read.ZoneMap
open SkipZFP.Read.Stream SkipZFP.Query.Run SkipZFP.Query.Count SkipZFP.Query.Fill SkipZFP.Query.Layers
open SkipZFP.Query.Written SkipZFP.Aggregate.Block SkipZFP.Aggregate.Run

/-! ### The array -/

section Array
variable {κ : Type} [DecidableEq κ] (Z : Zarr) (a : ZarrArray κ) (lt : Layout) (key : ℕ → κ) (t : ℕ)
  (compress : Bool) (rec : List (List UInt8)) (missing : List ℕ)

/-- A store without some objects of the zone map. -/
def removeObjects (get : κ → Option (List UInt8)) (k : κ) : Option (List UInt8) :=
  if ∃ i ∈ missing, key i = k then none else get k

/-- **A written array that has lost objects of its zone map**, with or without the attribute
`skipzfp_meta_t_chunk`. -/
def damaged (recorded : Bool) : ZarrArray κ :=
  let b := withMeta Z a lt key t compress
    (removeObjects key missing (putObjects Z a lt key t compress rec))
  if recorded then b else { b with tChunk := none }

end Array

/-- Every query is refused, whatever the zone map holds: before the first read, or by the planner. -/
def Refused {κ : Type} (a : ZarrArray κ) (opts : QueryOptions) : Prop :=
  ∀ st, Query.Run.setup a opts = .ok st → ¬ st.lt.planArgs.fits

/-! ### Reading by key -/

/-- **Tasks of which one cannot be read return nothing.** -/
theorem not_mayReturn_zones {ε R ζ ρ δ π β : Type} {w : Work ζ ρ δ π β ε} {permits : ℕ}
    {hp : 0 < permits} {zs : List ζ} {next : List (π × List β) → ℕ → Program ε R} {z : ζ} {e : ε}
    (hz : z ∈ zs) (hread : w.readZone z = .error e) (v : R) : ¬ (zones w hp zs next).MayReturn v := by
  intro h
  obtain ⟨rows, peak, hrows, -⟩ := mayReturn_zones h
  obtain ⟨i, hi, rfl⟩ := List.getElem_of_mem hz
  obtain ⟨row, -, hrow⟩ := (getElem?_mapM_ok hrows).2 i _ (List.getElem?_eq_getElem hi)
  obtain ⟨hres, -⟩ := evalZone_ok.mp hrow
  unfold Work.zoneResult at hres
  rw [hread] at hres
  cases hres

section Keys
variable {κ : Type} [LinearOrder κ] {Z : Zarr} {a : ZarrArray κ} {lt : Layout} {key : ℕ → κ} {t : ℕ}
  {compress : Bool} {rec : List (List UInt8)} {missing : List ℕ}

theorem fetchObject_missing {recorded : Bool} {i : ℕ} (hi : i ∈ missing) :
    fetchObject (damaged Z a lt key t compress rec missing recorded) i =
      .error (.FileNotFoundError (key i)) := by
  have hkey : (damaged Z a lt key t compress rec missing recorded).metaKey = some key := by
    cases recorded <;> rfl
  have hget : (damaged Z a lt key t compress rec missing recorded).get (key i) = none := by
    have h : removeObjects key missing (putObjects Z a lt key t compress rec) (key i) = none :=
      if_pos ⟨i, hi, rfl⟩
    cases recorded <;> exact h
  unfold fetchObject
  rw [hkey]
  dsimp only
  rw [hget]

theorem metaObjects_damaged (ht : 0 < t) (recorded : Bool) :
    metaObjects (damaged Z a lt key t compress rec missing recorded) lt =
      .ok (if recorded then some (writtenObjects lt t compress) else none) := by
  unfold damaged
  dsimp only
  cases recorded with
  | true => exact metaObjects_withMeta ht _
  | false =>
    unfold metaObjects
    rw [if_neg (by simp [withMeta]), if_neg (by simp [withMeta])]
    rfl

theorem codec_damaged (recorded : Bool) :
    (damaged Z a lt key t compress rec missing recorded).codec = a.codec ∧
      (damaged Z a lt key t compress rec missing recorded).shape = a.shape ∧
        (damaged Z a lt key t compress rec missing recorded).chunk = a.chunk := by
  cases recorded <;> exact ⟨rfl, rfl, rfl⟩

end Keys

/-! ### Reading as an array -/

section Zarr
variable {κ : Type} [LinearOrder κ] {Z : Zarr} (hZ : ∀ x, Z.decompress (Z.compress x) = some x)
  {a : ZarrArray κ} {lt : Layout} {key : ℕ → κ} (hkey : Function.Injective key) {t : ℕ}
  {compress : Bool} {rec : List (List UInt8)} {missing : List ℕ}
include hZ hkey

/-- An object is opened or, when it is missing, taken for zeros. -/
theorem openObjectAt_removed {i : ℕ} (hi : i < ceildiv (lt.unitGrid 0) t) :
    ∃ x, (openObjectAt Z lt key t compress (removeObjects key missing
      (putObjects Z a lt key t compress rec)) i : Except (QueryError κ) _) = .ok x := by
  unfold openObjectAt removeObjects
  by_cases hmiss : ∃ j ∈ missing, key j = key i
  · rw [if_pos hmiss]
    exact ⟨_, rfl⟩
  · rw [if_neg hmiss, putObjects_key hkey hi]
    unfold storedObject
    cases compress with
    | false => exact ⟨_, rfl⟩
    | true =>
      dsimp only
      rw [if_pos rfl, if_pos rfl, hZ]
      exact ⟨_, rfl⟩

/-- **Opening a damaged zone map as an array succeeds.** -/
theorem readMetaZarr_damaged (recorded : Bool) :
    ∃ m, readMetaZarr (damaged Z a lt key t compress rec missing recorded) lt = .ok m := by
  have hopen : ∀ i ∈ List.range (ceildiv (lt.unitGrid 0) t), ∃ x,
      (openObjectAt Z lt key t compress (removeObjects key missing
        (putObjects Z a lt key t compress rec)) i : Except (QueryError κ) _) = .ok x :=
    fun i hi => openObjectAt_removed hZ hkey (List.mem_range.mp hi)
  choose! x hx using hopen
  have harray : ∃ z : MetaArray, (damaged Z a lt key t compress rec missing recorded).metaArray = .ok z ∧
      z.shape = [lt.unitGrid 0, lt.unitGrid 1, lt.unitGrid 2, lt.metaSize] := by
    have h : ∃ z : MetaArray, (openArray Z lt key t compress (removeObjects key missing
        (putObjects Z a lt key t compress rec)) : Except (QueryError κ) _) = .ok z ∧
          z.shape = [lt.unitGrid 0, lt.unitGrid 1, lt.unitGrid 2, lt.metaSize] := by
      unfold openArray
      rw [mapM_ok hx]
      exact ⟨_, rfl, rfl⟩
    cases recorded <;> exact h
  have hpacked : metaPacked (damaged Z a lt key t compress rec missing recorded) = .ok compress := by
    unfold metaPacked
    cases recorded <;> cases compress <;> rfl
  obtain ⟨z, hz, hshape⟩ := harray
  unfold readMetaZarr
  rw [hz]
  dsimp only
  rw [if_neg (not_not.mpr hshape), hpacked]
  exact ⟨_, rfl⟩

end Zarr

/-! ### Queries and aggregates -/

section Runs
variable {κ : Type} [LinearOrder κ] {E : Env} {A : Arith} {a : ZarrArray κ} {lo hi : Dbl}
  {opts : QueryOptions} {returnBlocks : Bool} {nat : Native F32} {data : Tri → F32} {st : Setup}

/-- **A query that reads the whole zone map returns**, whatever it is told about the blocks. -/
theorem returns_query (hc : a.codec.ChunkOk a.chunk) (hst : Query.Run.setup a opts = .ok st)
    (hpipe : st.pipelined opts = none) (hfits : st.lt.planArgs.fits) {m : List UInt8 × ℕ × ℕ}
    (hm : (readMeta E a opts st).Returns (· = m)) (hA : Packed nat a st data) :
    (queryAsync E a lo hi opts).Returns fun _ => True := by
  by_cases h0 : st.layer = 0
  · rw [query_eq_wholeQuery hst hpipe]
    refine returns_wholeQuery lo hi (shapeOk_setup hc hst) hfits hm ?_
    rw [if_pos h0]
    exact returns_streamLayer hst h0 (object_of_packed hc hst hA m) fun peak => trivial
  · exact returns_mono (fun _ _ => trivial) (returns_layer hc hst h0 hfits hm hA)

omit [LinearOrder κ] in
theorem query_setup_of_aggregate (hst : Aggregate.Run.setup a opts = .ok st) :
    Query.Run.setup a opts = .ok st := by
  unfold Aggregate.Run.setup at hst
  unfold Query.Run.setup
  cases hlt : getLayout a.codec a.shape a.chunk with
  | error msg => rw [hlt] at hst; cases hst
  | ok lt =>
    rw [hlt] at hst
    obtain ⟨-, size, rfl⟩ := getLayout_ok hlt
    have hlayers := layers_length_pos a.codec
    have hlen : (layoutOf a.codec a.shape a.chunk size).layers.length = a.codec.layers.length := rfl
    dsimp only at hst ⊢
    split_ifs at hst with hother
    rw [not_or, not_and] at hother
    have hzero : opts.layer.getD (((layoutOf a.codec a.shape a.chunk size).layers.length : ℤ) - 1) = 0 := by
      cases hl : opts.layer with
      | none =>
        have := hother.2 hl
        rw [Option.getD_none]
        omega
      | some n =>
        have := hother.1
        rw [hl] at this
        simpa using this
    rw [hzero, if_neg (by omega), if_neg (by simp)]
    exact hst

theorem not_mayReturn_byKey (hmo : ∃ mo, st.mo = some mo ∧ ∃ i < mo.count, ∃ e, fetchObject a i = .error e)
    (hby : opts.metaByKey = true) :
    (∀ v, ¬ (query E a lo hi opts st).MayReturn v) ∧
      ∀ v, ¬ (aggregate E A a lo hi opts returnBlocks st).MayReturn v := by
  obtain ⟨mo, hmo, i, hi, e, he⟩ := hmo
  have hmem := List.mem_range.mpr hi
  have hmeta : ∀ m, ¬ (readMeta E a opts st).MayReturn m := by
    unfold readMeta
    rw [hmo, Option.filter_some, if_pos (by simpa using hby)]
    exact not_mayReturn_zones hmem he
  have hsame : ∀ mo', st.pipelined opts = some mo' → mo' = mo := fun mo' hpipe => by
    obtain ⟨hmo', -⟩ := Option.filter_eq_some_iff.mp hpipe
    exact Option.some.inj (hmo'.symm.trans hmo)
  constructor <;> intro v hv
  · unfold query at hv
    cases hpipe : st.pipelined opts with
    | none =>
      rw [hpipe] at hv
      obtain ⟨m, hm, -⟩ := mayReturn_bind hv
      exact hmeta m hm
    | some mo' =>
      rw [hpipe, hsame mo' hpipe] at hv
      exact not_mayReturn_zones hmem he v hv
  · unfold aggregate at hv
    cases hpipe : st.pipelined opts with
    | none =>
      rw [hpipe] at hv
      obtain ⟨m, hm, -⟩ := mayReturn_bind hv
      exact hmeta m hm
    | some mo' =>
      rw [hpipe, hsame mo' hpipe] at hv
      exact not_mayReturn_zones hmem he v hv

omit [LinearOrder κ] in
theorem plan_refused {p : PlanArgs} (hshape : p.shapeOk) (hfits : ¬ p.fits) (fl : ℚ → ℚ)
    (zm : List UInt8) (lo hi : Dbl) : (∃ e, planChunks fl zm p lo hi = .error e) ∧
      ∃ e, planRead fl zm p lo hi = .error e := by
  have hblocks : ∀ keepIn out, planBlocks fl zm p lo hi keepIn out = .error .SZ_ERR_ARG := by
    intro keepIn out
    have hsize : ¬ p.sizeOk out.length := fun ⟨h1, _, h3, _, h5, h6⟩ => hfits ⟨h1, h3, h5, h6⟩
    unfold planBlocks
    rw [if_neg (not_not.mpr hshape), if_pos hsize]
  unfold planChunks planRead
  dsimp only
  rw [hblocks, hblocks]
  exact ⟨⟨_, rfl⟩, ⟨_, rfl⟩⟩

theorem not_mayReturn_refused (hshape : st.lt.planArgs.shapeOk) (hfits : ¬ st.lt.planArgs.fits)
    (hpipe : st.pipelined opts = none) : (∀ v, ¬ (query E a lo hi opts st).MayReturn v) ∧
      ∀ v, ¬ (aggregate E A a lo hi opts returnBlocks st).MayReturn v := by
  constructor <;> intro v hv
  · unfold query at hv
    rw [hpipe] at hv
    obtain ⟨m, -, hrest⟩ := mayReturn_bind hv
    obtain ⟨p, hp, -⟩ := mayReturn_bind hrest
    obtain ⟨⟨e, he⟩, -⟩ := plan_refused hshape hfits E.fl
      (planMeta a.codec st.layer st.lt.unitShape m.1) lo hi
    have hplan : planQuery E a lo hi opts st m = .ok p := hp
    unfold planQuery at hplan
    rw [he] at hplan
    cases hplan
  · unfold aggregate at hv
    rw [hpipe] at hv
    obtain ⟨m, -, hrest⟩ := mayReturn_bind hv
    obtain ⟨p, hp, -⟩ := mayReturn_bind hrest
    obtain ⟨-, e, he⟩ := plan_refused hshape hfits E.fl
      (planMeta a.codec 0 st.lt.unitShape m.1) lo hi
    have hplan : planAggregate E a lo hi opts st m = .ok p := hp
    unfold planAggregate at hplan
    rw [he] at hplan
    cases hplan

end Runs

/-! ### When damage is noticed -/

section Noticed
variable {κ : Type} [LinearOrder κ] {E : Env} {A : Arith} {a : ZarrArray κ} {lo hi : Dbl}
  {opts : QueryOptions} {returnBlocks : Bool}

theorem raises_of_setup (h : ∀ st, Query.Run.setup a opts = .ok st →
      (∀ v, ¬ (query E a lo hi opts st).MayReturn v) ∧
        ∀ v, ¬ (aggregate E A a lo hi opts returnBlocks st).MayReturn v) :
    Raises (fun _ => True) (queryAsync E a lo hi opts) ∧
      Raises (fun _ => True) (aggregateAsync E A a lo hi opts returnBlocks) := by
  constructor <;> refine raises_of_mayRaise (fun v hv => ?_) fun _ _ => trivial
  · unfold queryAsync at hv
    cases hst : Query.Run.setup a opts with
    | error e => rw [hst] at hv; cases hv
    | ok st => rw [hst] at hv; exact (h st hst).1 v hv
  · unfold aggregateAsync at hv
    cases hst : Aggregate.Run.setup a opts with
    | error e => rw [hst] at hv; cases hv
    | ok st => rw [hst] at hv; exact (h st (query_setup_of_aggregate hst)).2 v hv

/-- **When a query notices that an object cannot be read**, although the zone map can be opened as an array:
when it reads the objects by key, whatever else is stored, and, if the chunks are, in no other case. -/
theorem noticed_iff (hc : a.codec.ChunkOk a.chunk) {lt : Layout}
    (hlt : getLayout a.codec a.shape a.chunk = .ok lt) {mo : MetaObjects} {recorded : Bool}
    (hmo : metaObjects a lt = .ok (if recorded then some mo else none))
    (hmiss : ∃ i < mo.count, ∃ e, fetchObject a i = .error e) (hzarr : ∃ m, readMetaZarr a lt = .ok m) :
    ((opts.metaByKey = true ∧ recorded = true) ∨ Refused a opts →
      Raises (fun _ => True) (queryAsync E a lo hi opts) ∧
        Raises (fun _ => True) (aggregateAsync E A a lo hi opts returnBlocks)) ∧
    ∀ (nat : Native F32) (data : Tri → F32),
      (∀ st, Query.Run.setup a opts = .ok st → Packed nat a st data) →
        ((Raises (fun _ => True) (queryAsync E a lo hi opts) ∧
          Raises (fun _ => True) (aggregateAsync E A a lo hi opts returnBlocks)) ↔
          (opts.metaByKey = true ∧ recorded = true) ∨ Refused a opts) := by
  have hset : ∀ st, Query.Run.setup a opts = .ok st → st.lt = lt ∧
      st.mo = if recorded then some mo else none := fun st hst => by
    obtain ⟨h1, -, h3⟩ := setup_spec hst
    rw [hlt] at h1
    cases h1
    rw [hmo] at h3
    exact ⟨rfl, (Except.ok.inj h3).symm⟩
  by_cases hby : opts.metaByKey = true ∧ recorded = true
  · have hraises : Raises (fun _ => True) (queryAsync E a lo hi opts) ∧
        Raises (fun _ => True) (aggregateAsync E A a lo hi opts returnBlocks) := raises_of_setup
      fun st hst => not_mayReturn_byKey ⟨mo, by rw [(hset st hst).2, if_pos hby.2], hmiss⟩ hby.1
    exact ⟨fun _ => hraises, fun _ _ _ => iff_of_true hraises (Or.inl hby)⟩
  -- objects are not read by key, so the zone map is opened as an array
  have hmeta : ∀ st, Query.Run.setup a opts = .ok st → (st.mo.filter fun _ => opts.metaByKey) = none := by
    intro st hst
    rw [(hset st hst).2]
    by_cases hr : recorded = true
    · have : opts.metaByKey = false := by simpa [hr] using hby
      simp [hr, this]
    · simp [hr]
  have hpipe : ∀ st, Query.Run.setup a opts = .ok st → st.pipelined opts = none := by
    intro st hst
    have h := hmeta st hst
    unfold Setup.pipelined
    rw [Option.filter_eq_none_iff] at h ⊢
    intro mo' hmo' hp
    exact h mo' hmo' (by simpa using (of_decide_eq_true hp).2.1)
  by_cases href : Refused a opts
  · have hraises : Raises (fun _ => True) (queryAsync E a lo hi opts) ∧
        Raises (fun _ => True) (aggregateAsync E A a lo hi opts returnBlocks) := raises_of_setup
      fun st hst => not_mayReturn_refused (shapeOk_setup hc hst) (href st hst) (hpipe st hst)
    exact ⟨fun _ => hraises, fun _ _ _ => iff_of_true hraises (Or.inr href)⟩
  · refine ⟨fun h => absurd h (not_or.mpr ⟨hby, href⟩), fun nat data hchunks =>
      iff_of_false (fun hraise => ?_) (not_or.mpr ⟨hby, href⟩)⟩
    unfold Refused at href
    push Not at href
    obtain ⟨st, hst, hfits⟩ := href
    obtain ⟨m, hm⟩ := hzarr
    have hread : (readMeta E a opts st).Returns (· = m) := by
      unfold readMeta
      rw [hmeta st hst, (hset st hst).1]
      exact returns_done hm rfl
    exact not_raises_of_returns
      (returns_query hc hst (hpipe st hst) hfits hread (hchunks st hst)) hraise.1

end Noticed

section Damaged
variable {κ : Type} [LinearOrder κ] {Z : Zarr} (hZ : ∀ x, Z.decompress (Z.compress x) = some x)
  {a : ZarrArray κ} {l : List ℕ} (hchunk : a.codec.chunkShape l = .ok a.chunk) {lt : Layout}
  (hlt : getLayout a.codec a.shape a.chunk = .ok lt) {key : ℕ → κ} (hkey : Function.Injective key)
  {t : ℕ} (ht : 0 < t) {compress : Bool} {rec : List (List UInt8)} {missing : List ℕ}
include hZ hchunk hlt hkey ht

/-- **A damaged zone map is noticed exactly when its objects are read by their keys.** For every array
with a zone map, all objects that are missing, any bounds and options: a query and an aggregate raise if
objects are read by key, that is unless `meta_by_key=False` or the array does not record `t_chunk`, or the
query is refused anyway, whatever else is stored; and where the chunks are stored, only if. -/
theorem damaged_iff (hmissing : ∃ i ∈ missing, i < ceildiv (lt.unitGrid 0) t) (recorded : Bool)
    (E : Env) (A : Arith) (lo hi : Dbl) (opts : QueryOptions) (returnBlocks : Bool) {b : ZarrArray κ}
    (hb : b = damaged Z a lt key t compress rec missing recorded) :
    ((opts.metaByKey = true ∧ recorded = true) ∨ Refused b opts →
      Raises (fun _ => True) (queryAsync E b lo hi opts) ∧
        Raises (fun _ => True) (aggregateAsync E A b lo hi opts returnBlocks)) ∧
    ∀ (nat : Native F32) (data : Tri → F32),
      (∀ st, Query.Run.setup b opts = .ok st → Packed nat b st data) →
        ((Raises (fun _ => True) (queryAsync E b lo hi opts) ∧
          Raises (fun _ => True) (aggregateAsync E A b lo hi opts returnBlocks)) ↔
          (opts.metaByKey = true ∧ recorded = true) ∨ Refused b opts) := by
  subst hb
  obtain ⟨i, hi, hcount⟩ := hmissing
  have hcodec : ∀ {b : ZarrArray κ}, b = damaged Z a lt key t compress rec missing recorded →
      b.codec = a.codec ∧ b.shape = a.shape ∧ b.chunk = a.chunk := by
    rintro b rfl
    exact codec_damaged recorded
  obtain ⟨h1, h2, h3⟩ := hcodec rfl
  exact noticed_iff (by rw [h1, h3]; exact a.codec.chunkOk_of_chunkShape hchunk)
    (by rw [h1, h2, h3]; exact hlt) (metaObjects_damaged ht recorded)
    ⟨i, hcount, _, fetchObject_missing hi⟩ (readMetaZarr_damaged hZ hkey recorded)

end Damaged

/-! ### An array that has lost its zone map -/

/-- The array of two blocks, one of zeros and one of ones, without its only zone map object. -/
def damagedOfTwo (recorded : Bool) : ZarrArray ℕ :=
  damaged markFirst arrayOfTwo setupOfTwo.lt (· + 1) 1 false [] [0] recorded

def optionsZarr : QueryOptions := { optionsOfTwo with metaByKey := false }

def setupDamaged : Setup := { setupOfTwo with mo := some ⟨1, 28, 1, false, 1⟩ }

theorem setup_damagedOfTwo {opts : QueryOptions} (hl : opts.layer = none) :
    Query.Run.setup (damagedOfTwo true) opts = .ok setupDamaged :=
  setup_eq (a := damagedOfTwo true) (k := 0) (oneLayer.chunkOk_of_chunkShape chunkShape_oneLayer)
    (by decide) (by decide) (by decide +kernel) (by decide) (by rw [hl]; rfl) (Or.inl rfl) rfl

theorem packed_damagedOfTwo : Packed (firstValue F32.bytes F32.ofBytes) (damagedOfTwo true) setupDamaged
    fun i => F32.ofBytes (if 4 ≤ i 2 then [0, 0, 128, 63] else [0, 0, 0, 0]) where
  object := by
    intro cid hcid
    have h1 : setupDamaged.nChunk = 1 := by decide +kernel
    obtain rfl : cid = 0 := by omega
    decide +kernel
  distinct := by
    intro cid hcid cid' hcid' _
    have h1 : setupDamaged.nChunk = 1 := by decide +kernel
    omega

/-- Half of the values are above zero, and none is counted. -/
theorem not_damaged_ofTwo :
    (queryAsync envOfTwo (damagedOfTwo true) (.fin 0) .pinf optionsZarr).Always (fun r => r.count = 0) ∧
      ¬ Raises (fun _ => True)
        (queryAsync envOfTwo (damagedOfTwo true) (.fin 0) .pinf optionsZarr) := by
  have hst : Query.Run.setup (damagedOfTwo true) optionsZarr = .ok setupDamaged := setup_damagedOfTwo rfl
  have hc : (damagedOfTwo true).codec.ChunkOk (damagedOfTwo true).chunk :=
    oneLayer.chunkOk_of_chunkShape chunkShape_oneLayer
  have hm : (readMeta envOfTwo (damagedOfTwo true) optionsZarr setupDamaged).Returns
      (· = (List.replicate 28 0, 28, 1)) := returns_done rfl rfl
  have hplan : (plannedOf envOfTwo (damagedOfTwo true) (.fin 0) .pinf optionsZarr setupDamaged
      (List.replicate 28 0, 28, 1)).ids = [] ∧ (plannedOf envOfTwo (damagedOfTwo true) (.fin 0) .pinf
        optionsZarr setupDamaged (List.replicate 28 0, 28, 1)).nIn = 0 := by decide +kernel
  suffices hret : (queryAsync envOfTwo (damagedOfTwo true) (.fin 0) .pinf optionsZarr).Returns
      (fun r => r.count = 0) from ⟨always_of_returns hret, not_raises_of_returns hret⟩
  rw [query_eq_wholeQuery hst (pipelined_eq_none rfl)]
  refine returns_wholeQuery _ _ (shapeOk_setup hc hst) (by decide +kernel) hm ?_
  have h0 : setupDamaged.layer = 0 := rfl
  rw [if_pos h0]
  refine returns_streamLayer hst h0 (object_of_packed hc hst packed_damagedOfTwo _) fun peak => ?_
  show (plannedOf envOfTwo (damagedOfTwo true) (.fin 0) .pinf optionsZarr setupDamaged
    (List.replicate 28 0, 28, 1)).nIn * _ + _ = 0
  rw [hplan.1, hplan.2]
  rfl

/-- Read by key, the array without its zone map is not answered from; opened as an array it is. -/
theorem damaged_iff_ofTwo :
    Raises (fun _ => True) (queryAsync envOfTwo (damagedOfTwo true) (.fin 0) .pinf optionsOfTwo) ∧
      ¬ (Raises (fun _ => True) (queryAsync envOfTwo (damagedOfTwo true) (.fin 0) .pinf optionsZarr) ∧
        Raises (fun _ => True)
          (aggregateAsync envOfTwo .exact (damagedOfTwo true) (.fin 0) .pinf optionsZarr false)) := by
  have hkey : Function.Injective fun i : ℕ => i + 1 := fun i j h => Nat.succ.inj h
  have h := fun opts => damaged_iff (Z := markFirst) (fun x => rfl) (a := arrayOfTwo) chunkShape_oneLayer
    getLayout_ofTwo hkey Nat.one_pos ⟨0, by simp, by decide +kernel⟩ true envOfTwo .exact
    (.fin 0) .pinf opts false (b := damagedOfTwo true) rfl
  refine ⟨((h optionsOfTwo).1 (Or.inl ⟨rfl, rfl⟩)).1, fun hraises => ?_⟩
  have hpacked : ∀ st, Query.Run.setup (damagedOfTwo true) optionsZarr = .ok st →
      Packed (firstValue F32.bytes F32.ofBytes) (damagedOfTwo true) st
        fun i => F32.ofBytes (if 4 ≤ i 2 then [0, 0, 128, 63] else [0, 0, 0, 0]) := fun st hst => by
    rw [setup_damagedOfTwo rfl] at hst
    cases hst
    exact packed_damagedOfTwo
  rcases ((h optionsZarr).2 _ _ hpacked).mp hraises with ⟨hby, -⟩ | hrefused
  · cases hby
  · exact hrefused _ (setup_damagedOfTwo rfl) (by decide +kernel)

end SkipZFP.Aggregate.Damaged
