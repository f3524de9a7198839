import SkipZFP.Api.Calls
import SkipZFP.Lib.Crc
import SkipZFP.Query.Stored

/-! # The life of an archive

The chunks of an array are written at any time. `write_meta` removes the zone map that is there, stores
the objects of a new one in any order, and then records what it was built from, with the CRC32 of every
chunk. It can be cut off, by an error or a crash, between any two of these steps.

* `checkMeta_finished`: `check_meta` compares the chunks with those of the last `write_meta` that
  finished.
* `opened_stored`: an object of one zone map does not pass for one of another `t_chunk`.
* `checkMeta_stale`: **`check_meta` lists exactly the chunks that have changed**, up to collisions of the
  CRC.
* `fresh_exact`: **queries by key are exact as long as it lists none**, if the zone map is right.
* `interrupted`: **whatever write_metas were cut off, a query by key never mixes two zone maps**.

The counts are exact for the values decoded at the layer queried, which at the last layer are those that
reading the array returns. -/

namespace SkipZFP.Api.Lifecycle

open SkipZFP.Lib.Grid SkipZFP.Lib.Rows SkipZFP.Lib.Loops SkipZFP.Lib.Double SkipZFP.Lib.Float32
open SkipZFP.Lib.Crc SkipZFP.Codec.Config SkipZFP.Codec.Pack SkipZFP.Codec.Packing SkipZFP.Plan.Blocks
open SkipZFP.Plan.Shapes SkipZFP.Plan.Records SkipZFP.Plan.Layers SkipZFP.Plan.Classify
open SkipZFP.Read.Gather SkipZFP.Read.Store
open SkipZFP.Read.ZoneMap SkipZFP.Read.Slabs SkipZFP.Query.Run SkipZFP.Query.Count SkipZFP.Query.Layers
open SkipZFP.Query.Reading SkipZFP.Query.Pipelined
open SkipZFP.Read.Missing (exists_of_returns)
open SkipZFP.Query.Stored (exists_readMeta_of_reachable)
open SkipZFP.Query.Written (Zarr storedObject objectSize objectRecords writtenObjects zarrObject metaValues
  metaRecords tChunkOf OfLayout length_zarrObject flatten_objects ofLayout_metaRecords storeMeta
  putObjects withMeta readMetaObject_written putObjects_key unitGrid_pos markFirst getLayout_ofTwo)
open SkipZFP.Aggregate.Answers (arrayOfZeros writtenOfZeros envOfZeros zeroValue metaRecords_zeros
  setup_zeros injective_zeros blockwise_firstValue)
open SkipZFP.Api.Calls (Usable counts_query count_of_counts writtenZeros right_zeros readAt_zeros
  exists_run)

/-! ### Archives -/

/-- Where a zone map is saved: the keys under a path, among them those of the objects. -/
structure MetaPath (κ : Type) where
  key : ℕ → κ
  under : κ → Bool
  under_key : ∀ i, under (key i) = true
  injective : Function.Injective key

/-- The arguments of a `write_meta`. -/
structure MetaJob where
  shape : Tri
  data : Tri → F32
  tChunk : Option ℕ
  pos : ∀ t ∈ tChunk, 0 < t

/-- What `write_meta` records. -/
structure Attrs where
  tChunk : ℕ
  source : MetaSource
  crcs : List (Option (BitVec 32))

/-- What a `write_meta` is at: it removes the zone map that is there, or stores its own. -/
inductive Phase where
  | idle
  | removing (job : MetaJob)
  | storing (job : MetaJob)

/-- The store of an array, its attributes, and the `write_meta` that runs. -/
structure Archive (κ : Type) where
  get : κ → Option (List UInt8)
  attrs : Option Attrs
  phase : Phase

/-- What an archive is of: an array, as it was created, with its layout, and the place of its zone map
beside the chunks. All its write_metas compress the objects, or none does: the attributes of one that has
finished outlive its objects, and a raw object can happen to decompress to records, or a compressed one to
have the size of raw records. -/
structure Site (κ : Type) where
  array : ZarrArray κ
  lt : Layout
  layout : getLayout array.codec array.shape array.chunk = .ok lt
  path : MetaPath κ
  beside : ∀ p, path.under (array.chunkKey p) = false
  compress : Bool
  zarr : Zarr
  lossless : ∀ x, zarr.decompress (zarr.compress x) = some x
  fl : ℚ → ℚ
  nat : Native F32

section Site
variable {κ : Type} (S : Site κ)

/-- `t_chunk` of a `write_meta`. -/
def Site.tChunk (job : MetaJob) : ℕ := tChunkOf job.tChunk S.lt.unitGrid S.lt.metaSize

def Site.count (job : MetaJob) : ℕ := ceildiv (S.lt.unitGrid 0) (S.tChunk job)

/-- The records of a `write_meta`. -/
def Site.records (job : MetaJob) : Except String (List (List UInt8)) :=
  metaRecords S.fl S.nat S.array.codec S.array.shape S.array.chunk job.data

/-- Object `i` of the zone map with these records. -/
def Site.object (job : MetaJob) (rec : List (List UInt8)) (i : ℕ) : List UInt8 :=
  storedObject S.zarr S.lt (S.tChunk job) S.compress rec i

def Site.coords : List Tri := indices (outer S.array.chunk S.array.shape)

/-- `chunk_crc32`. -/
def Site.chunkCrc32 (get : κ → Option (List UInt8)) : List (Option (BitVec 32)) :=
  S.coords.map fun p => (get (S.array.chunkKey p)).map crc32

/-- `check_source`. -/
def Site.checkSource (source : MetaSource) : Except String Unit :=
  if source.codec ≠ S.array.codec ∨ source.shape ≠ S.array.shape ∨ source.chunks ≠ S.array.chunk then
    .error ("the zone map was built for another codec, shape or chunk layout; " ++
      "run write_meta again")
  else .ok ()

/-- **`check_meta`**. -/
def Site.checkMeta (s : Archive κ) : Except String (List Tri) :=
  match s.attrs with
  | none => .error "no zone map source recorded; run write_meta again"
  | some attrs => (S.checkSource attrs.source).map fun _ =>
    ((S.coords.zip (attrs.crcs.zip (S.chunkCrc32 s.get))).filter fun r => r.2.1 ≠ r.2.2).map Prod.fst

/-- The array opened for a query. What opening its zone map as an array returns has no part in a query
that reads it by key. -/
def Site.opened (s : Archive κ) (metaArray : Except (QueryError κ) MetaArray) : ZarrArray κ :=
  { S.array with
    get := s.get
    metaKey := s.attrs.map fun _ => S.path.key
    source := s.attrs.map (·.source)
    tChunk := s.attrs.map (·.tChunk)
    packing := s.attrs.bind fun _ => if S.compress then some "planar-zstd" else none
    metaArray := metaArray }

end Site

/-! ### Steps -/

inductive Action (κ : Type) where
  | chunk (p : Tri) (obj : Option (List UInt8))
  | start (job : MetaJob)
  | remove (k : κ)
  | removed
  | store (i : ℕ)
  | finish
  | stop

section Steps
variable {κ : Type} [DecidableEq κ] (S : Site κ)

/-- An object is written, or deleted. -/
def Archive.put (s : Archive κ) (k : κ) (obj : Option (List UInt8)) : Archive κ :=
  { s with get := Function.update s.get k obj }

/-- The attributes that are set in the end. -/
def Site.attrsOf (s : Archive κ) (job : MetaJob) : Attrs where
  tChunk := S.tChunk job
  source := ⟨S.array.codec, S.array.shape, S.array.chunk⟩
  crcs := S.chunkCrc32 s.get

/-- **One step.** The chunks are written at any time; a `write_meta` removes what is under its path in any
order, computes its records, which may be an error, stores its objects in any order, and sets the
attributes; and it is cut off anywhere. The CRCs are read chunk by chunk before the attributes are set;
here that is the one step `finish`. Nothing is lost: a chunk written after its own read was not read
again, and its write commutes with reading the other chunks and with setting the attributes, so it can be
taken to follow the step. -/
inductive Step : Archive κ → Action κ → Archive κ → Prop
  | chunk (s : Archive κ) (p : Tri) (obj : Option (List UInt8))
      (hp : Inside (outer S.array.chunk S.array.shape) p) :
      Step s (.chunk p obj) (s.put (S.array.chunkKey p) obj)
  | start (s : Archive κ) (job : MetaJob) (hidle : s.phase = .idle)
      (hshape : job.shape = S.array.shape ∧ ∀ i, S.array.shape i % S.array.chunk i = 0) :
      Step s (.start job) { s with phase := .removing job }
  | remove (s : Archive κ) (job : MetaJob) (k : κ) (hphase : s.phase = .removing job)
      (hk : S.path.under k = true) : Step s (.remove k) (s.put k none)
  | removed (s : Archive κ) (job : MetaJob) (hphase : s.phase = .removing job)
      (hnone : ∀ k, S.path.under k = true → s.get k = none) :
      Step s .removed { s with phase := .storing job }
  | store (s : Archive κ) (job : MetaJob) (rec : List (List UInt8)) (i : ℕ)
      (hphase : s.phase = .storing job) (hrec : S.records job = .ok rec) (hi : i < S.count job) :
      Step s (.store i) (s.put (S.path.key i) (some (S.object job rec i)))
  | finish (s : Archive κ) (job : MetaJob) (rec : List (List UInt8)) (hphase : s.phase = .storing job)
      (hrec : S.records job = .ok rec)
      (hall : ∀ i < S.count job, s.get (S.path.key i) = some (S.object job rec i)) :
      Step s .finish ⟨s.get, some (S.attrsOf s job), .idle⟩
  | stop (s : Archive κ) : Step s .stop { s with phase := .idle }

def Run (allowed : Action κ → Prop) : Archive κ → Archive κ → Prop :=
  Relation.ReflTransGen fun s s' => ∃ x, allowed x ∧ Step S s x s'

/-- What steps of one kind keep, a run of them keeps. -/
theorem run_of_step {allowed : Action κ → Prop} {P : Archive κ → Prop}
    (hstep : ∀ s x s', allowed x → Step S s x s' → P s → P s') {s s' : Archive κ}
    (h : Run S allowed s s') (hs : P s) : P s' := by
  induction h with
  | refl => exact hs
  | tail _ hx ih =>
    obtain ⟨x, hallowed, hx⟩ := hx
    exact hstep _ x _ hallowed hx ih

end Steps

/-! ### Changed chunks -/

section Stale
variable {κ : Type} {S : Site κ}

theorem filter_zip_map {α β : Type*} [DecidableEq β] (f g : α → β) : ∀ l : List α,
    ((l.zip ((l.map f).zip (l.map g))).filter fun r => r.2.1 ≠ r.2.2).map Prod.fst =
      l.filter fun x => f x ≠ g x
  | [] => rfl
  | x :: l => by
    have ih := filter_zip_map f g l
    simp only [List.map_cons, List.zip_cons_cons, List.filter_cons]
    by_cases hx : f x = g x
    · simpa [hx] using ih
    · simpa [hx] using ih

/-- **`check_meta` compares the chunks** with those that were there when the attributes were set. -/
theorem checkMeta_finished {s₁ s : Archive κ} {job : MetaJob} (h : s.attrs = some (S.attrsOf s₁ job)) :
    S.checkMeta s = .ok (S.coords.filter fun p =>
      (s₁.get (S.array.chunkKey p)).map crc32 ≠ (s.get (S.array.chunkKey p)).map crc32) := by
  have hsource : S.checkSource (S.attrsOf s₁ job).source = .ok () := by
    unfold Site.checkSource
    exact if_neg (by simp [Site.attrsOf])
  unfold Site.checkMeta
  rw [h]
  dsimp only
  rw [hsource]
  exact congrArg Except.ok (filter_zip_map _ _ _)

variable [DecidableEq κ]

/-- Only the end of a `write_meta` sets attributes. -/
theorem attrs_of_step {s s' : Archive κ} {x : Action κ} (h : Step S s x s') (hx : x ≠ .finish) :
    s'.attrs = s.attrs := by
  cases h with
  | finish => exact absurd rfl hx
  | chunk | start | remove | removed | store | stop => rfl

theorem attrs_of_run {s s' : Archive κ} (h : Run S (· ≠ .finish) s s') : s'.attrs = s.attrs :=
  run_of_step S (P := fun r => r.attrs = s.attrs)
    (fun _ _ _ hx hstep hs => (attrs_of_step hstep hx).trans hs) h rfl

/-- **`check_meta` lists exactly the chunks that have changed**, up to collisions of the CRC. Once a
`write_meta` has finished, whatever is then written, deleted or rebuilt, as long as no other one finishes:

* `check_meta` returns the chunks, in C order, whose object has another CRC32 than the one recorded;
* so it lists no chunk whose object is as it was, and every chunk whose object has appeared or is gone;
* and every one whose object differs in one place of at most four bytes. -/
theorem checkMeta_stale {s₀ s₁ s : Archive κ} (hfinish : Step S s₀ .finish s₁)
    (hrun : Run S (· ≠ .finish) s₁ s) : ∃ stale, S.checkMeta s = .ok stale ∧ stale.Sublist S.coords ∧
    ∀ p, Inside (outer S.array.chunk S.array.shape) p →
      (p ∈ stale ↔ (s₁.get (S.array.chunkKey p)).map crc32 ≠ (s.get (S.array.chunkKey p)).map crc32) ∧
      (s.get (S.array.chunkKey p) = s₁.get (S.array.chunkKey p) → p ∉ stale) ∧
      ((s.get (S.array.chunkKey p)).isSome ≠ (s₁.get (S.array.chunkKey p)).isSome → p ∈ stale) ∧
      ∀ before after u v : List UInt8, u.length = v.length → u.length ≤ 4 → u ≠ v →
        s₁.get (S.array.chunkKey p) = some (before ++ u ++ after) →
        s.get (S.array.chunkKey p) = some (before ++ v ++ after) → p ∈ stale := by
  obtain ⟨job, hattrs⟩ : ∃ job, s₁.attrs = some (S.attrsOf s₁ job) := by
    cases hfinish with
    | finish job => exact ⟨job, rfl⟩
  refine ⟨_, checkMeta_finished ((attrs_of_run hrun).trans hattrs), List.filter_sublist, fun p hp => ?_⟩
  have hmem : (p ∈ S.coords.filter fun p =>
      (s₁.get (S.array.chunkKey p)).map crc32 ≠ (s.get (S.array.chunkKey p)).map crc32) ↔
        (s₁.get (S.array.chunkKey p)).map crc32 ≠ (s.get (S.array.chunkKey p)).map crc32 := by
    rw [List.mem_filter, decide_eq_true_iff]
    exact and_iff_right (mem_indices.mpr hp)
  refine ⟨hmem, fun h => ?_, fun h => hmem.mpr fun heq => h ?_, fun before after u v hlen h4 hne hu hv =>
    hmem.mpr ?_⟩
  · rw [hmem, h]
    exact not_not.mpr rfl
  · rw [← Option.isSome_map (f := crc32), ← heq, Option.isSome_map]
  · rw [hu, hv]
    simpa using crc32_ne before after hlen h4 hne

end Stale

/-! ### The objects of one zone map -/

theorem length_unpackRecords {lt : Layout} {rec : List (List UInt8)} (h : OfLayout lt rec)
    {data : List UInt8} {k : ℕ} (hdata : data.length = k * lt.metaSize) (n : ℕ) :
    (unpackRecords data lt n).length = data.length := by
  have htake : (data.take (n * lt.metaSize)).length = min n k * lt.metaSize := by
    rw [List.length_take, hdata, Nat.mul_min_mul_right]
  have hinj := injective_packBytes (n := min n k) h.lead h.metaSize_pos
  obtain ⟨v, hv⟩ := Finite.injective_iff_surjective.mp hinj ⟨_, htake⟩
  have hpack : packMeta (8 + 4 * lt.layers.length) lt.blocksPerUnit (reshape (min n k) lt.metaSize v.val) =
      data.take (n * lt.metaSize) := congrArg Subtype.val hv
  unfold unpackRecords
  dsimp only
  rw [← hpack, unpackMeta_packMeta (fun r hr => length_of_mem_reshape v.property hr) h.lead h.metaSize_pos,
    flatten_reshape _ _ _ v.property, List.length_append, v.property, ← htake, ← List.length_append,
    List.take_append_drop]

theorem unpacked_of_openObject {κ : Type} {zstd : List UInt8 → Option (List UInt8)} {lt : Layout}
    {mo : MetaObjects} {i : ℕ} {data slab : List UInt8}
    (h : (openObject zstd lt mo i data : Except (QueryError κ) _) = .ok slab) :
    (if mo.packed then (zstd data).map fun d => unpackRecords d lt
      (min mo.tChunk (mo.units - i * mo.tChunk) * mo.rows / lt.metaSize) else some data) = some slab := by
  unfold openObject at h
  dsimp only at h
  split at h
  · cases h
  · rename_i heq
    split_ifs at h
    cases h
    exact heq

section Objects
variable {κ : Type} [LinearOrder κ] {Z : Zarr} (hZ : ∀ x, Z.decompress (Z.compress x) = some x)
  {b : ZarrArray κ} {lt : Layout} {key : ℕ → κ} (hkey : Function.Injective key) {t t' : ℕ} (ht' : 0 < t')
  {compress : Bool} {rec : List (List UInt8)} (h : OfLayout lt rec) (hmeta : b.metaKey = some key)

include hmeta in
omit [LinearOrder κ] in
theorem opened_ok {mo : MetaObjects} {i : ℕ} {s : List UInt8 × ℕ}
    (hs : openedObject Z.decompress b lt mo i = .ok s) : ∃ data, b.get (key i) = some data ∧
      openObject Z.decompress lt mo i data = (.ok s.1 : Except (QueryError κ) _) := by
  unfold openedObject fetchObject at hs
  rw [hmeta] at hs
  dsimp only at hs
  cases hget : b.get (key i) with
  | none => rw [hget] at hs; cases hs
  | some data =>
    rw [hget, Except.bind] at hs
    cases hopen : (openObject Z.decompress lt mo i data : Except (QueryError κ) _) with
    | error e => rw [hopen] at hs; cases hs
    | ok slab =>
      rw [hopen] at hs
      cases hs
      exact ⟨data, rfl, hopen⟩

include hZ h hmeta in
omit [LinearOrder κ] in
/-- **An object passes only for one of its own size.** -/
theorem tChunk_of_opened {i : ℕ} (hget : b.get (key i) = some (storedObject Z lt t' compress rec i))
    {s : List UInt8 × ℕ}
    (hs : openedObject Z.decompress b lt (writtenObjects lt t compress) i = .ok s) : t = t' := by
  have hlen := length_openedObject hs
  obtain ⟨data, hdata, hopen⟩ := opened_ok hmeta hs
  obtain rfl := Option.some.inj (hget.symm.trans hdata)
  have hstored : ∀ values, (zarrObject (objectSize lt t') values i).length =
      t' * (lt.unitGrid 1 * lt.unitGrid 2) * lt.metaSize := fun values => by
    rw [length_zarrObject, objectSize, Nat.mul_assoc t']
  -- unpacked or not, it has the size with which it was stored
  have hsize : s.1.length = t' * (lt.unitGrid 1 * lt.unitGrid 2) * lt.metaSize := by
    have hun := unpacked_of_openObject hopen
    unfold storedObject at hun
    dsimp only at hun
    cases compress with
    | false => rw [← Option.some.inj hun, if_neg Bool.false_ne_true, hstored]
    | true =>
      simp only [writtenObjects, if_true, hZ, Option.map_some, Option.some.injEq] at hun
      rw [← hun, length_unpackRecords h (hstored _), hstored]
  have hmul : t * (lt.unitGrid 1 * lt.unitGrid 2 * lt.metaSize) =
      t' * (lt.unitGrid 1 * lt.unitGrid 2 * lt.metaSize) := by
    rw [← Nat.mul_assoc t', ← hsize, hlen]
    rfl
  exact Nat.eq_of_mul_eq_mul_right (Nat.mul_pos h.pos h.metaSize_pos) hmul

include hZ hkey ht' h hmeta in
/-- **The objects of one zone map, of which some may be missing**: if all can be opened, they were stored
with the `t_chunk` that is recorded, and put together they are its records. -/
theorem opened_stored (hgrid : 0 < lt.unitGrid 0) (hget : ∀ i < ceildiv (lt.unitGrid 0) t',
      b.get (key i) = none ∨ b.get (key i) = some (storedObject Z lt t' compress rec i))
    (ht : 0 < t) {ss : List (List UInt8 × ℕ)}
    (hss : (List.range (writtenObjects lt t compress).count).mapM
      (openedObject Z.decompress b lt (writtenObjects lt t compress)) = .ok ss) :
    t = t' ∧ (joinObjects lt (writtenObjects lt t compress) ss).1 = rec.flatten := by
  obtain ⟨hlen, hall⟩ := getElem?_mapM_ok hss
  have hpos : ∀ {n : ℕ}, 0 < n → 0 < ceildiv (lt.unitGrid 0) n := fun hn =>
    Nat.div_pos (by omega) hn
  have hstored : ∀ {i : ℕ} {s : List UInt8 × ℕ}, i < ceildiv (lt.unitGrid 0) t' →
      openedObject Z.decompress b lt (writtenObjects lt t compress) i = .ok s →
        b.get (key i) = some (storedObject Z lt t' compress rec i) := fun {i s} hi hs => by
    obtain ⟨data, hdata, -⟩ := opened_ok hmeta hs
    refine (hget i hi).resolve_left fun hnone => ?_
    rw [hnone] at hdata
    cases hdata
  obtain ⟨s, -, hopen⟩ := hall 0 0 (List.getElem?_range (hpos ht))
  obtain rfl : t = t' := tChunk_of_opened hZ h hmeta (hstored (hpos ht') hopen) hopen
  refine ⟨rfl, ?_⟩
  have hslabs : ss.map Prod.fst = (List.range (ceildiv (lt.unitGrid 0) t)).map fun i =>
      (objectRecords lt t rec i).flatten ++ List.replicate (objectSize lt t -
        (objectRecords lt t rec i).length * lt.metaSize) 0 := by
    refine List.ext_getElem? fun i => ?_
    rw [List.getElem?_map, List.getElem?_map]
    by_cases hi : i < ceildiv (lt.unitGrid 0) t
    · obtain ⟨s, hs, hopen⟩ := hall i i (List.getElem?_range hi)
      rw [hs, List.getElem?_range hi, Option.map_some, Option.map_some]
      obtain ⟨data, hdata, hslab⟩ := opened_ok hmeta hopen
      obtain rfl := Option.some.inj ((hstored hi hopen).symm.trans hdata)
      have hread : readMetaObject Z.decompress (storeMeta Z b lt key t compress rec) lt
          (writtenObjects lt t compress) i = .ok _ := readMetaObject_written hZ ht' h hkey hi
      have hfetch : fetchObject (storeMeta Z b lt key t compress rec) i =
          .ok (storedObject Z lt t compress rec i) := by
        unfold fetchObject storeMeta withMeta
        dsimp only
        rw [putObjects_key hkey hi]
      unfold readMetaObject at hread
      rw [hfetch] at hread
      exact congrArg some (Except.ok.inj (hslab.symm.trans hread))
    · rw [List.getElem?_eq_none (by rw [hlen, List.length_range]; exact not_lt.mp hi),
        List.getElem?_eq_none (by rw [List.length_range]; exact not_lt.mp hi)]
      rfl
  unfold joinObjects
  rw [hslabs]
  exact flatten_objects ht h

end Objects

/-! ### Queries of an archive -/

section Queries
variable {κ : Type} {S : Site κ} {s : Archive κ} {metaArray : Except (QueryError κ) MetaArray}

theorem setup_opened [LinearOrder κ] {opts : QueryOptions} {st : Setup}
    (hst : setup (S.opened s metaArray) opts = .ok st) : st.lt = S.lt ∧ ∃ attrs, s.attrs = some attrs ∧
      0 < attrs.tChunk ∧ st.mo = some (writtenObjects S.lt attrs.tChunk S.compress) := by
  obtain ⟨h1, -, h3⟩ := setup_spec hst
  have hlt : getLayout S.array.codec S.array.shape S.array.chunk = .ok st.lt := h1
  obtain hlt : S.lt = st.lt := Except.ok.inj (S.layout.symm.trans hlt)
  refine ⟨hlt.symm, ?_⟩
  cases hattrs : s.attrs with
  | none =>
    unfold metaObjects Site.opened at h3
    rw [hattrs] at h3
    cases h3
  | some attrs =>
    have hmetaKey : (S.opened s metaArray).metaKey = some S.path.key := by rw [Site.opened, hattrs]; rfl
    have hsource : (S.opened s metaArray).source = some attrs.source := by rw [Site.opened, hattrs]; rfl
    have htChunk : (S.opened s metaArray).tChunk = some attrs.tChunk := by rw [Site.opened, hattrs]; rfl
    have hpacked : metaPacked (S.opened s metaArray) = .ok S.compress := by
      have hpacking : (S.opened s metaArray).packing = if S.compress then some "planar-zstd" else none := by
        rw [Site.opened, hattrs]
        rfl
      unfold metaPacked
      rw [hpacking]
      cases S.compress <;> rfl
    unfold metaObjects at h3
    rw [hmetaKey, hsource, htChunk, if_neg (by simp)] at h3
    dsimp only at h3
    rw [hpacked] at h3
    split_ifs at h3 with hother hzero
    refine ⟨attrs, rfl, Nat.pos_of_ne_zero hzero, ?_⟩
    rw [hlt]
    exact (Except.ok.inj h3).symm

variable (S s) in
/-- The objects in the store are of one zone map; some may be missing. -/
def Holds (job : MetaJob) (rec : List (List UInt8)) : Prop :=
  ∀ i < S.count job, s.get (S.path.key i) = none ∨
    s.get (S.path.key i) = some (S.object job rec i)

variable {l : List ℕ} (hchunk : S.array.codec.chunkShape l = .ok S.array.chunk)
  (hpos : ∀ i, 0 < S.array.shape i)

include hchunk in
theorem ofLayout_records (hpos : ∀ i, 0 < S.array.shape i) {job : MetaJob} {rec : List (List UInt8)}
    (hrec : S.records job = .ok rec) : OfLayout S.lt rec :=
  ofLayout_metaRecords (S.array.codec.chunkOk_of_chunkShape hchunk) hpos S.layout hrec

include hchunk hpos in
theorem tChunk_pos (job : MetaJob) : 0 < S.lt.unitGrid 0 ∧ 0 < S.tChunk job := by
  have hgrid := (unitGrid_pos (S.array.codec.chunkOk_of_chunkShape hchunk) hpos S.layout).2 0
  refine ⟨hgrid, lt_min ?_ hgrid⟩
  cases ht : job.tChunk with
  | none => exact lt_max_of_lt_left Nat.one_pos
  | some t => exact job.pos t ht

variable [LinearOrder κ] {E : Env} (hE : E.zstd = S.zarr.decompress) {opts : QueryOptions} {st : Setup}
  (hst : setup (S.opened s metaArray) opts = .ok st) (hkey : opts.metaByKey = true)
include hchunk hpos hE hst hkey

/-- **What is read by key** is all of the zone map in the store. -/
theorem readMeta_holds {job : MetaJob} {rec : List (List UInt8)} (hrec : S.records job = .ok rec)
    (h : Holds S s job rec) {m : List UInt8 × ℕ × ℕ}
    (hm : (readMeta E (S.opened s metaArray) opts st).MayReturn m) : m.1 = rec.flatten := by
  obtain ⟨hlt, attrs, hattrs, ht, hmo⟩ := setup_opened hst
  obtain ⟨hgrid, ht'⟩ := tChunk_pos hchunk hpos job
  obtain ⟨ss, hss, rfl⟩ := mayReturn_readMeta hmo hkey hm
  rw [hE, hlt] at hss
  rw [hlt]
  have hmeta : (S.opened s metaArray).metaKey = some S.path.key := by
    show s.attrs.map _ = _
    rw [hattrs]
    rfl
  exact (opened_stored S.lossless S.path.injective ht' (ofLayout_records hchunk hpos hrec) hmeta hgrid h ht
    hss).2

/-- No zone map is read from a store without its first object. -/
theorem not_mayReturn_of_empty (h : s.get (S.path.key 0) = none) (m : List UInt8 × ℕ × ℕ) :
    ¬ (readMeta E (S.opened s metaArray) opts st).MayReturn m := by
  intro hm
  obtain ⟨hlt, attrs, hattrs, ht, hmo⟩ := setup_opened hst
  obtain ⟨ss, hss, rfl⟩ := mayReturn_readMeta hmo hkey hm
  have hgrid : 0 < S.lt.unitGrid 0 :=
    (tChunk_pos hchunk hpos ⟨0, fun _ => F32.inf, none, fun _ h => by cases h⟩).1
  have hcount : 0 < (writtenObjects S.lt attrs.tChunk S.compress).count :=
    Nat.div_pos (by omega) ht
  obtain ⟨s', -, hopen⟩ := (getElem?_mapM_ok hss).2 0 0 (List.getElem?_range hcount)
  have hmeta : (S.opened s metaArray).metaKey = some S.path.key := by
    show s.attrs.map _ = _
    rw [hattrs]
    rfl
  rw [hE] at hopen
  obtain ⟨data, hdata, -⟩ := opened_ok hmeta hopen
  have hnone : (S.opened s metaArray).get (S.path.key 0) = none := h
  rw [hnone] at hdata
  cases hdata

/-- **What any run of a query by key has returned**: the exact count, if the zone map in the store is of
the values in the chunks. -/
theorem count_holds {job : MetaJob} {rec : List (List UInt8)} (hrec : S.records job = .ok rec)
    (h : Holds S s job rec) {data : Tri → F32} {fill : F32} (hfits : st.lt.planArgs.fits)
    (hW : Written S.nat (S.opened s metaArray) st.lt data fill) (hdec : Blockwise S.nat E.decode st.rate)
    (hpre : Prefixed S.nat S.array.codec st.layer)
    (hright : ∀ lo hi, RightStates E S.nat (S.opened s metaArray) st data fill rec.flatten lo hi)
    (hpipe : ∀ mo, st.pipelined opts = some mo →
      FixesIntegers E.fl ∧ 64 * st.lt.planArgs.totalBlocks < 2 ^ 53) {lo hi : Dbl} {r : QueryResult}
    (hr : (queryAsync E (S.opened s metaArray) lo hi opts).Reachable (.returned (.ok r))) :
    r.count = (indices S.array.shape).countP fun i =>
      InRange lo hi (readAt S.nat (S.opened s metaArray) data fill st.layer i).val := by
  obtain ⟨m, hm⟩ := exists_readMeta_of_reachable (a := S.opened s metaArray) hchunk hst hfits hpipe hr
  obtain ⟨v, hv, rfl⟩ := exists_of_returns hm
  have hzm := readMeta_holds hchunk hpos hE hst hkey hrec h hv
  exact count_of_counts (counts_query (a := S.opened s metaArray) hchunk hfits hW hdec hpre hright
    ⟨hst, ⟨v, hm, hzm⟩, hpipe⟩ lo hi) hr

end Queries

/-! ### The same chunks -/

section Same
variable {κ : Type} {S : Site κ} {s s' : Archive κ} {metaArray metaArray' : Except (QueryError κ) MetaArray}
  (hsame : ∀ p, Inside (outer S.array.chunk S.array.shape) p →
    s'.get (S.array.chunkKey p) = s.get (S.array.chunkKey p))
include hsame

theorem readAt_same (data : Tri → F32) (fill : F32) (layer : ℕ) {i : Tri} (hi : Inside S.array.shape i) :
    readAt S.nat (S.opened s' metaArray') data fill layer i =
      readAt S.nat (S.opened s metaArray) data fill layer i := by
  have hs := (getLayout_ok S.layout).1
  rw [← scale_outer hs] at hi
  have hget : (S.opened s' metaArray').get (S.array.chunkKey (outer S.array.chunk i)) =
      (S.opened s metaArray).get (S.array.chunkKey (outer S.array.chunk i)) := hsame _ (inside_outer hi)
  unfold readAt
  show (if ((S.opened s' metaArray').get (S.array.chunkKey (outer S.array.chunk i))).isNone then fill
    else _) = _
  rw [hget]
  rfl

theorem written_same {data : Tri → F32} {fill : F32}
    (h : Written S.nat (S.opened s metaArray) S.lt data fill) :
    Written S.nat (S.opened s' metaArray') S.lt data fill where
  object cid hcid := by
    have hgrid : S.lt.gridShape = outer S.array.chunk S.array.shape := by
      obtain ⟨-, size, hlt⟩ := getLayout_ok S.layout
      rw [hlt]
      rfl
    have hget : (S.opened s' metaArray').get ((S.opened s' metaArray').keyOf S.lt cid) =
        (S.opened s metaArray).get ((S.opened s metaArray).keyOf S.lt cid) :=
      hsame _ (by rw [← hgrid]; exact inside_unravel hcid)
    rw [hget]
    exact h.object cid hcid
  distinct := h.distinct

theorem right_same [LinearOrder κ] {E : Env} {opts : QueryOptions} {st : Setup}
    (hc : S.array.codec.ChunkOk S.array.chunk) (hst : setup (S.opened s' metaArray') opts = .ok st)
    {data : Tri → F32} {fill : F32} {zm : List UInt8} {lo hi : Dbl}
    (h : RightStates E S.nat (S.opened s metaArray) st data fill zm lo hi) :
    RightStates E S.nat (S.opened s' metaArray') st data fill zm lo hi := by
  intro cid hcid b hb i hi
  have hin : Inside S.array.shape i := inside_cell (a := S.opened s' metaArray') hc hst hcid hb hi
  rw [readAt_same hsame data fill st.layer hin]
  exact h cid hcid b hb i hi

end Same

/-! ### Whole lives -/

section Lives
variable {κ : Type} [LinearOrder κ] {S : Site κ}

omit [LinearOrder κ] in
theorem key_ne_chunkKey (i : ℕ) (p : Tri) : S.path.key i ≠ S.array.chunkKey p := fun h => by
  have hk := S.path.under_key i
  rw [h, S.beside p] at hk
  cases hk

theorem get_put_of_ne {s : Archive κ} {k k' : κ} {obj : Option (List UInt8)} (h : k' ≠ k) :
    (s.put k obj).get k' = s.get k' := Function.update_of_ne h _ _

/-- What does not store an object keeps those of one zone map. -/
theorem holds_of_step {s s' : Archive κ} {x : Action κ} (hstep : Step S s x s') (hx : ∀ i, x ≠ .store i)
    {job : MetaJob} {rec : List (List UInt8)} (h : Holds S s job rec) : Holds S s' job rec := by
  intro i hi
  cases hstep with
  | chunk p obj hp =>
    rw [get_put_of_ne (key_ne_chunkKey i p)]
    exact h i hi
  | remove job' k hphase hk =>
    by_cases hik : S.path.key i = k
    · left
      subst hik
      exact Function.update_self _ _ _
    · rw [get_put_of_ne hik]
      exact h i hi
  | store job' rec' j => exact absurd rfl (hx j)
  | start | removed | finish | stop => exact h i hi

/-- An object that is stored is one of the zone map that is being stored. -/
theorem holds_of_store {s : Archive κ} {job : MetaJob} {rec : List (List UInt8)} {i : ℕ}
    (h : Holds S s job rec) :
    Holds S (s.put (S.path.key i) (some (S.object job rec i))) job rec := by
  intro j hj
  by_cases hij : S.path.key j = S.path.key i
  · right
    obtain rfl := S.path.injective hij
    exact Function.update_self _ _ _
  · rw [get_put_of_ne hij]
    exact h j hj

/-- What is in the store at any time: the objects of one zone map, that of a `write_meta` that has been
started. -/
structure Kept (S : Site κ) (jobs : Set MetaJob) (s : Archive κ) : Prop where
  running : ∀ job, s.phase = .removing job ∨ s.phase = .storing job → job ∈ jobs
  storing : ∀ job, s.phase = .storing job → ∀ rec, S.records job = .ok rec → Holds S s job rec
  one : s.get (S.path.key 0) = none ∨ ∃ job ∈ jobs, ∃ rec, S.records job = .ok rec ∧ Holds S s job rec

theorem none_of_step {s s' : Archive κ} {x : Action κ} (hstep : Step S s x s') (hx : ∀ i, x ≠ .store i)
    {i : ℕ} (h : s.get (S.path.key i) = none) : s'.get (S.path.key i) = none := by
  cases hstep with
  | chunk p obj hp =>
    rw [get_put_of_ne (key_ne_chunkKey i p)]
    exact h
  | remove job' k hphase hk =>
    by_cases hik : S.path.key i = k
    · subst hik
      exact Function.update_self _ _ _
    · rw [get_put_of_ne hik]
      exact h
  | store job' rec' j => exact absurd rfl (hx j)
  | start | removed | finish | stop => exact h

theorem one_of_step {jobs : Set MetaJob} {s s' : Archive κ} {x : Action κ} (hstep : Step S s x s')
    (hx : ∀ i, x ≠ .store i) (h : Kept S jobs s) : s'.get (S.path.key 0) = none ∨
      ∃ job ∈ jobs, ∃ rec, S.records job = .ok rec ∧ Holds S s' job rec := by
  rcases h.one with hnone | ⟨job, hjob, rec, hrec, hholds⟩
  · exact Or.inl (none_of_step hstep hx hnone)
  · exact Or.inr ⟨job, hjob, rec, hrec, holds_of_step hstep hx hholds⟩

/-- **One step keeps it.** -/
theorem kept_of_step {jobs : Set MetaJob} {s s' : Archive κ} {x : Action κ} (hstep : Step S s x s')
    (hx : ∀ job, x = .start job → job ∈ jobs) (h : Kept S jobs s) : Kept S jobs s' := by
  have hone : (∀ i, x ≠ .store i) → Kept S jobs s → _ := one_of_step hstep
  have hholds : (∀ i, x ≠ .store i) → ∀ job rec, Holds S s job rec → Holds S s' job rec :=
    fun hx _ _ => holds_of_step hstep hx
  cases hstep with
  | chunk p obj hp =>
    exact ⟨h.running, fun job hphase rec hrec => hholds (by simp) _ _ (h.storing job hphase rec hrec),
      hone (by simp) h⟩
  | remove job' k hphase' hk =>
    exact ⟨h.running, fun job hphase rec hrec => hholds (by simp) _ _ (h.storing job hphase rec hrec),
      hone (by simp) h⟩
  | start job hidle hshape =>
    refine ⟨fun job' hphase => ?_, fun job' hphase => (nomatch hphase), hone (by simp) h⟩
    rcases hphase with hphase | hphase <;> cases hphase
    exact hx job rfl
  | removed job hphase hnone =>
    refine ⟨fun job' hphase' => ?_, fun job' hphase' rec hrec i hi => ?_, hone (by simp) h⟩
    · rcases hphase' with hphase' | hphase' <;> cases hphase'
      exact h.running job (Or.inl hphase)
    · exact Or.inl (hnone _ (S.path.under_key i))
  | store job rec i hphase hrec hi =>
    have hstored := holds_of_store (i := i) (h.storing job hphase rec hrec)
    refine ⟨h.running, fun job' hphase' rec' hrec' => ?_,
      Or.inr ⟨job, h.running job (Or.inr hphase), rec, hrec, hstored⟩⟩
    obtain rfl : job = job' := Phase.storing.inj (hphase.symm.trans hphase')
    obtain rfl : rec = rec' := Except.ok.inj (hrec.symm.trans hrec')
    exact hstored
  | finish | stop =>
    refine ⟨fun job' hphase => ?_, fun job' hphase => (nomatch hphase), hone (by simp) h⟩
    rcases hphase with hphase | hphase <;> cases hphase

/-- An array that has just been created: there is no zone map, and nothing is where one would be. -/
structure New (S : Site κ) (s : Archive κ) : Prop where
  attrs : s.attrs = none
  phase : s.phase = .idle
  none : ∀ k, S.path.under k = true → s.get k = none

theorem kept_of_run {jobs : Set MetaJob} {s₀ s : Archive κ} (h₀ : New S s₀)
    (hrun : Run S (fun x => ∀ job, x = .start job → job ∈ jobs) s₀ s) : Kept S jobs s := by
  refine run_of_step S (P := Kept S jobs) (fun _ _ _ hx hstep h => kept_of_step hstep hx h) hrun
    ⟨fun job hphase => ?_, fun job hphase => ?_, Or.inl (h₀.none _ (S.path.under_key 0))⟩
  · rw [h₀.phase] at hphase
    rcases hphase with hphase | hphase <;> cases hphase
  · rw [h₀.phase] at hphase
    cases hphase

section Queries
variable {l : List ℕ} (hchunk : S.array.codec.chunkShape l = .ok S.array.chunk)
  (hpos : ∀ i, 0 < S.array.shape i) {E : Env} (hE : E.zstd = S.zarr.decompress) {s : Archive κ}
  {metaArray : Except (QueryError κ) MetaArray} {opts : QueryOptions} {st : Setup}
  (hst : setup (S.opened s metaArray) opts = .ok st) (hkey : opts.metaByKey = true)
  (hfits : st.lt.planArgs.fits) (hdec : Blockwise S.nat E.decode st.rate)
  (hpre : Prefixed S.nat S.array.codec st.layer)
  (hpipe : ∀ mo, st.pipelined opts = some mo →
    FixesIntegers E.fl ∧ 64 * st.lt.planArgs.totalBlocks < 2 ^ 53)
include hchunk hpos hE hst hkey hfits hdec hpre hpipe

/-- **Queries are exact as long as `check_meta` lists nothing.** A `write_meta` finishes, for the values
that the chunks hold then, and its zone map is right. Whatever chunks are then written or deleted, and
whatever other write_metas are started, as long as none of them stores an object: while `check_meta` lists
no chunk, and no two objects of a chunk have one CRC32, the chunks still hold these values, and what any
run of a query that reads the zone map by key has returned is the number of values in the range among
those decoded at the layer queried. At the last layer these are what reading the array returns. -/
theorem fresh_exact {s₀ s₁ : Archive κ} {job : MetaJob} {rec : List (List UInt8)} {fill : F32}
    {metaArray₁ : Except (QueryError κ) MetaArray} (hphase : s₀.phase = .storing job)
    (hrec : S.records job = .ok rec) (hfinish : Step S s₀ .finish s₁)
    (hW : Written S.nat (S.opened s₁ metaArray₁) S.lt job.data fill)
    (hright : ∀ lo hi, RightStates E S.nat (S.opened s₁ metaArray₁) st job.data fill rec.flatten lo hi)
    (hrun : Run S (fun x => x ≠ .finish ∧ ∀ i, x ≠ .store i) s₁ s) (hcheck : S.checkMeta s = .ok [])
    (hcrc : ∀ p, Inside (outer S.array.chunk S.array.shape) p →
      (s₁.get (S.array.chunkKey p)).map crc32 = (s.get (S.array.chunkKey p)).map crc32 →
        s₁.get (S.array.chunkKey p) = s.get (S.array.chunkKey p)) :
    Written S.nat (S.opened s metaArray) S.lt job.data fill ∧
    (∀ lo hi r, (queryAsync E (S.opened s metaArray) lo hi opts).Reachable (.returned (.ok r)) →
      r.count = (indices S.array.shape).countP fun i =>
        InRange lo hi (readAt S.nat (S.opened s metaArray) job.data fill st.layer i).val) ∧
    ∀ memory i, Inside S.array.shape i → readAt S.nat (S.opened s metaArray) job.data fill
      (S.array.codec.layers.length - 1) i = zarrAt S.nat (S.opened s metaArray) fill memory i := by
  have hc := S.array.codec.chunkOk_of_chunkShape hchunk
  obtain ⟨hattrs, hholds⟩ : s₁.attrs = some (S.attrsOf s₁ job) ∧ Holds S s₁ job rec := by
    cases hfinish with
    | finish job' rec' hphase' hrec' hall =>
      obtain rfl : job' = job := Phase.storing.inj (hphase'.symm.trans hphase)
      obtain rfl : rec' = rec := Except.ok.inj (hrec'.symm.trans hrec)
      exact ⟨rfl, fun i hi => Or.inr (hall i hi)⟩
  obtain ⟨hattrs, hholds⟩ : s.attrs = some (S.attrsOf s₁ job) ∧ Holds S s job rec :=
    run_of_step S (P := fun r => r.attrs = some (S.attrsOf s₁ job) ∧ Holds S r job rec)
      (fun _ _ _ hx hstep h => ⟨(attrs_of_step hstep hx.1).trans h.1, holds_of_step hstep hx.2 h.2⟩) hrun
      ⟨hattrs, hholds⟩
  -- the chunks are the same
  have hsame : ∀ p, Inside (outer S.array.chunk S.array.shape) p →
      s.get (S.array.chunkKey p) = s₁.get (S.array.chunkKey p) := by
    intro p hp
    rw [checkMeta_finished hattrs] at hcheck
    have hnil := List.filter_eq_nil_iff.mp (Except.ok.inj hcheck) p (mem_indices.mpr hp)
    rw [decide_eq_true_iff, not_not] at hnil
    exact (hcrc p hp hnil).symm
  have hW' : Written S.nat (S.opened s metaArray) S.lt job.data fill := written_same hsame hW
  refine ⟨hW', fun lo hi r hr => ?_, fun memory i hi => ?_⟩
  · obtain ⟨hlt, -⟩ := setup_opened hst
    rw [← hlt] at hW'
    exact count_holds hchunk hpos hE hst hkey hrec hholds hfits hW' hdec hpre
      (fun lo hi => right_same hsame hc hst (hright lo hi)) hpipe hr
  · exact readAt_eq_zarrAt (a := S.opened s metaArray) hc S.layout hW' memory hi

/-- **Whatever write_metas were cut off, a query by key never mixes two zone maps.** In every run from a
new array, with chunks written at any time, any number of write_metas with any `t_chunk`, and each cut off
anywhere:

* what `read_meta` can return by key are all the records of one `write_meta` that was started, in order;
* if all of these were given the values that the chunks hold now, and the zone map of these values is
  right, what any run of a query by key has returned is exact for the values decoded at the layer
  queried. -/
theorem interrupted {jobs : Set MetaJob} {s₀ : Archive κ} (h₀ : New S s₀)
    (hrun : Run S (fun x => ∀ job, x = .start job → job ∈ jobs) s₀ s) :
    (∀ m, (readMeta E (S.opened s metaArray) opts st).MayReturn m →
      ∃ job ∈ jobs, ∃ rec, S.records job = .ok rec ∧ m.1 = rec.flatten) ∧
    ∀ data fill rec, (∀ job ∈ jobs, job.data = data) →
      metaRecords S.fl S.nat S.array.codec S.array.shape S.array.chunk data = .ok rec →
      Written S.nat (S.opened s metaArray) S.lt data fill →
      (∀ lo hi, RightStates E S.nat (S.opened s metaArray) st data fill rec.flatten lo hi) →
      ∀ lo hi r, (queryAsync E (S.opened s metaArray) lo hi opts).Reachable (.returned (.ok r)) →
        r.count = (indices S.array.shape).countP fun i =>
          InRange lo hi (readAt S.nat (S.opened s metaArray) data fill st.layer i).val := by
  have hkept := kept_of_run h₀ hrun
  refine ⟨fun m hm => ?_, fun data fill rec hdata hrec hW hright lo hi r hr => ?_⟩
  · rcases hkept.one with hnone | ⟨job, hjob, rec, hrec, hholds⟩
    · exact absurd hm (not_mayReturn_of_empty hchunk hpos hE hst hkey hnone m)
    · exact ⟨job, hjob, rec, hrec, readMeta_holds hchunk hpos hE hst hkey hrec hholds hm⟩
  · obtain ⟨m, hm⟩ := exists_readMeta_of_reachable (a := S.opened s metaArray) hchunk hst hfits hpipe hr
    obtain ⟨v, hv, rfl⟩ := exists_of_returns hm
    rcases hkept.one with hnone | ⟨job, hjob, rec', hrec', hholds⟩
    · exact absurd hv (not_mayReturn_of_empty hchunk hpos hE hst hkey hnone v)
    · have hrecords : S.records job = .ok rec := by
        unfold Site.records
        rw [hdata job hjob]
        exact hrec
      obtain ⟨hlt, -⟩ := setup_opened hst
      rw [← hlt] at hW
      exact count_holds hchunk hpos hE hst hkey hrecords
        (by rwa [Except.ok.inj (hrecords.symm.trans hrec')]) hfits hW hdec hpre hright hpipe hr

end Queries

end Lives

/-! ### An array of zeros -/

/-- The array of zeros, whose zone map has the odd keys. -/
def siteOfZeros : Site ℕ where
  array := arrayOfZeros
  lt := setupOfTwo.lt
  layout := getLayout_ofTwo
  path := ⟨(2 * · + 1), fun k => k % 2 = 1, fun i => by simp, injective_zeros⟩
  beside p := by simp [arrayOfZeros]
  compress := false
  zarr := markFirst
  lossless _ := rfl
  fl := id
  nat := firstValue F32.bytes F32.ofBytes

theorem pos_none : ∀ t ∈ (none : Option ℕ), 0 < t := fun t h => absurd h (Option.not_mem_none t)

def jobOfZeros : MetaJob := ⟨![4, 4, 8], fun _ => zeroValue, none, pos_none⟩

def recordsOfZeros : List (List UInt8) := [List.replicate 14 0, List.replicate 14 0]

/-- Before the first `write_meta`. -/
def newOfZeros : Archive ℕ := ⟨fun _ => none, none, .idle⟩

/-- All objects of the zone map are stored. -/
def storedOfZeros : Archive ℕ :=
  ⟨Function.update (fun _ => none) 1 (some (siteOfZeros.object jobOfZeros recordsOfZeros 0)), none,
    .storing jobOfZeros⟩

/-- The `write_meta` has finished. -/
def finishedOfZeros : Archive ℕ :=
  ⟨storedOfZeros.get, some (siteOfZeros.attrsOf storedOfZeros jobOfZeros), .idle⟩

theorem new_zeros : New siteOfZeros newOfZeros := ⟨rfl, rfl, fun _ _ => rfl⟩

theorem count_zeros : siteOfZeros.count jobOfZeros = 1 := by decide +kernel

theorem records_zeros : siteOfZeros.records jobOfZeros = .ok recordsOfZeros := metaRecords_zeros

theorem run_zeros : Run siteOfZeros (fun x => ∀ job, x = .start job → job ∈ ({jobOfZeros} : Set MetaJob))
    newOfZeros storedOfZeros := by
  refine .tail (.tail (.single ⟨.start jobOfZeros, ?_, .start _ _ rfl ⟨rfl, by decide⟩⟩)
    ⟨.removed, ?_, .removed _ jobOfZeros rfl fun _ _ => rfl⟩)
    ⟨.store 0, ?_, .store _ jobOfZeros recordsOfZeros 0 rfl records_zeros (by rw [count_zeros]; decide)⟩
  · rintro job ⟨⟩
    rfl
  · rintro job ⟨⟩
  · rintro job ⟨⟩

theorem finish_zeros : Step siteOfZeros storedOfZeros .finish finishedOfZeros := by
  refine .finish _ jobOfZeros recordsOfZeros rfl records_zeros fun i hi => ?_
  rw [count_zeros] at hi
  obtain rfl : i = 0 := by omega
  rfl

theorem opened_zeros : siteOfZeros.opened finishedOfZeros writtenOfZeros.metaArray = writtenOfZeros := by
  have hget : storedOfZeros.get = writtenOfZeros.get := by
    funext k
    have hcount : ceildiv (setupOfTwo.lt.unitGrid 0) 1 = 1 := by decide +kernel
    show Function.update (fun _ => none) 1 (some (siteOfZeros.object jobOfZeros recordsOfZeros 0)) k =
      putObjects markFirst arrayOfZeros setupOfTwo.lt (2 * · + 1) 1 false recordsOfZeros k
    unfold putObjects
    rw [hcount]
    by_cases hk : k = 1
    · subst hk
      rfl
    · rw [Function.update_of_ne hk, List.find?_eq_none.mpr]
      · rfl
      · intro i hi
        have := List.mem_range.mp hi
        simp only [decide_eq_true_eq]
        omega
  unfold Site.opened finishedOfZeros
  dsimp only
  rw [hget]
  rfl

theorem checkMeta_zeros : siteOfZeros.checkMeta finishedOfZeros = .ok [] := by
  have hattrs : finishedOfZeros.attrs = some (siteOfZeros.attrsOf finishedOfZeros jobOfZeros) := rfl
  rw [checkMeta_finished hattrs]
  simp

/-- The chunk is written after all. -/
theorem checkMeta_stale_zeros : ∃ stale, siteOfZeros.checkMeta (finishedOfZeros.put 0 (some [1])) =
    .ok stale ∧ ![0, 0, 0] ∈ stale := by
  have hin : Inside (outer siteOfZeros.array.chunk siteOfZeros.array.shape) ![0, 0, 0] := by decide
  have hrun : Run siteOfZeros (· ≠ .finish) finishedOfZeros (finishedOfZeros.put 0 (some [1])) :=
    .single ⟨.chunk ![0, 0, 0] (some [1]), by simp, .chunk _ _ _ hin⟩
  obtain ⟨stale, hstale, -, hall⟩ := checkMeta_stale finish_zeros hrun
  exact ⟨stale, hstale, (hall _ hin).2.2.1 (by decide)⟩

theorem setup_finished : setup (siteOfZeros.opened finishedOfZeros writtenOfZeros.metaArray) optionsOfTwo =
    .ok setupOfTwo := by
  rw [opened_zeros]
  exact setup_zeros

theorem countP_zeros : ((indices siteOfZeros.array.shape).countP fun i => InRange (.fin (-1)) .pinf
    (readAt siteOfZeros.nat (siteOfZeros.opened finishedOfZeros writtenOfZeros.metaArray)
      jobOfZeros.data zeroValue setupOfTwo.layer i).val) = 128 := by
  rw [opened_zeros, List.countP_eq_length.mpr fun i _ => ?_]
  · decide +kernel
  · show decide (InRange _ _
      (readAt (firstValue F32.bytes F32.ofBytes) _ (fun _ => zeroValue) _ 0 i).val) = true
    rw [readAt_zeros i]
    decide +kernel

theorem written_finished : Written siteOfZeros.nat
    (siteOfZeros.opened finishedOfZeros writtenOfZeros.metaArray) siteOfZeros.lt jobOfZeros.data
      zeroValue := by
  rw [opened_zeros]
  exact writtenZeros

theorem right_finished (lo hi : Dbl) : RightStates envOfZeros siteOfZeros.nat
    (siteOfZeros.opened finishedOfZeros writtenOfZeros.metaArray) setupOfTwo jobOfZeros.data zeroValue
      recordsOfZeros.flatten lo hi := by
  rw [opened_zeros]
  exact right_zeros lo hi

theorem inside_zeros : Inside (outer siteOfZeros.array.chunk siteOfZeros.array.shape)
    ![0, 0, 0] := by decide

/-- The chunk is written, deleted again, and another `write_meta` is cut off before it stores anything. -/
theorem disturbed_zeros {allowed : Action ℕ → Prop} (hchunk : ∀ obj, allowed (.chunk ![0, 0, 0] obj))
    (hstart : allowed (.start jobOfZeros)) (hstop : allowed .stop) :
    Run siteOfZeros allowed finishedOfZeros finishedOfZeros := by
  have hnone : finishedOfZeros.get (siteOfZeros.array.chunkKey ![0, 0, 0]) = none := by decide +kernel
  have hback : (finishedOfZeros.put (siteOfZeros.array.chunkKey ![0, 0, 0]) (some [1])).put
      (siteOfZeros.array.chunkKey ![0, 0, 0]) none = finishedOfZeros := by
    unfold Archive.put
    dsimp only
    rw [Function.update_idem, ← hnone, Function.update_eq_self]
  have hwritten : Run siteOfZeros allowed finishedOfZeros finishedOfZeros := by
    refine .tail (.single ⟨_, hchunk (some [1]), .chunk _ _ _ inside_zeros⟩) ⟨_, hchunk none, ?_⟩
    have hstep := Step.chunk (S := siteOfZeros) (finishedOfZeros.put
      (siteOfZeros.array.chunkKey ![0, 0, 0]) (some [1])) ![0, 0, 0] none inside_zeros
    rwa [hback] at hstep
  exact .tail (.tail hwritten ⟨_, hstart, .start _ jobOfZeros rfl ⟨rfl, by decide⟩⟩) ⟨_, hstop, .stop _⟩

/-- The chunk is written and deleted again: zarr still reads zeros. -/
theorem fresh_exact_zeros :
    (∃ r, (queryAsync envOfZeros (siteOfZeros.opened finishedOfZeros writtenOfZeros.metaArray) (.fin (-1))
      .pinf optionsOfTwo).Reachable (.returned (.ok r)) ∧ r.count = 128) ∧
    ∀ memory i, Inside ![4, 4, 8] i → (zarrAt siteOfZeros.nat
      (siteOfZeros.opened finishedOfZeros writtenOfZeros.metaArray) zeroValue memory i).val = .fin 0 := by
  obtain ⟨r, hr⟩ := exists_run (.fin (-1)) .pinf (by decide +kernel)
  have hphase : storedOfZeros.phase = .storing jobOfZeros := rfl
  have hrun : Run siteOfZeros (fun x => x ≠ .finish ∧ ∀ i, x ≠ .store i) finishedOfZeros finishedOfZeros :=
    disturbed_zeros (by simp) (by simp) (by simp)
  have h := fresh_exact (S := siteOfZeros) (s := finishedOfZeros)
    chunkShape_oneLayer (by decide) (E := envOfZeros) rfl setup_finished rfl (by decide +kernel)
    (blockwise_firstValue (by decide +kernel))
      (prefixed_firstValue F32.bytes F32.ofBytes oneLayer (by decide))
    (fun mo hmo => by cases hmo) hphase records_zeros finish_zeros written_finished right_finished hrun
    checkMeta_zeros fun _ _ _ => rfl
  rw [← opened_zeros] at hr
  have hcount := h.2.1 (.fin (-1)) .pinf r hr
  refine ⟨⟨r, hr, hcount.trans countP_zeros⟩, fun memory i hi => ?_⟩
  rw [← h.2.2 memory i hi, opened_zeros]
  exact readAt_zeros i

/-- The chunk is written and deleted again, and another `write_meta` is started and cut off. -/
theorem interrupted_zeros :
    (∀ m, (readMeta envOfZeros (siteOfZeros.opened finishedOfZeros writtenOfZeros.metaArray) optionsOfTwo
      setupOfTwo).MayReturn m → m.1 = recordsOfZeros.flatten) ∧
    ∃ r, (queryAsync envOfZeros (siteOfZeros.opened finishedOfZeros writtenOfZeros.metaArray) (.fin (-1))
      .pinf optionsOfTwo).Reachable (.returned (.ok r)) ∧ r.count = 128 := by
  obtain ⟨r, hr⟩ := exists_run (.fin (-1)) .pinf (by decide +kernel)
  have hrun : Run siteOfZeros (fun x => ∀ job, x = .start job → job ∈ ({jobOfZeros} : Set MetaJob))
      newOfZeros finishedOfZeros :=
    (Relation.ReflTransGen.tail run_zeros ⟨.finish, by simp, finish_zeros⟩).trans
      (disturbed_zeros (by simp) (fun job h => (Action.start.inj h).symm) (by simp))
  have h := interrupted (S := siteOfZeros) (s := finishedOfZeros) chunkShape_oneLayer (by decide)
    (E := envOfZeros) rfl setup_finished rfl (by decide +kernel) (blockwise_firstValue (by decide +kernel))
    (prefixed_firstValue F32.bytes F32.ofBytes oneLayer (by decide))
      (fun mo hmo => by cases hmo) new_zeros hrun
  rw [← opened_zeros] at hr
  have hdata : ∀ job ∈ ({jobOfZeros} : Set MetaJob), job.data = jobOfZeros.data := fun job hjob => by
    rw [Set.mem_singleton_iff.mp hjob]
  have hcount := h.2 jobOfZeros.data zeroValue recordsOfZeros hdata metaRecords_zeros written_finished
    right_finished (.fin (-1)) .pinf r hr
  refine ⟨fun m hm => ?_, r, hr, hcount.trans countP_zeros⟩
  obtain ⟨job, hjob, rec, hrec, hrows⟩ := h.1 m hm
  rw [Set.mem_singleton_iff.mp hjob, records_zeros] at hrec
  rw [hrows, Except.ok.inj hrec]

end SkipZFP.Api.Lifecycle
