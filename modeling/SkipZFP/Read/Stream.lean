import SkipZFP.Read.Merge
import SkipZFP.Read.ZoneMap

/-! # Counting the values of what is read

`countOffsets` is the C function that decodes the blocks at given offsets of a buffer and counts their
values in `(lo, hi]`, and `countBlocks` the one for blocks that lie one after another. The decoder is any
function from the bytes of a block to 64 values. `streamWork` are the reads of a plan, each with what is
made of its bytes (`countRead` for a count), and `slabWork` the zone map objects with the reads they lead
to.

* `countInRange_eq`: the comparison that is left out for an open upper end changes nothing.
* `countOffsets_eq`: what is counted when all offsets are inside the buffer.
* `map_readsOf`: all reads of a plan are the reads of its groups, each with its own items.
* `readGroup_countRead`: **a merged read counts the blocks of its group**, found at their offsets in the
  bytes read. -/

namespace SkipZFP.Read.Stream

open SkipZFP.Lib.Grid SkipZFP.Lib.Rows SkipZFP.Lib.Double SkipZFP.Lib.Float32
open SkipZFP.Codec.Config SkipZFP.Plan.Classify SkipZFP.Plan.Blocks SkipZFP.Plan.Shapes
open SkipZFP.Read.Merge SkipZFP.Read.Budget SkipZFP.Read.Store SkipZFP.Read.ZoneMap

abbrev Values := Fin 64 → F32

/-- `count_in_range`. -/
def countInRange (v : List F32) (lo hi : Dbl) : ℕ :=
  if hi = .pinf then v.countP fun x => lo < x.val
  else v.countP fun x => InRange lo hi x.val

/-- `block_layout`: values and bytes of a block. -/
def blockLayout (blockDim : ℕ) (rate : ℚ) : Option (ℕ × ℕ) :=
  let nval := blockDim ^ 3
  let nbytes := ⌊(nval : ℚ) * rate / 8⌋.toNat
  if blockDim = 0 ∨ rate ≤ 0 then none
  else if ¬ FitsSize nval then none
  else if nbytes = 0 then none
  else some (nval, nbytes)

section Decode
variable (decode : ℚ → List UInt8 → Values)

/-- The values in `(lo, hi]` of a block. -/
def countValues (rate : ℚ) (lo hi : Dbl) (bytes : List UInt8) : ℕ :=
  countInRange (List.ofFn (decode rate bytes)) lo hi

/-- **`szfp_count_offsets_range`**. -/
def countOffsets (buf : List UInt8) (offsets : List ℕ) (blockNbytes : ℕ) (rate : ℚ) (blockDim : ℕ)
    (lo hi : Dbl) : Except SzError ℕ :=
  if offsets = [] then .ok 0
  else
    match blockLayout blockDim rate with
    | none => .error .SZ_ERR_ARG
    | some (nval, needBytes) =>
      if 64 < nval then .error .SZ_ERR_ARG
      else if blockNbytes ≠ needBytes then .error .SZ_ERR_SIZE
      else if blockDim ≠ 4 then .error .SZ_ERR_ARG
      else if ∃ o ∈ offsets, buf.length < o ∨ buf.length - o < blockNbytes then .error .SZ_ERR_SIZE
      else .ok (offsets.map fun o =>
        countValues decode rate lo hi (slice buf o (o + blockNbytes))).sum

/-- `szfp_count_range_blocks`. -/
def countBlocks (blocks : List UInt8) (blockCount blockNbytes : ℕ) (rate : ℚ) (blockDim : ℕ)
    (lo hi : Dbl) : Except SzError ℕ :=
  if blockCount = 0 then .ok 0
  else
    match blockLayout blockDim rate with
    | none => .error .SZ_ERR_ARG
    | some (_, needBytes) =>
      if blockNbytes ≠ needBytes then .error .SZ_ERR_SIZE
      else .ok ((List.range blockCount).map fun bid => countValues decode rate lo hi
        (slice blocks (bid * blockNbytes) (bid * blockNbytes + blockNbytes))).sum

/-- `_Native.count`. -/
def nativeCount (blocks : List UInt8) (nBlock blockSize : ℕ) (rate : ℚ) (blockDim : ℕ)
    (lo hi : Dbl) : Except SzError ℕ :=
  if nBlock = 0 then .ok 0 else countBlocks decode blocks nBlock blockSize rate blockDim lo hi

theorem countInRange_eq (v : List F32) (lo hi : Dbl) :
    countInRange v lo hi = v.countP fun x => InRange lo hi x.val := by
  unfold countInRange
  split_ifs with h
  · subst h
    refine List.countP_congr fun x _ => ?_
    simp only [decide_eq_true_eq]
    exact ⟨fun hx => ⟨hx, Dbl.le_pinf (Dbl.ne_nan_of_lt hx).2⟩, And.left⟩
  · rfl

theorem blockLayout_eq {rate : ℚ} (h : 0 < rate ∧ Int.fract (8 * rate) = 0) :
    blockLayout blockDim rate = some (64, blockBytes rate) := by
  have hb : ⌊((blockDim ^ 3 : ℕ) : ℚ) * rate / 8⌋.toNat = blockBytes rate := by
    unfold blockBytes blockDim
    congr 2
    push_cast
    ring
  have hpos := blockBytes_pos h
  unfold blockLayout
  simp only [hb]
  rw [if_neg (not_or.mpr ⟨by decide, not_le.mpr h.1⟩), if_neg (by decide), if_neg hpos.ne']
  rfl

/-- **What is counted**, when every block lies in the buffer. -/
theorem countOffsets_eq {rate : ℚ} (h : 0 < rate ∧ Int.fract (8 * rate) = 0) (buf : List UInt8)
    (offsets : List ℕ) (ho : ∀ o ∈ offsets, o + blockBytes rate ≤ buf.length) (lo hi : Dbl) :
    countOffsets decode buf offsets (blockBytes rate) rate blockDim lo hi =
      .ok (offsets.map fun o => countValues decode rate lo hi
        (slice buf o (o + blockBytes rate))).sum := by
  unfold countOffsets
  by_cases h0 : offsets = []
  · subst h0; rfl
  · rw [if_neg h0, blockLayout_eq h]
    dsimp only
    rw [if_neg (by decide), if_neg (not_not.mpr rfl), if_neg (by decide), if_neg]
    push Not
    intro o hm
    have := ho o hm
    omega

theorem nativeCount_eq {rate : ℚ} (h : 0 < rate ∧ Int.fract (8 * rate) = 0) (blocks : List UInt8)
    (n : ℕ) (lo hi : Dbl) : nativeCount decode blocks n (blockBytes rate) rate blockDim lo hi =
      .ok ((List.range n).map fun bid => countValues decode rate lo hi
        (slice blocks (bid * blockBytes rate) (bid * blockBytes rate + blockBytes rate))).sum := by
  unfold nativeCount countBlocks
  by_cases h0 : n = 0
  · subst h0; rfl
  · rw [if_neg h0, if_neg h0, blockLayout_eq h]
    dsimp only
    rw [if_neg (not_not.mpr rfl)]

/-! ### Reads and what is made of them -/

section Reads
variable {κ : Type*} {α β : Type*} (a : ZarrArray κ)

def rangeOf (req : MergedRange κ) : Range κ := ⟨req.key, req.start, req.stop⟩

/-- **Reads whose bytes are used as they arrive**: a read for each merged range, with the list its items
are an interval of. `use` gets the read's first block, its items and its bytes; the bytes of the range
are returned with its result. -/
def streamWork (use : ℕ → List α → List UInt8 → Except (QueryError κ) β) (limit : Option ℕ) :
    Work Empty (MergedRange κ × List α) (List UInt8) Empty (β × ℕ) (QueryError κ) where
  readZone := Empty.elim
  plan z _ := z.elim
  reads := Empty.elim
  size req := req.1.stop - req.1.start
  read req := readOne a (rangeOf req.1)
  decode req data := (use req.1.firstBlock (slice req.2 req.1.itemStart req.1.itemEnd) data).map
    fun x => (x, req.1.stop - req.1.start)
  limit := limit

/-- What is known of a zone map object after planning it: the counts, its items, its reads and its
stored size. -/
structure PlannedObject (κ α : Type*) where
  nIn : ℕ
  nOut : ℕ
  items : List α
  merged : List (MergedRange κ)
  stored : ℕ

/-- **Zone map objects**, each with the reads that its plan leads to. -/
def slabWork (plan : ℕ → List UInt8 → Except (QueryError κ) (PlannedObject κ α))
    (use : ℕ → List α → List UInt8 → Except (QueryError κ) β) (limit : Option ℕ) :
    Work ℕ (MergedRange κ × List α) (List UInt8) (PlannedObject κ α) (β × ℕ) (QueryError κ) where
  readZone := fetchObject a
  plan := plan
  reads p := p.merged.map fun req => (req, p.items)
  size := (streamWork a use limit).size
  read := (streamWork a use limit).read
  decode := (streamWork a use limit).decode
  limit := limit

end Reads

/-- What `stream_count` makes of the bytes of a read. The blocks of a read start at its first block, so
that no row is negative. -/
def countRead {κ : Type*} (blockSize : ℕ) (rate : ℚ) (blockDim : ℕ) (lo hi : Dbl) (firstBlock : ℕ)
    (ids : List ℕ) (data : List UInt8) : Except (QueryError κ) ℕ :=
  let rows := ids.map (· - firstBlock)
  checked "szfp_count_offsets_range"
    (countOffsets decode data (rows.map (· * blockSize)) blockSize rate blockDim lo hi)

/-! ### The reads of the groups -/

/-- The items of each group, from a list that has them one group after another. -/
def deal {α β : Type*} : List (List α) → List β → List (List α × List β)
  | [], _ => []
  | g :: gs, l => (g, l.take g.length) :: deal gs (l.drop g.length)

section Deal
variable {α β : Type*}

theorem deal_append : ∀ (gs hs : List (List α)) (l l' : List β), gs.flatten.length = l.length →
    deal (gs ++ hs) (l ++ l') = deal gs l ++ deal hs l'
  | [], hs, l, l', h => by
    have hl : l = [] := List.length_eq_zero_iff.mp h.symm
    rw [hl]
    rfl
  | g :: gs, hs, l, l', h => by
    rw [List.flatten_cons, List.length_append] at h
    have h1 : g.length ≤ l.length := by omega
    rw [List.cons_append, deal, deal, List.take_append_of_le_length h1,
      List.drop_append_of_le_length h1, deal_append gs hs _ l' (by rw [List.length_drop]; omega)]
    rfl

theorem deal_flatten (f : α → β) : ∀ gs : List (List α),
    deal gs (gs.flatten.map f) = gs.map fun g => (g, g.map f)
  | [] => rfl
  | g :: gs => by
    have h : (g.map f).length = g.length := List.length_map f
    rw [List.flatten_cons, List.map_append, deal, List.take_left' h, List.drop_left' h,
      deal_flatten f gs]
    rfl

theorem deal_groups (gap : ℕ) (ids : List (ℕ × ℕ)) (f : ℕ × ℕ → β) :
    deal (groups gap ids) (ids.map f) = (groups gap ids).map fun g => (g, g.map f) := by
  have h := deal_flatten f (groups gap ids)
  rwa [flatten_groups] at h

end Deal

section Groups
variable {κ : Type*} {α β : Type*} {a : ZarrArray κ} {keys : ℕ → κ} {rate : ℚ}

/-- What the read of a group returns, for its items. -/
def readGroup (a : ZarrArray κ) (keys : ℕ → κ) (blockSize base : ℕ)
    (use : ℕ → List α → List UInt8 → Except (QueryError κ) β) (g : List (ℕ × ℕ)) (items : List α) :
    Except (QueryError κ) (β × ℕ) :=
  let req := groupRead keys blockSize base 0 g
  (readOne a (rangeOf req)).bind fun data =>
    (use req.firstBlock items data).map fun x => (x, req.stop - req.start)

/-- **All reads of groups**, whose items the list `l` has behind the first `i` ones. -/
theorem map_readsOf (use : ℕ → List α → List UInt8 → Except (QueryError κ) β) (limit : Option ℕ)
    {blockSize base : ℕ} (l : List α) : ∀ (i : ℕ) (gs : List (List (ℕ × ℕ))),
      ((readsOf keys blockSize base i gs).map fun req => (req, l)).map
        (streamWork a use limit).readResult =
        (deal gs (l.drop i)).map fun x => readGroup a keys blockSize base use x.1 x.2
  | _, [] => rfl
  | i, g :: gs => by
    have hhead : (streamWork a use limit).readResult (groupRead keys blockSize base i g, l) =
        readGroup a keys blockSize base use g ((l.drop i).take g.length) := by
      have hs : slice l i (i + g.length) = (l.drop i).take g.length := by
        rw [slice, Nat.add_sub_cancel_left]
      rw [← hs]
      rfl
    rw [readsOf, List.map_cons, List.map_cons, hhead, map_readsOf use limit l _ gs, deal,
      List.map_cons, List.drop_drop]

theorem mapM_readsOf (use : ℕ → List α → List UInt8 → Except (QueryError κ) β) (limit : Option ℕ)
    {blockSize base : ℕ} (l : List α) (i : ℕ) (gs : List (List (ℕ × ℕ))) :
      ((readsOf keys blockSize base i gs).map fun req => (req, l)).mapM
        (streamWork a use limit).readResult =
        (deal gs (l.drop i)).mapM fun x => readGroup a keys blockSize base use x.1 x.2 := by
  calc _ = (((readsOf keys blockSize base i gs).map fun req => (req, l)).map
        (streamWork a use limit).readResult).mapM id := List.mapM_map.symm
    _ = _ := by rw [map_readsOf, List.mapM_map]; rfl

/-- The bytes of block `b` of chunk `cid`, in a layer that starts at byte `base`. -/
def storedBlock (a : ZarrArray κ) (keys : ℕ → κ) (blockSize base : ℕ) (id : ℕ × ℕ) : List UInt8 :=
  slice ((a.get (keys id.1)).getD []) (base + id.2 * blockSize) (base + id.2 * blockSize + blockSize)

/-- A group of ids whose blocks are stored: the ids of one chunk from the first to the last, and an
object for the chunk that reaches to the end of the last. -/
structure Stored (a : ZarrArray κ) (keys : ℕ → κ) (blockSize base : ℕ) (g : List (ℕ × ℕ)) : Prop where
  within : ∀ id ∈ g, id.1 = (g.headD (0, 0)).1 ∧ (g.headD (0, 0)).2 ≤ id.2 ∧
    id.2 ≤ (g.getLastD (0, 0)).2
  ordered : (g.headD (0, 0)).2 ≤ (g.getLastD (0, 0)).2
  object : ∃ obj, a.get (keys (g.headD (0, 0)).1) = some obj ∧
    base + ((g.getLastD (0, 0)).2 + 1) * blockSize ≤ obj.length

/-- The bytes a group is read with. -/
def groupBytes (blockSize : ℕ) (g : List (ℕ × ℕ)) : ℕ :=
  ((g.getLastD (0, 0)).2 + 1 - (g.headD (0, 0)).2) * blockSize

theorem readOne_group {blockSize base : ℕ} {g : List (ℕ × ℕ)} (hg : Stored a keys blockSize base g)
    (i : ℕ) : ∃ data, readOne a (rangeOf (groupRead keys blockSize base i g)) = .ok data ∧
      ∀ id ∈ g, (id.2 - (g.headD (0, 0)).2) * blockSize + blockSize ≤ data.length ∧
        slice data ((id.2 - (g.headD (0, 0)).2) * blockSize)
          ((id.2 - (g.headD (0, 0)).2) * blockSize + blockSize) =
            storedBlock a keys blockSize base id := by
  obtain ⟨obj, hobj, hlen⟩ := hg.object
  refine ⟨slice obj (base + (g.headD (0, 0)).2 * blockSize)
    (base + ((g.getLastD (0, 0)).2 + 1) * blockSize), readOne_eq hobj hlen, fun id hid => ?_⟩
  obtain ⟨hc, hlo, hhi⟩ := hg.within id hid
  have hrow : (id.2 - (g.headD (0, 0)).2) * blockSize + (g.headD (0, 0)).2 * blockSize =
      id.2 * blockSize := by rw [← Nat.add_mul, Nat.sub_add_cancel hlo]
  have hend : (id.2 + 1) * blockSize ≤ ((g.getLastD (0, 0)).2 + 1) * blockSize :=
    Nat.mul_le_mul_right _ (by omega)
  rw [Nat.succ_mul] at hend
  refine ⟨?_, ?_⟩
  · rw [length_slice hlen]
    omega
  · rw [slice_slice _ (by omega), storedBlock, hc, hobj, Option.getD_some]
    congr 1 <;> omega

theorem size_groupRead (keys : ℕ → κ) (blockSize base i : ℕ) (g : List (ℕ × ℕ)) :
    (groupRead keys blockSize base i g).stop - (groupRead keys blockSize base i g).start =
      groupBytes blockSize g := by
  rw [groupBytes, Nat.sub_mul]
  exact Nat.add_sub_add_left _ _ _

/-- **A merged read counts the blocks of its group.** -/
theorem readGroup_countRead (hr : 0 < rate ∧ Int.fract (8 * rate) = 0) {base : ℕ}
    {g : List (ℕ × ℕ)} (hg : Stored a keys (blockBytes rate) base g) (lo hi : Dbl) :
    readGroup a keys (blockBytes rate) base
      (countRead decode (blockBytes rate) rate blockDim lo hi) g (g.map Prod.snd) =
      .ok ((g.map fun id => countValues decode rate lo hi
        (storedBlock a keys (blockBytes rate) base id)).sum, groupBytes (blockBytes rate) g) := by
  obtain ⟨data, hdata, hid⟩ := readOne_group hg 0
  have hcount := countOffsets_eq decode hr data
    (g.map fun id => (id.2 - (g.headD (0, 0)).2) * blockBytes rate) (fun o ho => by
      obtain ⟨id, hm, rfl⟩ := List.mem_map.mp ho
      exact (hid id hm).1) lo hi
  rw [List.map_map] at hcount
  have hvals : g.map ((fun o => countValues decode rate lo hi (slice data o (o + blockBytes rate))) ∘
      fun id => (id.2 - (g.headD (0, 0)).2) * blockBytes rate) =
        g.map fun id => countValues decode rate lo hi (storedBlock a keys (blockBytes rate) base id) :=
    List.map_congr_left fun id hm => by rw [Function.comp_apply, (hid id hm).2]
  rw [hvals] at hcount
  unfold readGroup
  dsimp only
  rw [hdata, Except.bind, countRead, size_groupRead]
  dsimp only [groupRead]
  rw [List.map_map, List.map_map]
  exact congrArg (fun x => (checked "szfp_count_offsets_range" x).map fun n =>
    (n, groupBytes (blockBytes rate) g)) hcount

end Groups

end Decode

end SkipZFP.Read.Stream
