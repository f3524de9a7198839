import SkipZFP.Codec.Pack
import SkipZFP.Lib.Float32
import SkipZFP.Lib.Levels

/-! # The zone map records

`szfpMeta` is the C function that describes a unit at one rate: the unit's least and greatest value,
the largest error of the decoded values as a float32 rounded up, and for each block its least and
greatest value on a scale of 256 levels between the unit's. `blockErrorCodes` gives each block's error
as a 4-bit fraction of the unit's, and `writeMetaOne` is `write_meta.one`, the record of a unit.

Double arithmetic takes the rounding of a result as the parameter `fl`. The decoded array is a
parameter too, so that the results hold for whatever libzfp returns. -/

namespace SkipZFP.Codec.Meta

open SkipZFP.Lib.Grid SkipZFP.Lib.Rows SkipZFP.Lib.Double SkipZFP.Lib.Float32 SkipZFP.Lib.Levels
open SkipZFP.Codec.Config SkipZFP.Codec.Pack

/-- `if (v < m) m = v`. -/
def minStep (m v : F32) : F32 := if v.val < m.val then v else m

/-- `if (v > m) m = v`. -/
def maxStep (m v : F32) : F32 := if m.val < v.val then v else m

/-- `if (err > m) m = err`. -/
def errStep (m err : Dbl) : Dbl := if m < err then err else m

/-- The 64 positions of block `b`, in the order of the loops over `dx`, `dy`, `dz`. -/
def blockCells (b : Tri) : List Tri := (indices blockShape).map (join blockShape b)

/-- The blocks of a unit, in C order. -/
def unitBlocks (shape : Tri) : List Tri := indices (blocksOf shape)

section Unit
variable (shape : Tri) (chunk dec : Tri → F32)

def blockMin (b : Tri) : F32 := ((blockCells b).map chunk).foldl minStep F32.fltMax

def blockMax (b : Tri) : F32 := ((blockCells b).map chunk).foldl maxStep F32.negFltMax

def unitMin : F32 := ((unitBlocks shape).map (blockMin chunk)).foldl minStep F32.fltMax

def unitMax : F32 := ((unitBlocks shape).map (blockMax chunk)).foldl maxStep F32.negFltMax

/-- `fabs((double)v - (double)dec[idx])`. -/
def errAt (fl : ℚ → ℚ) (i : Tri) : Dbl := Dbl.abs (Dbl.sub fl (chunk i).val (dec i).val)

def maxErr (fl : ℚ → ℚ) : Dbl :=
  (((unitBlocks shape).flatMap blockCells).map (errAt chunk dec fl)).foldl errStep (.fin 0)

/-- The error bound that is stored: the cast of the largest error, and if that is below it, the next
float32 in the direction of `FLT_MAX`. -/
def epsOf (e : Dbl) : F32 := F32.castUp F32.fltMax e

/-- `to_u8`. -/
def toU8 (x : ℤ) : UInt8 := if x < 0 then 0 else if 255 < x then 255 else UInt8.ofNat x.toNat

/-- The quantized least and greatest value of a block, for a unit from `cmin` to `cmax`. -/
def offsetsOf (fl : ℚ → ℚ) (cmin cmax bmin bmax : F32) : List UInt8 :=
  if cmax.val = cmin.val then [0, 0]
  else
    let span := Dbl.sub fl cmax.val cmin.val
    let scale := Dbl.div fl (.fin 255) span
    [toU8 ⌊(Dbl.mul fl (Dbl.sub fl bmin.val cmin.val) scale).toRat⌋,
      toU8 ⌈(Dbl.mul fl (Dbl.sub fl bmax.val cmin.val) scale).toRat⌉]

/-- **`szfp_meta`**: the record of a unit at one rate, for the values libzfp decodes at that rate. -/
def szfpMeta (fl : ℚ → ℚ) : List UInt8 :=
  (unitMin shape chunk).bytes ++ (unitMax shape chunk).bytes ++
    (epsOf (maxErr shape chunk dec fl)).bytes ++
    ((unitBlocks shape).map fun b => offsetsOf fl (unitMin shape chunk) (unitMax shape chunk)
      (blockMin chunk b) (blockMax chunk b)).flatten

/-! ### Error codes of the blocks -/

/-- `max` of numpy, which keeps `nan`. -/
def npMax (a b : Dbl) : Dbl := if a = .nan ∨ b = .nan then .nan else if a < b then b else a

/-- `np.minimum`. -/
def npMin (a b : Dbl) : Dbl := if a = .nan ∨ b = .nan then .nan else if b < a then b else a

/-- `np.ceil`. -/
def npCeil : Dbl → Dbl
  | .fin q => .fin ⌈q⌉
  | x => x

/-- `astype(np.uint8)` of a code; what is not a number becomes 0. -/
def asU8 (x : Dbl) : UInt8 := UInt8.ofNat ⌊x.toRat⌋.toNat

def blockErr (fl : ℚ → ℚ) (b : Tri) : Dbl :=
  ((blockCells b).map (errAt chunk dec fl)).foldl npMax (.fin 0)

/-- `e * q / 15.0`, the bound that code `q` stands for. -/
def codeBound (fl : ℚ → ℚ) (e q : Dbl) : Dbl := Dbl.div fl (Dbl.mul fl e q) (.fin 15)

/-- The code of an error: rounded up, and one more where the bound it stands for falls short. -/
def codeOf (fl : ℚ → ℚ) (e err : Dbl) : Dbl :=
  let q := npMin (npCeil (Dbl.div fl (Dbl.mul fl (.fin 15) err) e)) (.fin 15)
  if codeBound fl e q < err then Dbl.add id q (.fin 1) else q

/-- **`block_error_codes`**, blocks in C order. -/
def blockErrorCodes (fl : ℚ → ℚ) (eps : F32) : Except String (List UInt8) :=
  let err := (unitBlocks shape).map (blockErr chunk dec fl)
  let e := eps.val
  if e = .fin 0 then
    if ∃ x ∈ err, x ≠ .fin 0 then .error "a block has an error but the unit's bound is 0"
    else .ok (err.map fun _ => 0)
  else
    let q := err.map (codeOf fl e)
    if (∃ x ∈ q, .fin 15 < x) ∨ ∃ p ∈ q.zip err, codeBound fl e p.1 < p.2 then
      .error "the unit's error bound does not cover a block"
    else .ok (q.map asU8)

/-- `pack_codes`: two codes a byte, the first in the low nibble. -/
def packCodes : List UInt8 → List UInt8
  | [] => []
  | [a] => [a ||| (0 : UInt8) <<< 4]
  | a :: b :: l => (a ||| b <<< 4) :: packCodes l

end Unit

/-! ### The record of a unit -/

/-- `a[idx] = x` on a new array. -/
def rankedBytes (rk : List ℕ) (l : List UInt8) : List UInt8 :=
  scatter rk l (List.replicate l.length 0)

/-- What libzfp makes of a unit at a rate: encoded and decoded again. -/
def decoded (nat : Native F32) (r : ℚ) (unit : Tri) (x : Tri → F32) : Tri → F32 :=
  nat.decode r unit (nat.encode r unit x)

/-- **`write_meta.one`**: the record of the unit with values `x`. -/
def writeMetaOne (fl : ℚ → ℚ) (nat : Native F32) (c : SkipZFPCodec) (unit : Tri) (x : Tri → F32) :
    Except String (List UInt8) :=
  let per := c.layers.map fun r => szfpMeta unit x (decoded nat r unit x) fl
  let last := per.getLastD []
  let rk := blockRank unit c.order
  let offs := reshape rk.length 2 (slice last 12 last.length)
  let parts := slice last 0 8 ++ (per.map fun m => slice m 8 12).flatten ++ (ranked rk offs).flatten
  if c.blockErrorBits = 0 then .ok parts
  else
    match blockErrorCodes unit x (decoded nat c.rate unit x) fl (F32.ofBytes (slice last 8 12)) with
    | .error e => .error e
    | .ok q => .ok (parts ++ packCodes (rankedBytes rk q))

/-- **`write_meta`**: the records of all units of an array, in C order. -/
def writeMeta (fl : ℚ → ℚ) (nat : Native F32) (c : SkipZFPCodec) (shape chunk : Tri) (data : Tri → F32) :
    Except String (List UInt8) :=
  if ∃ a, shape a % chunk a ≠ 0 then
    .error "data must match the array shape and divide into whole chunks"
  else
    let unit := c.unit chunk
    match (indices (outer unit shape)).mapM fun idx =>
      writeMetaOne fl nat c unit ((tileBox unit idx).view data) with
    | .error e => .error e
    | .ok rows => .ok rows.flatten

/-- `meta_size`: bytes of one unit's record. -/
def metaSize (c : SkipZFPCodec) (unit : Tri) : ℕ :=
  let n := volume (blocksOf unit)
  8 + 4 * c.layers.length + 2 * n + (if c.blockErrorBits = 0 then 0 else (n + 1) / 2)

/-! ### The range of some values -/

def vals (l : List F32) : Set ℚ := {q | ∃ f ∈ l, f.val = .fin q}

/-- The values of some positions are finite. -/
def FiniteOn (x : Tri → F32) (cells : List Tri) : Prop := ∀ i ∈ cells, ∃ q, (x i).val = .fin q

theorem vals_cons {f : F32} {q : ℚ} (hf : f.val = .fin q) (l : List F32) :
    vals (f :: l) = insert q (vals l) := by
  ext x
  simp only [vals, List.mem_cons, exists_eq_or_imp, hf, Dbl.fin.injEq, Set.mem_ofPred_eq,
    Set.mem_insert_iff, eq_comm (a := q)]

/-- A fold that keeps one of two values, the one that comes first in the order `r`, ends at the first
of all of them. -/
theorem foldl_extreme {r : ℚ → ℚ → Prop} {step : F32 → F32 → F32} (hr : ∀ a, r a a)
    (ht : ∀ a b c, r a b → r b c → r a c)
    (hstep : ∀ m f a b, m.val = .fin a → f.val = .fin b →
      (r a b ∧ (step m f).val = .fin a) ∨ (r b a ∧ (step m f).val = .fin b)) :
    ∀ (l : List F32) {m : F32} {a : ℚ}, m.val = .fin a → (∀ f ∈ l, ∃ q, f.val = .fin q) →
      ∃ q, (l.foldl step m).val = .fin q ∧ q ∈ insert a (vals l) ∧ ∀ x ∈ insert a (vals l), r q x
  | [], m, a, hm, _ => ⟨a, hm, Or.inl rfl, by
      rintro x (rfl | ⟨f, hf, -⟩)
      · exact hr x
      · cases hf⟩
  | f :: l, m, a, hm, hl => by
    obtain ⟨b, hb⟩ := hl f List.mem_cons_self
    rw [vals_cons hb, List.foldl_cons]
    have hl' : ∀ f ∈ l, ∃ q, f.val = .fin q := fun f hf => hl f (List.mem_cons_of_mem _ hf)
    rcases hstep m f a b hm hb with ⟨hab, hv⟩ | ⟨hba, hv⟩
    · obtain ⟨q, hq, hmem, hle⟩ := foldl_extreme hr ht hstep l hv hl'
      refine ⟨q, hq, by rcases hmem with h | h <;> simp [h], ?_⟩
      rintro x (rfl | rfl | hx)
      · exact hle _ (Or.inl rfl)
      · exact ht _ _ _ (hle _ (Or.inl rfl)) hab
      · exact hle _ (Or.inr hx)
    · obtain ⟨q, hq, hmem, hle⟩ := foldl_extreme hr ht hstep l hv hl'
      refine ⟨q, hq, by rcases hmem with h | h <;> simp [h], ?_⟩
      rintro x (rfl | rfl | hx)
      · exact ht _ _ _ (hle _ (Or.inl rfl)) hba
      · exact hle _ (Or.inl rfl)
      · exact hle _ (Or.inr hx)

theorem le_fltMax_of_mem_vals {l : List F32} {q : ℚ} (h : q ∈ vals l) :
    -(2 ^ 128 - 2 ^ 104) ≤ q ∧ q ≤ 2 ^ 128 - 2 ^ 104 := by
  obtain ⟨f, -, hf⟩ := h
  exact abs_le.mp (F32.abs_le_of_val hf)

section
variable {l : List F32} (hne : l ≠ []) (hl : ∀ f ∈ l, ∃ q, f.val = .fin q)
include hne hl

theorem exists_mem_vals : ∃ q, q ∈ vals l := by
  obtain ⟨f, hf⟩ := List.exists_mem_of_ne_nil l hne
  obtain ⟨q, hq⟩ := hl f hf
  exact ⟨q, f, hf, hq⟩

theorem foldl_minStep : ∃ q, (l.foldl minStep F32.fltMax).val = .fin q ∧ IsLeast (vals l) q := by
  have hstep : ∀ m f a b, m.val = .fin a → f.val = .fin b →
      (a ≤ b ∧ (minStep m f).val = .fin a) ∨ (b ≤ a ∧ (minStep m f).val = .fin b) := by
    intro m f a b hm hf
    unfold minStep
    rw [hm, hf]
    split_ifs with h <;> rw [Dbl.fin_lt_fin] at h
    · exact Or.inr ⟨h.le, hf⟩
    · exact Or.inl ⟨not_lt.mp h, hm⟩
  obtain ⟨q, hq, hmem, hle⟩ := foldl_extreme (r := (· ≤ ·)) le_refl (fun _ _ _ => le_trans) hstep l
    F32.val_fltMax hl
  refine ⟨q, hq, ?_, fun x hx => hle x (Or.inr hx)⟩
  rcases hmem with rfl | h
  · obtain ⟨x, hx⟩ := exists_mem_vals hne hl
    rwa [le_antisymm (hle x (Or.inr hx)) (le_fltMax_of_mem_vals hx).2]
  · exact h

theorem foldl_maxStep : ∃ q, (l.foldl maxStep F32.negFltMax).val = .fin q ∧ IsGreatest (vals l) q := by
  have hstep : ∀ m f a b, m.val = .fin a → f.val = .fin b →
      (a ≥ b ∧ (maxStep m f).val = .fin a) ∨ (b ≥ a ∧ (maxStep m f).val = .fin b) := by
    intro m f a b hm hf
    unfold maxStep
    rw [hm, hf]
    split_ifs with h <;> rw [Dbl.fin_lt_fin] at h
    · exact Or.inr ⟨h.le, hf⟩
    · exact Or.inl ⟨not_lt.mp h, hm⟩
  obtain ⟨q, hq, hmem, hle⟩ := foldl_extreme (r := (· ≥ ·)) le_refl (fun _ _ _ h1 h2 => h2.trans h1)
    hstep l F32.val_negFltMax hl
  refine ⟨q, hq, ?_, fun x hx => hle x (Or.inr hx)⟩
  rcases hmem with rfl | h
  · obtain ⟨x, hx⟩ := exists_mem_vals hne hl
    rwa [le_antisymm (le_fltMax_of_mem_vals hx).1 (hle x (Or.inr hx))]
  · exact h

end

/-! ### The range of a unit and of its blocks -/

/-- The positions of a unit, block after block. -/
def unitCells (shape : Tri) : List Tri := (unitBlocks shape).flatMap blockCells

theorem mem_blockCells {b i : Tri} : i ∈ blockCells b ↔ outer blockShape i = b := by
  simp only [blockCells, List.mem_map, mem_indices]
  constructor
  · rintro ⟨r, hr, rfl⟩; exact outer_join hr
  · rintro rfl
    exact ⟨inner blockShape i, fun a => Nat.mod_lt _ (Nat.succ_pos 3), join_outer_inner _ _⟩

theorem blockCells_ne_nil (b : Tri) : blockCells b ≠ [] :=
  List.ne_nil_of_mem (mem_blockCells.mpr (outer_join fun _ => Nat.succ_pos 3 : outer blockShape
    (join blockShape b fun _ => 0) = b))

theorem mem_unitCells {shape b i : Tri} (hb : b ∈ unitBlocks shape) (hi : i ∈ blockCells b) :
    i ∈ unitCells shape := List.mem_flatMap.mpr ⟨b, hb, hi⟩

/-- The numbers an array has at some positions. -/
def numsOn (x : Tri → F32) (cells : List Tri) : Set ℚ := {q | ∃ i ∈ cells, (x i).val = .fin q}

theorem vals_map (x : Tri → F32) (cells : List Tri) : vals (cells.map x) = numsOn x cells := by
  ext q; simp [vals, numsOn]

section Range
variable {shape : Tri} {chunk : Tri → F32} (hfin : FiniteOn chunk (unitCells shape)) {b : Tri}
  (hb : b ∈ unitBlocks shape)
include hfin hb

theorem finite_block : ∀ f ∈ (blockCells b).map chunk, ∃ q, f.val = .fin q := by
  intro f hf
  obtain ⟨i, hi, rfl⟩ := List.mem_map.mp hf
  exact hfin i (mem_unitCells hb hi)

theorem blockMin_spec :
    ∃ q, (blockMin chunk b).val = .fin q ∧ IsLeast (numsOn chunk (blockCells b)) q := by
  rw [← vals_map]
  exact foldl_minStep (by simpa using blockCells_ne_nil b) (finite_block hfin hb)

theorem blockMax_spec :
    ∃ q, (blockMax chunk b).val = .fin q ∧ IsGreatest (numsOn chunk (blockCells b)) q := by
  rw [← vals_map]
  exact foldl_maxStep (by simpa using blockCells_ne_nil b) (finite_block hfin hb)

theorem unitMin_spec :
    ∃ q, (unitMin shape chunk).val = .fin q ∧ IsLeast (numsOn chunk (unitCells shape)) q := by
  have hl : ∀ f ∈ (unitBlocks shape).map (blockMin chunk), ∃ q, f.val = .fin q := by
    intro f hf
    obtain ⟨b, hb, rfl⟩ := List.mem_map.mp hf
    obtain ⟨q, hq, -⟩ := blockMin_spec hfin hb
    exact ⟨q, hq⟩
  obtain ⟨q, hq, ⟨f, hf, hfq⟩, hle⟩ := foldl_minStep (by simpa using List.ne_nil_of_mem hb) hl
  obtain ⟨b', hb', rfl⟩ := List.mem_map.mp hf
  obtain ⟨q', hq', ⟨i, hi, hiq⟩, -⟩ := blockMin_spec hfin hb'
  rw [hq'] at hfq
  cases hfq
  refine ⟨q, hq, ⟨i, mem_unitCells hb' hi, hiq⟩, ?_⟩
  rintro x ⟨j, hj, hjx⟩
  obtain ⟨b'', hb'', hj⟩ := List.mem_flatMap.mp hj
  obtain ⟨q'', hq'', -, hle''⟩ := blockMin_spec hfin hb''
  exact (hle ⟨_, List.mem_map_of_mem hb'', hq''⟩).trans (hle'' ⟨j, hj, hjx⟩)

theorem unitMax_spec :
    ∃ q, (unitMax shape chunk).val = .fin q ∧ IsGreatest (numsOn chunk (unitCells shape)) q := by
  have hl : ∀ f ∈ (unitBlocks shape).map (blockMax chunk), ∃ q, f.val = .fin q := by
    intro f hf
    obtain ⟨b, hb, rfl⟩ := List.mem_map.mp hf
    obtain ⟨q, hq, -⟩ := blockMax_spec hfin hb
    exact ⟨q, hq⟩
  obtain ⟨q, hq, ⟨f, hf, hfq⟩, hle⟩ := foldl_maxStep (by simpa using List.ne_nil_of_mem hb) hl
  obtain ⟨b', hb', rfl⟩ := List.mem_map.mp hf
  obtain ⟨q', hq', ⟨i, hi, hiq⟩, -⟩ := blockMax_spec hfin hb'
  rw [hq'] at hfq
  cases hfq
  refine ⟨q, hq, ⟨i, mem_unitCells hb' hi, hiq⟩, ?_⟩
  rintro x ⟨j, hj, hjx⟩
  obtain ⟨b'', hb'', hj⟩ := List.mem_flatMap.mp hj
  obtain ⟨q'', hq'', -, hle''⟩ := blockMax_spec hfin hb''
  exact (hle'' ⟨j, hj, hjx⟩).trans (hle ⟨_, List.mem_map_of_mem hb'', hq''⟩)

end Range

/-! ### The offsets of a block -/

theorem toNat_toU8 {x : ℤ} (h0 : 0 ≤ x) (h1 : x ≤ 255) : ((toU8 x).toNat : ℚ) = x := by
  unfold toU8
  rw [if_neg (by omega), if_neg (by omega), UInt8.toNat_ofNat', Nat.mod_eq_of_lt (by omega)]
  exact_mod_cast Int.toNat_of_nonneg h0

/-- In exact arithmetic the offsets are the levels around the block's range. -/
theorem offsetsOf_spec {cmin cmax bmin bmax : F32} {a z m M : ℚ} (ha : cmin.val = .fin a)
    (hz : cmax.val = .fin z) (hm : bmin.val = .fin m) (hM : bmax.val = .fin M) (h1 : a ≤ m)
    (h2 : m ≤ M) (h3 : M ≤ z) : ∃ o0 o1, offsetsOf id cmin cmax bmin bmax = [o0, o1] ∧
      (o0.toNat : ℚ) = quantDown 255 a z m ∧ (o1.toNat : ℚ) = quantUp 255 a z M := by
  unfold offsetsOf
  rw [ha, hz, hm, hM]
  split_ifs with h
  · cases h
    exact ⟨0, 0, rfl, by simp [quantDown], by simp [quantUp]⟩
  · have hne : z - a ≠ 0 := fun h' => h (by rw [sub_eq_zero.mp h'])
    simp only [Dbl.sub_fin, id_eq, Dbl.div_fin id 255 hne, Dbl.mul_fin, Dbl.toRat_fin]
    refine ⟨_, _, rfl, toNat_toU8 (x := quantDown 255 a z m) ?_ ?_,
      toNat_toU8 (x := quantUp 255 a z M) ?_ ?_⟩
    · exact quantDown_nonneg (by norm_num) h1 (h2.trans h3)
    · exact_mod_cast quantDown_le (m := 255) (by norm_num) h1 (h2.trans h3)
    · exact quantUp_nonneg (by norm_num) (h1.trans h2) h3
    · exact_mod_cast quantUp_le (m := 255) (by norm_num) (h1.trans h2) h3

/-! ### The largest error -/

/-- The loop for the largest error passes over what is not a number. -/
theorem foldl_errStep : ∀ (l : List Dbl) {m : Dbl}, m ≠ .nan → l.foldl errStep m ≠ .nan ∧
    m ≤ l.foldl errStep m ∧ (∀ x ∈ l, x ≠ .nan → x ≤ l.foldl errStep m) ∧
      (l.foldl errStep m = m ∨ l.foldl errStep m ∈ l)
  | [], m, hm => ⟨hm, Dbl.le_refl hm, by simp, Or.inl rfl⟩
  | x :: l, m, hm => by
    rw [List.foldl_cons]
    by_cases hlt : m < x
    · have hs : errStep m x = x := if_pos hlt
      rw [hs]
      obtain ⟨h1, h2, h3, h4⟩ := foldl_errStep l (Dbl.ne_nan_of_lt hlt).2
      refine ⟨h1, Dbl.le_trans (Dbl.le_of_lt hlt) h2, fun y hy hn => ?_, Or.inr ?_⟩
      · rcases List.mem_cons.mp hy with rfl | hy
        · exact h2
        · exact h3 y hy hn
      · rcases h4 with h | h <;> simp [h]
    · have hs : errStep m x = m := if_neg hlt
      rw [hs]
      obtain ⟨h1, h2, h3, h4⟩ := foldl_errStep l hm
      refine ⟨h1, h2, fun y hy hn => ?_, ?_⟩
      · rcases List.mem_cons.mp hy with rfl | hy
        · exact Dbl.le_trans ((Dbl.not_lt hm hn).mp hlt) h2
        · exact h3 y hy hn
      · rcases h4 with h | h
        · exact Or.inl h
        · exact Or.inr (List.mem_cons_of_mem _ h)

theorem maxErr_spec (shape : Tri) (chunk dec : Tri → F32) (fl : ℚ → ℚ) :
    maxErr shape chunk dec fl ≠ .nan ∧ .fin 0 ≤ maxErr shape chunk dec fl ∧
      (∀ i ∈ unitCells shape, errAt chunk dec fl i ≠ .nan →
        errAt chunk dec fl i ≤ maxErr shape chunk dec fl) ∧
      (maxErr shape chunk dec fl = .fin 0 ∨
        ∃ i ∈ unitCells shape, errAt chunk dec fl i = maxErr shape chunk dec fl) := by
  obtain ⟨h1, h2, h3, h4⟩ := foldl_errStep ((unitCells shape).map (errAt chunk dec fl)) (m := .fin 0)
    (by simp)
  refine ⟨h1, h2, fun i hi hn => h3 _ (List.mem_map_of_mem hi) hn, h4.imp_right fun h => ?_⟩
  exact List.mem_map.mp h

/-- `max` keeps what is not a number. -/
theorem foldl_npMax : ∀ (l : List Dbl) {m : Dbl}, l.foldl npMax m ≠ .nan →
    m ≤ l.foldl npMax m ∧ ∀ x ∈ l, x ≤ l.foldl npMax m
  | [], m, hm => ⟨Dbl.le_refl hm, by simp⟩
  | x :: l, m, h => by
    rw [List.foldl_cons] at h ⊢
    obtain ⟨h1, h2⟩ := foldl_npMax l h
    have hstep : m ≤ npMax m x ∧ x ≤ npMax m x := by
      unfold npMax at h1 ⊢
      split_ifs at h1 ⊢ with hn hlt
      · simp at h1
      · exact ⟨Dbl.le_of_lt hlt, Dbl.le_refl (Dbl.ne_nan_of_lt hlt).2⟩
      · obtain ⟨hm, hx⟩ := not_or.mp hn
        exact ⟨Dbl.le_refl hm, (Dbl.not_lt hm hx).mp hlt⟩
    refine ⟨Dbl.le_trans hstep.1 h1, fun y hy => ?_⟩
    rcases List.mem_cons.mp hy with rfl | hy
    · exact Dbl.le_trans hstep.2 h1
    · exact h2 y hy

theorem foldl_npMax_ne_nan : ∀ (l : List Dbl) {m : Dbl}, m ≠ .nan → (∀ x ∈ l, x ≠ .nan) →
    l.foldl npMax m ≠ .nan
  | [], _, hm, _ => hm
  | x :: l, m, hm, hl => by
    rw [List.foldl_cons]
    refine foldl_npMax_ne_nan l ?_ fun y hy => hl y (List.mem_cons_of_mem _ hy)
    have hx := hl x List.mem_cons_self
    unfold npMax
    rw [if_neg (not_or.mpr ⟨hm, hx⟩)]
    split_ifs
    · exact hx
    · exact hm

theorem blockErr_spec (chunk dec : Tri → F32) (fl : ℚ → ℚ) (b : Tri) :
    (blockErr chunk dec fl b ≠ .nan → .fin 0 ≤ blockErr chunk dec fl b ∧
      ∀ i ∈ blockCells b, errAt chunk dec fl i ≤ blockErr chunk dec fl b) ∧
    ((∀ i ∈ blockCells b, errAt chunk dec fl i ≠ .nan) → blockErr chunk dec fl b ≠ .nan) := by
  refine ⟨fun h => ?_, fun h => foldl_npMax_ne_nan _ (by simp) fun x hx => ?_⟩
  · obtain ⟨h1, h2⟩ := foldl_npMax _ h
    exact ⟨h1, fun i hi => h2 _ (List.mem_map_of_mem hi)⟩
  · obtain ⟨i, hi, rfl⟩ := List.mem_map.mp hx
    exact h i hi

/-! ### The codes of a unit -/

theorem codeBound_fin (fl : ℚ → ℚ) (e q : ℚ) : codeBound fl (.fin e) (.fin q) =
    .fin (fl (fl (e * q) / 15)) :=
  Dbl.div_fin fl (fl (e * q)) (by norm_num)

theorem codeBound_id (e q : ℚ) : codeBound id (.fin e) (.fin q) = .fin (e * q / 15) := codeBound_fin id e q

/-- A code that passes the check is a number up to 15 whose bound covers the error, in any arithmetic
where no rounding makes a number negative. -/
theorem codeOf_spec {fl : ℚ → ℚ} (hfl : ∀ x, 0 ≤ x → 0 ≤ fl x) {e : ℚ} (he : 0 < e) {err : Dbl}
    (hn : err ≠ .nan) (h0 : .fin 0 ≤ err) (h15 : ¬ .fin 15 < codeOf fl (.fin e) err)
    (hb : ¬ codeBound fl (.fin e) (codeOf fl (.fin e) err) < err) :
    ∃ c : ℕ, c ≤ 15 ∧ codeOf fl (.fin e) err = .fin c ∧ err ≤ codeBound fl (.fin e) (.fin c) := by
  obtain ⟨c, hc⟩ : ∃ c : ℕ, codeOf fl (.fin e) err = .fin c := by
    have hmin : ∃ c : ℕ, npMin (npCeil (Dbl.div fl (Dbl.mul fl (.fin 15) err) (.fin e))) (.fin 15) =
        .fin c := by
      cases err with
      | nan => exact absurd rfl hn
      | ninf => exact absurd h0 (Dbl.not_fin_le_ninf 0)
      | pinf =>
        refine ⟨15, ?_⟩
        have h1 : Dbl.mul fl (.fin 15) .pinf = .pinf := (by decide : Dbl.infOf 15 = .pinf)
        have h2 : Dbl.div fl .pinf (.fin e) = .pinf := if_neg (not_lt.mpr he.le)
        rw [h1, h2]
        decide
      | fin r =>
        have hr : 0 ≤ r := (Dbl.fin_le_fin 0 r).mp h0
        rw [Dbl.mul_fin, Dbl.div_fin fl _ he.ne']
        have hnn : 0 ≤ ⌈fl (fl (15 * r) / e)⌉ :=
          Int.ceil_nonneg (hfl _ (div_nonneg (hfl _ (by positivity)) he.le))
        show ∃ c : ℕ, npMin (.fin ⌈fl (fl (15 * r) / e)⌉) (.fin 15) = .fin c
        unfold npMin
        rw [if_neg (by simp)]
        split_ifs
        · exact ⟨15, rfl⟩
        · refine ⟨⌈fl (fl (15 * r) / e)⌉.toNat, ?_⟩
          congr 1
          exact_mod_cast (congrArg (Int.cast (R := ℚ)) (Int.toNat_of_nonneg hnn)).symm
    obtain ⟨c, hc⟩ := hmin
    unfold codeOf
    dsimp only
    rw [hc]
    split_ifs
    · exact ⟨c + 1, by simp⟩
    · exact ⟨c, rfl⟩
  rw [hc] at h15 hb ⊢
  rw [Dbl.fin_lt_fin, not_lt] at h15
  rw [Dbl.not_lt (by rw [codeBound_fin]; simp) hn] at hb
  exact ⟨c, by exact_mod_cast h15, rfl, hb⟩

theorem codeOf_nan (fl : ℚ → ℚ) (e : ℚ) : codeOf fl (.fin e) .nan = .nan := rfl

theorem length_blockErrorCodes {shape : Tri} {chunk dec : Tri → F32} {fl : ℚ → ℚ} {eps : F32}
    {q : List UInt8} (h : blockErrorCodes shape chunk dec fl eps = .ok q) :
    q.length = (unitBlocks shape).length := by
  unfold blockErrorCodes at h
  dsimp only at h
  split_ifs at h <;> cases h <;> simp

section Codes
variable {shape : Tri} {chunk dec : Tri → F32} {fl : ℚ → ℚ} {eps : F32} {q : List UInt8}
  (h : blockErrorCodes shape chunk dec fl eps = .ok q) (hfl : ∀ x, 0 ≤ x → 0 ≤ fl x)
include h hfl

/-- **The codes cover the errors**: a block whose errors are numbers has none above the bound of its
code. -/
theorem blockErrorCodes_spec {e : ℚ} (heps : eps.val = .fin e) (he : 0 ≤ e) {k : ℕ} {b : Tri}
    (hk : (unitBlocks shape)[k]? = some b) : ∃ c : ℕ, c ≤ 15 ∧ q[k]? = some (UInt8.ofNat c) ∧
      (blockErr chunk dec fl b ≠ .nan → blockErr chunk dec fl b ≤ codeBound fl (.fin e) (.fin c)) := by
  have hmem : blockErr chunk dec fl b ∈ (unitBlocks shape).map (blockErr chunk dec fl) :=
    List.mem_map_of_mem (List.mem_of_getElem? hk)
  unfold blockErrorCodes at h
  dsimp only at h
  rw [heps] at h
  split_ifs at h with h0 hany hbad
  · cases h
    cases h0
    push Not at hany
    refine ⟨0, by omega, by simp [hk], fun _ => ?_⟩
    rw [hany _ hmem, codeBound_fin, Dbl.fin_le_fin]
    exact hfl _ (div_nonneg (hfl _ (by simp)) (by norm_num))
  · cases h
    have he' : 0 < e := lt_of_le_of_ne he fun h => h0 (by rw [h])
    obtain ⟨h15, hb⟩ := not_or.mp hbad
    push Not at h15 hb
    set err := blockErr chunk dec fl b with herr
    by_cases hn : err = .nan
    · refine ⟨0, by omega, ?_, fun h => absurd hn h⟩
      simp only [List.getElem?_map, hk, Option.map_some, ← herr, hn, codeOf_nan]
      rfl
    · have hq : codeOf fl (.fin e) err ∈ ((unitBlocks shape).map (blockErr chunk dec fl)).map
          (codeOf fl (.fin e)) := List.mem_map_of_mem hmem
      have hz : (codeOf fl (.fin e) err, err) ∈ (((unitBlocks shape).map (blockErr chunk dec fl)).map
          (codeOf fl (.fin e))).zip ((unitBlocks shape).map (blockErr chunk dec fl)) := by
        refine List.mem_iff_getElem?.mpr ⟨k, List.getElem?_zip_eq_some.mpr ⟨?_, ?_⟩⟩ <;>
          simp only [List.getElem?_map, hk, Option.map_some, ← herr]
      have hbound := hb _ hz
      dsimp only at hbound
      obtain ⟨c, hc, hcode, hle⟩ := codeOf_spec hfl he' hn ((blockErr_spec chunk dec fl b).1 hn).1
        (h15 _ hq) hbound
      refine ⟨c, hc, ?_, fun _ => hle⟩
      simp only [List.getElem?_map, hk, Option.map_some, ← herr, hcode, asU8, Dbl.toRat_fin,
        Int.floor_natCast, Int.toNat_natCast]

end Codes

theorem toNat_lt_of_mem_blockErrorCodes {shape : Tri} {chunk dec : Tri → F32} {fl : ℚ → ℚ} {eps : F32}
    {q : List UInt8} (h : blockErrorCodes shape chunk dec fl eps = .ok q) {x : UInt8} (hx : x ∈ q) :
    x.toNat < 16 := by
  unfold blockErrorCodes at h
  dsimp only at h
  split_ifs at h with h0 hany hbad
  · cases h
    obtain ⟨y, -, rfl⟩ := List.mem_map.mp hx
    decide
  · cases h
    obtain ⟨y, hy, rfl⟩ := List.mem_map.mp hx
    have h15 : ¬ .fin 15 < y := fun hlt => hbad (Or.inl ⟨y, hy, hlt⟩)
    unfold asU8
    rw [UInt8.toNat_ofNat']
    have hle : y.toRat ≤ 15 := by
      cases y with
      | fin r => rwa [Dbl.fin_lt_fin, not_lt] at h15
      | _ => norm_num [Dbl.toRat]
    have hf : ⌊y.toRat⌋ ≤ 15 := by
      have := Int.floor_le_floor hle
      rwa [show ⌊(15 : ℚ)⌋ = 15 from Int.floor_natCast 15] at this
    omega

end SkipZFP.Codec.Meta
