import Mathlib.Data.FinEnum
import Mathlib.Data.Fintype.EquivFin
import Mathlib.Data.Fintype.Vector
import SkipZFP.Lib.Rows

/-! # Packed zone map records

`packMeta` brings the records of a zone map object into a form in which they compress well: all leading
bytes, then the minima of the blocks as differences along a record, then their widths, then the error
codes. `unpackMeta` restores them. Sums and differences of bytes wrap.

* `byteSums_differences`: the running sums of the differences of a list are the list.
* `unpackMeta_packMeta`: **unpacking restores the records**.
* `packMeta_unpackMeta`: and packing restores the bytes, as there are as many byte strings as records.
* `pack_meta_inverse`: the two are inverse to each other. -/

namespace SkipZFP.Codec.Packing

open SkipZFP.Lib.Rows

/-- `np.cumsum` of bytes. -/
def byteSums (l : List UInt8) : List UInt8 := (l.scanl (· + ·) 0).tail

/-- **`unpack_meta`**: the records, one in each row. -/
def unpackMeta (size lead blocks : ℕ) (buf : List UInt8) : List (List UInt8) :=
  let n := buf.length / size
  let e0 := n * lead
  let e1 := e0 + n * blocks
  let e2 := e1 + n * blocks
  let head := reshape n lead (slice buf 0 e0)
  let dmin := reshape n blocks (slice buf e0 e1)
  let width := reshape n blocks (slice buf e1 e2)
  let rest := slice buf e2 buf.length
  let tail := reshape n (rest.length / n) rest
  (List.range n).map fun i =>
    let qmin := byteSums (dmin.getD i [])
    head.getD i [] ++ ((qmin.zip (width.getD i [])).flatMap fun q => [q.1, q.1 + q.2]) ++ tail.getD i []

/-! ### Packing -/

/-- `q[..., j]`: the minima (0) or the maxima (1) of the blocks of a record. -/
def quantized (lead blocks j : ℕ) (r : List UInt8) : List UInt8 :=
  (reshape blocks 2 (slice r lead (lead + 2 * blocks))).map fun p => p.getD j 0

/-- A list with each entry but the first less the one before it. -/
def differences (l : List UInt8) : List UInt8 := List.zipWith (· - ·) l (0 :: l)

/-- **`pack_meta`**, of the records of one object. -/
def packMeta (lead blocks : ℕ) (rec : List (List UInt8)) : List UInt8 :=
  let qmin := quantized lead blocks 0
  let width := fun r => List.zipWith (· - ·) (quantized lead blocks 1 r) (qmin r)
  (rec.map fun r => slice r 0 lead).flatten ++ (rec.map fun r => differences (qmin r)).flatten ++
    (rec.map width).flatten ++ (rec.map fun r => slice r (lead + 2 * blocks) r.length).flatten

theorem scanl_differences (a : UInt8) (l : List UInt8) :
    List.scanl (· + ·) a (List.zipWith (· - ·) l (a :: l)) = a :: l := by
  induction l generalizing a with
  | nil => rfl
  | cons x l ih => rw [List.zipWith_cons_cons, List.scanl_cons, UInt8.add_comm, UInt8.sub_add_cancel, ih]

/-- **Running sums undo differences.** -/
theorem byteSums_differences (l : List UInt8) : byteSums (differences l) = l := by
  rw [byteSums, differences, scanl_differences, List.tail_cons]

section Record
variable {lead blocks : ℕ} {r : List UInt8}

theorem length_quantized (j : ℕ) : (quantized lead blocks j r).length = blocks := by
  rw [quantized, List.length_map, length_reshape]

theorem length_differences (l : List UInt8) : (differences l).length = l.length := by
  simp [differences]

theorem pairs_flatten : ∀ {ps : List (List UInt8)}, (∀ p ∈ ps, p.length = 2) →
    (((ps.map fun p => p.getD 0 0).zip (List.zipWith (· - ·) (ps.map fun p => p.getD 1 0)
      (ps.map fun p => p.getD 0 0))).flatMap fun q => [q.1, q.1 + q.2]) = ps.flatten
  | [], _ => rfl
  | p :: ps, h => by
    obtain ⟨x, y, rfl⟩ := List.length_eq_two.mp (h p List.mem_cons_self)
    have ih := pairs_flatten fun q hq => h q (List.mem_cons_of_mem _ hq)
    simp only [List.map_cons, List.zipWith_cons_cons, List.zip_cons_cons, List.flatMap_cons,
      List.flatten_cons, ih, List.getD_cons_zero, List.getD_cons_succ]
    rw [UInt8.add_comm x, UInt8.sub_add_cancel]

theorem pairs_quantized (h : lead + 2 * blocks ≤ r.length) :
    (((quantized lead blocks 0 r).zip (List.zipWith (· - ·) (quantized lead blocks 1 r)
      (quantized lead blocks 0 r))).flatMap fun q => [q.1, q.1 + q.2]) =
      slice r lead (lead + 2 * blocks) := by
  have hlen : (slice r lead (lead + 2 * blocks)).length = blocks * 2 := by
    rw [length_slice h]
    omega
  refine (pairs_flatten fun p hp => length_of_mem_reshape hlen hp).trans ?_
  exact flatten_reshape 2 blocks _ hlen

end Record

/-! ### The round trip -/

section RoundTrip
variable {lead blocks size : ℕ} {rec : List (List UInt8)} (hrec : ∀ r ∈ rec, r.length = size)
  (hle : lead + 2 * blocks ≤ size)
include hrec hle

theorem part_lengths : (∀ x ∈ rec.map fun r => slice r 0 lead, x.length = lead) ∧
    (∀ x ∈ rec.map fun r => differences (quantized lead blocks 0 r), x.length = blocks) ∧
    (∀ x ∈ rec.map fun r => List.zipWith (· - ·) (quantized lead blocks 1 r)
      (quantized lead blocks 0 r), x.length = blocks) ∧
    ∀ x ∈ rec.map fun r => slice r (lead + 2 * blocks) r.length,
      x.length = size - (lead + 2 * blocks) := by
  refine ⟨fun x hx => ?_, fun x hx => ?_, fun x hx => ?_, fun x hx => ?_⟩ <;>
    obtain ⟨r, hr, rfl⟩ := List.mem_map.mp hx
  · have := hrec r hr
    rw [length_slice (by omega), Nat.sub_zero]
  · rw [length_differences, length_quantized]
  · rw [List.length_zipWith, length_quantized, length_quantized, Nat.min_self]
  · rw [length_slice le_rfl, hrec r hr]

theorem length_packMeta : (packMeta lead blocks rec).length = rec.length * size := by
  obtain ⟨h1, h2, h3, h4⟩ := part_lengths hrec hle
  unfold packMeta
  dsimp only
  rw [List.length_append, List.length_append, List.length_append, length_flatten_rows h1,
    length_flatten_rows h2, length_flatten_rows h3, length_flatten_rows h4, List.length_map,
    List.length_map, List.length_map, List.length_map, ← Nat.mul_add, ← Nat.mul_add, ← Nat.mul_add]
  congr 1
  omega

omit hrec hle in
theorem slices_of_parts {α : Type*} {A B C D : List α} {e0 e1 e2 : ℕ} (h0 : A.length = e0)
    (h1 : e0 + B.length = e1) (h2 : e1 + C.length = e2) :
    slice (A ++ B ++ C ++ D) 0 e0 = A ∧ slice (A ++ B ++ C ++ D) e0 e1 = B ∧
      slice (A ++ B ++ C ++ D) e1 e2 = C ∧
      slice (A ++ B ++ C ++ D) e2 (A ++ B ++ C ++ D).length = D := by
  have hAB : (A ++ B).length = e1 := by rw [List.length_append, h0, h1]
  have hABC : (A ++ B ++ C).length = e2 := by rw [List.length_append, hAB, h2]
  refine ⟨?_, ?_, ?_, slice_append_end hABC D⟩
  · rw [List.append_assoc, List.append_assoc, slice_append_of_length h0]
  · rw [List.append_assoc, List.append_assoc, ← h1]
    have := slice_append_add h0 (B ++ (C ++ D)) 0 B.length
    rwa [slice_append_of_length rfl, Nat.add_zero] at this
  · rw [List.append_assoc, ← h2]
    have := slice_append_add hAB (C ++ D) 0 C.length
    rwa [slice_append_of_length rfl, Nat.add_zero] at this

/-- **Unpacking restores the records.** -/
theorem unpackMeta_packMeta (hsize : 0 < size) :
    unpackMeta size lead blocks (packMeta lead blocks rec) = rec := by
  obtain ⟨h1, h2, h3, h4⟩ := part_lengths hrec hle
  have hn : (packMeta lead blocks rec).length / size = rec.length := by
    rw [length_packMeta hrec hle, Nat.mul_div_cancel _ hsize]
  obtain ⟨s1, s2, s3, s4⟩ := slices_of_parts
    (D := (rec.map fun r => slice r (lead + 2 * blocks) r.length).flatten)
    (by rw [length_flatten_rows h1, List.length_map])
    (by rw [length_flatten_rows h2, List.length_map])
    (by rw [length_flatten_rows h3, List.length_map])
  have hshape : ∀ {f : List UInt8 → List UInt8} {w : ℕ}, (∀ x ∈ rec.map f, x.length = w) →
      reshape rec.length w (rec.map f).flatten = rec.map f := fun {f w} h => by
    have := reshape_flatten h
    rwa [List.length_map] at this
  unfold unpackMeta
  dsimp only
  rw [hn]
  unfold packMeta
  dsimp only
  rw [s1, s2, s3, s4, hshape h1, hshape h2, hshape h3, length_flatten_rows h4, List.length_map]
  refine List.ext_getElem (by rw [List.length_map, List.length_range]) fun i hi hi' => ?_
  have hpos : 0 < rec.length := by omega
  have hr := hrec _ (List.getElem_mem hi')
  rw [List.getElem_map, List.getElem_range, Nat.mul_div_cancel_left _ hpos, hshape h4]
  simp only [List.getD_eq_getElem?_getD, List.getElem?_map, List.getElem?_eq_getElem hi',
    Option.map_some, Option.getD_some]
  rw [byteSums_differences, pairs_quantized (by omega),
    slice_append_slice _ (Nat.zero_le _) (Nat.le_add_right _ _),
    slice_append_slice _ (Nat.zero_le _) (by omega), slice_full]

end RoundTrip

/-! ### All byte strings -/

section Inverse
variable {lead blocks size n : ℕ} (hle : lead + 2 * blocks ≤ size) (hsize : 0 < size)

/-- Packing byte strings of `n` records. -/
def packBytes (hle : lead + 2 * blocks ≤ size) (v : List.Vector UInt8 (n * size)) :
    List.Vector UInt8 (n * size) :=
  ⟨packMeta lead blocks (reshape n size v.val), by
    rw [length_packMeta (fun r hr => length_of_mem_reshape v.property hr) hle, length_reshape]⟩

include hsize in
theorem injective_packBytes : Function.Injective (packBytes hle : List.Vector UInt8 (n * size) → _) := by
  intro v w h
  have hpack : packMeta lead blocks (reshape n size v.val) = packMeta lead blocks (reshape n size w.val) :=
    congrArg Subtype.val h
  have hrec := congrArg (unpackMeta size lead blocks) hpack
  rw [unpackMeta_packMeta (fun r hr => length_of_mem_reshape v.property hr) hle hsize,
    unpackMeta_packMeta (fun r hr => length_of_mem_reshape w.property hr) hle hsize] at hrec
  have hflat := congrArg List.flatten hrec
  rw [flatten_reshape size n _ v.property, flatten_reshape size n _ w.property] at hflat
  exact Subtype.ext hflat

include hle hsize in
/-- **Packing restores the bytes.** A byte string of this length is one of some packed records. -/
theorem packMeta_unpackMeta {buf : List UInt8} (hbuf : buf.length = n * size) :
    packMeta lead blocks (unpackMeta size lead blocks buf) = buf := by
  have hinj : Function.Injective (packBytes hle : List.Vector UInt8 (n * size) → _) :=
    injective_packBytes hle hsize
  obtain ⟨v, hv⟩ := Finite.injective_iff_surjective.mp hinj ⟨buf, hbuf⟩
  have hpack : packMeta lead blocks (reshape n size v.val) = buf := congrArg Subtype.val hv
  rw [← hpack, unpackMeta_packMeta (fun r hr => length_of_mem_reshape v.property hr) hle hsize]

end Inverse

/-- **`pack_meta` and `unpack_meta` are inverse to each other**, for any number of records of any
widths. -/
theorem pack_meta_inverse {n lead blocks tail size : ℕ} (_hn : 1 ≤ n) (hblocks : 1 ≤ blocks)
    (hsize : size = lead + 2 * blocks + tail) :
    (∀ rec : List (List UInt8), rec.length = n → (∀ r ∈ rec, r.length = size) →
      unpackMeta size lead blocks (packMeta lead blocks rec) = rec) ∧
    ∀ buf : List UInt8, buf.length = n * size →
      packMeta lead blocks (unpackMeta size lead blocks buf) = buf :=
  ⟨fun _ _ hrec => unpackMeta_packMeta hrec (by omega) (by omega),
    fun _ hbuf => packMeta_unpackMeta (by omega) (by omega) hbuf⟩

/-- Two records, each of a leading byte, two blocks and an error code. -/
theorem pack_meta_inverse_two :
    unpackMeta 6 1 2 (packMeta 1 2 [[7, 250, 3, 2, 1, 9], [8, 1, 2, 255, 0, 77]]) =
        [[7, 250, 3, 2, 1, 9], [8, 1, 2, 255, 0, 77]] ∧
      packMeta 1 2 (unpackMeta 6 1 2 [1, 2, 3, 200, 100, 50, 7, 8, 9, 255, 254, 0]) =
        [1, 2, 3, 200, 100, 50, 7, 8, 9, 255, 254, 0] := by
  have hsize : 6 = 1 + 2 * 2 + 1 := rfl
  obtain ⟨h1, h2⟩ := pack_meta_inverse (n := 2) (by decide) (by decide) hsize
  exact ⟨h1 _ rfl (by decide), h2 _ rfl⟩

end SkipZFP.Codec.Packing
