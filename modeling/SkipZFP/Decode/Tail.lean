import Mathlib.Data.Fintype.BigOperators
import SkipZFP.Lib.Arrays
import SkipZFP.Read.Stream

/-! # From coefficients to values

`tailScalar` and `tailAvx512` are the two ways to turn the 64 coefficients of a block into its values:
negabinary to two's complement, the order of the coefficients, and the inverse transform along `z`, `y`
and `x`. `tailCountAvx512` counts values of a range in registers. The scaling of an integer by the
exponent of the block is a parameter.

* `liftLines_eq`: the lines of one axis do not meet.
* `coefficient_order`: `INV` is the inverse of `PERM`.
* `swapLanes_apply`, `swapValues_apply`: the two shuffles transpose lanes and values.
* `tailAvx512_eq`: **both tails make the same values**.
* `tailCount_eq`: **the count in registers is that of the values of the block.** -/

namespace SkipZFP.Decode.Tail

open SkipZFP.Lib.Arrays SkipZFP.Lib.Double SkipZFP.Lib.Float32 SkipZFP.Plan.Classify SkipZFP.Read.Stream

/-- An integer of 32 bits, with or without sign: sums, differences and shifts to the left wrap. -/
abbrev I32 := BitVec 32

abbrev Coefficients := Fin 64 → I32

/-! ### The inverse transform of four values -/

/-- The statements of `inv_lift`, over integers or vectors with their shifts by one. -/
def liftSteps {α : Type} [Add α] [Sub α] (shr shl : α → α) (p : Fin 4 → α) : Fin 4 → α :=
  let x := p 0
  let y := p 1
  let z := p 2
  let w := p 3
  let y := y + shr w
  let w := w - shr y
  let y := y + w
  let w := shl w
  let w := w - y
  let z := z + x
  let x := shl x
  let x := x - z
  let y := y + z
  let z := shl z
  let z := z - y
  let w := w + x
  let x := shl x
  let x := x - w
  ![x, y, z, w]

/-- **`inv_lift`** of the four values of a line. -/
def invLift (p : Fin 4 → I32) : Fin 4 → I32 := liftSteps (BitVec.sshiftRight · 1) (· <<< 1) p

/-! ### The scalar tail -/

/-- `NBMASK`. -/
def nbmask : I32 := 0xaaaaaaaa#32

/-- Negabinary to two's complement. -/
def negabinary (c : I32) : I32 := (c ^^^ nbmask) - nbmask

/-- `IDX`. -/
def idx (i j k : ℕ) : ℕ := i + 4 * (j + 4 * k)

/-- The entries of `PERM`, the order of the coefficients. -/
def permTable : List ℕ :=
  [idx 0 0 0, idx 1 0 0, idx 0 1 0, idx 0 0 1, idx 0 1 1, idx 1 0 1,
   idx 1 1 0, idx 2 0 0, idx 0 2 0, idx 0 0 2, idx 1 1 1, idx 2 1 0,
   idx 2 0 1, idx 0 2 1, idx 1 2 0, idx 1 0 2, idx 0 1 2, idx 3 0 0,
   idx 0 3 0, idx 0 0 3, idx 2 1 1, idx 1 2 1, idx 1 1 2, idx 0 2 2,
   idx 2 0 2, idx 2 2 0, idx 3 1 0, idx 3 0 1, idx 0 3 1, idx 1 3 0,
   idx 1 0 3, idx 0 1 3, idx 1 2 2, idx 2 1 2, idx 2 2 1, idx 3 1 1,
   idx 1 3 1, idx 1 1 3, idx 3 2 0, idx 3 0 2, idx 0 3 2, idx 2 3 0,
   idx 2 0 3, idx 0 2 3, idx 2 2 2, idx 3 2 1, idx 3 1 2, idx 1 3 2,
   idx 2 3 1, idx 2 1 3, idx 1 2 3, idx 0 3 3, idx 3 0 3, idx 3 3 0,
   idx 3 2 2, idx 2 3 2, idx 2 2 3, idx 1 3 3, idx 3 1 3, idx 3 3 1,
   idx 2 3 3, idx 3 2 3, idx 3 3 2, idx 3 3 3]

/-- **`PERM`**: where coefficient `i` goes. -/
def perm (i : Fin 64) : Fin 64 := Fin.ofNat 64 (permTable.getD i 0)

/-- An array of integers in memory, by address. -/
abbrev Memory := ℕ → I32

/-- `inv_lift(p, s)`: the line of four values from `p` on, `s` apart. -/
def liftAt (s : ℕ) (a : Memory) (p : ℕ) : Memory :=
  let r := invLift fun k => a (p + k * s)
  Function.update (Function.update (Function.update (Function.update a p (r 0)) (p + s) (r 1))
    (p + 2 * s) (r 2)) (p + 3 * s) (r 3)

/-- A loop over lines, by where they begin. -/
def liftLines (s : ℕ) (begins : List ℕ) (a : Memory) : Memory := begins.foldl (liftAt s) a

/-- `iblock + x + 4 * y`, in the order of the loops. -/
def zLines : List ℕ := (List.range 4).flatMap fun y => (List.range 4).map fun x => x + 4 * y

/-- `iblock + 16 * z + x`. -/
def yLines : List ℕ := (List.range 4).flatMap fun x => (List.range 4).map fun z => 16 * z + x

/-- `iblock + 4 * y + 16 * z`. -/
def xLines : List ℕ := (List.range 4).flatMap fun z => (List.range 4).map fun y => 4 * y + 16 * z

section Scale
variable (scale : ℤ → I32 → F32)

/-- **`tail_scalar`**. `scale emax i` is `ldexpf(1.0f, emax - 30) * (float)i`. -/
def tailScalar (u : Coefficients) (emax : ℤ) : Values :=
  let iblock := scatter (List.finRange 64) (fun i => (perm i : ℕ)) (fun i => negabinary (u i)) fun _ => 0
  let iblock := liftLines 16 zLines iblock
  let iblock := liftLines 4 yLines iblock
  let iblock := liftLines 1 xLines iblock
  fun i => scale emax (iblock i)

/-! ### The tail in registers -/

/-- A register: four lanes of four 32-bit values. -/
abbrev Reg (α : Type) := Fin 4 → Fin 4 → α

/-- `_mm512_shuffle_i32x4`: two lanes of `a`, then two of `b`, by the two-bit fields of `imm`. -/
def shuffleI32x4 {α : Type} (a b : Reg α) (imm : ℕ) : Reg α := fun l =>
  (if l.val < 2 then a else b) (Fin.ofNat 4 (imm / 4 ^ l.val))

/-- `_mm512_unpacklo_epi32`, in every lane. -/
def unpackloEpi32 {α : Type} (a b : Reg α) : Reg α := fun l => ![a l 0, b l 0, a l 1, b l 1]

/-- `_mm512_unpackhi_epi32`. -/
def unpackhiEpi32 {α : Type} (a b : Reg α) : Reg α := fun l => ![a l 2, b l 2, a l 3, b l 3]

/-- `_mm512_unpacklo_epi64`. -/
def unpackloEpi64 {α : Type} (a b : Reg α) : Reg α := fun l => ![a l 0, a l 1, b l 0, b l 1]

/-- `_mm512_unpackhi_epi64`. -/
def unpackhiEpi64 {α : Type} (a b : Reg α) : Reg α := fun l => ![a l 2, a l 3, b l 2, b l 3]

/-- `inv_lift_avx512`: the same statements, with the sums, differences and shifts of every value. -/
def invLiftAvx512 (v : Fin 4 → Reg I32) : Fin 4 → Reg I32 :=
  liftSteps (fun a l i => (a l i).sshiftRight 1) (fun a l i => a l i <<< 1) v

/-- **`swap_lanes`**. -/
def swapLanes {α : Type} (v : Fin 4 → Reg α) : Fin 4 → Reg α :=
  let t0 := shuffleI32x4 (v 0) (v 1) 0x44
  let t1 := shuffleI32x4 (v 0) (v 1) 0xEE
  let t2 := shuffleI32x4 (v 2) (v 3) 0x44
  let t3 := shuffleI32x4 (v 2) (v 3) 0xEE
  ![shuffleI32x4 t0 t2 0x88, shuffleI32x4 t0 t2 0xDD, shuffleI32x4 t1 t3 0x88, shuffleI32x4 t1 t3 0xDD]

/-- **`swap_values`**. -/
def swapValues {α : Type} (v : Fin 4 → Reg α) : Fin 4 → Reg α :=
  let p := unpackloEpi32 (v 0) (v 1)
  let q := unpackhiEpi32 (v 0) (v 1)
  let r := unpackloEpi32 (v 2) (v 3)
  let t := unpackhiEpi32 (v 2) (v 3)
  ![unpackloEpi64 p r, unpackhiEpi64 p r, unpackloEpi64 q t, unpackhiEpi64 q t]

/-- **`INV`**, filled at load time. -/
def inv : Fin 64 → Fin 64 := scatter (List.finRange 64) perm id fun _ => 0

/-- Where lane `l`, value `i` of register `j` is in an array of 64. -/
def at64 (j l i : Fin 4) : Fin 64 := Fin.ofNat 64 (16 * j + 4 * l + i)

/-- Four registers stored one after another, as an array of 64. -/
def stored {α : Type} (v : Fin 4 → Reg α) : Fin 64 → α := fun p =>
  v (Fin.ofNat 4 (p / 16)) (Fin.ofNat 4 (p / 4)) (Fin.ofNat 4 p)

/-- The coefficients, gathered through `INV`. -/
def gathered (u : Coefficients) : Fin 4 → Reg I32 := fun z l i => negabinary (u (inv (at64 z l i)))

/-- The three passes of the inverse transform, with the lanes and values swapped between them. -/
def lifted (v : Fin 4 → Reg I32) : Fin 4 → Reg I32 :=
  invLiftAvx512 (swapValues (invLiftAvx512 (swapLanes (invLiftAvx512 v))))

/-- **`tail_avx512`**. -/
def tailAvx512 (u : Coefficients) (emax : ℤ) : Values :=
  let v := swapLanes (swapValues (lifted (gathered u)))
  stored fun z l i => scale emax (v z l i)

/-- **`tail_count_avx512`**. -/
def tailCountAvx512 (u : Coefficients) (emax : ℤ) (lo hi : F32) : ℕ :=
  let v := lifted (gathered u)
  ((List.finRange 4).map fun j => ((List.finRange 4).map fun l => (List.finRange 4).countP fun i =>
    InRange lo.val hi.val (scale emax (v j l i)).val).sum).sum

end Scale

/-! ### The passes of the scalar tail -/

theorem liftAt_of_notMem {s p k : ℕ} (a : Memory) (hk : ∀ i : Fin 4, k ≠ p + i * s) :
    liftAt s a p k = a k := by
  have h0 : k ≠ p := by simpa using hk 0
  have h1 : k ≠ p + s := by simpa using hk 1
  have h2 : k ≠ p + 2 * s := hk 2
  have h3 : k ≠ p + 3 * s := hk 3
  unfold liftAt
  rw [Function.update_of_ne h3, Function.update_of_ne h2, Function.update_of_ne h1,
    Function.update_of_ne h0]

theorem liftAt_apply {s : ℕ} (hs : 0 < s) (a : Memory) (p : ℕ) (i : Fin 4) :
    liftAt s a p (p + i * s) = invLift (fun k => a (p + k * s)) i := by
  unfold liftAt
  fin_cases i
  · rw [Function.update_of_ne (by simp; omega), Function.update_of_ne (by simp; omega),
      Function.update_of_ne (by simp; omega)]
    simp
  · rw [Function.update_of_ne (by simp; omega), Function.update_of_ne (by simp; omega)]
    simp
  · rw [Function.update_of_ne (by simp; omega)]
    simp
  · simp

/-- **The lines of one axis**, when they do not meet. -/
theorem liftLines_eq {s : ℕ} (hs : 0 < s) {begins : List ℕ}
    (hdisj : begins.Pairwise fun p q => ∀ i j : Fin 4, p + i * s ≠ q + j * s) (a : Memory) {p : ℕ}
    (hp : p ∈ begins) (i : Fin 4) :
    liftLines s begins a (p + i * s) = invLift (fun k => a (p + k * s)) i := by
  have h := foldl_disjoint (S := fun p k => ∃ i : Fin 4, k = p + i * s) (g := liftAt s)
    (fun a p k hk => liftAt_of_notMem a fun i hi => hk ⟨i, hi⟩) ?_ begins ?_ a p hp (p + i * s) ⟨i, rfl⟩
  · rw [liftLines, h, liftAt_apply hs]
  · rintro a b p hab k ⟨j, rfl⟩
    rw [liftAt_apply hs, liftAt_apply hs]
    congr 1
    funext i
    exact hab _ ⟨i, rfl⟩
  · refine hdisj.imp fun h k => ?_
    rintro ⟨i, rfl⟩ ⟨j, hj⟩
    exact h i j hj

theorem zPass_apply (a : Memory) (x y z : Fin 4) :
    liftLines 16 zLines a (16 * z + 4 * y + x) = invLift (fun k => a (16 * k + 4 * y + x)) z := by
  have hmem : x.val + 4 * y.val ∈ zLines :=
    List.mem_flatMap.mpr ⟨y, List.mem_range.mpr y.isLt,
      List.mem_map.mpr ⟨x, List.mem_range.mpr x.isLt, rfl⟩⟩
  have hadd : ∀ k : ℕ, 16 * k + 4 * y.val + x.val = x.val + 4 * y.val + k * 16 := fun k => by ring
  simp only [hadd]
  exact liftLines_eq (by norm_num) (by decide +kernel) a hmem z

theorem yPass_apply (a : Memory) (x y z : Fin 4) :
    liftLines 4 yLines a (16 * z + 4 * y + x) = invLift (fun k => a (16 * z + 4 * k + x)) y := by
  have hmem : 16 * z.val + x.val ∈ yLines :=
    List.mem_flatMap.mpr ⟨x, List.mem_range.mpr x.isLt,
      List.mem_map.mpr ⟨z, List.mem_range.mpr z.isLt, rfl⟩⟩
  have hadd : ∀ k : ℕ, 16 * z.val + 4 * k + x.val = 16 * z.val + x.val + k * 4 := fun k => by ring
  simp only [hadd]
  exact liftLines_eq (by norm_num) (by decide +kernel) a hmem y

theorem xPass_apply (a : Memory) (x y z : Fin 4) :
    liftLines 1 xLines a (16 * z + 4 * y + x) = invLift (fun k => a (16 * z + 4 * y + k)) x := by
  have hmem : 4 * y.val + 16 * z.val ∈ xLines :=
    List.mem_flatMap.mpr ⟨z, List.mem_range.mpr z.isLt,
      List.mem_map.mpr ⟨y, List.mem_range.mpr y.isLt, rfl⟩⟩
  have hadd : ∀ k : ℕ, 16 * z.val + 4 * y.val + k = 4 * y.val + 16 * z.val + k * 1 := fun k => by ring
  simp only [hadd]
  exact liftLines_eq (by norm_num) (by decide +kernel) a hmem x

/-! ### The order of the coefficients -/

theorem perm_injective : Function.Injective perm := by
  have h : ∀ i j : Fin 64, perm i = perm j → i = j := by decide +kernel
  exact fun i j => h i j

/-- **`INV` is the inverse of `PERM`.** -/
theorem coefficient_order (p : Fin 64) : perm (inv p) = p := by
  obtain ⟨i, rfl⟩ := (Finite.injective_iff_surjective.mp perm_injective) p
  rw [inv, scatter_eq id _ (List.nodup_finRange 64) perm_injective (List.mem_finRange i)]
  rfl

/-! ### Shuffles -/

theorem swapLanes_apply {α : Type} (v : Fin 4 → Reg α) (j l i : Fin 4) :
    swapLanes v j l i = v l j i := by
  fin_cases j <;> fin_cases l <;> rfl

theorem swapValues_apply {α : Type} (v : Fin 4 → Reg α) (j l i : Fin 4) :
    swapValues v j l i = v i l j := by
  fin_cases j <;> fin_cases i <;> rfl

theorem invLiftAvx512_apply (v : Fin 4 → Reg I32) (j l i : Fin 4) :
    invLiftAvx512 v j l i = invLift (fun k => v k l i) j := by
  fin_cases j <;> rfl

/-! ### Both tails -/

/-- The inverse transform along `z`, `y` and `x`, of the integer at `x`, `y`, `z`. -/
def transformed (u : Coefficients) (x y z : Fin 4) : I32 :=
  invLift (fun i => invLift (fun l => invLift (fun j => negabinary (u (inv (at64 j l i)))) z) y) x

theorem val_at64 (j l i : Fin 4) : (at64 j l i : ℕ) = 16 * j + 4 * l + i := by
  show (16 * j.val + 4 * l.val + i.val) % 64 = _
  omega

theorem exists_at64 (p : Fin 64) : ∃ j l i, at64 j l i = p := by
  refine ⟨Fin.ofNat 4 (p / 16), Fin.ofNat 4 (p / 4), Fin.ofNat 4 p, Fin.ext ?_⟩
  rw [val_at64]
  show 16 * (p.val / 16 % 4) + 4 * (p.val / 4 % 4) + p.val % 4 = p.val
  omega

theorem stored_at64 {α : Type} (v : Fin 4 → Reg α) (j l i : Fin 4) : stored v (at64 j l i) = v j l i := by
  have hj : Fin.ofNat 4 ((at64 j l i : ℕ) / 16) = j := Fin.ext (by
    rw [val_at64]
    show (16 * j.val + 4 * l.val + i.val) / 16 % 4 = j.val
    omega)
  have hl : Fin.ofNat 4 ((at64 j l i : ℕ) / 4) = l := Fin.ext (by
    rw [val_at64]
    show (16 * j.val + 4 * l.val + i.val) / 4 % 4 = l.val
    omega)
  have hi : Fin.ofNat 4 (at64 j l i : ℕ) = i := Fin.ext (by
    rw [val_at64]
    show (16 * j.val + 4 * l.val + i.val) % 4 = i.val
    omega)
  unfold stored
  rw [hj, hl, hi]

theorem lifted_apply (u : Coefficients) (x y z : Fin 4) :
    lifted (gathered u) x z y = transformed u x y z := by
  unfold lifted transformed
  rw [invLiftAvx512_apply]
  congr 1
  funext i
  rw [swapValues_apply, invLiftAvx512_apply]
  congr 1
  funext l
  rw [swapLanes_apply, invLiftAvx512_apply]
  rfl

theorem tailScalar_apply (scale : ℤ → I32 → F32) (u : Coefficients) (emax : ℤ) (x y z : Fin 4) :
    tailScalar scale u emax (at64 z y x) = scale emax (transformed u x y z) := by
  have hiblock : ∀ p : Fin 64, scatter (List.finRange 64) (fun i => (perm i : ℕ))
      (fun i => negabinary (u i)) (fun _ => 0) p = negabinary (u (inv p)) := by
    intro p
    have h := scatter_eq (f := fun i => (perm i : ℕ)) (fun i => negabinary (u i)) (fun _ => 0)
      (List.nodup_finRange 64) (Fin.val_injective.comp perm_injective) (List.mem_finRange (inv p))
    rwa [coefficient_order] at h
  unfold tailScalar transformed
  rw [val_at64, xPass_apply]
  congr 2
  funext i
  rw [yPass_apply]
  congr 1
  funext l
  rw [zPass_apply]
  congr 1
  funext j
  rw [← val_at64, hiblock]

/-- **The tail in registers makes the values of the scalar one**, at all 64 positions. -/
theorem tailAvx512_eq (scale : ℤ → I32 → F32) (u : Coefficients) (emax : ℤ) :
    tailAvx512 scale u emax = tailScalar scale u emax := by
  funext p
  obtain ⟨z, y, x, rfl⟩ := exists_at64 p
  unfold tailAvx512
  rw [tailScalar_apply, stored_at64, swapLanes_apply, swapValues_apply, lifted_apply]

/-! ### Counting -/

theorem countP_finRange (n : ℕ) (p : Fin n → Bool) :
    (List.finRange n).countP p = ∑ i, if p i then 1 else 0 := by
  rw [Fin.sum_univ_def]
  induction List.finRange n with
  | nil => rfl
  | cons i l ih =>
    rw [List.countP_cons, ih, List.map_cons, List.sum_cons, Nat.add_comm]

theorem at64_bijective : Function.Bijective fun q : Fin 4 × Fin 4 × Fin 4 => at64 q.1 q.2.1 q.2.2 := by
  refine ⟨fun q r h => ?_, fun p => ?_⟩
  case refine_2 =>
    obtain ⟨j, l, i, h⟩ := exists_at64 p
    exact ⟨(j, l, i), h⟩
  have hval := congrArg Fin.val h
  dsimp only at hval
  rw [val_at64, val_at64] at hval
  exact Prod.ext (Fin.ext (by omega)) (Prod.ext (Fin.ext (by omega)) (Fin.ext (by omega)))

/-- **The count in registers is that of the values**: each of them is in some place of a register, and
which one does not matter. -/
theorem tailCount_eq (scale : ℤ → I32 → F32) (u : Coefficients) (emax : ℤ) (lo hi : F32) :
    tailCountAvx512 scale u emax lo hi = (List.finRange 64).countP fun p =>
      InRange lo.val hi.val (tailScalar scale u emax p).val := by
  unfold tailCountAvx512
  simp only [countP_finRange, ← Fin.sum_univ_def, lifted_apply, ← tailScalar_apply]
  rw [← at64_bijective.sum_comp, Fintype.sum_prod_type]
  simp only [Fintype.sum_prod_type]
  rw [Finset.sum_comm]
  refine Finset.sum_congr rfl fun z _ => ?_
  rw [Finset.sum_comm]

end SkipZFP.Decode.Tail
