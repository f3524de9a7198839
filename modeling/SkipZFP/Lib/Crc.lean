import Mathlib.Data.List.Basic
import Mathlib.Logic.Function.Iterate

/-! # Cyclic redundancy checks

A reflected CRC of any width and polynomial: a byte is added to the low end of the register, which is then
shifted eight times. All of it is linear in exclusive or, so two messages of one length are told apart by
what their difference does to the register.

* `shift_injective`, `foldl_injective`: a difference in the register is never lost, if the polynomial has
  its highest bit.
* `foldl_addByte`: up to the width, the bytes are added at once and then shifted.
* `checksum_ne`: **messages that differ in one place no longer than the register have different
  checksums.**
* `crc32`: the checksum of `zlib.crc32`. -/

namespace SkipZFP.Lib.Crc

section Register
variable {w : ℕ} (poly : BitVec w)

def shift (r : BitVec w) : BitVec w := if r.getLsbD 0 then (r >>> 1) ^^^ poly else r >>> 1

def addByte (r : BitVec w) (b : UInt8) : BitVec w := (shift poly)^[8] (r ^^^ b.toBitVec.setWidth w)

/-- The checksum of a message: the register starts full of ones, and is complemented in the end. -/
def checksum (bytes : List UInt8) : BitVec w := ~~~ (bytes.foldl (addByte poly) (BitVec.allOnes w))

variable {poly}

theorem shift_xor (x y : BitVec w) : shift poly (x ^^^ y) = shift poly x ^^^ shift poly y := by
  unfold shift
  rw [BitVec.getLsbD_xor, BitVec.ushiftRight_xor_distrib]
  have hcancel : ∀ a b : BitVec w, a ^^^ poly ^^^ (b ^^^ poly) = a ^^^ b := fun a b => by
    rw [BitVec.xor_assoc, BitVec.xor_comm b, ← BitVec.xor_assoc poly, BitVec.xor_self, BitVec.zero_xor]
  cases x.getLsbD 0 <;> cases y.getLsbD 0
  · rfl
  · exact BitVec.xor_assoc _ _ _
  · show (x >>> 1 ^^^ y >>> 1) ^^^ poly = x >>> 1 ^^^ poly ^^^ y >>> 1
    rw [BitVec.xor_assoc, BitVec.xor_comm (y >>> 1), ← BitVec.xor_assoc]
  · exact (hcancel _ _).symm

theorem iterate_shift_xor (n : ℕ) (x y : BitVec w) :
    (shift poly)^[n] (x ^^^ y) = (shift poly)^[n] x ^^^ (shift poly)^[n] y := by
  induction n generalizing x y with
  | zero => rfl
  | succ n ih => rw [Function.iterate_succ_apply, shift_xor, ih]; rfl

section Injective
variable (hpoly : poly.msb = true)
include hpoly

theorem eq_zero_of_shift {r : BitVec w} (h : shift poly r = 0#w) : r = 0#w := by
  have hw : 0 < w := by
    by_contra hw
    obtain rfl : w = 0 := by omega
    simp [BitVec.msb] at hpoly
  unfold shift at h
  split_ifs at h with h0
  · -- the highest bit is that of the polynomial
    have hbit := congrArg BitVec.msb h
    rw [BitVec.msb_xor, hpoly, BitVec.msb_ushiftRight] at hbit
    simp at hbit
  · refine BitVec.eq_of_getLsbD_eq fun i hi => ?_
    rw [BitVec.getLsbD_zero]
    cases i with
    | zero => simpa using h0
    | succ i =>
      have hbit := congrArg (fun x => x.getLsbD i) h
      simpa [Nat.add_comm] using hbit

theorem shift_injective : Function.Injective (shift poly) := by
  intro x y h
  have hzero : shift poly (x ^^^ y) = 0#w := by rw [shift_xor, h, BitVec.xor_self]
  exact BitVec.xor_eq_zero_iff.mp (eq_zero_of_shift hpoly hzero)

/-- **A difference in the register is never lost.** -/
theorem foldl_injective (bytes : List UInt8) :
    Function.Injective fun r : BitVec w => bytes.foldl (addByte poly) r := by
  induction bytes with
  | nil => exact fun x y h => h
  | cons b bytes ih =>
    intro x y h
    have hb : addByte poly x b = addByte poly y b := ih h
    exact (BitVec.xor_left_inj _).mp ((shift_injective hpoly).iterate 8 hb)

end Injective

/-! ### Several bytes at once -/

/-- The bytes as one number, the first one lowest. -/
def joinBytes (w : ℕ) : List UInt8 → BitVec w
  | [] => 0
  | b :: bytes => b.toBitVec.setWidth w ^^^ (joinBytes w bytes <<< 8)

/-- A number whose `n` highest bits are clear is shifted back to where it was. -/
theorem iterate_shift_shiftLeft {x : BitVec w} : ∀ {n : ℕ}, (∀ i, w ≤ i + n → x.getLsbD i = false) →
    (shift poly)^[n] (x <<< n) = x
  | 0, _ => by simp
  | n + 1, h => by
    have hone : shift poly (x <<< (n + 1)) = x <<< n := by
      unfold shift
      rw [if_neg (by simp)]
      refine BitVec.eq_of_getLsbD_eq fun i hi => ?_
      rw [BitVec.getLsbD_ushiftRight, BitVec.getLsbD_shiftLeft, BitVec.getLsbD_shiftLeft]
      have hsub : 1 + i - (n + 1) = i - n := by omega
      rw [hsub]
      by_cases hlast : 1 + i < w
      · simp only [hlast, hi, decide_true, Bool.true_and]
        congr 2
        simp
        omega
      · by_cases hn : i < n
        · simp [hlast, hn]
        · rw [h (i - n) (by omega)]
          simp
    rw [Function.iterate_succ_apply, hone, iterate_shift_shiftLeft fun i hi => h i (by omega)]

theorem getLsbD_byte (b : UInt8) {i : ℕ} (h : 8 ≤ i) : (b.toBitVec.setWidth w).getLsbD i = false := by
  rw [BitVec.getLsbD_setWidth, BitVec.getLsbD_of_ge _ _ h, Bool.and_false]

theorem getLsbD_joinBytes : ∀ {bytes : List UInt8} {i : ℕ}, 8 * bytes.length ≤ i →
    (joinBytes w bytes).getLsbD i = false
  | [], i, _ => by simp [joinBytes]
  | b :: bytes, i, h => by
    rw [List.length_cons] at h
    rw [joinBytes, BitVec.getLsbD_xor, getLsbD_byte b (by omega), BitVec.getLsbD_shiftLeft,
      getLsbD_joinBytes (by omega)]
    simp

/-- **Bytes that fit into the register are added at once.** -/
theorem foldl_addByte : ∀ {bytes : List UInt8} (_ : 8 * bytes.length ≤ w) (r : BitVec w),
    bytes.foldl (addByte poly) r = (shift poly)^[8 * bytes.length] (r ^^^ joinBytes w bytes)
  | [], _, r => by simp [joinBytes]
  | b :: bytes, h, r => by
    rw [List.length_cons] at h
    have hback : (shift poly)^[8] (joinBytes w bytes <<< 8) = joinBytes w bytes :=
      iterate_shift_shiftLeft fun i hi => getLsbD_joinBytes (by omega)
    rw [List.foldl_cons, foldl_addByte (by omega), List.length_cons, Nat.mul_succ,
      Function.iterate_add_apply, joinBytes, ← BitVec.xor_assoc, iterate_shift_xor 8, hback]
    rfl

theorem joinBytes_injective : ∀ {u v : List UInt8}, u.length = v.length → 8 * u.length ≤ w →
    joinBytes w u = joinBytes w v → u = v
  | [], v, hlen, _, _ => (List.length_eq_zero_iff.mp hlen.symm).symm
  | b :: u, [], hlen, _, _ => by cases hlen
  | b :: u, b' :: v, hlen, h, heq => by
    rw [List.length_cons] at h hlen
    rw [List.length_cons] at hlen
    have hlow : ∀ (c : UInt8) (l : List UInt8), ∀ i < 8,
        (joinBytes w (c :: l)).getLsbD i = c.toBitVec.getLsbD i := by
      intro c l i hi
      have hw : i < w := by omega
      rw [joinBytes, BitVec.getLsbD_xor, BitVec.getLsbD_setWidth, BitVec.getLsbD_shiftLeft]
      simp [hi, hw]
    have hhigh : ∀ (c : UInt8) (l : List UInt8), l.length = u.length → ∀ i,
        (joinBytes w l).getLsbD i = (joinBytes w (c :: l)).getLsbD (i + 8) := by
      intro c l hl i
      rw [joinBytes, BitVec.getLsbD_xor, getLsbD_byte c (by omega), BitVec.getLsbD_shiftLeft,
        Nat.add_sub_cancel, Bool.false_xor]
      by_cases hi : i + 8 < w
      · simp [hi]
      · rw [getLsbD_joinBytes (by omega)]
        simp
    have hbyte : b = b' := by
      refine UInt8.toBitVec_inj.mp (BitVec.eq_of_getLsbD_eq fun i hi => ?_)
      rw [← hlow b u i hi, ← hlow b' v i hi, heq]
    have hrest : joinBytes w u = joinBytes w v := by
      refine BitVec.eq_of_getLsbD_eq fun i _ => ?_
      rw [hhigh b u rfl, hhigh b' v (by omega), heq]
    rw [hbyte, joinBytes_injective (by omega) (by omega) hrest]

/-- **Messages that differ in one place no longer than the register have different checksums.** -/
theorem checksum_ne (hpoly : poly.msb = true) (before after : List UInt8) {u v : List UInt8}
    (hlen : u.length = v.length) (hw : 8 * u.length ≤ w) (hne : u ≠ v) :
    checksum poly (before ++ u ++ after) ≠ checksum poly (before ++ v ++ after) := by
  intro h
  unfold checksum at h
  rw [List.foldl_append, List.foldl_append, List.foldl_append, List.foldl_append] at h
  have hmid := foldl_injective hpoly after (BitVec.not_inj.mp h)
  have hv : 8 * v.length ≤ w := by omega
  rw [foldl_addByte hw (List.foldl _ _ before), foldl_addByte hv, hlen] at hmid
  have hjoin := (BitVec.xor_right_inj _).mp ((shift_injective hpoly).iterate _ hmid)
  exact hne (joinBytes_injective hlen hw hjoin)

end Register

/-! ### The checksum of zlib -/

def poly32 : BitVec 32 := 0xEDB88320#32

/-- `zlib.crc32`. -/
def crc32 (bytes : List UInt8) : BitVec 32 := checksum poly32 bytes

example : crc32 [49, 50, 51, 52, 53, 54, 55, 56, 57] = 0xCBF43926#32 := by decide +kernel

/-- **No change of up to four bytes in a row is missed.** -/
theorem crc32_ne (before after : List UInt8) {u v : List UInt8} (hlen : u.length = v.length)
    (h4 : u.length ≤ 4) (hne : u ≠ v) : crc32 (before ++ u ++ after) ≠ crc32 (before ++ v ++ after) :=
  checksum_ne (by decide) before after hlen (by omega) hne

end SkipZFP.Lib.Crc
