import Mathlib.Data.Nat.Bitwise
import SkipZFP.Lib.Rows

/-! # Bits of bytes

A buffer is read from the least significant bit of its first byte on: `bitsOf` are its bits in that
order. `natOfBits` is the number of some bits, the least significant first.

* `bitsOf_packBytes`: bytes made of bits have these bits.
* `bitsOf_slice`: the bits of some bytes. -/

namespace SkipZFP.Lib.Bits

open SkipZFP.Lib.Rows

/-! ### Numbers -/

/-- The number of some bits, the least significant first. -/
def natOfBits : List Bool → ℕ
  | [] => 0
  | b :: bs => Nat.bit b (natOfBits bs)

theorem testBit_natOfBits : ∀ (bs : List Bool) (i : ℕ), (natOfBits bs).testBit i = bs.getD i false
  | [], i => by simp [natOfBits]
  | b :: bs, 0 => by simp [natOfBits]
  | b :: bs, i + 1 => by rw [natOfBits, Nat.testBit_bit_succ, testBit_natOfBits bs i, List.getD_cons_succ]

theorem natOfBits_lt : ∀ bs : List Bool, natOfBits bs < 2 ^ bs.length
  | [] => Nat.one_pos
  | b :: bs => by
    have ih := natOfBits_lt bs
    rw [natOfBits, List.length_cons, Nat.pow_succ, Nat.bit_val]
    cases b <;> simp <;> omega

/-! ### Bytes -/

def byteBits (b : UInt8) : List Bool := (List.range 8).map b.toNat.testBit

def bitsOf (l : List UInt8) : List Bool := (l.map byteBits).flatten

def packByte (bs : List Bool) : UInt8 := UInt8.ofNat (natOfBits bs)

/-- The `n` bytes of some bits. -/
def packBytes (n : ℕ) (bs : List Bool) : List UInt8 := (reshape n 8 bs).map packByte

theorem length_byteBits (b : UInt8) : (byteBits b).length = 8 := by simp [byteBits]

theorem length_bitsOf (l : List UInt8) : (bitsOf l).length = 8 * l.length := by
  unfold bitsOf
  rw [length_flatten_rows (w := 8), List.length_map, Nat.mul_comm]
  intro r hr
  obtain ⟨b, -, rfl⟩ := List.mem_map.mp hr
  exact length_byteBits b

theorem length_packBytes (n : ℕ) (bs : List Bool) : (packBytes n bs).length = n := by
  rw [packBytes, List.length_map, length_reshape]

theorem byteBits_packByte {bs : List Bool} (h : bs.length = 8) : byteBits (packByte bs) = bs := by
  have hlt := natOfBits_lt bs
  rw [h] at hlt
  have hnat : (packByte bs).toNat = natOfBits bs := by
    unfold packByte
    rw [UInt8.toNat_ofNat', Nat.mod_eq_of_lt hlt]
  refine List.ext_getElem? fun i => ?_
  unfold byteBits
  rw [List.getElem?_map, hnat]
  by_cases hi : i < 8
  · rw [List.getElem?_range hi, Option.map_some, testBit_natOfBits, List.getD_eq_getElem _ _ (by omega),
      List.getElem?_eq_getElem (by omega)]
  · rw [List.getElem?_eq_none (by simp; omega), List.getElem?_eq_none (by omega)]
    rfl

theorem bitsOf_packBytes {n : ℕ} {bs : List Bool} (h : bs.length = n * 8) :
    bitsOf (packBytes n bs) = bs := by
  have hrows : ((reshape n 8 bs).map packByte).map byteBits = reshape n 8 bs := by
    rw [List.map_map]
    refine (List.map_congr_left fun r hr => ?_).trans (List.map_id _)
    exact byteBits_packByte (length_of_mem_reshape h hr)
  rw [bitsOf, packBytes, hrows, flatten_reshape 8 n bs h]

theorem bitsOf_drop : ∀ (l : List UInt8) (a : ℕ), bitsOf (l.drop a) = (bitsOf l).drop (8 * a)
  | [], a => by simp [bitsOf]
  | b :: l, 0 => rfl
  | b :: l, a + 1 => by
    have ih := bitsOf_drop l a
    have hb : (bitsOf (b :: l)).drop (8 * (a + 1)) = (bitsOf l).drop (8 * a) := by
      show (byteBits b ++ bitsOf l).drop _ = _
      rw [Nat.mul_succ, Nat.add_comm, ← List.drop_drop, List.drop_left' (length_byteBits b)]
    rw [List.drop_succ_cons, ih, hb]

theorem bitsOf_take : ∀ (l : List UInt8) (a : ℕ), bitsOf (l.take a) = (bitsOf l).take (8 * a)
  | [], a => by simp [bitsOf]
  | b :: l, 0 => by simp [bitsOf]
  | b :: l, a + 1 => by
    have ih := bitsOf_take l a
    have hb : (bitsOf (b :: l)).take (8 * (a + 1)) = byteBits b ++ (bitsOf l).take (8 * a) := by
      show (byteBits b ++ bitsOf l).take _ = _
      rw [List.take_append, length_byteBits, List.take_of_length_le (by rw [length_byteBits]; omega)]
      rfl
    rw [List.take_succ_cons, hb, ← ih]
    rfl

theorem bitsOf_slice (l : List UInt8) (a b : ℕ) :
    bitsOf (slice l a b) = slice (bitsOf l) (8 * a) (8 * b) := by
  rw [slice, bitsOf_take, bitsOf_drop, slice, Nat.mul_sub]

end SkipZFP.Lib.Bits
