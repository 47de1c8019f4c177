/-
Machine words in the hash functions.

The compression functions write their boolean functions with as few operations as they can; the
standards write them as choices and majorities of bits.  Bit by bit the two are the same.  The words
of a block are put together from its bytes with shifts, which makes them the numbers that the bytes
stand for.
-/
import Csnip.Lib.LittleEndian

namespace Csnip.Hash

open LittleEndian

/-- Registers or a table of words. -/
abbrev Words (w : ℕ) := ℕ → BitVec w

/-- `(uint32_t)block[k]`, or `(uint64_t)block[k]` -/
def byteAt (w : ℕ) (block : List UInt8) (k : ℕ) : BitVec w := BitVec.ofNat w (block.getD k 0).toNat

/-- `ROTL32` -/
def ROTL32 (x : BitVec 32) (n : ℕ) : BitVec 32 := x <<< n ||| x >>> (32 - n)

/-- `ROTR32`, and `ROTR64` -/
def ROTR {w : ℕ} (x : BitVec w) (n : ℕ) : BitVec w := x <<< (w - n) ||| x >>> n

theorem ROTL32_eq (x : BitVec 32) {n : ℕ} (h : n < 32) : ROTL32 x n = x.rotateLeft n := by
  rw [BitVec.rotateLeft_eq_rotateLeftAux_of_lt h]
  rfl

theorem ROTR_eq {w : ℕ} (x : BitVec w) {n : ℕ} (h : n < w) : ROTR x n = x.rotateRight n := by
  rw [BitVec.rotateRight_eq_rotateRightAux_of_lt h, ROTR, BitVec.or_comm]
  rfl

section Bits

variable {w : ℕ} (x y z : BitVec w)

/-- Choosing between two words. -/
theorem choose_eq : z ^^^ (x &&& (y ^^^ z)) = x &&& y ||| ~~~x &&& z := by
  apply BitVec.eq_of_getLsbD_eq
  intro i hi
  simp only [BitVec.getLsbD_xor, BitVec.getLsbD_and, BitVec.getLsbD_or, BitVec.getLsbD_not, hi,
    decide_true, Bool.true_and]
  cases x.getLsbD i <;> cases y.getLsbD i <;> cases z.getLsbD i <;> rfl

/-- Only one of the two chosen words has a say in a bit. -/
theorem choose_or_eq_xor : x &&& y ||| ~~~x &&& z = x &&& y ^^^ ~~~x &&& z := by
  apply BitVec.eq_of_getLsbD_eq
  intro i hi
  simp only [BitVec.getLsbD_xor, BitVec.getLsbD_and, BitVec.getLsbD_or, BitVec.getLsbD_not, hi,
    decide_true, Bool.true_and]
  cases x.getLsbD i <;> cases y.getLsbD i <;> cases z.getLsbD i <;> rfl

/-- The majority of three words. -/
theorem majority_eq : x &&& (y ||| z) ||| y &&& z = x &&& y ^^^ x &&& z ^^^ y &&& z := by
  apply BitVec.eq_of_getLsbD_eq
  intro i hi
  simp only [BitVec.getLsbD_xor, BitVec.getLsbD_and, BitVec.getLsbD_or]
  cases x.getLsbD i <;> cases y.getLsbD i <;> cases z.getLsbD i <;> rfl

end Bits

/-! ### Words put together from bytes -/

/-- The `n` bytes of word `i`. -/
def bytesOf (n : ℕ) (block : List UInt8) (i : ℕ) : List UInt8 :=
  (List.range n).map fun j => block.getD (i * n + j) 0

/-- Word `i` of a block, its low byte first. -/
def lowFirst (w n : ℕ) (block : List UInt8) : Words w := fun i =>
  BitVec.ofNat w (leNat (bytesOf n block i))

/-- Word `i` of a block, its high byte first. -/
def highFirst (w n : ℕ) (block : List UInt8) : Words w := fun i =>
  BitVec.ofNat w (leNat (bytesOf n block i).reverse)

/-- A byte put above a number that leaves it room. -/
theorem or_shift {w n k : ℕ} (h : n < 2 ^ k) (b : ℕ) :
    BitVec.ofNat w n ||| BitVec.ofNat w b <<< k = BitVec.ofNat w (2 ^ k * b + n) := by
  apply BitVec.eq_of_getLsbD_eq
  intro i hi
  simp only [BitVec.getLsbD_or, BitVec.getLsbD_shiftLeft, BitVec.getLsbD_ofNat, hi, decide_true,
    Bool.true_and, Nat.testBit_two_pow_mul_add b h]
  by_cases hk : i < k
  · simp [hk]
  · have hlow : n.testBit i = false := Nat.testBit_lt_two_pow (h.trans_le
      (Nat.pow_le_pow_right (by decide) (by omega)))
    have hin : i - k < w := by omega
    simp [hk, hlow, hin]

/-- Four bytes, the low one first. -/
theorem lowFirst_eq (block : List UInt8) (i : ℕ) :
    byteAt 32 block (i * 4 + 0) <<< 0 ||| byteAt 32 block (i * 4 + 1) <<< 8
      ||| byteAt 32 block (i * 4 + 2) <<< 16 ||| byteAt 32 block (i * 4 + 3) <<< 24
      = lowFirst 32 4 block i := by
  have hbytes : bytesOf 4 block i = [block.getD (i * 4 + 0) 0, block.getD (i * 4 + 1) 0,
    block.getD (i * 4 + 2) 0, block.getD (i * 4 + 3) 0] := rfl
  have h0 := (block.getD (i * 4 + 0) 0).toNat_lt
  have h1 := (block.getD (i * 4 + 1) 0).toNat_lt
  have h2 := (block.getD (i * 4 + 2) 0).toNat_lt
  rw [lowFirst, hbytes]
  simp only [byteAt, BitVec.shiftLeft_zero, leNat]
  rw [or_shift h0, or_shift (by omega), or_shift (by omega)]
  congr 1
  omega

/-- Four bytes, the high one first. -/
theorem highFirst_eq (block : List UInt8) (i : ℕ) :
    byteAt 32 block (i * 4 + 0) <<< 24 ||| byteAt 32 block (i * 4 + 1) <<< 16
      ||| byteAt 32 block (i * 4 + 2) <<< 8 ||| byteAt 32 block (i * 4 + 3) <<< 0
      = highFirst 32 4 block i := by
  have hbytes : (bytesOf 4 block i).reverse = [block.getD (i * 4 + 3) 0,
    block.getD (i * 4 + 2) 0, block.getD (i * 4 + 1) 0, block.getD (i * 4 + 0) 0] := rfl
  have h3 := (block.getD (i * 4 + 3) 0).toNat_lt
  have h2 := (block.getD (i * 4 + 2) 0).toNat_lt
  have h1 := (block.getD (i * 4 + 1) 0).toNat_lt
  have hturn : ∀ a b c d : BitVec 32, a ||| b ||| c ||| d = d ||| c ||| b ||| a := by
    intro a b c d
    ac_rfl
  rw [highFirst, hbytes, hturn]
  simp only [byteAt, BitVec.shiftLeft_zero, leNat]
  rw [or_shift h3, or_shift (by omega), or_shift (by omega)]
  congr 1
  omega

/-- Eight bytes, the high one first. -/
theorem highFirst_eight (block : List UInt8) (i : ℕ) :
    byteAt 64 block (i * 8 + 0) <<< 56 ||| byteAt 64 block (i * 8 + 1) <<< 48
      ||| byteAt 64 block (i * 8 + 2) <<< 40 ||| byteAt 64 block (i * 8 + 3) <<< 32
      ||| byteAt 64 block (i * 8 + 4) <<< 24 ||| byteAt 64 block (i * 8 + 5) <<< 16
      ||| byteAt 64 block (i * 8 + 6) <<< 8 ||| byteAt 64 block (i * 8 + 7) <<< 0
      = highFirst 64 8 block i := by
  have hbytes : (bytesOf 8 block i).reverse = [block.getD (i * 8 + 7) 0,
    block.getD (i * 8 + 6) 0, block.getD (i * 8 + 5) 0, block.getD (i * 8 + 4) 0,
    block.getD (i * 8 + 3) 0, block.getD (i * 8 + 2) 0, block.getD (i * 8 + 1) 0,
    block.getD (i * 8 + 0) 0] := rfl
  have h7 := (block.getD (i * 8 + 7) 0).toNat_lt
  have h6 := (block.getD (i * 8 + 6) 0).toNat_lt
  have h5 := (block.getD (i * 8 + 5) 0).toNat_lt
  have h4 := (block.getD (i * 8 + 4) 0).toNat_lt
  have h3 := (block.getD (i * 8 + 3) 0).toNat_lt
  have h2 := (block.getD (i * 8 + 2) 0).toNat_lt
  have h1 := (block.getD (i * 8 + 1) 0).toNat_lt
  have hturn : ∀ a b c d e f g h : BitVec 64, a ||| b ||| c ||| d ||| e ||| f ||| g ||| h
      = h ||| g ||| f ||| e ||| d ||| c ||| b ||| a := by
    intro a b c d e f g h
    ac_rfl
  rw [highFirst, hbytes, hturn]
  simp only [byteAt, BitVec.shiftLeft_zero, leNat]
  rw [or_shift h7, or_shift (by omega), or_shift (by omega), or_shift (by omega),
    or_shift (by omega), or_shift (by omega), or_shift (by omega)]
  congr 1
  omega

end Csnip.Hash
