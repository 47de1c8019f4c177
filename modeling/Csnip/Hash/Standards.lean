/-
What the standards say.

MD5, SHA-1 and the four functions of SHA-2 as they are defined, with nothing taken from the
programs: how a message is filled up, the values that are started with, the constants, and what is
done with a block.  All of them fold a compression function over the blocks of the filled up message
(`Padding.fold`).

MD5 takes its constants from the sines of the first numbers, SHA-2 its constants and first values
from the roots of the first primes.  They are given by these here, as real numbers; that the tables
of the programs hold their leading bits is shown where the programs are.
-/
import Csnip.Hash.Words
import Csnip.Lib.LeadingBits
import Csnip.Lib.MerkleDamgard
import Csnip.Lib.Recurrence

namespace Csnip.Hash

open LeadingBits LittleEndian MerkleDamgard Recurrence

/-! ### How a message is filled up -/

/-- The length in bits, in `n` bytes, the low one first. -/
def bitsLowFirst (n len : ℕ) : List UInt8 := leBytes n (8 * len)

/-- The length in bits, in `n` bytes, the high one first. -/
def bitsHighFirst (n len : ℕ) : List UInt8 := (leBytes n (8 * len)).reverse

theorem length_bitsLowFirst (n len : ℕ) : (bitsLowFirst n len).length = n := length_leBytes _ _

theorem length_bitsHighFirst (n len : ℕ) : (bitsHighFirst n len).length = n := by
  rw [bitsHighFirst, List.length_reverse, length_leBytes]

theorem eight_lt_sixtyFour : 8 < 64 := by decide

theorem sixteen_lt_oneHundredTwentyEight : 16 < 128 := by decide

/-- MD5: blocks of 64 bytes, the length in the last 8, the low byte first. -/
def md5Padding : Padding UInt8 where
  mark := 0x80
  zero := 0
  blockLen := 64
  lengthSize := 8
  lengthField := bitsLowFirst 8
  room := eight_lt_sixtyFour
  length_lengthField := length_bitsLowFirst 8

/-- SHA-1, SHA-224 and SHA-256: blocks of 64 bytes, the length in the last 8, the high byte
first. -/
def sha256Padding : Padding UInt8 where
  mark := 0x80
  zero := 0
  blockLen := 64
  lengthSize := 8
  lengthField := bitsHighFirst 8
  room := eight_lt_sixtyFour
  length_lengthField := length_bitsHighFirst 8

/-- SHA-384 and SHA-512: blocks of 128 bytes, the length in the last 16, the high byte first. -/
def sha512Padding : Padding UInt8 where
  mark := 0x80
  zero := 0
  blockLen := 128
  lengthSize := 16
  lengthField := bitsHighFirst 16
  room := sixteen_lt_oneHundredTwentyEight
  length_lengthField := length_bitsHighFirst 16

/-! ### MD5 -/

namespace Md5

abbrev Word := BitVec 32

scoped instance neZero_four : NeZero 4 := ⟨by decide⟩

/-- The function of operation `i`: F, G, H or I. -/
def choice (i : ℕ) (x y z : Word) : Word :=
  match i / 16 with
  | 0 => x &&& y ||| ~~~x &&& z
  | 1 => x &&& z ||| y &&& ~~~z
  | 2 => x ^^^ y ^^^ z
  | _ => y ^^^ (x ||| ~~~z)

/-- The word it takes. -/
def wordIndex (i : ℕ) : ℕ :=
  match i / 16 with
  | 0 => i % 16
  | 1 => (5 * i + 1) % 16
  | 2 => (3 * i + 5) % 16
  | _ => 7 * i % 16

/-- How far it rotates. -/
def amount (i : ℕ) : ℕ :=
  match i / 16, i % 4 with
  | 0, 0 => 7 | 0, 1 => 12 | 0, 2 => 17 | 0, _ => 22
  | 1, 0 => 5 | 1, 1 => 9 | 1, 2 => 14 | 1, _ => 20
  | 2, 0 => 4 | 2, 1 => 11 | 2, 2 => 16 | 2, _ => 23
  | _, 0 => 6 | _, 1 => 10 | _, 2 => 15 | _, _ => 21

/-- Its constant: the sines of 1, 2, ..., 64. -/
noncomputable def constant (i : ℕ) : Word := sineBits 32 (i + 1)

/-- Operation `i` on the four registers, all of which move. -/
noncomputable def step (X : Words 32) (i : ℕ) (a b c d : Word) : Vector Word 4 :=
  #v[d, b + (a + choice i b c d + X (wordIndex i) + constant i).rotateLeft (amount i), b, c]

noncomputable def operation (X : Words 32) (i : ℕ) (v : Vector Word 4) : Vector Word 4 :=
  step X i (v.get 0) (v.get 1) (v.get 2) (v.get 3)

/-- The compression of a block into the chaining values: 64 operations on its sixteen words. -/
noncomputable def standardCompress (state : Vector Word 4) (block : List UInt8) : Vector Word 4 :=
  state.zipWith (· + ·)
    ((List.range 64).foldl (fun v i => operation (lowFirst 32 4 block) i v) state)

/-- The chaining values at the start, as bytes. -/
def initialBytes : List UInt8 :=
  [0x01, 0x23, 0x45, 0x67, 0x89, 0xAB, 0xCD, 0xEF, 0xFE, 0xDC, 0xBA, 0x98, 0x76, 0x54, 0x32, 0x10]

/-- The four words, the low byte first. -/
def initial : Vector Word 4 := Vector.ofFn fun i => lowFirst 32 4 initialBytes i

/-- MD5. -/
noncomputable def md5 (message : List UInt8) : Vector Word 4 :=
  md5Padding.fold standardCompress initial message

end Md5

/-! ### SHA-1 -/

namespace Sha1

abbrev Word := BitVec 32

scoped instance neZero_five : NeZero 5 := ⟨by decide⟩

/-- The message schedule, word `t` from the words before it. -/
def expansion (block : List UInt8) (t : ℕ) (W : Words 32) : Word :=
  if t < 16 then highFirst 32 4 block t
  else (W (t - 3) ^^^ W (t - 8) ^^^ W (t - 14) ^^^ W (t - 16)).rotateLeft 1

/-- The function of round `t`: Ch, Parity, Maj or Parity. -/
def choice (t : ℕ) (x y z : Word) : Word :=
  match t / 20 with
  | 0 => x &&& y ^^^ ~~~x &&& z
  | 2 => x &&& y ^^^ x &&& z ^^^ y &&& z
  | _ => x ^^^ y ^^^ z

/-- Its constant. -/
def constant (t : ℕ) : Word :=
  match t / 20 with
  | 0 => 0x5A827999
  | 1 => 0x6ED9EBA1
  | 2 => 0x8F1BBCDC
  | _ => 0xCA62C1D6

/-- Round `t` on the five registers, all of which move. -/
def step (t : ℕ) (w a b c d e : Word) : Vector Word 5 :=
  #v[a.rotateLeft 5 + choice t b c d + e + constant t + w, a, b.rotateLeft 30, c, d]

def operation (t : ℕ) (w : Word) (v : Vector Word 5) : Vector Word 5 :=
  step t w (v.get 0) (v.get 1) (v.get 2) (v.get 3) (v.get 4)

/-- The words of the schedule. -/
def schedule (block : List UInt8) : Words 32 := fun t =>
  (fill 0 (expansion block) 80 (List.replicate 80 0)).getD t 0

/-- The compression of a block into the hash value. -/
def standardCompress (state : Vector Word 5) (block : List UInt8) : Vector Word 5 :=
  state.zipWith (· + ·) ((List.range 80).foldl (fun v t => operation t (schedule block t) v) state)

/-- The hash value at the start, as bytes. -/
def initialBytes : List UInt8 :=
  [0x67, 0x45, 0x23, 0x01, 0xEF, 0xCD, 0xAB, 0x89, 0x98, 0xBA, 0xDC, 0xFE, 0x10, 0x32, 0x54, 0x76,
    0xC3, 0xD2, 0xE1, 0xF0]

/-- The five words, the high byte first. -/
def initial : Vector Word 5 := Vector.ofFn fun i => highFirst 32 4 initialBytes i

/-- SHA-1. -/
def sha1 (message : List UInt8) : Vector Word 5 :=
  sha256Padding.fold standardCompress initial message

end Sha1

/-! ### SHA-2 -/

namespace Sha2

scoped instance neZero_eight : NeZero 8 := ⟨by decide⟩

/-- The choice. -/
def Ch {w : ℕ} (x y z : BitVec w) : BitVec w := x &&& y ^^^ ~~~x &&& z

/-- The majority. -/
def Maj {w : ℕ} (x y z : BitVec w) : BitVec w := x &&& y ^^^ x &&& z ^^^ y &&& z

/-- What is different for the two widths. -/
structure Standard (w : ℕ) where
  /-- The bytes of a word. -/
  bytes : ℕ
  /-- The number of rounds. -/
  rounds : ℕ
  /-- The constant of every round. -/
  K : ℕ → BitVec w
  Sigma0 : BitVec w → BitVec w
  Sigma1 : BitVec w → BitVec w
  sigma0 : BitVec w → BitVec w
  sigma1 : BitVec w → BitVec w

namespace Standard

variable {w : ℕ} (S : Standard w)

/-- The message schedule, word `t` from the words before it. -/
def expansion (block : List UInt8) (t : ℕ) (W : Words w) : BitVec w :=
  if t < 16 then highFirst w S.bytes block t
  else S.sigma1 (W (t - 2)) + W (t - 7) + S.sigma0 (W (t - 15)) + W (t - 16)

/-- The words of the schedule. -/
def schedule (block : List UInt8) : Words w := fun t =>
  (fill 0 (S.expansion block) S.rounds (List.replicate S.rounds 0)).getD t 0

/-- The first temporary word of round `t` with the word `word`. -/
def t1 (t : ℕ) (word e f g h : BitVec w) : BitVec w := h + S.Sigma1 e + Ch e f g + S.K t + word

/-- The second one. -/
def t2 (a b c : BitVec w) : BitVec w := S.Sigma0 a + Maj a b c

/-- The round on the eight registers, all of which move. -/
def step (t : ℕ) (word a b c d e f g h : BitVec w) : Vector (BitVec w) 8 :=
  #v[S.t1 t word e f g h + S.t2 a b c, a, b, c, d + S.t1 t word e f g h, e, f, g]

def operation (t : ℕ) (word : BitVec w) (v : Vector (BitVec w) 8) : Vector (BitVec w) 8 :=
  S.step t word (v.get 0) (v.get 1) (v.get 2) (v.get 3) (v.get 4) (v.get 5) (v.get 6) (v.get 7)

/-- The compression of a block into the hash value. -/
def compress (state : Vector (BitVec w) 8) (block : List UInt8) : Vector (BitVec w) 8 :=
  state.zipWith (· + ·)
    ((List.range S.rounds).foldl (fun v t => S.operation t (S.schedule block t) v) state)

end Standard

/-- SHA-224 and SHA-256.  The constants are the cube roots of the first 64 primes. -/
noncomputable def standard256 : Standard 32 where
  bytes := 4
  rounds := 64
  K := fun t => fractionBits 32 (root 3 (Nat.nth Nat.Prime t))
  Sigma0 := fun x => x.rotateRight 2 ^^^ x.rotateRight 13 ^^^ x.rotateRight 22
  Sigma1 := fun x => x.rotateRight 6 ^^^ x.rotateRight 11 ^^^ x.rotateRight 25
  sigma0 := fun x => x.rotateRight 7 ^^^ x.rotateRight 18 ^^^ x >>> 3
  sigma1 := fun x => x.rotateRight 17 ^^^ x.rotateRight 19 ^^^ x >>> 10

/-- SHA-384 and SHA-512.  The constants are the cube roots of the first 80 primes. -/
noncomputable def standard512 : Standard 64 where
  bytes := 8
  rounds := 80
  K := fun t => fractionBits 64 (root 3 (Nat.nth Nat.Prime t))
  Sigma0 := fun x => x.rotateRight 28 ^^^ x.rotateRight 34 ^^^ x.rotateRight 39
  Sigma1 := fun x => x.rotateRight 14 ^^^ x.rotateRight 18 ^^^ x.rotateRight 41
  sigma0 := fun x => x.rotateRight 1 ^^^ x.rotateRight 8 ^^^ x >>> 7
  sigma1 := fun x => x.rotateRight 19 ^^^ x.rotateRight 61 ^^^ x >>> 6

/-- The hash value SHA-512 starts with: the square roots of the first eight primes. -/
noncomputable def initial512 : Vector (BitVec 64) 8 :=
  Vector.ofFn fun i => fractionBits 64 (root 2 (Nat.nth Nat.Prime i))

/-- The one of SHA-384: those of the next eight. -/
noncomputable def initial384 : Vector (BitVec 64) 8 :=
  Vector.ofFn fun i => fractionBits 64 (root 2 (Nat.nth Nat.Prime (8 + i)))

/-- The one of SHA-256: the square roots of the first eight primes. -/
noncomputable def initial256 : Vector (BitVec 32) 8 :=
  Vector.ofFn fun i => fractionBits 32 (root 2 (Nat.nth Nat.Prime i))

/-- The one of SHA-224: the second 32 bits of the square roots of the next eight. -/
noncomputable def initial224 : Vector (BitVec 32) 8 :=
  Vector.ofFn fun i =>
    (fractionBits 64 (root 2 (Nat.nth Nat.Prime (8 + i)))).extractLsb' 0 32

/-- SHA-256. -/
noncomputable def sha256 (message : List UInt8) : Vector (BitVec 32) 8 :=
  sha256Padding.fold standard256.compress initial256 message

/-- SHA-224 leaves the last word out. -/
noncomputable def sha224 (message : List UInt8) : List (BitVec 32) :=
  (sha256Padding.fold standard256.compress initial224 message).toList.take 7

/-- SHA-512. -/
noncomputable def sha512 (message : List UInt8) : Vector (BitVec 64) 8 :=
  sha512Padding.fold standard512.compress initial512 message

/-- SHA-384 leaves the last two words out. -/
noncomputable def sha384 (message : List UInt8) : List (BitVec 64) :=
  (sha512Padding.fold standard512.compress initial384 message).toList.take 6

end Sha2

end Csnip.Hash
