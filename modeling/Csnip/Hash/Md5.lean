/-
The compression function of MD5.

`md5_compress` of md5.c is 64 uses of four macros over `a`, `b`, `c` and `d`, whose names move on
by one from use to use; the uses are given here by what they add to the names, in the order of the
source.  The standard describes 64 operations that all move the registers instead, with the word,
the rotation and the constant of each given by a rule.  `uses_eq` says that the text has these, and
`md5Compress_eq` that it does what they say.
-/
import Csnip.Hash.Message
import Csnip.Hash.Standards
import Csnip.Lib.Registers

namespace Csnip.Hash.Md5

open LeadingBits Registers

/-! ### The text -/

/-- `LOADSCHEDULE` -/
def LOADSCHEDULE (block : List UInt8) : Words 32 := fun i =>
  byteAt 32 block (i * 4 + 0) <<< 0 ||| byteAt 32 block (i * 4 + 1) <<< 8
    ||| byteAt 32 block (i * 4 + 2) <<< 16 ||| byteAt 32 block (i * 4 + 3) <<< 24

section Macros

variable (schedule : Words 32) (k s : ℕ) (t : Word)

/-- `ROUND_TAIL`, over the names `a`, `b`, `c`, `d`. -/
def ROUND_TAIL (expr : (Fin 4 → Word) → Word) : List (Assign 4 Word) :=
  [⟨0, fun r => 0 + r 0 + expr r + t + schedule k⟩,
   ⟨0, fun r => 0 + r 1 + ROTL32 (r 0) s⟩]

def ROUND0 : List (Assign 4 Word) :=
  ROUND_TAIL schedule k s t fun r => r 3 ^^^ (r 1 &&& (r 2 ^^^ r 3))

def ROUND1 : List (Assign 4 Word) :=
  ROUND_TAIL schedule k s t fun r => r 2 ^^^ (r 3 &&& (r 1 ^^^ r 2))

def ROUND2 : List (Assign 4 Word) :=
  ROUND_TAIL schedule k s t fun r => r 1 ^^^ r 2 ^^^ r 3

def ROUND3 : List (Assign 4 Word) :=
  ROUND_TAIL schedule k s t fun r => r 2 ^^^ (r 1 ||| ~~~r 3)

end Macros

/-- `k`, `s` and `t` of every use. -/
def uses : List (ℕ × ℕ × Word) :=
  [(0, 7, 0xD76AA478), (1, 12, 0xE8C7B756), (2, 17, 0x242070DB), (3, 22, 0xC1BDCEEE),
   (4, 7, 0xF57C0FAF), (5, 12, 0x4787C62A), (6, 17, 0xA8304613), (7, 22, 0xFD469501),
   (8, 7, 0x698098D8), (9, 12, 0x8B44F7AF), (10, 17, 0xFFFF5BB1), (11, 22, 0x895CD7BE),
   (12, 7, 0x6B901122), (13, 12, 0xFD987193), (14, 17, 0xA679438E), (15, 22, 0x49B40821),
   (1, 5, 0xF61E2562), (6, 9, 0xC040B340), (11, 14, 0x265E5A51), (0, 20, 0xE9B6C7AA),
   (5, 5, 0xD62F105D), (10, 9, 0x02441453), (15, 14, 0xD8A1E681), (4, 20, 0xE7D3FBC8),
   (9, 5, 0x21E1CDE6), (14, 9, 0xC33707D6), (3, 14, 0xF4D50D87), (8, 20, 0x455A14ED),
   (13, 5, 0xA9E3E905), (2, 9, 0xFCEFA3F8), (7, 14, 0x676F02D9), (12, 20, 0x8D2A4C8A),
   (5, 4, 0xFFFA3942), (8, 11, 0x8771F681), (11, 16, 0x6D9D6122), (14, 23, 0xFDE5380C),
   (1, 4, 0xA4BEEA44), (4, 11, 0x4BDECFA9), (7, 16, 0xF6BB4B60), (10, 23, 0xBEBFBC70),
   (13, 4, 0x289B7EC6), (0, 11, 0xEAA127FA), (3, 16, 0xD4EF3085), (6, 23, 0x04881D05),
   (9, 4, 0xD9D4D039), (12, 11, 0xE6DB99E5), (15, 16, 0x1FA27CF8), (2, 23, 0xC4AC5665),
   (0, 6, 0xF4292244), (7, 10, 0x432AFF97), (14, 15, 0xAB9423A7), (5, 21, 0xFC93A039),
   (12, 6, 0x655B59C3), (3, 10, 0x8F0CCC92), (10, 15, 0xFFEFF47D), (1, 21, 0x85845DD1),
   (8, 6, 0x6FA87E4F), (15, 10, 0xFE2CE6E0), (6, 15, 0xA3014314), (13, 21, 0x4E0811A1),
   (4, 6, 0xF7537E82), (11, 10, 0xBD3AF235), (2, 15, 0x2AD7D2BB), (9, 21, 0xEB86D391)]

/-- Use `i`: sixteen of each macro. -/
def text (schedule : Words 32) (i : ℕ) : List (Assign 4 Word) :=
  let (k, s, t) := uses.getD i (0, 0, 0)
  if i < 16 then ROUND0 schedule k s t
  else if i < 32 then ROUND1 schedule k s t
  else if i < 48 then ROUND2 schedule k s t
  else ROUND3 schedule k s t

/-- `md5_compress` -/
def md5Compress (state : Vector Word 4) (block : List UInt8) : Vector Word 4 :=
  let r := turns (text (LOADSCHEDULE block)) 64 state
  Vector.ofFn fun j => 0 + state[j] + r[j]

/-- `md5_hash` -/
def md5Hash : Scheme (Vector Word 4) where
  toLayout := md5Layout
  initial := #v[0x67452301, 0xEFCDAB89, 0x98BADCFE, 0x10325476]
  compress := md5Compress

/-! ### The text does what the standard says -/

/-- The words and rotations of the text follow the rules, -/
theorem uses_rules : ∀ i < 64, (uses.getD i (0, 0, 0)).1 = wordIndex i ∧
    (uses.getD i (0, 0, 0)).2.1 = amount i := by
  decide

/-- and its constants hold the bits of the sines. -/
theorem uses_sines : ∀ i < 64, SineHolds 32 (i + 1) (uses.getD i (0, 0, 0)).2.2.toNat := by
  decide +kernel

theorem uses_eq {i : ℕ} (hi : i < 64) :
    uses.getD i (0, 0, 0) = (wordIndex i, amount i, constant i) := by
  obtain ⟨hword, hamount⟩ := uses_rules i hi
  have hconstant : constant i = (uses.getD i (0, 0, 0)).2.2 := by
    rw [constant, sineBits_eq (uses_sines i hi), BitVec.ofNat_toNat, BitVec.setWidth_eq]
  rw [← hword, ← hamount, hconstant]

theorem amount_lt (i : ℕ) : amount i < 32 := by
  unfold amount
  split <;> decide

theorem operation_eq (X : Words 32) (i : ℕ) (v : Vector Word 4) :
    operation X i v = step X i v[0] v[1] v[2] v[3] := rfl

theorem shift_eq (v : Vector Word 4) : shift v = #v[v[3], v[0], v[1], v[2]] := rfl

/-- The two assignments of a macro set the first register only. -/
theorem expand_ROUND_TAIL (X : Words 32) (k s : ℕ) (t : Word) (expr : (Fin 4 → Word) → Word)
    (v : Vector Word 4) : expand id (ROUND_TAIL X k s t expr) v
      = v.set 0 (v[1] + ROTL32 (v[0] + expr (fun j => v[j]) + t + X k) s) := by
  simp [ROUND_TAIL]

/-- A use of a macro, and the registers moved, is an operation. -/
theorem shift_expand_text (X : Words 32) {i : ℕ} (hi : i < 64) (v : Vector Word 4) :
    shift (expand id (text X i) v) = operation X i v := by
  have htail : ∀ expr : (Fin 4 → Word) → Word,
      expr (fun j => v[j]) = choice i v[1] v[2] v[3] →
      shift (expand id (ROUND_TAIL X (wordIndex i) (amount i) (constant i) expr) v)
        = operation X i v := by
    intro expr hexpr
    have hsum : v[0] + choice i v[1] v[2] v[3] + constant i + X (wordIndex i)
        = v[0] + choice i v[1] v[2] v[3] + X (wordIndex i) + constant i := by
      ac_rfl
    rw [expand_ROUND_TAIL, hexpr, hsum, ROTL32_eq _ (amount_lt i), shift_eq, operation_eq,
      step]
    simp
  unfold text
  rw [uses_eq hi]
  dsimp only
  split_ifs with h0 h1 h2
  · have hq : i / 16 = 0 := by omega
    apply htail
    rw [choice, hq]
    exact choose_eq _ _ _
  · have hq : i / 16 = 1 := by omega
    apply htail
    rw [choice, hq]
    dsimp only
    rw [choose_eq, BitVec.and_comm, BitVec.and_comm (~~~_)]
    rfl
  · have hq : i / 16 = 2 := by omega
    apply htail
    rw [choice, hq]
    rfl
  · have hq : i / 16 = 3 := by omega
    apply htail
    rw [choice, hq]
    rfl

/-- `md5_compress` is the compression of the standard, on every state and every block. -/
theorem md5Compress_eq (state : Vector Word 4) (block : List UInt8) :
    md5Compress state block = standardCompress state block := by
  have hwords : LOADSCHEDULE block = lowFirst 32 4 block := funext fun i => lowFirst_eq block i
  rw [md5Compress, standardCompress, hwords, turns_eq _ (by decide),
    rounds_eq_foldl fun i hi v => shift_expand_text _ hi v]
  rw [ofFn_eq_zipWith fun a b : Word => 0 + a + b]
  simp

/-- The text fills up a message as the standard does. -/
theorem md5Hash_padding : md5Hash.padding = md5Padding := rfl

theorem md5Hash_initial : md5Hash.initial = initial := by
  decide +kernel

/-- **`md5_hash` computes MD5**, of every message whose length is a `size_t`, and reads nothing
behind it. -/
theorem md5_hash_meets_standard (message : List UInt8) {len : ℕ} (hlen : len < 2 ^ 64)
    (hle : len ≤ message.length) : md5Hash.hash message len = some (md5 (message.take len)) := by
  have hcompress : md5Compress = standardCompress :=
    funext₂ fun state block => md5Compress_eq state block
  rw [Scheme.hash_eq _ message hlen hle, Scheme.standard_eq_fold, md5Hash_padding, md5Hash_initial,
    md5, ← hcompress]
  rfl

/-- Three bytes of a longer buffer. -/
theorem md5_hash_abc : md5Hash.hash [97, 98, 99, 100] 3 = some (md5 [97, 98, 99]) :=
  md5_hash_meets_standard [97, 98, 99, 100] (by norm_num : 3 < 2 ^ 64) (by simp)

end Csnip.Hash.Md5
