/-
The compression functions of SHA-256 and SHA-512.

sha256.c and sha512.c are one text for two widths, with other rotations and other constants: a
`Variant`.  Both expand the block into a table, and then hand the names of the registers on from
round to round, with three assignments each where the standard computes two temporary words and
moves the registers.

`Meets` says that the rotations, shifts and constants of a text are those of the standard for its
width, and `compress_eq` that then both compute the same.  The constants and the first hash values
are checked against the roots that the standard takes them from.
-/
import Csnip.Hash.Message
import Csnip.Hash.Standards
import Csnip.Lib.Registers

namespace Csnip.Hash.Sha2

open LeadingBits Registers Recurrence

/-- What one of the two texts has of its own. -/
structure Variant (w : ℕ) where
  /-- The right side of `LOADSCHEDULE`. -/
  LOADSCHEDULE : List UInt8 → ℕ → BitVec w
  /-- The number of words in `schedule`. -/
  count : ℕ
  /-- The constant `k` of every use of `ROUND`. -/
  K : List (BitVec w)
  /-- The two rotations and the shift of `schedule[i - 15]`. -/
  small0 : ℕ × ℕ × ℕ
  /-- Those of `schedule[i - 2]`. -/
  small1 : ℕ × ℕ × ℕ
  /-- The rotations of `a`. -/
  big0 : ℕ × ℕ × ℕ
  /-- The rotations of `e`. -/
  big1 : ℕ × ℕ × ℕ
  whole : 8 ∣ count
  small0_lt : small0.1 < w ∧ small0.2.1 < w
  small1_lt : small1.1 < w ∧ small1.2.1 < w
  big0_lt : big0.1 < w ∧ big0.2.1 < w ∧ big0.2.2 < w
  big1_lt : big1.1 < w ∧ big1.2.1 < w ∧ big1.2.2 < w

namespace Variant

variable {w : ℕ} (V : Variant w)

/-! ### The text -/

/-- The right side of `SCHEDULE`. -/
def SCHEDULE (schedule : Words w) (i : ℕ) : BitVec w :=
  0 + schedule (i - 16) + schedule (i - 7)
    + (ROTR (schedule (i - 15)) V.small0.1 ^^^ ROTR (schedule (i - 15)) V.small0.2.1
      ^^^ schedule (i - 15) >>> V.small0.2.2)
    + (ROTR (schedule (i - 2)) V.small1.1 ^^^ ROTR (schedule (i - 2)) V.small1.2.1
      ^^^ schedule (i - 2) >>> V.small1.2.2)

/-- `schedule[i]` -/
def next (block : List UInt8) (i : ℕ) (schedule : Words w) : BitVec w :=
  if i < 16 then V.LOADSCHEDULE block i else V.SCHEDULE schedule i

/-- `ROUND`, over the names `a` to `h`. -/
def ROUND (k word : BitVec w) : List (Assign 8 (BitVec w)) :=
  [⟨7, fun r => 0 + r 7
      + (ROTR (r 4) V.big1.1 ^^^ ROTR (r 4) V.big1.2.1 ^^^ ROTR (r 4) V.big1.2.2)
      + (r 6 ^^^ (r 4 &&& (r 5 ^^^ r 6))) + k + word⟩,
   ⟨3, fun r => 0 + r 3 + r 7⟩,
   ⟨7, fun r => 0 + r 7
      + (ROTR (r 0) V.big0.1 ^^^ ROTR (r 0) V.big0.2.1 ^^^ ROTR (r 0) V.big0.2.2)
      + (r 0 &&& (r 1 ||| r 2) ||| r 1 &&& r 2)⟩]

/-- The function, its table holding `uninit` at first. -/
def compress (uninit : Vector (BitVec w) V.count) (state : Vector (BitVec w) 8)
    (block : List UInt8) : Vector (BitVec w) 8 :=
  let schedule := fill 0 (V.next block) V.count uninit.toList
  let r := turns (fun i => V.ROUND (V.K.getD i 0) (schedule.getD i 0)) V.count state
  Vector.ofFn fun j => 0 + state[j] + r[j]

/-! ### The text does what the standard says -/

/-- The text has the words, the constants, the rotations and the shifts of the standard. -/
structure Meets (S : Standard w) : Prop where
  loads : V.LOADSCHEDULE = highFirst w S.bytes
  count : V.count = S.rounds
  constants : ∀ t < S.rounds, V.K.getD t 0 = S.K t
  small0 : ∀ x : BitVec w, x.rotateRight V.small0.1 ^^^ x.rotateRight V.small0.2.1
    ^^^ x >>> V.small0.2.2 = S.sigma0 x
  small1 : ∀ x : BitVec w, x.rotateRight V.small1.1 ^^^ x.rotateRight V.small1.2.1
    ^^^ x >>> V.small1.2.2 = S.sigma1 x
  big0 : ∀ x : BitVec w, x.rotateRight V.big0.1 ^^^ x.rotateRight V.big0.2.1
    ^^^ x.rotateRight V.big0.2.2 = S.Sigma0 x
  big1 : ∀ x : BitVec w, x.rotateRight V.big1.1 ^^^ x.rotateRight V.big1.2.1
    ^^^ x.rotateRight V.big1.2.2 = S.Sigma1 x

end Variant

section Standard

variable {w : ℕ} (S : Standard w)

theorem Standard.looksBack_expansion (block : List UInt8) : LooksBack 16 (S.expansion block) := by
  intro i t t' h
  unfold expansion
  by_cases hi : i < 16
  · rw [if_pos hi, if_pos hi]
  · rw [if_neg hi, if_neg hi, h (i - 2) (by omega) (by omega), h (i - 7) (by omega) (by omega),
      h (i - 15) (by omega) (by omega), h (i - 16) (by omega) (by omega)]

theorem Standard.solves_schedule (block : List UInt8) :
    Solves (S.expansion block) S.rounds (S.schedule block) :=
  solves_fill (S.looksBack_expansion block) (by rw [List.length_replicate])

theorem Standard.operation_eq (t : ℕ) (word : BitVec w) (v : Vector (BitVec w) 8) :
    S.operation t word v = S.step t word v[0] v[1] v[2] v[3] v[4] v[5] v[6] v[7] := rfl

theorem shift_eq (v : Vector (BitVec w) 8) :
    shift v = #v[v[7], v[0], v[1], v[2], v[3], v[4], v[5], v[6]] := rfl

end Standard

namespace Variant

variable {w : ℕ} {V : Variant w} {S : Standard w} (hm : V.Meets S)

include hm

theorem next_eq (block : List UInt8) : V.next block = S.expansion block := by
  funext i t
  rw [next, Standard.expansion, hm.loads]
  by_cases hi : i < 16
  · rw [if_pos hi, if_pos hi]
  · rw [if_neg hi, if_neg hi, SCHEDULE, ROTR_eq _ V.small0_lt.1, ROTR_eq _ V.small0_lt.2,
      ROTR_eq _ V.small1_lt.1, ROTR_eq _ V.small1_lt.2, hm.small0, hm.small1]
    simp only [BitVec.ofNat_eq_ofNat, BitVec.zero_add]
    ac_rfl

/-- The three assignments put the temporary words into two registers. -/
theorem expand_ROUND {t : ℕ} (ht : t < S.rounds) (word : BitVec w) (v : Vector (BitVec w) 8) :
    expand id (V.ROUND (V.K.getD t 0) word) v
      = ((v.set 7 (S.t1 t word v[4] v[5] v[6] v[7])).set 3
          (v[3] + S.t1 t word v[4] v[5] v[6] v[7])).set 7
          (S.t1 t word v[4] v[5] v[6] v[7] + S.t2 v[0] v[1] v[2]) := by
  have hch : v[6] ^^^ (v[4] &&& (v[5] ^^^ v[6])) = Ch v[4] v[5] v[6] := by
    rw [choose_eq, choose_or_eq_xor, Ch]
  have hmaj : v[0] &&& (v[1] ||| v[2]) ||| v[1] &&& v[2] = Maj v[0] v[1] v[2] :=
    majority_eq _ _ _
  rw [Standard.t1, Standard.t2, ← hch, ← hmaj, ← hm.big0, ← hm.big1, ← hm.constants t ht,
    ← ROTR_eq _ V.big1_lt.1, ← ROTR_eq _ V.big1_lt.2.1, ← ROTR_eq _ V.big1_lt.2.2,
    ← ROTR_eq _ V.big0_lt.1, ← ROTR_eq _ V.big0_lt.2.1, ← ROTR_eq _ V.big0_lt.2.2]
  simp [ROUND, BitVec.add_assoc]

/-- A round of the text, and the registers moved, is a round of the standard. -/
theorem shift_expand_ROUND {t : ℕ} (ht : t < S.rounds) (word : BitVec w)
    (v : Vector (BitVec w) 8) :
    shift (expand id (V.ROUND (V.K.getD t 0) word) v) = S.operation t word v := by
  rw [expand_ROUND hm ht, shift_eq, Standard.operation_eq, Standard.step]
  simp

/-- **The text computes the compression of the standard**, on every state and block and whatever
the stack held. -/
theorem compress_eq (uninit : Vector (BitVec w) V.count) (state : Vector (BitVec w) 8)
    (block : List UInt8) : V.compress uninit state block = S.compress state block := by
  have hsolves : Solves (S.expansion block) V.count (S.schedule block) := by
    rw [hm.count]
    exact S.solves_schedule block
  have hword : ∀ i < V.count, (fill 0 (S.expansion block) V.count uninit.toList).getD i 0
      = S.schedule block i :=
    getD_fill (S.looksBack_expansion block) (by rw [Vector.length_toList]) hsolves
  have hround : ∀ i < V.count, ∀ v, shift (expand id (V.ROUND (V.K.getD i 0)
      ((fill 0 (S.expansion block) V.count uninit.toList).getD i 0)) v)
        = S.operation i (S.schedule block i) v := by
    intro i hi v
    rw [shift_expand_ROUND hm (hm.count ▸ hi), hword i hi]
  rw [compress, Standard.compress, next_eq hm, turns_eq _ V.whole, rounds_eq_foldl hround, hm.count]
  rw [ofFn_eq_zipWith fun a b : BitVec w => 0 + a + b]
  simp

end Variant

/-! ### The two functions -/

/-- The constants of sha256.c. -/
def K256 : List (BitVec 32) :=
  [0x428A2F98, 0x71374491, 0xB5C0FBCF, 0xE9B5DBA5, 0x3956C25B, 0x59F111F1, 0x923F82A4, 0xAB1C5ED5,
   0xD807AA98, 0x12835B01, 0x243185BE, 0x550C7DC3, 0x72BE5D74, 0x80DEB1FE, 0x9BDC06A7, 0xC19BF174,
   0xE49B69C1, 0xEFBE4786, 0x0FC19DC6, 0x240CA1CC, 0x2DE92C6F, 0x4A7484AA, 0x5CB0A9DC, 0x76F988DA,
   0x983E5152, 0xA831C66D, 0xB00327C8, 0xBF597FC7, 0xC6E00BF3, 0xD5A79147, 0x06CA6351, 0x14292967,
   0x27B70A85, 0x2E1B2138, 0x4D2C6DFC, 0x53380D13, 0x650A7354, 0x766A0ABB, 0x81C2C92E, 0x92722C85,
   0xA2BFE8A1, 0xA81A664B, 0xC24B8B70, 0xC76C51A3, 0xD192E819, 0xD6990624, 0xF40E3585, 0x106AA070,
   0x19A4C116, 0x1E376C08, 0x2748774C, 0x34B0BCB5, 0x391C0CB3, 0x4ED8AA4A, 0x5B9CCA4F, 0x682E6FF3,
   0x748F82EE, 0x78A5636F, 0x84C87814, 0x8CC70208, 0x90BEFFFA, 0xA4506CEB, 0xBEF9A3F7, 0xC67178F2]

/-- The constants of sha512.c. -/
def K512 : List (BitVec 64) :=
  [0x428A2F98D728AE22, 0x7137449123EF65CD, 0xB5C0FBCFEC4D3B2F, 0xE9B5DBA58189DBBC,
   0x3956C25BF348B538, 0x59F111F1B605D019, 0x923F82A4AF194F9B, 0xAB1C5ED5DA6D8118,
   0xD807AA98A3030242, 0x12835B0145706FBE, 0x243185BE4EE4B28C, 0x550C7DC3D5FFB4E2,
   0x72BE5D74F27B896F, 0x80DEB1FE3B1696B1, 0x9BDC06A725C71235, 0xC19BF174CF692694,
   0xE49B69C19EF14AD2, 0xEFBE4786384F25E3, 0x0FC19DC68B8CD5B5, 0x240CA1CC77AC9C65,
   0x2DE92C6F592B0275, 0x4A7484AA6EA6E483, 0x5CB0A9DCBD41FBD4, 0x76F988DA831153B5,
   0x983E5152EE66DFAB, 0xA831C66D2DB43210, 0xB00327C898FB213F, 0xBF597FC7BEEF0EE4,
   0xC6E00BF33DA88FC2, 0xD5A79147930AA725, 0x06CA6351E003826F, 0x142929670A0E6E70,
   0x27B70A8546D22FFC, 0x2E1B21385C26C926, 0x4D2C6DFC5AC42AED, 0x53380D139D95B3DF,
   0x650A73548BAF63DE, 0x766A0ABB3C77B2A8, 0x81C2C92E47EDAEE6, 0x92722C851482353B,
   0xA2BFE8A14CF10364, 0xA81A664BBC423001, 0xC24B8B70D0F89791, 0xC76C51A30654BE30,
   0xD192E819D6EF5218, 0xD69906245565A910, 0xF40E35855771202A, 0x106AA07032BBD1B8,
   0x19A4C116B8D2D0C8, 0x1E376C085141AB53, 0x2748774CDF8EEB99, 0x34B0BCB5E19B48A8,
   0x391C0CB3C5C95A63, 0x4ED8AA4AE3418ACB, 0x5B9CCA4F7763E373, 0x682E6FF3D6B2B8A3,
   0x748F82EE5DEFB2FC, 0x78A5636F43172F60, 0x84C87814A1F0AB72, 0x8CC702081A6439EC,
   0x90BEFFFA23631E28, 0xA4506CEBDE82BDE9, 0xBEF9A3F7B2C67915, 0xC67178F2E372532B,
   0xCA273ECEEA26619C, 0xD186B8C721C0C207, 0xEADA7DD6CDE0EB1E, 0xF57D4F7FEE6ED178,
   0x06F067AA72176FBA, 0x0A637DC5A2C898A6, 0x113F9804BEF90DAE, 0x1B710B35131C471B,
   0x28DB77F523047D84, 0x32CAAB7B40C72493, 0x3C9EBE0A15C9BEBC, 0x431D67C49C100D4C,
   0x4CC5D4BECB3E42B6, 0x597F299CFC657E2A, 0x5FCB6FAB3AD6FAEC, 0x6C44198C4A475817]

/-- `sha256_compress` -/
def sha256Compress : Variant 32 where
  LOADSCHEDULE := fun block i =>
    byteAt 32 block (i * 4 + 0) <<< 24 ||| byteAt 32 block (i * 4 + 1) <<< 16
      ||| byteAt 32 block (i * 4 + 2) <<< 8 ||| byteAt 32 block (i * 4 + 3) <<< 0
  count := 64
  K := K256
  small0 := (7, 18, 3)
  small1 := (17, 19, 10)
  big0 := (2, 13, 22)
  big1 := (6, 11, 25)
  whole := by decide
  small0_lt := by decide
  small1_lt := by decide
  big0_lt := by decide
  big1_lt := by decide

/-- `sha512_compress` -/
def sha512Compress : Variant 64 where
  LOADSCHEDULE := fun block i =>
    byteAt 64 block (i * 8 + 0) <<< 56 ||| byteAt 64 block (i * 8 + 1) <<< 48
      ||| byteAt 64 block (i * 8 + 2) <<< 40 ||| byteAt 64 block (i * 8 + 3) <<< 32
      ||| byteAt 64 block (i * 8 + 4) <<< 24 ||| byteAt 64 block (i * 8 + 5) <<< 16
      ||| byteAt 64 block (i * 8 + 6) <<< 8 ||| byteAt 64 block (i * 8 + 7) <<< 0
  count := 80
  K := K512
  small0 := (1, 8, 7)
  small1 := (19, 61, 6)
  big0 := (28, 34, 39)
  big1 := (14, 18, 41)
  whole := by decide
  small0_lt := by decide
  small1_lt := by decide
  big0_lt := by decide
  big1_lt := by decide

/-- What `sha256_hash` starts with. -/
def sha256Initial : Vector (BitVec 32) 8 :=
  #v[0x6A09E667, 0xBB67AE85, 0x3C6EF372, 0xA54FF53A,
    0x510E527F, 0x9B05688C, 0x1F83D9AB, 0x5BE0CD19]

/-- What `sha224_hash` starts with. -/
def sha224Initial : Vector (BitVec 32) 8 :=
  #v[0xC1059ED8, 0x367CD507, 0x3070DD17, 0xF70E5939,
    0xFFC00B31, 0x68581511, 0x64F98FA7, 0xBEFA4FA4]

/-- What `sha512_hash` starts with. -/
def sha512Initial : Vector (BitVec 64) 8 :=
  #v[0x6A09E667F3BCC908, 0xBB67AE8584CAA73B, 0x3C6EF372FE94F82B, 0xA54FF53A5F1D36F1,
    0x510E527FADE682D1, 0x9B05688C2B3E6C1F, 0x1F83D9ABFB41BD6B, 0x5BE0CD19137E2179]

/-- What `sha384_hash` starts with. -/
def sha384Initial : Vector (BitVec 64) 8 :=
  #v[0xCBBB9D5DC1059ED8, 0x629A292A367CD507, 0x9159015A3070DD17, 0x152FECD8F70E5939,
    0x67332667FFC00B31, 0x8EB44A8768581511, 0xDB0C2E0D64F98FA7, 0x47B5481DBEFA4FA4]

/-! ### Where the constants come from -/

/-- The constants of sha256.c are cube roots, -/
theorem K256_roots : ∀ t < 64, ∃ m < 8,
    RootHolds 3 32 (primes.getD t 0) m (K256.getD t 0).toNat := by
  decide +kernel

/-- and so are those of sha512.c. -/
theorem K512_roots : ∀ t < 80, ∃ m < 8,
    RootHolds 3 64 (primes.getD t 0) m (K512.getD t 0).toNat := by
  decide +kernel

/-- The hash values that sha256 and sha512 start with are square roots, -/
theorem initial_roots : ∀ i : Fin 8,
    (∃ m < 8, RootHolds 2 32 (primes.getD i 0) m sha256Initial[i].toNat) ∧
      ∃ m < 8, RootHolds 2 64 (primes.getD i 0) m sha512Initial[i].toNat := by
  decide +kernel

/-- and so are those of sha384. -/
theorem initial384_roots : ∀ i : Fin 8, ∃ m < 8,
    RootHolds 2 64 (primes.getD (8 + i) 0) m sha384Initial[i].toNat := by
  decide +kernel

/-- A table of roots of primes. -/
theorem fractionBits_nth {k w t m : ℕ} {c : BitVec w} (hk : k ≠ 0) (ht : t < 80)
    (h : RootHolds k w (primes.getD t 0) m c.toNat) :
    fractionBits w (root k (Nat.nth Nat.Prime t)) = c := by
  rw [nth_prime ht, fractionBits_root hk h, BitVec.ofNat_toNat, BitVec.setWidth_eq]

theorem sha256Compress_meets : sha256Compress.Meets standard256 where
  loads := funext fun block => funext fun i => highFirst_eq block i
  count := rfl
  constants := by
    intro t ht
    obtain ⟨m, -, h⟩ := K256_roots t ht
    exact (fractionBits_nth (by decide) (Nat.lt_trans ht (by decide)) h).symm
  small0 := fun _ => rfl
  small1 := fun _ => rfl
  big0 := fun _ => rfl
  big1 := fun _ => rfl

theorem sha512Compress_meets : sha512Compress.Meets standard512 where
  loads := funext fun block => funext fun i => highFirst_eight block i
  count := rfl
  constants := by
    intro t ht
    obtain ⟨m, -, h⟩ := K512_roots t ht
    exact (fractionBits_nth (by decide) ht h).symm
  small0 := fun _ => rfl
  small1 := fun _ => rfl
  big0 := fun _ => rfl
  big1 := fun _ => rfl

theorem sha256Initial_eq : sha256Initial = initial256 := by
  apply Vector.ext
  intro i hi
  obtain ⟨⟨m, -, h⟩, -⟩ := initial_roots ⟨i, hi⟩
  rw [initial256, Vector.getElem_ofFn]
  exact (fractionBits_nth (by decide) (Nat.lt_trans hi (by decide)) h).symm

theorem sha512Initial_eq : sha512Initial = initial512 := by
  apply Vector.ext
  intro i hi
  obtain ⟨-, m, -, h⟩ := initial_roots ⟨i, hi⟩
  rw [initial512, Vector.getElem_ofFn]
  exact (fractionBits_nth (by decide) (Nat.lt_trans hi (by decide)) h).symm

theorem sha384Initial_eq : sha384Initial = initial384 := by
  apply Vector.ext
  intro i hi
  obtain ⟨m, -, h⟩ := initial384_roots ⟨i, hi⟩
  rw [initial384, Vector.getElem_ofFn]
  exact (fractionBits_nth (by decide) (show 8 + i < 80 by omega) h).symm

/-- The hash values sha224 starts with are the low halves of those of sha384. -/
theorem sha224Initial_halves : ∀ i : Fin 8,
    sha224Initial[i] = sha384Initial[i].extractLsb' 0 32 := by
  decide +kernel

theorem sha224Initial_eq : sha224Initial = initial224 := by
  apply Vector.ext
  intro i hi
  have hhalf : sha224Initial[i] = sha384Initial[i].extractLsb' 0 32 := sha224Initial_halves ⟨i, hi⟩
  rw [hhalf, sha384Initial_eq, initial384, initial224, Vector.getElem_ofFn, Vector.getElem_ofFn]

/-! ### The hash functions -/

section Hashes

variable (uninit32 : Vector (BitVec 32) 64) (uninit64 : Vector (BitVec 64) 80)

/-- `sha256_hash` -/
def sha256Hash : Scheme (Vector (BitVec 32) 8) where
  toLayout := sha256Layout
  initial := sha256Initial
  compress := sha256Compress.compress uninit32

/-- `sha224_hash`, before it copies the first seven words of `state` to `hash`. -/
def sha224Hash : Scheme (Vector (BitVec 32) 8) :=
  { sha256Hash uninit32 with initial := sha224Initial }

/-- `sha512_hash` -/
def sha512Hash : Scheme (Vector (BitVec 64) 8) where
  toLayout := sha512Layout
  initial := sha512Initial
  compress := sha512Compress.compress uninit64

/-- `sha384_hash`, before it copies the first six words of `state` to `hash`. -/
def sha384Hash : Scheme (Vector (BitVec 64) 8) :=
  { sha512Hash uninit64 with initial := sha384Initial }

/-- `hash` of `sha224_hash`. -/
def sha224Digest (message : List UInt8) (len : ℕ) : Option (List (BitVec 32)) :=
  ((sha224Hash uninit32).hash message len).map fun state => state.toList.take 7

/-- `hash` of `sha384_hash`. -/
def sha384Digest (message : List UInt8) (len : ℕ) : Option (List (BitVec 64)) :=
  ((sha384Hash uninit64).hash message len).map fun state => state.toList.take 6

/-- The texts fill up a message as the standard does. -/
theorem sha256Hash_padding : (sha256Hash uninit32).padding = sha256Padding := rfl

theorem sha224Hash_padding : (sha224Hash uninit32).padding = sha256Padding := rfl

theorem sha512Hash_padding : (sha512Hash uninit64).padding = sha512Padding := rfl

theorem sha384Hash_padding : (sha384Hash uninit64).padding = sha512Padding := rfl

/-- **The four functions compute SHA-256, SHA-224, SHA-512 and SHA-384**: of every message whose
length is a `size_t`, reading nothing behind it, and whatever the stack held. -/
theorem sha2_hash_meets_standard (message : List UInt8) {len : ℕ} (hlen : len < 2 ^ 64)
    (hle : len ≤ message.length) :
    (sha256Hash uninit32).hash message len = some (sha256 (message.take len)) ∧
      sha224Digest uninit32 message len = some (sha224 (message.take len)) ∧
      (sha512Hash uninit64).hash message len = some (sha512 (message.take len)) ∧
      sha384Digest uninit64 message len = some (sha384 (message.take len)) := by
  have h256 : sha256Compress.compress uninit32 = standard256.compress :=
    funext₂ fun state block => Variant.compress_eq sha256Compress_meets uninit32 state block
  have h512 : sha512Compress.compress uninit64 = standard512.compress :=
    funext₂ fun state block => Variant.compress_eq sha512Compress_meets uninit64 state block
  refine ⟨?_, ?_, ?_, ?_⟩
  · rw [Scheme.hash_eq _ message hlen hle, Scheme.standard_eq_fold, sha256Hash_padding, sha256,
      ← h256, ← sha256Initial_eq]
    rfl
  · rw [sha224Digest, Scheme.hash_eq _ message hlen hle, Scheme.standard_eq_fold,
      sha224Hash_padding, sha224, ← h256, ← sha224Initial_eq]
    rfl
  · rw [Scheme.hash_eq _ message hlen hle, Scheme.standard_eq_fold, sha512Hash_padding, sha512,
      ← h512, ← sha512Initial_eq]
    rfl
  · rw [sha384Digest, Scheme.hash_eq _ message hlen hle, Scheme.standard_eq_fold,
      sha384Hash_padding, sha384, ← h512, ← sha384Initial_eq]
    rfl

end Hashes

/-- Three bytes of a longer buffer. -/
theorem sha2_hash_abc :
    (sha256Hash (Vector.replicate 64 0)).hash [97, 98, 99, 100] 3 = some (sha256 [97, 98, 99]) ∧
      sha384Digest (Vector.replicate 80 0) [97, 98, 99, 100] 3 = some (sha384 [97, 98, 99]) := by
  have h := sha2_hash_meets_standard (Vector.replicate 64 0) (Vector.replicate 80 0)
    [97, 98, 99, 100] (by norm_num : 3 < 2 ^ 64) (by simp)
  exact ⟨h.1, h.2.2.2⟩

end Csnip.Hash.Sha2
