/-
The two compression functions of SHA-1.

sha1-naive.c expands the block into a table of 80 words before the first round.  sha1-fast.c keeps
sixteen words only: every round computes the word it needs from four of them and puts it over the
oldest one.  In both the names of the registers move on by one from round to round, and the
standard moves the registers.

Both functions are shown to compute what the standard says, whatever their tables hold at first,
and so to agree: `sha1_fast_and_naive`.
-/
import Csnip.Hash.Message
import Csnip.Hash.Standards
import Csnip.Lib.Registers

namespace Csnip.Hash.Sha1

open Registers Recurrence

/-! ### What the two texts share -/

/-- The right side of `LOADSCHEDULE`. -/
def LOADSCHEDULE (block : List UInt8) (i : ℕ) : Word :=
  byteAt 32 block (i * 4 + 0) <<< 24 ||| byteAt 32 block (i * 4 + 1) <<< 16
    ||| byteAt 32 block (i * 4 + 2) <<< 8 ||| byteAt 32 block (i * 4 + 3) <<< 0

/-- `ROUNDTAIL`, over the names `a`, `b`, `c`, `d`, `e`, with the two rotations as they are
written. -/
def ROUNDTAIL (rotl5 rotl30 : Word → Word) (f : (Fin 5 → Word) → Word) (k w : Word) :
    List (Assign 5 Word) :=
  [⟨4, fun r => 0 + r 4 + rotl5 (r 0) + f r + k + w⟩, ⟨1, fun r => rotl30 (r 1)⟩]

/-- Round `i` uses `ROUND0`, `ROUND1`, `ROUND2` or `ROUND3`. -/
def ROUND (rotl5 rotl30 : Word → Word) (i : ℕ) (w : Word) : List (Assign 5 Word) :=
  if i < 20 then
    ROUNDTAIL rotl5 rotl30 (fun r => r 1 &&& r 2 ||| ~~~r 1 &&& r 3) 0x5A827999 w
  else if i < 40 then
    ROUNDTAIL rotl5 rotl30 (fun r => r 1 ^^^ r 2 ^^^ r 3) 0x6ED9EBA1 w
  else if i < 60 then
    ROUNDTAIL rotl5 rotl30 (fun r => r 1 &&& r 2 ^^^ r 1 &&& r 3 ^^^ r 2 &&& r 3) 0x8F1BBCDC w
  else
    ROUNDTAIL rotl5 rotl30 (fun r => r 1 ^^^ r 2 ^^^ r 3) 0xCA62C1D6 w

/-- The statements at the end. -/
def addState (state r : Vector Word 5) : Vector Word 5 := Vector.ofFn fun j => 0 + state[j] + r[j]

namespace Naive

/-- The right side of `SCHEDULE`. -/
def SCHEDULE (schedule : Words 32) (i : ℕ) : Word :=
  let temp := schedule (i - 3) ^^^ schedule (i - 8) ^^^ schedule (i - 14) ^^^ schedule (i - 16)
  (0 + temp) <<< 1 ||| temp >>> 31

/-- `schedule[i]` -/
def next (block : List UInt8) (i : ℕ) (schedule : Words 32) : Word :=
  if i < 16 then LOADSCHEDULE block i else SCHEDULE schedule i

def round (i : ℕ) (w : Word) : List (Assign 5 Word) :=
  ROUND (fun a => (0 + a) <<< 5 ||| a >>> 27) (fun b => (0 + b) <<< 30 ||| b >>> 2) i w

/-- `sha1_compress` of sha1-naive.c, its table holding `uninit` at first. -/
def sha1Compress (uninit : Vector Word 80) (state : Vector Word 5) (block : List UInt8) :
    Vector Word 5 :=
  let schedule := fill 0 (next block) 80 uninit.toList
  addState state (turns (fun i => round i (schedule.getD i 0)) 80 state)

end Naive

namespace Fast

/-- `SCHEDULE` -/
def SCHEDULE (schedule : List Word) (i : ℕ) : List Word :=
  let temp := schedule.getD ((i - 3) &&& 0xF) 0 ^^^ schedule.getD ((i - 8) &&& 0xF) 0
    ^^^ schedule.getD ((i - 14) &&& 0xF) 0 ^^^ schedule.getD ((i - 16) &&& 0xF) 0
  schedule.set (i &&& 0xF) (ROTL32 temp 1)

def round (i : ℕ) (w : Word) : List (Assign 5 Word) :=
  ROUND (fun a => ROTL32 a 5) (fun b => ROTL32 b 30) i w

/-- One line of the text: `ROUND0a` loads its word, the others compute it. -/
def line (block : List UInt8) :
    List Word × Vector Word 5 → ℕ → List Word × Vector Word 5
  | (schedule, r), i =>
      let schedule :=
        if i < 16 then schedule.set i (LOADSCHEDULE block i) else SCHEDULE schedule i
      (schedule, expand (turned i) (round i (schedule.getD (i &&& 0xF) 0)) r)

/-- `sha1_compress` of sha1-fast.c, its table holding `uninit` at first. -/
def sha1Compress (uninit : Vector Word 16) (state : Vector Word 5) (block : List UInt8) :
    Vector Word 5 :=
  addState state ((List.range 80).foldl (line block) (uninit.toList, state)).2

end Fast

/-- `sha1_hash`, linked with one of the two. -/
def sha1Hash (sha1Compress : Vector Word 5 → List UInt8 → Vector Word 5) :
    Scheme (Vector Word 5) where
  toLayout := sha256Layout
  initial := #v[0x67452301, 0xEFCDAB89, 0x98BADCFE, 0x10325476, 0xC3D2E1F0]
  compress := sha1Compress

/-! ### The schedule -/

theorem looksBack_expansion (block : List UInt8) : LooksBack 16 (expansion block) := by
  intro i t t' h
  unfold expansion
  by_cases hi : i < 16
  · rw [if_pos hi, if_pos hi]
  · rw [if_neg hi, if_neg hi, h (i - 3) (by omega) (by omega), h (i - 8) (by omega) (by omega),
      h (i - 14) (by omega) (by omega), h (i - 16) (by omega) (by omega)]

theorem solves_schedule (block : List UInt8) : Solves (expansion block) 80 (schedule block) :=
  solves_fill (looksBack_expansion block) (by rw [List.length_replicate])

theorem Naive.next_eq (block : List UInt8) : Naive.next block = expansion block := by
  funext i t
  rw [Naive.next, expansion, LOADSCHEDULE, highFirst_eq, ← ROTL32_eq _ (by decide)]
  by_cases hi : i < 16
  · rw [if_pos hi, if_pos hi]
  · rw [if_neg hi, if_neg hi, Naive.SCHEDULE, ROTL32]
    simp

/-- The line puts the next word over the oldest one. -/
theorem Fast.line_schedule (block : List UInt8) (cells : List Word) (r : Vector Word 5) (i : ℕ) :
    (Fast.line block (cells, r) i).1
      = cells.set (i % 16) (expansion block i fun j => cells.getD (j % 16) 0) := by
  have hcell : ∀ n : ℕ, n &&& 0xF = n % 16 := fun n => Nat.and_two_pow_sub_one_eq_mod n 4
  rw [Fast.line, expansion]
  by_cases hi : i < 16
  · rw [if_pos hi, if_pos hi, LOADSCHEDULE, highFirst_eq, Nat.mod_eq_of_lt hi]
  · rw [if_neg hi, if_neg hi, Fast.SCHEDULE, ← ROTL32_eq _ (by decide)]
    simp only [hcell]

/-! ### The rounds -/

theorem operation_eq (t : ℕ) (w : Word) (v : Vector Word 5) :
    operation t w v = step t w v[0] v[1] v[2] v[3] v[4] := rfl

theorem shift_eq (v : Vector Word 5) : shift v = #v[v[4], v[0], v[1], v[2], v[3]] := rfl

theorem expand_ROUNDTAIL (f : (Fin 5 → Word) → Word) (k w : Word) (v : Vector Word 5) :
    expand id (ROUNDTAIL (·.rotateLeft 5) (·.rotateLeft 30) f k w) v
      = (v.set 4 (v[4] + v[0].rotateLeft 5 + f (fun j => v[j]) + k + w)).set 1
          (v[1].rotateLeft 30) := by
  simp [ROUNDTAIL]

/-- A round of the text, and the registers moved, is a round of the standard. -/
theorem shift_expand_ROUND {i : ℕ} (hi : i < 80) (w : Word) (v : Vector Word 5) :
    shift (expand id (ROUND (·.rotateLeft 5) (·.rotateLeft 30) i w) v) = operation i w v := by
  have htail : ∀ (f : (Fin 5 → Word) → Word) (k : Word),
      f (fun j => v[j]) = choice i v[1] v[2] v[3] → k = constant i →
      shift (expand id (ROUNDTAIL (·.rotateLeft 5) (·.rotateLeft 30) f k w) v)
        = operation i w v := by
    intro f k hf hk
    have hsum : v[4] + v[0].rotateLeft 5 + choice i v[1] v[2] v[3] + constant i + w
        = v[0].rotateLeft 5 + choice i v[1] v[2] v[3] + v[4] + constant i + w := by
      ac_rfl
    rw [expand_ROUNDTAIL, hf, hk, hsum, shift_eq, operation_eq, step]
    simp
  unfold ROUND
  split_ifs with h0 h1 h2
  · have hq : i / 20 = 0 := by omega
    apply htail
    · rw [choice, hq]
      exact choose_or_eq_xor _ _ _
    · rw [constant, hq]
      rfl
  · have hq : i / 20 = 1 := by omega
    apply htail
    · rw [choice, hq]
      rfl
    · rw [constant, hq]
      rfl
  · have hq : i / 20 = 2 := by omega
    apply htail
    · rw [choice, hq]
      rfl
    · rw [constant, hq]
      rfl
  · have hq : i / 20 = 3 := by omega
    apply htail
    · rw [choice, hq]
      rfl
    · rw [constant, hq]
      rfl

theorem Naive.round_eq (i : ℕ) (w : Word) :
    Naive.round i w = ROUND (·.rotateLeft 5) (·.rotateLeft 30) i w := by
  have h5 : (fun a : Word => (0 + a) <<< 5 ||| a >>> 27) = (·.rotateLeft 5) := by
    funext a
    rw [← ROTL32_eq a (by decide), ROTL32]
    simp
  have h30 : (fun b : Word => (0 + b) <<< 30 ||| b >>> 2) = (·.rotateLeft 30) := by
    funext b
    rw [← ROTL32_eq b (by decide), ROTL32]
    simp
  rw [Naive.round, h5, h30]

theorem Fast.round_eq (i : ℕ) (w : Word) :
    Fast.round i w = ROUND (·.rotateLeft 5) (·.rotateLeft 30) i w := by
  have h5 : (fun a => ROTL32 a 5) = (·.rotateLeft 5) := funext fun a => ROTL32_eq a (by decide)
  have h30 : (fun b => ROTL32 b 30) = (·.rotateLeft 30) :=
    funext fun b => ROTL32_eq b (by decide)
  rw [Fast.round, h5, h30]

/-- Rounds that take the words of the schedule are the standard's. -/
theorem turns_schedule (state : Vector Word 5) (block : List UInt8) :
    turns (fun i => ROUND (·.rotateLeft 5) (·.rotateLeft 30) i (schedule block i)) 80 state
      = (List.range 80).foldl (fun v t => operation t (schedule block t) v) state := by
  rw [turns_eq _ (by decide)]
  exact rounds_eq_foldl (fun i hi v => shift_expand_ROUND hi _ v) state

/-! ### The two functions -/

theorem addState_eq (state v : Vector Word 5) : addState state v = state.zipWith (· + ·) v := by
  rw [addState, ofFn_eq_zipWith fun a b : Word => 0 + a + b]
  simp

theorem Naive.sha1Compress_eq (uninit : Vector Word 80) (state : Vector Word 5)
    (block : List UInt8) :
    Naive.sha1Compress uninit state block = standardCompress state block := by
  have hword : ∀ i < 80, (fill 0 (expansion block) 80 uninit.toList).getD i 0
      = schedule block i :=
    getD_fill (looksBack_expansion block) (by rw [Vector.length_toList]) (solves_schedule block)
  have hrounds : turns (fun i => Naive.round i ((fill 0 (expansion block) 80
        uninit.toList).getD i 0)) 80 state
      = turns (fun i => ROUND (·.rotateLeft 5) (·.rotateLeft 30) i (schedule block i)) 80
        state := by
    rw [turns, turns]
    refine List.foldl_ext _ _ _ fun r i hi => ?_
    rw [Naive.round_eq, hword i (List.mem_range.mp hi)]
  rw [Naive.sha1Compress, Naive.next_eq, standardCompress, hrounds, turns_schedule, addState_eq]

/-- After `n` lines the sixteen words are the last ones, and the registers those of `n` rounds
that took theirs from a whole schedule. -/
theorem Fast.foldl_line (uninit : Vector Word 16) (state : Vector Word 5) (block : List UInt8)
    {n : ℕ} (hn : n ≤ 80) : (List.range n).foldl (Fast.line block) (uninit.toList, state)
      = (fillCyclic 0 16 (expansion block) n uninit.toList,
          turns (fun i => ROUND (·.rotateLeft 5) (·.rotateLeft 30) i (schedule block i)) n
            state) := by
  induction n with
  | zero => rfl
  | succ n ih =>
      have hcell : n &&& 0xF = n % 16 := Nat.and_two_pow_sub_one_eq_mod n 4
      have hword : (fillCyclic 0 16 (expansion block) (n + 1) uninit.toList).getD (n % 16) 0
          = schedule block n :=
        getD_fillCyclic (by decide) (looksBack_expansion block) (Vector.length_toList)
          (n + 1) (fun i hi => solves_schedule block i (by omega)) n (Nat.lt_succ_self n) (by omega)
      have hline := Fast.line_schedule block (fillCyclic 0 16 (expansion block) n uninit.toList)
        (turns (fun i => ROUND (·.rotateLeft 5) (·.rotateLeft 30) i (schedule block i)) n state) n
      rw [← fillCyclic_succ] at hline
      rw [List.range_succ, List.foldl_append, ih (by omega), List.foldl_cons, List.foldl_nil]
      refine Prod.ext hline ?_
      have hregs : ∀ cells r, (Fast.line block (cells, r) n).2 = expand (turned n)
          (Fast.round n ((Fast.line block (cells, r) n).1.getD (n &&& 0xF) 0)) r :=
        fun _ _ => rfl
      rw [hregs, hline, hcell, hword, Fast.round_eq, turns_succ]

theorem Fast.sha1Compress_eq (uninit : Vector Word 16) (state : Vector Word 5)
    (block : List UInt8) :
    Fast.sha1Compress uninit state block = standardCompress state block := by
  rw [Fast.sha1Compress, Fast.foldl_line uninit state block le_rfl, turns_schedule, addState_eq]
  rfl

/-- The text fills up a message as the standard does. -/
theorem sha1Hash_padding (sha1Compress : Vector Word 5 → List UInt8 → Vector Word 5) :
    (sha1Hash sha1Compress).padding = sha256Padding := rfl

theorem sha1Hash_initial (sha1Compress : Vector Word 5 → List UInt8 → Vector Word 5) :
    (sha1Hash sha1Compress).initial = initial := by
  show #v[0x67452301, 0xEFCDAB89, 0x98BADCFE, 0x10325476, 0xC3D2E1F0] = initial
  decide +kernel

/-- **sha1-fast.c computes what sha1-naive.c computes**, on every state and block and whatever the
stack held, and with either of them `sha1_hash` computes SHA-1. -/
theorem sha1_fast_and_naive (uninit : Vector Word 16) (uninit' : Vector Word 80) :
    (∀ (state : Vector Word 5) (block : List UInt8),
      Fast.sha1Compress uninit state block = Naive.sha1Compress uninit' state block) ∧
    ∀ (message : List UInt8) (len : ℕ), len < 2 ^ 64 → len ≤ message.length →
      ∀ sha1Compress ∈ [Fast.sha1Compress uninit, Naive.sha1Compress uninit'],
        (sha1Hash sha1Compress).hash message len = some (sha1 (message.take len)) := by
  have hfast : Fast.sha1Compress uninit = standardCompress :=
    funext₂ fun state block => Fast.sha1Compress_eq uninit state block
  have hnaive : Naive.sha1Compress uninit' = standardCompress :=
    funext₂ fun state block => Naive.sha1Compress_eq uninit' state block
  rw [hfast, hnaive]
  refine ⟨fun _ _ => rfl, ?_⟩
  intro message len hlen hle sha1Compress hmem
  obtain rfl : sha1Compress = standardCompress := by simpa using hmem
  rw [Scheme.hash_eq _ message hlen hle, Scheme.standard_eq_fold, sha1Hash_padding,
    sha1Hash_initial]
  rfl

/-- Three bytes of a longer buffer. -/
theorem sha1_hash_abc :
    (sha1Hash (Fast.sha1Compress (Vector.replicate 16 0))).hash [97, 98, 99, 100] 3
      = some (sha1 [97, 98, 99]) :=
  (sha1_fast_and_naive (Vector.replicate 16 0) (Vector.replicate 80 0)).2 [97, 98, 99, 100] 3
    (by norm_num) (by simp) _ List.mem_cons_self

end Csnip.Hash.Sha1
