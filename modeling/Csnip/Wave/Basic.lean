/-
The data of wavecuepoint.c.

`addMarkersToWaveFile` runs on a host whose byte order it finds out and provides for, and
whose `char` may be signed or not; `long` has 64 bits.  What it gets from outside is in
`Env`: which requests for memory are granted, and the bytes that lie on the stack where a
local variable was not initialised.  The C structs consist of `char` arrays only, so that
they are rows of bytes and their fields pieces of them.

The messages on the two standard streams are left out.
-/
import Csnip.Lib.Outcome
import Csnip.Lib.Stdio
import Csnip.Lib.LittleEndian

namespace Csnip.Wave

open LittleEndian Stdio

/-! ### The host -/

/-- What differs between the hosts the program is compiled for. -/
structure Host where
  /-- `getHostEndianness() == LittleEndian` -/
  littleEndian : Bool
  charSigned : Bool
deriving Repr, DecidableEq

/-- What a run gets from outside. -/
structure Env extends Host where
  /-- whether `malloc` of so many bytes succeeds -/
  malloc : ℕ → Bool
  /-- what two bytes of the stack hold that were not written to, when the input file stands
  at the given position -/
  stack : ℤ → UInt8 × UInt8

/-- The number the host takes four bytes of its memory for. -/
def Host.uint32 (host : Host) (memory : List UInt8) : ℕ :=
  leNat (if host.littleEndian then memory else memory.reverse)

/-- How the host holds a 32-bit number in memory. -/
def Host.memory (host : Host) (n : ℕ) : List UInt8 :=
  if host.littleEndian then leBytes 4 n else (leBytes 4 n).reverse

/-- The value of a `char`. -/
def Host.char (host : Host) (b : UInt8) : ℤ :=
  if host.charSigned then signed 1 b.toNat else b.toNat

/-- A 32-bit unsigned number. -/
def u32 (n : ℕ) : ℕ := n % 2 ^ 32

theorem u32_of_lt {n : ℕ} (h : n < 2 ^ 32) : u32 n = n := Nat.mod_eq_of_lt h

def littleEndianBytesToUInt32 (host : Host) (littleEndianBytes : List UInt8) : ℕ :=
  let uintValueBytes :=
    if host.littleEndian then littleEndianBytes else littleEndianBytes.reverse
  host.uint32 uintValueBytes

def uint32ToLittleEndianBytes (host : Host) (uInt32Value : ℕ) : List UInt8 :=
  let uintValueBytes := host.memory uInt32Value
  if host.littleEndian then uintValueBytes else uintValueBytes.reverse

/-- The value is held in 32 bits, of which the two bytes are copied to the first two; the
other two are not written to.  The lower 16 bits are returned. -/
def littleEndianBytesToUInt16 (host : Host) (stack : UInt8 × UInt8)
    (littleEndianBytes : List UInt8) : ℕ :=
  let two := littleEndianBytes.take 2
  let uintValueBytes := (if host.littleEndian then two else two.reverse) ++ [stack.1, stack.2]
  host.uint32 uintValueBytes % 2 ^ 16

/-! ### The chunks -/

/-- `sizeof(WaveHeader)` -/
def sizeofWaveHeader : ℕ := 12

/-- `sizeof(FormatChunk)` -/
def sizeofFormatChunk : ℕ := 24

/-- `sizeof(CuePoint)` -/
def sizeofCuePoint : ℕ := 24

/-- `n` bytes of a struct from the given place on. -/
def field (struct : List UInt8) (place n : ℕ) : List UInt8 := (struct.drop place).take n

/-- "RIFF" -/
def riffID : List UInt8 := [82, 73, 70, 70]

/-- "WAVE" -/
def waveID : List UInt8 := [87, 65, 86, 69]

/-- "fmt " -/
def fmtID : List UInt8 := [102, 109, 116, 32]

/-- "data" -/
def dataID : List UInt8 := [100, 97, 116, 97]

/-- "cue " -/
def cueID : List UInt8 := [99, 117, 101, 32]

/-- `CueChunk` -/
structure CueChunk where
  chunkID : List UInt8
  chunkDataSize : List UInt8
  cuePointsCount : List UInt8
  cuePoints : List (List UInt8)
deriving Repr, DecidableEq

/-- `ChunkLocation`: where a piece of the input file is. -/
structure ChunkLocation where
  startOffset : ℤ
  size : ℤ
deriving Repr, DecidableEq

inductive CuePointMergingOption where
  | mergeWithAnyExistingCuePoints
  | replaceAnyExistingCuePoints
deriving Repr, DecidableEq

/-! ### Leaving through `CleanUpAndExit` -/

/-- Leave with -1 if the condition holds. -/
def exitIf (p : Prop) [Decidable p] : Outcome Unit := if p then .exit (-1) else .ok ()

/-- `fread`, and the check of `ferror` after it. -/
def freadOrExit (f : Stream) (n : ℕ) : Outcome (List UInt8 × Stream) := do
  let (bytes, f) := f.fread n
  exitIf (f.error = true)
  pure (bytes, f)

/-- What was read into a variable that was not initialised: it has a value only if all of
it was read. -/
def complete (n : ℕ) (bytes : List UInt8) : Outcome (List UInt8) :=
  if bytes.length = n then .ok bytes else .undefined

/-! ### What the functions compute -/

@[simp] theorem exitIf_of_not {p : Prop} [Decidable p] (h : ¬ p) : exitIf p = .ok () := if_neg h

theorem complete_of_length {n : ℕ} {bytes : List UInt8} (h : bytes.length = n) :
    complete n bytes = .ok bytes := if_pos h

/-- Both hosts read the number. -/
theorem littleEndianBytesToUInt32_eq (host : Host) (bytes : List UInt8) :
    littleEndianBytesToUInt32 host bytes = leNat bytes := by
  unfold littleEndianBytesToUInt32 Host.uint32
  by_cases h : host.littleEndian = true
  · simp only [if_pos h]
  · simp only [if_neg h, List.reverse_reverse]

/-- Both hosts write the number. -/
theorem uint32ToLittleEndianBytes_eq (host : Host) (n : ℕ) :
    uint32ToLittleEndianBytes host n = leBytes 4 n := by
  unfold uint32ToLittleEndianBytes Host.memory
  by_cases h : host.littleEndian = true
  · simp only [if_pos h]
  · simp only [if_neg h, List.reverse_reverse]

/-- A little-endian host reads the number, whatever the stack holds. -/
theorem littleEndianBytesToUInt16_of_littleEndian {host : Host} (h : host.littleEndian = true)
    (stack : UInt8 × UInt8) {bytes : List UInt8} (hlen : 2 ≤ bytes.length) :
    littleEndianBytesToUInt16 host stack bytes = leNat (bytes.take 2) := by
  obtain ⟨b₀, b₁, rest, rfl⟩ : ∃ b₀ b₁ rest, bytes = b₀ :: b₁ :: rest := by
    match bytes, hlen with
    | b₀ :: b₁ :: rest, _ => exact ⟨b₀, b₁, rest, rfl⟩
  have h₀ := b₀.toNat_lt
  have h₁ := b₁.toNat_lt
  simp only [littleEndianBytesToUInt16, Host.uint32, if_pos h, List.take_succ_cons,
    List.take_zero, List.cons_append, List.nil_append, leNat]
  omega

/-- The number a big-endian host returns is made of the two bytes that were not written
to. -/
theorem littleEndianBytesToUInt16_of_bigEndian {host : Host} (h : host.littleEndian = false)
    (stack : UInt8 × UInt8) {bytes : List UInt8} (hlen : 2 ≤ bytes.length) :
    littleEndianBytesToUInt16 host stack bytes = leNat [stack.2, stack.1] := by
  obtain ⟨b₀, b₁, rest, rfl⟩ : ∃ b₀ b₁ rest, bytes = b₀ :: b₁ :: rest := by
    match bytes, hlen with
    | b₀ :: b₁ :: rest, _ => exact ⟨b₀, b₁, rest, rfl⟩
  have h₀ := stack.1.toNat_lt
  have h₁ := stack.2.toNat_lt
  have hbig : ¬ host.littleEndian = true := by rw [h]; decide
  simp only [littleEndianBytesToUInt16, Host.uint32, if_neg hbig, List.take_succ_cons,
    List.take_zero, List.reverse_cons, List.reverse_nil, List.cons_append, List.nil_append,
    leNat]
  omega

end Csnip.Wave
