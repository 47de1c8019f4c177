/-
Streams of the C library.

`Stream` is a file opened for reading: its bytes, the position of the next one, the bytes
pushed back in front of it, and the two flags.  `Sink` is a file opened for writing, with
what was written so far.  `faults` says which of the next transfers fail, and those after
the list succeed; a stream without faults is one whose transfers all succeed.  `Descriptor`
is the file beneath a stream, whose own reads do not fail.

Positions are offsets from the start of the file.  A position is not limited by the length
of the file: it may be set behind the end, and the next transfer meets the end there.
-/
import Mathlib.Data.Int.Notation
import Mathlib.Data.List.Basic
import Mathlib.Order.Lattice

namespace Stdio

/-! ### Reading -/

/-- A file open for reading. -/
structure Stream where
  bytes : List UInt8
  pos : ℕ
  pushed : List UInt8
  /-- the end-of-file indicator, `feof` -/
  eof : Bool
  /-- the error indicator, `ferror` -/
  error : Bool
  faults : List Bool
deriving Repr, DecidableEq

namespace Stream

/-- `fopen` of a file that is there. -/
def fopen (bytes : List UInt8) (faults : List Bool) : Stream :=
  { bytes, pos := 0, pushed := [], eof := false, error := false, faults }

/-- What is still to be read. -/
def rest (f : Stream) : List UInt8 := f.pushed ++ f.bytes.drop f.pos

/-- Take note of the outcome of a transfer. -/
def transfer (f : Stream) : Bool × Stream :=
  (f.faults.headD false, { f with faults := f.faults.tail })

/-- `fread` of `n` bytes: those it read, fewer than `n` at the end of the file. -/
def fread (f : Stream) (n : ℕ) : List UInt8 × Stream :=
  let (failed, f) := f.transfer
  if failed then ([], { f with error := true })
  else
    (f.rest.take n, { f with
      pos := min (f.pos + (n - f.pushed.length)) (max f.pos f.bytes.length)
      pushed := f.pushed.drop n
      eof := f.eof || decide (f.rest.length < n) })

/-- `fgetc`: the next byte, `none` for `EOF`. -/
def fgetc (f : Stream) : Option UInt8 × Stream :=
  let (failed, f) := f.transfer
  if failed then (none, { f with error := true })
  else
    match f.pushed with
    | b :: pushed => (some b, { f with pushed })
    | [] =>
        match f.bytes[f.pos]? with
        | some b => (some b, { f with pos := f.pos + 1 })
        | none => (none, { f with eof := true })

/-- `ungetc` of a byte. -/
def ungetc (f : Stream) (b : UInt8) : Stream := { f with pushed := b :: f.pushed, eof := false }

/-- `ftell` -/
def ftell (f : Stream) : ℤ := f.pos - f.pushed.length

/-- `fseek` from the start of the file: -1 for a position before it. -/
def fseekSet (f : Stream) (offset : ℤ) : ℤ × Stream :=
  if offset < 0 then (-1, f)
  else (0, { f with pos := offset.toNat, pushed := [], eof := false })

/-- `fseek` from the current position. -/
def fseekCur (f : Stream) (offset : ℤ) : ℤ × Stream := f.fseekSet (f.ftell + offset)

/-- `fseek` from the end of the file. -/
def fseekEnd (f : Stream) (offset : ℤ) : ℤ × Stream := f.fseekSet (f.bytes.length + offset)

/-- A stream whose transfers succeed, in the file `bytes` at the position `p`, with nothing
pushed back and the end not met. -/
def «at» (bytes : List UInt8) (p : ℕ) : Stream :=
  { bytes, pos := p, pushed := [], eof := false, error := false, faults := [] }

/-- Reading what is left of a file whose end may have been met. -/
theorem fread_met (bytes : List UInt8) (p n : ℕ) (met : Bool) :
    ({ Stream.at bytes p with eof := met } : Stream).fread n = ((bytes.drop p).take n,
      { Stream.at bytes (min (p + n) (max p bytes.length)) with
        eof := met || decide (bytes.length - p < n) }) := by
  simp [fread, transfer, Stream.at, rest]

/-- Reading a piece that is there. -/
theorem fread_at {bytes : List UInt8} {p n : ℕ} (h : p + n ≤ bytes.length) :
    (Stream.at bytes p).fread n = ((bytes.drop p).take n, .at bytes (p + n)) := by
  have hpos : min (p + n) (max p bytes.length) = p + n := by omega
  have heof : decide (bytes.length - p < n) = false := decide_eq_false (by omega)
  have hread := fread_met bytes p n false
  rw [hpos, heof] at hread
  exact hread

/-- Reading at the end of the file. -/
theorem fread_end {bytes : List UInt8} {p n : ℕ} (h : bytes.length ≤ p) (hn : 0 < n)
    (met : Bool) : ({ Stream.at bytes p with eof := met } : Stream).fread n
      = ([], { Stream.at bytes p with eof := true }) := by
  have hpos : min (p + n) (max p bytes.length) = p := by omega
  have hnone : bytes.drop p = [] := List.drop_eq_nil_of_le h
  have heof : (met || decide (bytes.length - p < n)) = true := by
    rw [decide_eq_true (by omega), Bool.or_true]
  rw [fread_met, hpos, hnone, heof, List.take_nil]

@[simp] theorem ftell_at (bytes : List UInt8) (p : ℕ) : (Stream.at bytes p).ftell = p := by
  simp [ftell, Stream.at]

/-- A position that is not before the start can be set. -/
theorem fseekSet_natCast (f : Stream) (p : ℕ) :
    f.fseekSet p = (0, { f with pos := p, pushed := [], eof := false }) := by
  have hneg : ¬ (p : ℤ) < 0 := by omega
  rw [fseekSet, if_neg hneg, Int.toNat_natCast]

@[simp] theorem bytes_fseekSet (f : Stream) (offset : ℤ) :
    (f.fseekSet offset).2.bytes = f.bytes := by
  rw [fseekSet]
  split <;> rfl

@[simp] theorem faults_fseekSet (f : Stream) (offset : ℤ) :
    (f.fseekSet offset).2.faults = f.faults := by
  rw [fseekSet]
  split <;> rfl

theorem fseekEnd_zero (f : Stream) :
    f.fseekEnd 0 = (0, { f with pos := f.bytes.length, pushed := [], eof := false }) := by
  rw [fseekEnd, Int.add_zero, fseekSet_natCast]

/-- Setting the position, at the end of the file or not. -/
theorem fseekSet_at {bytes : List UInt8} {p : ℕ} (f : Stream) (hbytes : f.bytes = bytes)
    (herror : f.error = false) (hfaults : f.faults = []) :
    f.fseekSet p = (0, .at bytes p) := by
  rw [fseekSet_natCast, Stream.at, ← hbytes, ← herror, ← hfaults]

theorem fseekCur_at {bytes : List UInt8} {p q : ℕ} {offset : ℤ} (h : p + offset = q) :
    (Stream.at bytes p).fseekCur offset = (0, .at bytes q) := by
  rw [fseekCur, ftell_at, h]
  exact fseekSet_at _ rfl rfl rfl

/-! ### One byte at a time -/

/-- The byte at the position, wherever that is: `none` behind the last one. -/
theorem fgetc_of_pushed_nil {f : Stream} (hfaults : f.faults = []) (hpushed : f.pushed = []) :
    ∃ g, f.fgetc = (f.bytes[f.pos]?, g) ∧ g.bytes = f.bytes ∧ g.faults = [] := by
  obtain ⟨bytes, pos, pushed, eof, error, faults⟩ := f
  obtain rfl : faults = [] := hfaults
  obtain rfl : pushed = [] := hpushed
  cases hb : bytes[pos]? with
  | none => simp [fgetc, transfer, hb]
  | some b => simp [fgetc, transfer, hb]

theorem fgetc_cons {f : Stream} {b : UInt8} {t : List UInt8} (hfaults : f.faults = [])
    (hrest : f.rest = b :: t) :
    ∃ g, f.fgetc = (some b, g) ∧ g.rest = t ∧ g.eof = f.eof ∧ g.faults = [] := by
  obtain ⟨bytes, pos, pushed, eof, error, faults⟩ := f
  obtain rfl : faults = [] := hfaults
  cases pushed with
  | cons c pushed =>
      simp only [rest, List.cons_append, List.cons.injEq] at hrest
      obtain ⟨rfl, hrest⟩ := hrest
      exact ⟨_, rfl, hrest, rfl, rfl⟩
  | nil =>
      simp only [rest, List.nil_append] at hrest
      have hpos : pos < bytes.length := by
        by_contra hge
        rw [List.drop_eq_nil_of_le (by omega)] at hrest
        cases hrest
      have hb : bytes[pos]? = some b := by
        rw [← List.head?_drop, hrest]
        rfl
      have ht : bytes.drop (pos + 1) = t := by
        rw [← List.tail_drop, hrest]
        rfl
      refine ⟨{ bytes, pos := pos + 1, pushed := [], eof, error, faults := [] }, ?_, ?_, rfl,
        rfl⟩
      · simp [fgetc, transfer, hb]
      · simp [rest, ht]

theorem fgetc_nil {f : Stream} (hfaults : f.faults = []) (hrest : f.rest = []) :
    ∃ g, f.fgetc = (none, g) ∧ g.rest = [] ∧ g.eof = true ∧ g.faults = [] := by
  obtain ⟨bytes, pos, pushed, eof, error, faults⟩ := f
  obtain rfl : faults = [] := hfaults
  simp only [rest, List.append_eq_nil_iff, List.drop_eq_nil_iff] at hrest
  obtain ⟨rfl, hpos⟩ := hrest
  refine ⟨{ bytes, pos, pushed := [], eof := true, error, faults := [] }, ?_, ?_, rfl, rfl⟩
  · simp [fgetc, transfer, List.getElem?_eq_none hpos]
  · simp [rest, hpos]

@[simp] theorem rest_ungetc (f : Stream) (b : UInt8) : (f.ungetc b).rest = b :: f.rest := rfl

@[simp] theorem faults_ungetc (f : Stream) (b : UInt8) : (f.ungetc b).faults = f.faults := rfl

@[simp] theorem eof_ungetc (f : Stream) (b : UInt8) : (f.ungetc b).eof = false := rfl

end Stream

/-! ### Descriptors -/

/-- An open file beneath a stream: its bytes and the offset of the next one. -/
structure Descriptor where
  bytes : List UInt8
  pos : ℕ
deriving Repr, DecidableEq

/-- `fileno`.  What the stream has read ahead is not modelled: the offset is that of the
stream. -/
def Stream.fileno (f : Stream) : Descriptor := { bytes := f.bytes, pos := f.pos }

namespace Descriptor

/-- What is still to be read. -/
def rest (fd : Descriptor) : List UInt8 := fd.bytes.drop fd.pos

/-- `lseek` from the start of the file: -1 for an offset before it. -/
def lseekSet (fd : Descriptor) (offset : ℤ) : ℤ × Descriptor :=
  if offset < 0 then (-1, fd) else (offset, { fd with pos := offset.toNat })

/-- `read` of `n` bytes: those that are there. -/
def read (fd : Descriptor) (n : ℕ) : List UInt8 × Descriptor :=
  let bytes := fd.rest.take n
  (bytes, { fd with pos := fd.pos + bytes.length })

theorem lseekSet_natCast (fd : Descriptor) (p : ℕ) :
    fd.lseekSet p = ((p : ℤ), { fd with pos := p }) := by
  have hneg : ¬ (p : ℤ) < 0 := by omega
  rw [lseekSet, if_neg hneg, Int.toNat_natCast]

/-- A read comes to the end of the file, or takes some of what is left. -/
theorem read_cases (fd : Descriptor) {n : ℕ} (hn : 0 < n) :
    (fd.rest = [] ∧ fd.read n = ([], fd)) ∨
      ∃ b bytes fd', fd.read n = (b :: bytes, fd') ∧ fd.rest = b :: bytes ++ fd'.rest := by
  cases htake : fd.rest.take n with
  | nil =>
      have hnil : fd.rest = [] := by
        rcases List.take_eq_nil_iff.mp htake with hzero | hnil
        · omega
        · exact hnil
      exact .inl ⟨hnil, by simp [read, hnil]⟩
  | cons b bytes =>
      refine .inr ⟨b, bytes, { fd with pos := fd.pos + (b :: bytes).length },
        by rw [read, htake], ?_⟩
      have hdrop : fd.rest.drop (b :: bytes).length = fd.rest.drop n := by
        rw [← htake, List.length_take]
        rcases Nat.le_total n fd.rest.length with hle | hge
        · rw [Nat.min_eq_left hle]
        · rw [Nat.min_eq_right hge, List.drop_length, List.drop_eq_nil_of_le hge]
      calc fd.rest = fd.rest.take n ++ fd.rest.drop n := (List.take_append_drop n fd.rest).symm
        _ = b :: bytes ++ fd.rest.drop (b :: bytes).length := by rw [htake, hdrop]
        _ = b :: bytes ++ fd.bytes.drop (fd.pos + (b :: bytes).length) := by
            rw [rest, List.drop_drop]

end Descriptor

/-! ### Writing -/

/-- A file open for writing. -/
structure Sink where
  bytes : List UInt8
  faults : List Bool
deriving Repr, DecidableEq

/-- `fwrite` of `bytes`: how many of them it wrote. -/
def Sink.fwrite (f : Sink) (bytes : List UInt8) : ℕ × Sink :=
  let g := { f with faults := f.faults.tail }
  if f.faults.headD false then (0, g)
  else (bytes.length, { g with bytes := g.bytes ++ bytes })

/-- A sink whose transfers succeed, with what it received. -/
def Sink.of (bytes : List UInt8) : Sink := { bytes, faults := [] }

@[simp] theorem Sink.fwrite_of (written bytes : List UInt8) :
    (Sink.of written).fwrite bytes = (bytes.length, .of (written ++ bytes)) := rfl

end Stdio
