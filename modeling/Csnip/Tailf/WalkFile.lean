/-
The last lines of a file.

`walkFile` walks from the end of the file to its start and counts the newlines it meets,
except one that is the last byte.  At the one it looks for it stops, and `printLine` prints
what stands behind it.  The index, the position it sets in the stream and the count go back
together, and `Walking` is what they have in common at every index: the count is that of the
newlines from there on.

When the walk arrives at the start there are fewer newlines than asked for, and the whole
file is to be printed.  That is done only if there was one newline at least, so that a
file of one line is never printed: `prints_last_lines_iff`.

The buffer of the stream is not modelled: what is read is what is in the file at the call.  Where
somebody rewrites the file while it is open, the library may still answer from the buffer.
-/
import Csnip.Lib.Loop
import Csnip.Lib.Stdio
import Mathlib.Data.List.TakeDrop

namespace Csnip

open Stdio Loop

namespace Tailf

/-- `'\n'` -/
def newline : UInt8 := 10

/-- `EOF` in the `char` it is stored in. -/
def eofByte : UInt8 := 255

/-- `BUFF_SIZE` -/
def buffSize : ℕ := 4096

/-! ### Printing -/

/-- Read a buffer and write it, until there is nothing left. -/
def printRound :
    Descriptor × List UInt8 → Option (Round (Descriptor × List UInt8) (List UInt8))
  | (fd, written) =>
      match fd.read buffSize with
      | ([], _) => pure (.done written)
      | (buffer, fd) => pure (.again (fd, written ++ buffer))

/-- What `printLine` writes to the standard output. -/
def printLine (file : Stream) (startline : ℤ) : Option (List UInt8) :=
  let fd := (file.fileno.lseekSet (startline + 1)).2
  loop printRound (fd.bytes.length + 1) (fd, [])

theorem printRound_total (fd : Descriptor) :
    loop printRound (fd.bytes.length + 1) (fd, []) = some fd.rest := by
  have hfuel : fd.rest.length < fd.bytes.length + 1 := by
    rw [Descriptor.rest, List.length_drop]
    omega
  obtain ⟨written, hloop, rfl⟩ : ∃ written,
      loop printRound (fd.bytes.length + 1) (fd, []) = some written ∧ written = fd.rest := by
    refine loop_total printRound (I := fun r => r.2 ++ r.1.rest = fd.rest)
      (fun r => r.1.rest.length) ?_ _ _ rfl hfuel
    intro r hrest
    obtain ⟨fd', written⟩ := r
    dsimp only at hrest
    rcases fd'.read_cases (n := buffSize) (by decide) with
      ⟨hnil, hread⟩ | ⟨b, buffer, fd'', hread, happend⟩
    · refine .inr ⟨written, by simp only [printRound, hread], ?_⟩
      rw [← hrest, hnil, List.append_nil]
    · refine .inl ⟨(fd'', written ++ b :: buffer), by simp only [printRound, hread], ?_, ?_⟩
      · rw [← hrest, happend, List.append_assoc]
      · show fd''.rest.length < fd'.rest.length
        rw [happend, List.length_append, List.length_cons]
        omega
  exact hloop

/-- Everything behind `startline` is printed, whatever the size of the buffer. -/
theorem printLine_eq (file : Stream) {startline : ℤ} {p : ℕ} (h : startline + 1 = p) :
    printLine file startline = some (file.bytes.drop p) := by
  have hfd : (file.fileno.lseekSet (startline + 1)).2 = { bytes := file.bytes, pos := p } := by
    rw [h, Descriptor.lseekSet_natCast]
    rfl
  rw [printLine, hfd, printRound_total]
  rfl

/-! ### The walk -/

/-- The variables of the loop. -/
structure Walk where
  file : Stream
  fposition : ℤ
  index : ℤ
  countlines : ℤ

/-- Set the position before the byte just read: `fposition--`, `fseek` and `index --`. -/
def Walk.back (w : Walk) : Walk :=
  let fposition := w.fposition - 1
  { w with file := (w.file.fseekSet fposition).2, fposition, index := w.index - 1 }

def walkRound (nlines «end» : ℤ) (w : Walk) : Option (Round Walk Walk) :=
  if 0 ≤ w.index then
    let (c, file) := w.file.fgetc
    let cbyte := c.getD eofByte
    if cbyte = newline ∧ «end» - w.index > 1 then
      let w := { w with file, countlines := w.countlines + 1 }
      if w.countlines = nlines then pure (.done w) else pure (.again w.back)
    else pure (.again { w with file }.back)
  else pure (.done w)

/-- What a call writes to the standard output and to the standard error, and the `prev_end`
it leaves. -/
structure Walked where
  written : List UInt8
  messages : String
  prevEnd : ℤ
deriving Repr, DecidableEq

/-- What is said about a file that has become shorter. -/
def truncated (fposition prevEnd : ℤ) : String :=
  if fposition < prevEnd then "*** tail: file truncated\n" else ""

/-- The position in the stream is not part of the outcome: every call sets it first. -/
def walkFile (file : Stream) (prevEnd nlines : ℤ) : Option Walked := do
  let file := (file.fseekEnd 0).2
  let fposition := file.ftell
  if fposition = prevEnd then
    -- no new data since the last call
    return { written := [], messages := "", prevEnd }
  let messages := truncated fposition prevEnd
  let prevEnd := fposition
  let w ← loop (walkRound nlines fposition) (fposition.toNat + 2)
    { file, fposition, index := fposition, countlines := 0 }
  if w.countlines < 1 then
    return { written := [], messages, prevEnd }
  let written ← printLine w.file w.fposition
  return { written, messages, prevEnd }

/-! ### The walk goes back -/

/-- What the variables have in common at every index: the newlines from there on are
counted, except one that is the last byte of the file. -/
structure Walking (s : List UInt8) (nlines : ℤ) (w : Walk) : Prop where
  bytes : w.file.bytes = s
  faults : w.file.faults = []
  least : -1 ≤ w.index
  fposition : w.fposition = w.index
  position : ∀ i : ℕ, w.index = i → w.file.pos = i ∧ w.file.pushed = []
  countlines : w.countlines = (s.dropLast.drop (w.index + 1).toNat).count newline
  few : w.countlines < nlines

/-- Where the walk ends: before the first byte, with fewer newlines than asked for, or at
the newline asked for. -/
def Arrived (s : List UInt8) (nlines : ℤ) (w : Walk) : Prop :=
  w.file.bytes = s ∧
    ((w.fposition = -1 ∧ w.countlines = s.dropLast.count newline ∧ w.countlines < nlines) ∨
      ∃ i : ℕ, w.fposition = i ∧ w.countlines = nlines ∧ s.dropLast[i]? = some newline ∧
        (s.dropLast.drop i).count newline = nlines)

/-- The newlines that are counted are those before the last byte. -/
theorem counted_iff (s : List UInt8) (i : ℕ) :
    (s[i]?.getD eofByte = newline ∧ (s.length : ℤ) - i > 1) ↔
      s.dropLast[i]? = some newline := by
  have hbyte : s[i]?.getD eofByte = newline ↔ s[i]? = some newline := by
    cases s[i]? with
    | none => simp [eofByte, newline]
    | some b => simp
  rw [List.getElem?_dropLast, hbyte]
  by_cases hi : i < s.length - 1
  · rw [if_pos hi, and_iff_left]
    omega
  · have hlast : ¬ ((s.length : ℤ) - i > 1) := by omega
    simp [hi, hlast]

/-- The byte at `i` and those behind it. -/
theorem count_drop (l : List UInt8) (i : ℕ) :
    (l.drop i).count newline
      = (l.drop (i + 1)).count newline + if l[i]? = some newline then 1 else 0 := by
  rw [List.drop_eq_getElem?_toList_append, List.count_append, Nat.add_comm]
  congr 1
  cases l[i]? with
  | none => simp
  | some b => simp [List.count_cons]

section Walking

variable {s : List UInt8} {nlines : ℤ} {w : Walk}

/-- One position back, with the byte at `i` counted. -/
theorem walking_back (w : Walk) {i : ℕ} (hbytes : w.file.bytes = s) (hfaults : w.file.faults = [])
    (hfposition : w.fposition = i) (hindex : w.index = i)
    (hcount : w.countlines = (s.dropLast.drop i).count newline) (hfew : w.countlines < nlines) :
    Walking s nlines w.back := by
  have hfile : w.back.file = (w.file.fseekSet (i - 1)).2 := by rw [← hfposition]; rfl
  have hback : w.back.index = i - 1 := by rw [← hindex]; rfl
  have hsame : w.back.fposition = i - 1 := by rw [← hfposition]; rfl
  have hto : (w.back.index + 1).toNat = i := by omega
  refine ⟨?_, ?_, by omega, by rw [hsame, hback], ?_, by rw [hto]; exact hcount, hfew⟩
  · rw [hfile, Stream.bytes_fseekSet, hbytes]
  · rw [hfile, Stream.faults_fseekSet, hfaults]
  · intro j hj
    have hij : (i : ℤ) - 1 = j := hback ▸ hj
    rw [hfile, hij, Stream.fseekSet_natCast]
    exact ⟨rfl, rfl⟩

/-- A round that reads the byte at `i`, with what is counted said by the bytes of the file. -/
theorem walkRound_at (nlines : ℤ) {i : ℕ} {file : Stream} (hindex : w.index = i)
    (hgetc : w.file.fgetc = (s[i]?, file)) :
    walkRound nlines s.length w =
      if s.dropLast[i]? = some newline then
        if w.countlines + 1 = nlines then
          some (.done { w with file, countlines := w.countlines + 1 })
        else some (.again { w with file, countlines := w.countlines + 1 }.back)
      else some (.again { w with file }.back) := by
  have hread : 0 ≤ w.index := by omega
  rw [walkRound, if_pos hread, hgetc, hindex]
  simp only [counted_iff]
  rfl

theorem Walking.round (h : Walking s nlines w) :
    (∃ w', walkRound nlines s.length w = some (.again w') ∧ Walking s nlines w' ∧
      (w'.index + 1).toNat < (w.index + 1).toNat) ∨
    ∃ w', walkRound nlines s.length w = some (.done w') ∧ Arrived s nlines w' := by
  have hfew := h.few
  have hcount := h.countlines
  by_cases hindex : 0 ≤ w.index
  · obtain ⟨i, hi⟩ := Int.eq_ofNat_of_zero_le hindex
    obtain ⟨hpos, hpushed⟩ := h.position i hi
    obtain ⟨file, hgetc, hbytes, hfaults⟩ := Stream.fgetc_of_pushed_nil h.faults hpushed
    rw [hpos, h.bytes] at hgetc
    rw [h.bytes] at hbytes
    have hround := walkRound_at nlines hi hgetc
    have hfposition : w.fposition = i := h.fposition.trans hi
    have hto : (w.index + 1).toNat = i + 1 := by omega
    have hless : ∀ w' : Walk, w'.index = w.index - 1 →
        (w'.index + 1).toNat < (w.index + 1).toNat := by
      intro w' hw'
      omega
    rw [hto] at hcount
    have hdrop := count_drop s.dropLast i
    by_cases hc : s.dropLast[i]? = some newline
    · rw [if_pos hc] at hdrop hround
      have hcounted : w.countlines + 1 = (s.dropLast.drop i).count newline := by omega
      by_cases hlast : w.countlines + 1 = nlines
      · rw [if_pos hlast] at hround
        exact .inr ⟨_, hround, hbytes, .inr ⟨i, hfposition, hlast, hc, hcounted ▸ hlast⟩⟩
      · rw [if_neg hlast] at hround
        have hless' : w.countlines + 1 < nlines := by omega
        exact .inl ⟨_, hround,
          walking_back { w with file, countlines := w.countlines + 1 } hbytes hfaults
            hfposition hi hcounted hless', hless _ rfl⟩
    · rw [if_neg hc] at hdrop hround
      have hcounted : w.countlines = (s.dropLast.drop i).count newline := by omega
      exact .inl ⟨_, hround,
        walking_back { w with file } hbytes hfaults hfposition hi hcounted hfew, hless _ rfl⟩
  · have hleast := h.least
    have hend : w.index = -1 := by omega
    refine .inr ⟨w, if_neg hindex, h.bytes, .inl ⟨h.fposition.trans hend, ?_, hfew⟩⟩
    rw [hcount, hend]
    rfl

/-- The walk arrives, from wherever the stream stands. -/
theorem walk_total {f : Stream} (hfaults : f.faults = []) (hpushed : f.pushed = [])
    (hpos : f.pos = f.bytes.length) (hnlines : 1 ≤ nlines) :
    ∃ w, loop (walkRound nlines f.bytes.length) (f.bytes.length + 2)
      ⟨f, f.bytes.length, f.bytes.length, 0⟩ = some w ∧ Arrived f.bytes nlines w := by
  refine loop_total (walkRound nlines f.bytes.length) (I := Walking f.bytes nlines)
    (fun w => (w.index + 1).toNat) (fun w hw => hw.round) _ _ ?_ ?_
  · have hto : ((f.bytes.length : ℤ) + 1).toNat = f.bytes.length + 1 := by omega
    refine ⟨rfl, hfaults, by dsimp only; omega, rfl, ?_, ?_, by dsimp only; omega⟩
    · intro i hi
      exact ⟨by dsimp only at hi ⊢; omega, hpushed⟩
    · have hnil : f.bytes.dropLast.drop (f.bytes.length + 1) = [] :=
        List.drop_eq_nil_of_le (by rw [List.length_dropLast]; omega)
      dsimp only
      rw [hto, hnil]
      rfl
  · dsimp only
    omega

end Walking

/-! ### The last lines -/

/-- The last `nlines` lines of a file: what stands behind the newline that is the
`nlines`-th from the end, where one that is the last byte of the file does not count, or
everything if there are fewer. -/
def LastLines (nlines : ℤ) (s out : List UInt8) : Prop :=
  ((s.dropLast.count newline : ℤ) < nlines ∧ out = s) ∨
    ∃ before, s = before ++ newline :: out ∧ out ≠ [] ∧
      (out.dropLast.count newline : ℤ) + 1 = nlines

theorem count_behind (before : List UInt8) {out : List UInt8} (h : out ≠ []) :
    (before ++ newline :: out).dropLast.count newline
      = before.count newline + out.dropLast.count newline + 1 := by
  obtain ⟨b, rest, rfl⟩ := List.exists_cons_of_ne_nil h
  rw [List.dropLast_append_cons, List.dropLast_cons_cons, List.count_append,
    List.count_cons_self]
  omega

/-- A newline is determined by how many stand behind it. -/
theorem behind_unique {a b c d : List UInt8} (h : a ++ newline :: b = c ++ newline :: d)
    (hb : b ≠ []) (hd : d ≠ []) (hcount : b.dropLast.count newline = d.dropLast.count newline) :
    b = d := by
  rcases List.append_eq_append_iff.mp h with ⟨m, rfl, hm⟩ | ⟨m, rfl, hm⟩
  · cases m with
    | nil => simpa using hm
    | cons x m =>
        have hsplit : b = m ++ newline :: d := (List.cons.inj hm).2
        rw [hsplit, count_behind m hd] at hcount
        omega
  · cases m with
    | nil => simpa using hm.symm
    | cons x m =>
        have hsplit : d = m ++ newline :: b := (List.cons.inj hm).2
        rw [hsplit, count_behind m hb] at hcount
        omega

/-- There is one answer. -/
theorem LastLines.unique {nlines : ℤ} {s a b : List UInt8} (ha : LastLines nlines s a)
    (hb : LastLines nlines s b) : a = b := by
  rcases ha with ⟨hfew, rfl⟩ | ⟨before, rfl, hne, hcount⟩ <;>
    rcases hb with ⟨hfew', rfl⟩ | ⟨before', hs, hne', hcount'⟩
  · rfl
  · rw [hs, count_behind before' hne'] at hfew
    omega
  · rw [count_behind before hne] at hfew'
    omega
  · exact behind_unique hs hne hne' (by omega)

/-- Behind the place where the walk ends stand the last lines. -/
theorem Arrived.lastLines {s : List UInt8} {nlines : ℤ} {w : Walk} (h : Arrived s nlines w) :
    ∃ p : ℕ, w.fposition + 1 = p ∧ LastLines nlines s (s.drop p) := by
  obtain ⟨-, ⟨hstart, hcount, hfew⟩ | ⟨i, hi, -, hnewline, hcount⟩⟩ := h
  · exact ⟨0, by omega, .inl ⟨by omega, rfl⟩⟩
  · have hi' : i < s.dropLast.length := (List.getElem?_eq_some_iff.mp hnewline).1
    have hbyte : s[i]? = some newline := by
      rw [List.getElem?_dropLast] at hnewline
      split at hnewline
      · exact hnewline
      · cases hnewline
    rw [List.length_dropLast] at hi'
    refine ⟨i + 1, by omega, .inr ⟨s.take i, ?_, ?_, ?_⟩⟩
    · calc s = s.take i ++ s.drop i := (List.take_append_drop i s).symm
        _ = s.take i ++ newline :: s.drop (i + 1) := by
            rw [List.drop_eq_getElem?_toList_append, hbyte]
            rfl
    · intro hnil
      have hle := List.drop_eq_nil_iff.mp hnil
      omega
    · rw [count_drop, if_pos hnewline] at hcount
      rw [List.dropLast_drop_eq_drop_dropLast]
      exact_mod_cast hcount

/-- Whether a newline was counted. -/
theorem Arrived.countlines_lt_iff {s : List UInt8} {nlines : ℤ} {w : Walk}
    (h : Arrived s nlines w) (hnlines : 1 ≤ nlines) :
    w.countlines < 1 ↔ newline ∉ s.dropLast := by
  obtain ⟨-, ⟨-, hcount, -⟩ | ⟨i, -, hcount, hnewline, -⟩⟩ := h
  · rw [← List.count_eq_zero]
    omega
  · have hmem : newline ∈ s.dropLast := List.mem_of_getElem? hnewline
    have hsome : ¬ w.countlines < 1 := by omega
    exact iff_of_false hsome (not_not_intro hmem)

/-! ### A call -/

theorem walkFile_same (f : Stream) (nlines : ℤ) :
    walkFile f f.bytes.length nlines = some ⟨[], "", f.bytes.length⟩ := by
  simp [walkFile, Stream.fseekEnd_zero, Stream.ftell]

/-- The walk starts at the end of the file, and printing is all that is left behind it. -/
theorem walkFile_of_walk {f : Stream} {prevEnd nlines : ℤ} {w : Walk}
    (hnew : prevEnd ≠ f.bytes.length)
    (hloop : loop (walkRound nlines f.bytes.length) (f.bytes.length + 2)
      ⟨{ f with pos := f.bytes.length, pushed := [], eof := false }, f.bytes.length,
        f.bytes.length, 0⟩ = some w) :
    walkFile f prevEnd nlines =
      if w.countlines < 1 then some ⟨[], truncated f.bytes.length prevEnd, f.bytes.length⟩
      else (printLine w.file w.fposition).map
        (⟨·, truncated f.bytes.length prevEnd, f.bytes.length⟩) := by
  have htell : ({ f with pos := f.bytes.length, pushed := [], eof := false } : Stream).ftell
      = f.bytes.length := by simp [Stream.ftell]
  have hfuel : ((f.bytes.length : ℤ)).toNat + 2 = f.bytes.length + 2 := by omega
  rw [walkFile, Stream.fseekEnd_zero]
  dsimp only
  rw [htell, if_neg hnew.symm, hfuel, hloop]
  by_cases hcount : w.countlines < 1
  · simp [hcount]
  · cases hprint : printLine w.file w.fposition <;> simp [hcount, hprint]

/-- With new data: the last lines are printed if a newline is counted, and nothing is if
none is. -/
theorem walkFile_new {f : Stream} (hfaults : f.faults = []) {prevEnd nlines : ℤ}
    (hnlines : 1 ≤ nlines) (hnew : prevEnd ≠ f.bytes.length) :
    ∃ r, walkFile f prevEnd nlines = some r ∧ r.prevEnd = f.bytes.length ∧
      (newline ∈ f.bytes.dropLast → LastLines nlines f.bytes r.written) ∧
      (newline ∉ f.bytes.dropLast → r.written = []) := by
  obtain ⟨w, hloop, harrived⟩ := walk_total
    (f := { f with pos := f.bytes.length, pushed := [], eof := false }) hfaults rfl rfl hnlines
  have hcall := walkFile_of_walk hnew hloop
  have hprinted := harrived.countlines_lt_iff hnlines
  by_cases hcounted : newline ∈ f.bytes.dropLast
  · have hcount : ¬ w.countlines < 1 := mt hprinted.mp (not_not_intro hcounted)
    obtain ⟨p, hp, hlast⟩ := harrived.lastLines
    rw [if_neg hcount, printLine_eq w.file hp, harrived.1] at hcall
    exact ⟨_, hcall, rfl, fun _ => hlast, fun h => absurd hcounted h⟩
  · rw [if_pos (hprinted.mpr hcounted)] at hcall
    exact ⟨_, hcall, rfl, fun h => absurd h hcounted, fun _ => rfl⟩

/-- What a call is for: the last lines are printed and `prev_end` is the size of the file,
and nothing is said when that is what it was. -/
def PrintsLastLines (f : Stream) (prevEnd nlines : ℤ) : Prop :=
  ∃ r, walkFile f prevEnd nlines = some r ∧ r.prevEnd = f.bytes.length ∧
    if prevEnd = f.bytes.length then r.written = [] ∧ r.messages = ""
    else LastLines nlines f.bytes r.written

theorem LastLines.ne_nil {nlines : ℤ} {s out : List UInt8} (h : LastLines nlines s out)
    (hs : s ≠ []) : out ≠ [] := by
  rcases h with ⟨-, rfl⟩ | ⟨-, -, hne, -⟩
  · exact hs
  · exact hne

/-- **The last lines are printed exactly if there is no new data or a newline stands before
the last byte.**  Without one the file is a single line, and it is not printed. -/
theorem prints_last_lines_iff {f : Stream} (hfaults : f.faults = []) (hsome : f.bytes ≠ [])
    (prevEnd : ℤ) {nlines : ℤ} (hnlines : 1 ≤ nlines) :
    PrintsLastLines f prevEnd nlines ↔
      prevEnd = f.bytes.length ∨ newline ∈ f.bytes.dropLast := by
  by_cases hnew : prevEnd = f.bytes.length
  · have hsame := walkFile_same f nlines
    rw [← hnew] at hsame
    exact iff_of_true ⟨_, hsame, hnew, by rw [if_pos hnew]; exact ⟨rfl, rfl⟩⟩ (.inl hnew)
  · obtain ⟨r, hcall, hprev, hprinted, hsilent⟩ := walkFile_new hfaults hnlines hnew
    constructor
    · intro ⟨r', hcall', _, hlast⟩
      obtain rfl : r = r' := Option.some.inj (hcall.symm.trans hcall')
      rw [if_neg hnew] at hlast
      by_contra hnone
      exact hlast.ne_nil hsome (hsilent fun hmem => hnone (.inr hmem))
    · intro h
      rcases h with hsame | hmem
      · exact absurd hsame hnew
      · exact ⟨r, hcall, hprev, by rw [if_neg hnew]; exact hprinted hmem⟩

/-- Two lines, of which the second is printed. -/
theorem prints_last_lines_two : PrintsLastLines (.fopen [97, newline, 98, newline] []) 0 1 :=
  (prints_last_lines_iff rfl (by decide) 0 (by decide)).mpr (.inr (by decide))

/-- One line: it is the last one, and nothing is printed. -/
theorem single_line_not_printed :
    walkFile (.fopen [97, 98, 99, newline] []) 0 1 = some ⟨[], "", 4⟩ ∧
      LastLines 1 [97, 98, 99, newline] [97, 98, 99, newline] ∧
      ¬ PrintsLastLines (.fopen [97, 98, 99, newline] []) 0 1 := by
  have hcall : walkFile (.fopen [97, 98, 99, newline] []) 0 1 = some ⟨[], "", 4⟩ := by decide
  refine ⟨hcall, .inl ⟨by decide, rfl⟩, ?_⟩
  intro ⟨r, hr, _, hlast⟩
  obtain rfl := Option.some.inj (hcall.symm.trans hr)
  exact LastLines.ne_nil hlast (by decide) rfl

end Tailf

end Csnip
