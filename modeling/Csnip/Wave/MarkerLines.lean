/-
What the markers file is read as.

`locations` is the abstract reader: it goes through the text once, with the digits of the
current line in hand, and gives the numbers of the lines.  `readMarkers_locations` says
that the two nested loops compute it for every text, as long as there are at most a
thousand numbers; `locations_markerText` says what it gives for a text of positions.

The inner loop keeps `locations` of the digits in the array and the characters ahead; it
ends when the end of a line, or of the file, is behind it.  The outer loop is measured by
the line ends ahead and by whether the end of the file was met: the last character may be
pushed back after the end was met, and it is then not a line end.
-/
import Csnip.Wave.Format
import Mathlib.Data.List.Induction

namespace Csnip.Wave

open Stdio Loop Memory LittleEndian

/-! ### The abstract reader -/

/-- The number of a line: none for a line without digits, nor for the largest number. -/
def lineNumber (digits : List UInt8) : List ℕ :=
  if digits ≠ [] ∧ (decimal digits : ℤ) < uint32Max then [decimal digits] else []

def isLineEnd (c : UInt8) : Bool := c == carriageReturn || c == lineFeed

/-- The numbers of the lines, where `line` holds the digits of the current one. -/
def locations (line : List UInt8) : List UInt8 → List ℕ
  | [] => lineNumber line
  | c :: text =>
      if isLineEnd c then lineNumber line ++ locations [] text
      else if isDigit c && decide (line.length < 10) then locations (line ++ [c]) text
      else locations line text

theorem lineNumber_nil : lineNumber [] = [] := by simp [lineNumber]

/-! ### Digits -/

theorem decimal_append (digits : List UInt8) (c : UInt8) :
    decimal (digits ++ [c]) = 10 * decimal digits + (c.toNat - 48) := by
  simp [decimal, List.foldl_append]

theorem decimal_lt {digits : List UInt8} (h : ∀ c ∈ digits, isDigit c = true) :
    decimal digits < 10 ^ digits.length := by
  induction digits using List.reverseRecOn with
  | nil => simp [decimal]
  | append_singleton digits c ih =>
      have hc : 48 ≤ c.toNat ∧ c.toNat ≤ 57 := by
        simpa [isDigit] using h c (by simp)
      have hdigits := ih fun d hd => h d (by simp [hd])
      rw [decimal_append, List.length_append, List.length_singleton, pow_succ]
      omega

/-- The array with the digits of a line, and its terminator. -/
def lineArray (digits : List UInt8) : List UInt8 :=
  digits ++ List.replicate (11 - digits.length) 0

theorem store_digit {digits : List UInt8} (h : digits.length < 11) (c : UInt8) :
    store (lineArray digits) digits.length [c]
      = some (digits ++ c :: List.replicate (10 - digits.length) 0) := by
  have hzeros : List.replicate (11 - digits.length) (0 : UInt8)
      = 0 :: List.replicate (10 - digits.length) 0 := by
    rw [← List.replicate_succ]
    congr 1
    omega
  rw [lineArray, hzeros, store_front]

theorem lineArray_terminated {digits : List UInt8} (h : digits.length < 11) :
    digits ++ 0 :: List.replicate (10 - digits.length) 0 = lineArray digits := by
  have hlen : 10 - digits.length + 1 = 11 - digits.length := by omega
  rw [lineArray, ← List.replicate_succ, hlen]

theorem lineArray_append (digits : List UInt8) (c : UInt8) :
    digits ++ c :: List.replicate (10 - digits.length) 0 = lineArray (digits ++ [c]) := by
  have hlen : 11 - (digits ++ [c]).length = 10 - digits.length := by simp
  rw [lineArray, hlen]
  simp

theorem isDigit_ne_zero {c : UInt8} (h : isDigit c = true) : c ≠ 0 := by
  rintro rfl
  simp [isDigit] at h

theorem takeWhile_lineArray {digits : List UInt8} {p : UInt8 → Bool}
    (hp : ∀ c ∈ digits, p c = true) (h0 : p 0 = false) (hlen : digits.length < 11) :
    (lineArray digits).takeWhile p = digits := by
  rw [← lineArray_terminated hlen, List.takeWhile_append_of_pos hp]
  simp [h0]

theorem strlen_lineArray {digits : List UInt8} (h : ∀ c ∈ digits, isDigit c = true)
    (hlen : digits.length ≤ 10) : strlen (lineArray digits) = digits.length := by
  rw [strlen, takeWhile_lineArray (fun c hc => by simpa using isDigit_ne_zero (h c hc))
    (by simp) (by omega)]

theorem strtol_lineArray {digits : List UInt8} (h : ∀ c ∈ digits, isDigit c = true)
    (hlen : digits.length ≤ 10) : strtol (lineArray digits) = decimal digits := by
  have hlt := decimal_lt h
  have hpow : 10 ^ digits.length ≤ 10 ^ 10 := Nat.pow_le_pow_right (by decide) hlen
  rw [strtol, takeWhile_lineArray h (by simp [isDigit]) (by omega)]
  omega

/-! ### One line -/

/-- How many line ends are ahead. -/
def lineEnds (text : List UInt8) : ℕ := text.countP isLineEnd

/-- The inner loop between two rounds: the digits in the array and the text ahead give
`numbers`, with at most `ends` line ends ahead. -/
def InLine (numbers : List ℕ) (ends : ℕ) (l : Line) : Prop :=
  ∃ digits, l.cueLocationString = lineArray digits ∧ l.charIndex = digits.length ∧
    digits.length ≤ 10 ∧ (∀ c ∈ digits, isDigit c = true) ∧
    l.markersFile.faults = [] ∧ l.markersFile.eof = false ∧
    lineEnds l.markersFile.rest ≤ ends ∧ locations digits l.markersFile.rest = numbers

/-- After a line: its number and those of the lines ahead give `numbers`, and a line end is
behind unless the end of the file was met. -/
def LineDone (numbers : List ℕ) (ends : ℕ) (l : Line) : Prop :=
  ∃ digits, l.cueLocationString = lineArray digits ∧
    digits.length ≤ 10 ∧ (∀ c ∈ digits, isDigit c = true) ∧
    l.markersFile.faults = [] ∧
    lineNumber digits ++ locations [] l.markersFile.rest = numbers ∧
    (l.markersFile.eof = true → l.markersFile.rest = []) ∧
    (l.markersFile.eof = false → lineEnds l.markersFile.rest < ends)

variable {host : Host} {numbers : List ℕ} {ends : ℕ}

/-- The terminator does not change the array. -/
theorem put_terminator {l : Line} {digits : List UInt8}
    (harray : l.cueLocationString = lineArray digits) (hindex : l.charIndex = digits.length)
    (hlen : digits.length ≤ 10) : l.put 0 = .ok l := by
  obtain ⟨f, array, index⟩ := l
  obtain rfl : array = lineArray digits := harray
  obtain rfl : index = digits.length := hindex
  simp only [Line.put, store_digit (by omega : digits.length < 11),
    lineArray_terminated (by omega : digits.length < 11), Outcome.ofOption_some,
    Outcome.ok_bind, Outcome.pure_eq]

/-- The characters that look like `EOF` as a `char` are no characters of a line. -/
theorem eq_of_char_eq_eof {b : UInt8} (h : host.char b = eofValue) : b = 255 := by
  have hlt := b.toNat_lt
  apply UInt8.toNat_inj.mp
  simp only [UInt8.reduceToNat]
  unfold Host.char eofValue signed at h
  split at h
  · rw [Int.bmod_eq_emod] at h
    split at h <;> omega
  · omega

/-- What is ahead after a carriage return. -/
theorem gobble_spec {f : Stream} (hfaults : f.faults = []) (heof : f.eof = false) :
    (gobble host f).faults = [] ∧ locations [] (gobble host f).rest = locations [] f.rest ∧
      ((gobble host f).eof = true → (gobble host f).rest = []) ∧
      lineEnds (gobble host f).rest ≤ lineEnds f.rest := by
  cases hrest : f.rest with
  | nil =>
      obtain ⟨g, hget, hg, -, hgf⟩ := Stream.fgetc_nil hfaults hrest
      simp only [gobble, hget, toChar, Option.getD_none]
      -- a host whose `char` has no sign pushes the converted `EOF` back
      by_cases hpush : host.char 255 ≠ eofValue ∧ (255 : UInt8) ≠ lineFeed
      · simp only [if_pos hpush, Stream.rest_ungetc, Stream.faults_ungetc, Stream.eof_ungetc, hg]
        exact ⟨hgf, by decide, by simp, by decide⟩
      · simp only [if_neg hpush, hg]
        exact ⟨hgf, trivial, fun _ => trivial, Nat.le_refl _⟩
  | cons b text =>
      obtain ⟨g, hget, hg, hgeof, hgf⟩ := Stream.fgetc_cons hfaults hrest
      simp only [gobble, hget, toChar, Option.getD_some]
      by_cases hpush : host.char b ≠ eofValue ∧ b ≠ lineFeed
      · simp only [if_pos hpush, Stream.rest_ungetc, Stream.faults_ungetc, Stream.eof_ungetc, hg]
        exact ⟨hgf, trivial, by simp, Nat.le_refl _⟩
      · simp only [if_neg hpush, hg, hgeof, heof]
        refine ⟨hgf, ?_, by simp, ?_⟩
        · rw [not_and_or, not_not, not_not] at hpush
          rcases hpush with hb | rfl
          · rw [eq_of_char_eq_eof hb, locations, if_neg (by decide), if_neg (by decide)]
          · rw [locations, if_pos (by decide), lineNumber_nil, List.nil_append]
        · rw [lineEnds, lineEnds, List.countP_cons]
          omega

section Rounds

variable {l : Line} {c : UInt8} {g : Stream} {digits text : List UInt8}

/-- A round that got a character. -/
theorem lineRound_eq (hget : l.markersFile.fgetc = (some c, g)) (heof : g.eof = false) :
    lineRound host l =
      if c = carriageReturn then do
        let l ← { l with markersFile := gobble host g }.put 0
        pure (.done l)
      else if c = lineFeed then do
        let l ← { l with markersFile := g }.put 0
        pure (.done l)
      else if isDigit c then
        if l.charIndex < 10 then do
          let l ← { l with markersFile := g }.put c
          pure (.again { l with charIndex := l.charIndex + 1 })
        else pure (.again { l with markersFile := g })
      else pure (.again { l with markersFile := g }) := by
  have hno : ¬ g.eof = true := by rw [heof]; decide
  simp only [lineRound, hget, if_neg hno, toChar, Option.getD_some]

/-- A round that met the end of the file. -/
theorem lineRound_end (hget : l.markersFile.fgetc = (none, g)) (heof : g.eof = true) :
    lineRound host l = (do
      let l ← { l with markersFile := g }.put 0
      pure (.done l)) := by
  simp only [lineRound, hget, if_pos heof]

/-- A digit is put into the array, or ignored. -/
theorem lineRound_again (harray : l.cueLocationString = lineArray digits)
    (hindex : l.charIndex = digits.length)
    (hget : l.markersFile.fgetc = (some c, g)) (heof : g.eof = false)
    (hchar : isLineEnd c = false) :
    ∃ digits', lineRound host l = .ok (.again {
        markersFile := g
        cueLocationString := lineArray digits'
        charIndex := digits'.length }) ∧
      digits' = if isDigit c && decide (digits.length < 10) then digits ++ [c] else digits := by
  obtain ⟨hcr, hlf⟩ : c ≠ carriageReturn ∧ c ≠ lineFeed := by
    simpa [isLineEnd] using hchar
  rw [lineRound_eq hget heof, if_neg hcr, if_neg hlf]
  obtain ⟨f, array, index⟩ := l
  obtain rfl : array = lineArray digits := harray
  obtain rfl : index = digits.length := hindex
  by_cases hdigit : isDigit c = true
  · by_cases hroom : digits.length < 10
    · have hstore := store_digit (show digits.length < 11 by omega) c
      rw [lineArray_append] at hstore
      refine ⟨digits ++ [c], ?_, by simp [hdigit, hroom]⟩
      simp only [if_pos hdigit, if_pos hroom, Line.put, hstore, Outcome.ofOption_some,
        Outcome.ok_bind, Outcome.pure_eq, List.length_append, List.length_singleton]
    · refine ⟨digits, ?_, by simp [hroom]⟩
      simp only [if_pos hdigit, if_neg hroom, Outcome.pure_eq]
  · refine ⟨digits, ?_, by simp [hdigit]⟩
    simp only [if_neg hdigit, Outcome.pure_eq]

end Rounds

/-- The round that meets the end of the file ends the line. -/
theorem lineRound_fileEnd {l : Line} (h : InLine numbers ends l)
    (hrest : l.markersFile.rest = []) :
    ∃ l', lineRound host l = .ok (.done l') ∧ LineDone numbers ends l' := by
  obtain ⟨digits, harray, hindex, hlen, hdigits, hfaults, heof, hends, hnumbers⟩ := h
  obtain ⟨g, hget, hg, hgeof, hgf⟩ := Stream.fgetc_nil hfaults hrest
  have hput := put_terminator (l := { l with markersFile := g }) harray hindex hlen
  refine ⟨{ l with markersFile := g }, ?_, digits, harray, hlen, hdigits, hgf, ?_,
    fun _ => hg, fun hfalse => ?_⟩
  · rw [lineRound_end hget hgeof, hput]
    rfl
  · dsimp only
    rw [hg, ← hnumbers, hrest, locations, locations, lineNumber_nil, List.append_nil]
  · rw [hgeof] at hfalse
    cases hfalse

/-- A line end is read: the number of the line is complete, and one line end less is ahead. -/
theorem InLine.fgetc_lineEnd {l : Line} {c : UInt8} {text : List UInt8}
    (h : InLine numbers ends l) (hrest : l.markersFile.rest = c :: text)
    (hend : isLineEnd c = true) :
    ∃ digits g, l.cueLocationString = lineArray digits ∧ l.charIndex = digits.length ∧
      digits.length ≤ 10 ∧ (∀ d ∈ digits, isDigit d = true) ∧
      l.markersFile.fgetc = (some c, g) ∧ g.rest = text ∧ g.eof = false ∧ g.faults = [] ∧
      lineEnds text < ends ∧ lineNumber digits ++ locations [] text = numbers := by
  obtain ⟨digits, harray, hindex, hlen, hdigits, hfaults, heof, hends, hnumbers⟩ := h
  obtain ⟨g, hget, hg, hgeof, hgf⟩ := Stream.fgetc_cons hfaults hrest
  rw [hrest, locations, if_pos hend] at hnumbers
  rw [hrest, lineEnds, List.countP_cons, if_pos hend] at hends
  refine ⟨digits, g, harray, hindex, hlen, hdigits, hget, hg, hgeof.trans heof, hgf, ?_,
    hnumbers⟩
  rw [lineEnds]
  omega

/-- The round that meets a carriage return ends the line, with a line feed after it. -/
theorem lineRound_carriageReturn {l : Line} {text : List UInt8} (h : InLine numbers ends l)
    (hrest : l.markersFile.rest = carriageReturn :: text) :
    ∃ l', lineRound host l = .ok (.done l') ∧ LineDone numbers ends l' := by
  obtain ⟨digits, g, harray, hindex, hlen, hdigits, hget, hg, hgeof, hgf, hends, hnumbers⟩ :=
    h.fgetc_lineEnd hrest (by decide)
  obtain ⟨hkf, hklocs, hkeof, hkends⟩ := @gobble_spec host g hgf hgeof
  have hput := put_terminator (l := { l with markersFile := gobble host g }) harray hindex hlen
  rw [hg] at hklocs hkends
  refine ⟨{ l with markersFile := gobble host g }, ?_, digits, harray, hlen,
    hdigits, hkf, by dsimp only; rw [hklocs, hnumbers], hkeof, fun _ => ?_⟩
  · rw [lineRound_eq hget hgeof, if_pos rfl, hput]
    rfl
  · dsimp only
    omega

/-- The round that meets a line feed ends the line. -/
theorem lineRound_lineFeed {l : Line} {text : List UInt8} (h : InLine numbers ends l)
    (hrest : l.markersFile.rest = lineFeed :: text) :
    ∃ l', lineRound host l = .ok (.done l') ∧ LineDone numbers ends l' := by
  obtain ⟨digits, g, harray, hindex, hlen, hdigits, hget, hg, hgeof, hgf, hends, hnumbers⟩ :=
    h.fgetc_lineEnd hrest (by decide)
  have hput := put_terminator (l := { l with markersFile := g }) harray hindex hlen
  refine ⟨{ l with markersFile := g }, ?_, digits, harray, hlen, hdigits, hgf,
    by dsimp only; rw [hg, hnumbers], fun htrue => ?_, fun _ => ?_⟩
  · rw [lineRound_eq hget hgeof, if_neg (by decide), if_pos rfl, hput]
    rfl
  · dsimp only at htrue
    rw [hgeof] at htrue
    cases htrue
  · dsimp only
    rw [hg]
    exact hends

/-- The digits of a line are at most ten, whatever the next character is. -/
theorem digits_grow {digits : List UInt8} (c : UInt8) (hlen : digits.length ≤ 10)
    (hdigits : ∀ d ∈ digits, isDigit d = true) :
    (if isDigit c && decide (digits.length < 10) then digits ++ [c] else digits).length ≤ 10 ∧
      ∀ d ∈ if isDigit c && decide (digits.length < 10) then digits ++ [c] else digits,
        isDigit d = true := by
  split
  · next hroom =>
      rw [Bool.and_eq_true, decide_eq_true_iff] at hroom
      refine ⟨by simp; omega, fun d hd => ?_⟩
      rcases List.mem_append.mp hd with hd | hd
      · exact hdigits d hd
      · rw [List.mem_singleton.mp hd]
        exact hroom.1
  · exact ⟨hlen, hdigits⟩

/-- Any other character leaves the loop in the line. -/
theorem lineRound_character {l : Line} {c : UInt8} {text : List UInt8}
    (h : InLine numbers ends l) (hrest : l.markersFile.rest = c :: text)
    (hchar : isLineEnd c = false) :
    ∃ l', lineRound host l = .ok (.again l') ∧ InLine numbers ends l' ∧
      l'.markersFile.rest.length < l.markersFile.rest.length := by
  obtain ⟨digits, harray, hindex, hlen, hdigits, hfaults, heof, hends, hnumbers⟩ := h
  obtain ⟨g, hget, hg, hgeof, hgf⟩ := Stream.fgetc_cons hfaults hrest
  have hno : ¬ isLineEnd c = true := by rw [hchar]; decide
  rw [heof] at hgeof
  rw [hrest, locations, if_neg hno] at hnumbers
  rw [hrest, lineEnds, List.countP_cons, if_neg hno] at hends
  obtain ⟨digits', hround, hdigits'⟩ := lineRound_again harray hindex hget hgeof hchar
  obtain ⟨hlen', hall'⟩ := digits_grow c hlen hdigits
  rw [← hdigits'] at hlen' hall'
  refine ⟨_, hround, ⟨digits', rfl, rfl, hlen', hall', hgf, hgeof, ?_, ?_⟩, ?_⟩
  · dsimp only
    rw [hg, lineEnds]
    omega
  · dsimp only
    rw [hg, hdigits', ← hnumbers]
    split <;> rfl
  · dsimp only
    rw [hg, hrest, List.length_cons]
    omega

/-- One round of the loop over a line. -/
theorem lineRound_spec {l : Line} (h : InLine numbers ends l) :
    (∃ l', lineRound host l = .ok (.again l') ∧ InLine numbers ends l' ∧
      l'.markersFile.rest.length < l.markersFile.rest.length) ∨
    (∃ l', lineRound host l = .ok (.done l') ∧ LineDone numbers ends l') := by
  cases hrest : l.markersFile.rest with
  | nil => exact .inr (lineRound_fileEnd h hrest)
  | cons c text =>
      by_cases hcr : c = carriageReturn
      · exact .inr (lineRound_carriageReturn h (hcr ▸ hrest))
      by_cases hlf : c = lineFeed
      · exact .inr (lineRound_lineFeed h (hlf ▸ hrest))
      have hchar : isLineEnd c = false := by simp [isLineEnd, hcr, hlf]
      rw [← hrest]
      exact .inl (lineRound_character h hrest hchar)

/-- The loop over a line. -/
theorem line_spec {f : Stream} (hfaults : f.faults = []) (heof : f.eof = false) :
    ∃ l, loop (lineRound host) (charFuel f) (.start f) = .ok l ∧
      LineDone (locations [] f.rest) (lineEnds f.rest) l := by
  refine loop_total (lineRound host) (I := InLine (locations [] f.rest) (lineEnds f.rest))
    (fun l => l.markersFile.rest.length) (fun l => lineRound_spec) _ _ ?_ ?_
  · exact ⟨[], rfl, rfl, by simp, by simp, hfaults, heof, Nat.le_refl _, rfl⟩
  · simp only [charFuel, Line.start]
    omega

/-! ### All lines -/

/-- The number of a line is put behind those found before. -/
theorem addLocation_spec {m : Markers} {found free : List ℕ} {digits : List UInt8}
    (hlocs : m.cueLocations = found ++ free) (hcount : m.cueLocationsCount = found.length)
    (hroom : (lineNumber digits).length ≤ free.length) (hlen : digits.length ≤ 10)
    (hdigits : ∀ c ∈ digits, isDigit c = true) :
    addLocation m (lineArray digits) = .ok { m with
      cueLocations := found ++ lineNumber digits ++ free.drop (lineNumber digits).length
      cueLocationsCount := (found ++ lineNumber digits).length } := by
  obtain ⟨f, cells, count⟩ := m
  obtain rfl : cells = found ++ free := hlocs
  obtain rfl : count = found.length := hcount
  rw [addLocation, strlen_lineArray hdigits hlen, strtol_lineArray hdigits hlen]
  by_cases hempty : digits = []
  · simp [hempty, lineNumber_nil]
  · have hpos : digits.length > 0 := List.length_pos_iff.mpr hempty
    rw [if_pos hpos]
    by_cases hsmall : (decimal digits : ℤ) < uint32Max
    · have hnumber : lineNumber digits = [decimal digits] := if_pos ⟨hempty, hsmall⟩
      have hu32 : u32 (decimal digits : ℤ).toNat = decimal digits := by
        unfold uint32Max at hsmall
        exact u32_of_lt (by omega)
      rw [hnumber] at hroom ⊢
      cases free with
      | nil => simp at hroom
      | cons old free =>
          simp only [if_pos hsmall, hu32, store_front, Outcome.ofOption_some, Outcome.ok_bind,
            Outcome.pure_eq, List.length_append, List.length_singleton, List.append_assoc,
            List.cons_append, List.nil_append, List.drop_succ_cons, List.drop_zero]
    · have hnumber : lineNumber digits = [] := if_neg fun h => hsmall h.2
      simp only [hnumber, if_neg hsmall, Outcome.pure_eq, List.append_nil, List.length_nil,
        List.drop_zero]

/-- The outer loop between two rounds: the numbers found and those ahead are `numbers`. -/
def InText (numbers : List ℕ) (m : Markers) : Prop :=
  ∃ found free, m.cueLocations = found ++ free ∧ (found ++ free).length = 1000 ∧
    m.cueLocationsCount = found.length ∧ m.markersFile.faults = [] ∧
    (m.markersFile.eof = true → m.markersFile.rest = []) ∧
    found ++ locations [] m.markersFile.rest = numbers

/-- The outer loop is measured by the line ends ahead, until the end was met. -/
def linesAhead (m : Markers) : ℕ :=
  if m.markersFile.eof then 0 else lineEnds m.markersFile.rest + 1

/-- One round of the loop over the lines. -/
theorem markersRound_spec (hfew : numbers.length ≤ 1000) {m : Markers}
    (h : InText numbers m) :
    (∃ m', markersRound host m = .ok (.again m') ∧ InText numbers m' ∧
      linesAhead m' < linesAhead m) ∨
    (∃ m', markersRound host m = .ok (.done m') ∧
      m'.cueLocations.take m'.cueLocationsCount = numbers ∧
      m'.cueLocationsCount = numbers.length) := by
  obtain ⟨found, free, hlocs, htotal, hcount, hfaults, heof, hnumbers⟩ := h
  by_cases hend : m.markersFile.eof = true
  · refine .inr ⟨m, by rw [markersRound, if_pos hend]; rfl, ?_⟩
    rw [heof hend, locations, lineNumber_nil, List.append_nil] at hnumbers
    rw [hlocs, hcount, List.take_left, hnumbers]
    exact ⟨rfl, rfl⟩
  · obtain ⟨l, hline, digits, harray, hlen, hdigits, hlf, hlnumbers, hleof, hlends⟩ :=
      line_spec hfaults (by simpa using hend)
    rw [← hlnumbers, ← List.append_assoc] at hnumbers
    have hroom : (lineNumber digits).length ≤ free.length := by
      have hsum := congrArg List.length hnumbers
      simp only [List.length_append] at hsum htotal
      omega
    have hadd := addLocation_spec (m := { m with markersFile := l.markersFile }) hlocs hcount hroom
      hlen hdigits
    refine .inl ⟨{
        markersFile := l.markersFile
        cueLocations := found ++ lineNumber digits ++ free.drop (lineNumber digits).length
        cueLocationsCount := (found ++ lineNumber digits).length }, ?_,
      ⟨found ++ lineNumber digits, free.drop (lineNumber digits).length, rfl, ?_, rfl, hlf,
        hleof, hnumbers⟩, ?_⟩
    · rw [markersRound, if_neg hend, hline, Outcome.ok_bind, harray, hadd]
      rfl
    · simp only [List.length_append, List.length_drop] at htotal ⊢
      omega
    · have hfalse : m.markersFile.eof = false := by simpa using hend
      simp only [linesAhead, hfalse]
      cases hl : l.markersFile.eof with
      | true => simp
      | false => simpa using hlends hl

/-- Before the first round. -/
theorem inText_start (text : List UInt8) :
    InText (locations [] text) (.start (.fopen text [])) := by
  refine ⟨[], List.replicate 1000 0, rfl, ?_, rfl, rfl, fun h => ?_, rfl⟩
  · rw [List.nil_append, List.length_replicate]
  · exact absurd h Bool.false_ne_true

/-- The two loops, up to the check whether there is any number. -/
def readLines (host : Host) (markersFile : Stream) : Outcome Markers :=
  loop (markersRound host) (charFuel markersFile + 1) (.start markersFile)

/-- **What the loops read**, on every host and in every text with at most a thousand
numbers. -/
theorem readLines_locations (host : Host) {text : List UInt8}
    (hfew : (locations [] text).length ≤ 1000) : ∃ m,
    readLines host (.fopen text []) = .ok m ∧
      m.cueLocations.take m.cueLocationsCount = locations [] text ∧
      m.cueLocationsCount = (locations [] text).length :=
  loop_total (markersRound host) (I := InText (locations [] text)) linesAhead
    (fun m => markersRound_spec hfew) (charFuel (.fopen text []) + 1) (.start (.fopen text []))
    (inText_start text) (by
      have hle : lineEnds text ≤ text.length := List.countP_le_length
      have hahead : linesAhead (.start (.fopen text [])) = lineEnds text + 1 := rfl
      have hfuel : charFuel (.fopen text []) = text.length + 0 + 1 := rfl
      omega)

/-- **What the markers file is read as**, on every host and for every text with at most a
thousand numbers. -/
theorem readMarkers_locations (host : Host) {text : List UInt8}
    (hfew : (locations [] text).length ≤ 1000) :
    readMarkers host (.fopen text [])
      = if locations [] text = [] then .exit (-1) else .ok (locations [] text) := by
  obtain ⟨m, hloop, htake, hcount⟩ := readLines_locations host hfew
  rw [readLines] at hloop
  rw [readMarkers, hloop, Outcome.ok_bind, htake, hcount]
  by_cases hnone : locations [] text = []
  · rw [if_pos hnone, hnone]
    rfl
  · have hsome : ¬ (locations [] text).length < 1 := by
      have hpos := List.length_pos_iff.mpr hnone
      omega
    rw [if_neg hnone, exitIf_of_not hsome]
    rfl

/-! ### Texts of positions -/

theorem locations_digits {digits : List UInt8} (hdigits : ∀ c ∈ digits, isDigit c = true)
    (text : List UInt8) :
    ∀ line : List UInt8, line.length + digits.length ≤ 10 →
      locations line (digits ++ text) = locations (line ++ digits) text := by
  induction digits with
  | nil => simp
  | cons c digits ih =>
      intro line hlen
      rw [List.length_cons] at hlen
      have hc : isDigit c = true := hdigits c (by simp)
      have hno : ¬ isLineEnd c = true := by
        simp only [isLineEnd, Bool.or_eq_true, beq_iff_eq]
        rintro (rfl | rfl) <;> revert hc <;> decide
      have hroom : (isDigit c && decide (line.length < 10)) = true := by
        rw [hc, Bool.true_and, decide_eq_true_iff]
        omega
      rw [List.cons_append, locations, if_neg hno, if_pos hroom,
        ih (fun d hd => hdigits d (by simp [hd])) _ (by simp; omega)]
      simp

theorem locations_lineEnd {lineEnd : List UInt8} (h : IsLineEnd lineEnd)
    (line text : List UInt8) :
    locations line (lineEnd ++ text) = lineNumber line ++ locations [] text := by
  rcases h with rfl | rfl | rfl
  · rw [List.singleton_append, locations, if_pos (by decide)]
  · rw [List.singleton_append, locations, if_pos (by decide)]
  · rw [List.cons_append, List.singleton_append, locations, if_pos (by decide), locations,
      if_pos (by decide), lineNumber_nil, List.nil_append]

theorem lineNumber_numeral {digits : List UInt8} {n : ℕ} (h : IsNumeral digits n) :
    lineNumber digits = [n].filter (· < 2 ^ 32 - 1) := by
  obtain ⟨hne, -, -, hvalue⟩ := h
  rw [lineNumber, hvalue, List.filter_singleton, cond_eq_ite]
  by_cases hn : n < 2 ^ 32 - 1
  · rw [if_pos ⟨hne, by unfold uint32Max; omega⟩, if_pos (by simpa using hn)]
  · rw [if_neg (fun hsmall => hn (by have := hsmall.2; unfold uint32Max at this; omega)),
      if_neg (by simpa using hn)]

/-- A text of positions is read as those below the largest 32-bit number. -/
theorem locations_markerText {text : List UInt8} {positions : List ℕ}
    (h : MarkerText text positions) :
    locations [] text = positions.filter (· < 2 ^ 32 - 1) := by
  induction h with
  | nil => rw [locations, lineNumber_nil, List.filter_nil]
  | @last digits n hnumeral =>
      have hread := locations_digits hnumeral.2.2.1 [] [] (by simpa using hnumeral.2.1)
      rw [List.append_nil, List.nil_append] at hread
      rw [hread, locations, lineNumber_numeral hnumeral]
  | @line digits lineEnd text n positions hnumeral hend _ ih =>
      rw [List.append_assoc,
        locations_digits hnumeral.2.2.1 _ [] (by simpa using hnumeral.2.1),
        List.nil_append, locations_lineEnd hend, lineNumber_numeral hnumeral, ih,
        ← List.filter_append, List.singleton_append]
  | blank hend _ ih =>
      rw [locations_lineEnd hend, lineNumber_nil, List.nil_append, ih]

/-- All of them are read when all of them are below. -/
theorem locations_small {text : List UInt8} {positions : List ℕ} (h : MarkerText text positions)
    (hsmall : ∀ n ∈ positions, n < 2 ^ 32 - 1) : locations [] text = positions := by
  rw [locations_markerText h, List.filter_eq_self]
  intro n hn
  simpa using hsmall n hn

end Csnip.Wave
