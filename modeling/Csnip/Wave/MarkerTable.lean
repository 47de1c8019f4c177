/-
What fits into the parser's two arrays.

A line is kept in `cueLocationString`, which has a cell more than the digits that are taken,
so no text overruns it.  The numbers go to the 1000 cells of `cueLocations`, and there the
program does not look how many they are: a text with more numbers is read as far as the last
cell, and the next number is stored behind it (`addLocation_full`).

The number 4294967295 is in the range of a location, but is taken for one that is not.
-/
import Csnip.Wave.MarkerLines

namespace Csnip.Wave

open Stdio Loop Memory

/-! ### Every position -/

/-- The loops store exactly the positions in `cueLocations`, and count them. -/
def ReadsExactly (host : Host) (text : List UInt8) (positions : List ℕ) : Prop :=
  ∃ m, readLines host (.fopen text []) = .ok m ∧
    m.cueLocations.take m.cueLocationsCount = positions ∧
    m.cueLocationsCount = positions.length

/-- **Every position is read**, if it is not the largest 32-bit number: for every text of up
to a thousand positions in the range of 32 bits, with lines that end in any way, on every
host. -/
theorem positions_read_iff (host : Host) {text : List UInt8} {positions : List ℕ}
    (htext : MarkerText text positions) (hfew : positions.length ≤ 1000)
    (hmax : ∀ n ∈ positions, n ≤ 4294967295) :
    ReadsExactly host text positions ↔ 4294967295 ∉ positions := by
  have hlocations := locations_markerText htext
  have hle : (locations [] text).length ≤ 1000 := by
    rw [hlocations]
    exact Nat.le_trans (List.length_filter_le _ _) hfew
  obtain ⟨m, hread, htake, hcount⟩ := readLines_locations host hle
  constructor
  · rintro ⟨m', hread', htake', -⟩ hmem
    rw [hread] at hread'
    cases hread'
    -- what was stored are the positions below the largest one
    rw [htake, hlocations] at htake'
    rw [← htake', List.mem_filter] at hmem
    simp at hmem
  · intro hno
    have hall : locations [] text = positions := by
      refine locations_small htext fun n hn => ?_
      have hle := hmax n hn
      have hne : n ≠ 4294967295 := fun heq => hno (heq ▸ hn)
      omega
    exact ⟨m, hread, by rw [htake, hall], by rw [hcount, hall]⟩

/-- The lines 7, 4294967294, an empty one and 12, which end as on three systems; the last one
does not end. -/
theorem positions_read_mixed :
    ReadsExactly ⟨true, true⟩
      [55, 10, 52, 50, 57, 52, 57, 54, 55, 50, 57, 52, 13, 10, 13, 49, 50] [7, 4294967294, 12] := by
  have hseven : IsNumeral [55] 7 := ⟨by decide, by decide, by simp [isDigit], by decide⟩
  have hlarge : IsNumeral [52, 50, 57, 52, 57, 54, 55, 50, 57, 52] 4294967294 :=
    ⟨by decide, by decide, by simp [isDigit], by decide⟩
  have htwelve : IsNumeral [49, 50] 12 := ⟨by decide, by decide, by simp [isDigit], by decide⟩
  have htext : MarkerText [55, 10, 52, 50, 57, 52, 57, 54, 55, 50, 57, 52, 13, 10, 13, 49, 50]
      [7, 4294967294, 12] :=
    .line hseven (.inl rfl) (.line hlarge (.inr (.inr rfl)) (.blank (.inr (.inl rfl))
      (.last htwelve)))
  exact (positions_read_iff ⟨true, true⟩ htext (by decide) (by decide)).mpr (by decide)

/-- The largest position is left out. -/
theorem largest_not_read :
    MarkerText [52, 50, 57, 52, 57, 54, 55, 50, 57, 53] [4294967295] ∧
      (readLines ⟨true, true⟩ (.fopen [52, 50, 57, 52, 57, 54, 55, 50, 57, 53] [])
        = .ok { Markers.start
            { Stream.at [52, 50, 57, 52, 57, 54, 55, 50, 57, 53] 10 with eof := true } with
          cueLocationsCount := 0 }) ∧
      ¬ ReadsExactly ⟨true, true⟩ [52, 50, 57, 52, 57, 54, 55, 50, 57, 53] [4294967295] := by
  have hread : readLines ⟨true, true⟩ (.fopen [52, 50, 57, 52, 57, 54, 55, 50, 57, 53] [])
      = .ok { Markers.start
          { Stream.at [52, 50, 57, 52, 57, 54, 55, 50, 57, 53] 10 with eof := true } with
        cueLocationsCount := 0 } := by decide +kernel
  refine ⟨.last ⟨by decide, by decide, by simp [isDigit], by decide⟩, hread, ?_⟩
  rintro ⟨m, hread', -, hcount⟩
  rw [hread] at hread'
  cases hread'
  cases hcount

/-! ### Too many positions -/

section Overrun

variable {host : Host} {numbers : List ℕ}

/-- Behind the last cell there is no room for the number of a line. -/
theorem addLocation_full {m : Markers} {found : List ℕ} {digits : List UInt8}
    (hlocs : m.cueLocations = found) (hcount : m.cueLocationsCount = found.length)
    (hnumber : lineNumber digits ≠ []) (hlen : digits.length ≤ 10)
    (hdigits : ∀ c ∈ digits, isDigit c = true) :
    addLocation m (lineArray digits) = .undefined := by
  obtain ⟨hne, hsmall⟩ : digits ≠ [] ∧ (decimal digits : ℤ) < uint32Max := by
    by_contra hno
    exact hnumber (if_neg hno)
  have hpos : digits.length > 0 := List.length_pos_iff.mpr hne
  have hstore : store m.cueLocations m.cueLocationsCount [u32 (decimal digits : ℤ).toNat]
      = none := by
    rw [hlocs, hcount]
    exact if_neg (by simp)
  rw [addLocation, strlen_lineArray hdigits hlen, strtol_lineArray hdigits hlen, if_pos hpos]
  dsimp only
  rw [if_pos hsmall, hstore]
  rfl

/-- A round that goes round again has stored the number of its line in a cell. -/
theorem markersRound_inText {m m' : Markers} (h : InText numbers m)
    (hround : markersRound host m = .ok (.again m')) : InText numbers m' := by
  obtain ⟨found, free, hlocs, htotal, hcount, hfaults, heof, hnumbers⟩ := h
  by_cases hend : m.markersFile.eof = true
  · rw [markersRound, if_pos hend] at hround
    cases hround
  · obtain ⟨l, hline, digits, harray, hlen, hdigits, hlf, hlnumbers, hleof, -⟩ :=
      @line_spec host _ hfaults (by simpa using hend)
    rw [markersRound, if_neg hend, hline, Outcome.ok_bind, harray] at hround
    by_cases hroom : (lineNumber digits).length ≤ free.length
    · rw [addLocation_spec (m := { m with markersFile := l.markersFile }) hlocs hcount hroom hlen
        hdigits] at hround
      cases hround
      refine ⟨found ++ lineNumber digits, free.drop (lineNumber digits).length, rfl, ?_, rfl, hlf,
        hleof, ?_⟩
      · simp only [List.length_append, List.length_drop] at htotal ⊢
        omega
      · rw [List.append_assoc, hlnumbers, hnumbers]
    · -- all cells are taken, since a line has one number at most
      have hone : (lineNumber digits).length ≤ 1 := by
        unfold lineNumber
        split <;> simp
      have hfree : free = [] := List.length_eq_zero_iff.mp (by omega)
      have hnumber : lineNumber digits ≠ [] := by
        rintro hnil
        rw [hnil] at hroom
        exact hroom (Nat.zero_le _)
      have hfull : m.cueLocations = found := by rw [hlocs, hfree, List.append_nil]
      rw [addLocation_full (m := { m with markersFile := l.markersFile }) hfull hcount hnumber hlen
        hdigits] at hround
      cases hround

/-- At the end of the file all numbers are in cells. -/
theorem markersRound_few {m m' : Markers} (h : InText numbers m)
    (hround : markersRound host m = .ok (.done m')) : numbers.length ≤ 1000 := by
  obtain ⟨found, free, -, htotal, -, -, heof, hnumbers⟩ := h
  by_cases hend : m.markersFile.eof = true
  · rw [heof hend, locations, lineNumber_nil, List.append_nil] at hnumbers
    rw [← hnumbers, ← htotal, List.length_append]
    exact Nat.le_add_right _ _
  · rw [markersRound, if_neg hend] at hround
    obtain ⟨_, -, hround⟩ := Outcome.bind_eq_ok.mp hround
    obtain ⟨_, -, hround⟩ := Outcome.bind_eq_ok.mp hround
    cases hround

/-- Loops that come to an end, after however many rounds, have found a cell for every
number. -/
theorem few_of_loop {text : List UInt8} {fuel : ℕ} {m : Markers}
    (h : loop (markersRound host) fuel (.start (.fopen text [])) = .ok m) :
    (locations [] text).length ≤ 1000 :=
  Outcome.loop_partial (I := InText (locations [] text))
    (Q := fun _ => (locations [] text).length ≤ 1000)
    (fun _ _ hs hround => markersRound_inText hs hround)
    (fun _ _ hs hround => markersRound_few hs hround) fuel _ m (inText_start text) h

end Overrun

/-- The loops come to an end, and every store to one of the two arrays is in it. -/
def StaysInTables (host : Host) (text : List UInt8) : Prop :=
  ∃ fuel m, loop (markersRound host) fuel (.start (.fopen text [])) = .ok m

/-- **No text overruns the tables** that has at most a thousand numbers, and every text with
more does: for every row of bytes, on every host. -/
theorem tables_hold_iff (host : Host) (text : List UInt8) :
    StaysInTables host text ↔ (locations [] text).length ≤ 1000 := by
  constructor
  · rintro ⟨fuel, m, h⟩
    exact few_of_loop h
  · intro hfew
    obtain ⟨m, hread, -⟩ := readLines_locations host hfew
    exact ⟨_, m, hread⟩

/-- The same line many times. -/
theorem locations_zeros (n : ℕ) :
    locations [] ((List.replicate n [48, 10]).flatten) = List.replicate n 0 := by
  induction n with
  | zero => rw [List.replicate_zero, List.flatten_nil, locations, lineNumber_nil]; rfl
  | succ n ih =>
      have hline : lineNumber [48] = [0] := by decide
      rw [List.replicate_succ, List.flatten_cons, List.cons_append, List.singleton_append,
        locations, if_neg (by decide), if_pos (by decide), List.nil_append, locations,
        if_pos (by decide), hline, ih]
      rfl

/-- A thousand and one lines with the digit 0. -/
theorem tables_overrun :
    ¬ StaysInTables ⟨true, true⟩ ((List.replicate 1001 [48, 10]).flatten) := by
  rintro ⟨fuel, m, h⟩
  have hfew := few_of_loop h
  rw [locations_zeros, List.length_replicate] at hfew
  omega

end Csnip.Wave
