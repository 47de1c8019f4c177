/-
Reading the markers file of wavecuepoint.c.

Two nested loops: `lineRound` takes one character of a line into `cueLocationString`,
`markersRound` reads a line with it and converts the digits.  The two arrays are the rows
of their cells, and a store outside of them has no meaning.
-/
import Csnip.Wave.Basic
import Csnip.Lib.Memory

namespace Csnip.Wave

open Stdio Loop Memory

/-- '\r' -/
def carriageReturn : UInt8 := 13

/-- '\n' -/
def lineFeed : UInt8 := 10

def isDigit (c : UInt8) : Bool := decide (48 ≤ c.toNat ∧ c.toNat ≤ 57)

/-- The result of `fgetc` as a `char`: the byte, or the one `EOF` is converted to. -/
def toChar (c : Option UInt8) : UInt8 := c.getD 255

/-- The value `EOF`. -/
def eofValue : ℤ := -1

/-- `UINT32_MAX` -/
def uint32Max : ℤ := 4294967295

/-- `strlen`, of a string that ends inside its array. -/
def strlen (string : List UInt8) : ℕ := (string.takeWhile (· ≠ 0)).length

/-- The number a row of decimal digits stands for. -/
def decimal (digits : List UInt8) : ℕ :=
  digits.foldl (fun n c => 10 * n + (c.toNat - 48)) 0

/-- `strtol` to the base 10, of a string that has neither blanks nor a sign in front of its
digits: it stops at the largest `long`. -/
def strtol (string : List UInt8) : ℤ := min (decimal (string.takeWhile isDigit)) (2 ^ 63 - 1)

/-! ### One line -/

/-- The variables of the loop over a line. -/
structure Line where
  markersFile : Stream
  cueLocationString : List UInt8
  charIndex : ℕ
deriving Repr, DecidableEq

/-- The variables before the loop. -/
def Line.start (markersFile : Stream) : Line :=
  { markersFile, cueLocationString := List.replicate 11 0, charIndex := 0 }

/-- `cueLocationString[charIndex] = c` -/
def Line.put (l : Line) (c : UInt8) : Outcome Line := do
  let cueLocationString ← Outcome.ofOption (store l.cueLocationString l.charIndex [c])
  pure { l with cueLocationString }

/-- After a '\r': gobble up the '\n' of a Windows line ending, push any other character
back. -/
def gobble (host : Host) (markersFile : Stream) : Stream :=
  let (c, f) := markersFile.fgetc
  let peekAheadChar := toChar c
  if host.char peekAheadChar ≠ eofValue ∧ peekAheadChar ≠ lineFeed then f.ungetc peekAheadChar
  else f

/-- One round of the loop over a line. -/
def lineRound (host : Host) (l : Line) : Outcome (Round Line Line) := do
  let (c, f) := l.markersFile.fgetc
  let nextChar := toChar c
  let l := { l with markersFile := f }
  if f.eof then do
    let l ← l.put 0
    pure (.done l)
  else if nextChar = carriageReturn then do
    let l := { l with markersFile := gobble host l.markersFile }
    let l ← l.put 0
    pure (.done l)
  else if nextChar = lineFeed then do
    let l ← l.put 0
    pure (.done l)
  else if isDigit nextChar then
    if l.charIndex < 10 then do
      let l ← l.put nextChar
      pure (.again { l with charIndex := l.charIndex + 1 })
    else pure (.again l)
  else pure (.again l)

/-- The rounds a loop over the characters needs at most. -/
def charFuel (f : Stream) : ℕ := f.rest.length + f.faults.length + 1

/-! ### All lines -/

/-- The variables of the loop over the lines. -/
structure Markers where
  markersFile : Stream
  cueLocations : List ℕ
  cueLocationsCount : ℕ
deriving Repr, DecidableEq

/-- The variables before the loop. -/
def Markers.start (markersFile : Stream) : Markers :=
  { markersFile, cueLocations := List.replicate 1000 0, cueLocationsCount := 0 }

/-- Convert the digits from the line, and add the number to `cueLocations`. -/
def addLocation (m : Markers) (cueLocationString : List UInt8) : Outcome Markers :=
  if strlen cueLocationString > 0 then
    let cueLocationLong := strtol cueLocationString
    if cueLocationLong < uint32Max then do
      let cueLocations ← Outcome.ofOption
        (store m.cueLocations m.cueLocationsCount [u32 cueLocationLong.toNat])
      pure { m with cueLocations, cueLocationsCount := m.cueLocationsCount + 1 }
    else pure m
  else pure m

/-- One round of the loop over the lines. -/
def markersRound (host : Host) (m : Markers) : Outcome (Round Markers Markers) :=
  if m.markersFile.eof then pure (.done m)
  else do
    let l ← loop (lineRound host) (charFuel m.markersFile) (.start m.markersFile)
    let m ← addLocation { m with markersFile := l.markersFile } l.cueLocationString
    pure (.again m)

/-- Read the markers file: the locations found, in order. -/
def readMarkers (host : Host) (markersFile : Stream) : Outcome (List ℕ) := do
  let m ← loop (markersRound host) (charFuel markersFile + 1) (.start markersFile)
  -- Did we get any cueLocations?
  exitIf (m.cueLocationsCount < 1)
  pure (m.cueLocations.take m.cueLocationsCount)

end Csnip.Wave
