/-
Writing the output file of wavecuepoint.c.

The second half of `addMarkersToWaveFile`: the new cue chunk, the size of the file, and the
chunks, which are copied from the input file in pieces of 1024 bytes.

The output file is what was handed to `fwrite`.  The buffer of its stream and the `fclose` at the
end, whose answer the source ignores, are left out.
-/
import Csnip.Wave.Scan
import Csnip.Wave.Markers

namespace Csnip.Wave

open LittleEndian Stdio Loop

/-! ### Copying a chunk -/

/-- The two files while a piece is copied, and `remainingBytesToWrite`. -/
structure Copy where
  inputFile : Stream
  outputFile : Sink
  remainingBytesToWrite : ℤ

/-- `fwrite` of a row of bytes; leave with -1 if not all were written. -/
def fwriteOrExit (f : Sink) (bytes : List UInt8) : Outcome Sink := do
  let (written, f) := f.fwrite bytes
  exitIf (written < bytes.length)
  pure f

/-- Read `n` bytes into a buffer that was not initialised, and write them. -/
def copyBlock (c : Copy) (n : ℕ) : Outcome Copy := do
  let (buffer, inputFile) ← freadOrExit c.inputFile n
  let buffer ← complete n buffer
  let outputFile ← fwriteOrExit c.outputFile buffer
  pure { inputFile, outputFile, remainingBytesToWrite := c.remainingBytesToWrite - n }

/-- One round of the loop over the blocks. -/
def copyRound (c : Copy) : Outcome (Round Copy Copy) :=
  if c.remainingBytesToWrite ≥ 1024 then do
    let c ← copyBlock c 1024
    pure (.again c)
  else pure (.done c)

def writeChunkLocationFromInputFileToOutputFile (chunk : ChunkLocation) (inputFile : Stream)
    (outputFile : Sink) : Outcome (Stream × Sink) := do
  let (result, f) := inputFile.fseekSet chunk.startOffset
  exitIf (result < 0)
  let c ← loop copyRound ((chunk.size / 1024).toNat + 1) ⟨f, outputFile, chunk.size⟩
  let c ←
    (if c.remainingBytesToWrite > 0 then copyBlock c c.remainingBytesToWrite.toNat
    else pure c)
  pure (c.inputFile, c.outputFile)

/-- Copy a piece, and write a padding byte if its size is odd. -/
def copyPadded (files : Stream × Sink) (chunk : ChunkLocation) : Outcome (Stream × Sink) := do
  let (inputFile, outputFile) ←
    writeChunkLocationFromInputFileToOutputFile chunk files.1 files.2
  if chunk.size % 2 ≠ 0 then do
    let outputFile ← fwriteOrExit outputFile [0]
    pure (inputFile, outputFile)
  else pure (inputFile, outputFile)

/-! ### The cue chunk and the size of the file -/

/-- The cue point with the given index. -/
def cuePoint (host : Host) (i cueLocation : ℕ) : List UInt8 :=
  uint32ToLittleEndianBytes host (u32 (i + 1)) ++ uint32ToLittleEndianBytes host 0 ++ dataID ++
    uint32ToLittleEndianBytes host 0 ++ uint32ToLittleEndianBytes host 0 ++
    uint32ToLittleEndianBytes host cueLocation

/-- The cue chunk with a point for each location.  The points found in the input file are
not merged into it, whatever the option. -/
def newCueChunk (host : Host) (cueLocations : List ℕ) : CueChunk :=
  { chunkID := cueID
    chunkDataSize :=
      uint32ToLittleEndianBytes host (u32 (4 + sizeofCuePoint * cueLocations.length))
    cuePointsCount := uint32ToLittleEndianBytes host cueLocations.length
    cuePoints := cueLocations.mapIdx (cuePoint host) }

/-- `fileDataSize += size`, and one more for the padding byte if `size` is odd. -/
def addPadded (fileDataSize : ℕ) (size : ℤ) : ℕ :=
  let fileDataSize := ((fileDataSize + size) % 2 ^ 32).toNat
  if size % 2 ≠ 0 then u32 (fileDataSize + 1) else fileDataSize

/-- The new data size of the file header. -/
def newFileDataSize (s : Scan) (cueLocationsCount : ℕ) : ℕ :=
  let fileDataSize := u32 (u32 (0 + 4) + sizeofFormatChunk)
  let fileDataSize := addPadded fileDataSize s.formatChunkExtraBytes.size
  let fileDataSize := addPadded fileDataSize s.dataChunkLocation.size
  let fileDataSize :=
    (s.otherChunkLocations.map ChunkLocation.size).foldl addPadded fileDataSize
  let fileDataSize := u32 (u32 (u32 (fileDataSize + 4) + 4) + 4)
  u32 (fileDataSize + sizeofCuePoint * cueLocationsCount)

/-! ### The output file -/

/-- Write the pieces one after the other. -/
def fwriteAll (f : Sink) (pieces : List (List UInt8)) : Outcome Sink :=
  pieces.foldlM fwriteOrExit f

/-- Copy the chunks one after the other. -/
def copyAll (files : Stream × Sink) (chunks : List ChunkLocation) : Outcome (Stream × Sink) :=
  chunks.foldlM copyPadded files

/-- Write the output file. -/
def writeOutput (host : Host) (waveHeader formatChunk : List UInt8) (s : Scan)
    (cueLocations : List ℕ) (outputFile : Sink) : Outcome Sink := do
  let cueChunk := newCueChunk host cueLocations
  let fileDataSize := newFileDataSize s cueLocations.length
  let waveHeader := field waveHeader 0 4 ++ uint32ToLittleEndianBytes host fileDataSize ++
    field waveHeader 8 4
  let f ← fwriteOrExit outputFile waveHeader
  let f ← fwriteOrExit f formatChunk
  let (inputFile, f) ←
    (if s.formatChunkExtraBytes.size > 0 then
      copyPadded (s.inputFile, f) s.formatChunkExtraBytes
    else pure (s.inputFile, f))
  let f ← fwriteOrExit f (cueChunk.chunkID ++ cueChunk.chunkDataSize ++ cueChunk.cuePointsCount)
  let f ← fwriteAll f
    (cueChunk.cuePoints.take (littleEndianBytesToUInt32 host cueChunk.cuePointsCount))
  let (inputFile, f) ← copyAll (inputFile, f) s.otherChunkLocations
  let (_, f) ← copyPadded (inputFile, f) s.dataChunkLocation
  pure f

/-- What `fopen` gives: `NULL` or the opened file. -/
def fopenOrExit {α : Type} (file : Option α) : Outcome α :=
  match file with
  | some f => .ok f
  | none => .exit (-1)

/-- The return code, and the bytes that were handed to `fwrite` for the output file.  `mergeOption`
is only looked at to do nothing. -/
def addMarkersToWaveFile (env : Env) (inFile markerFile : Option Stream) (outFile : Option Sink)
    (_mergeOption : CuePointMergingOption) : Outcome (ℤ × List UInt8) := do
  let inputFile ← fopenOrExit inFile
  let markersFile ← fopenOrExit markerFile
  let (waveHeader, s) ← readInput env inputFile
  let cueLocations ← readMarkers env.toHost markersFile
  exitIf (env.malloc (sizeofCuePoint * cueLocations.length) = false)
  let outputFile ← fopenOrExit outFile
  let formatChunk ← Outcome.ofOption s.formatChunk
  let outputFile ← writeOutput env.toHost waveHeader formatChunk s cueLocations outputFile
  pure (0, outputFile.bytes)

end Csnip.Wave
