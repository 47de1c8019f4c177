/-
Reading the input file of wavecuepoint.c.

The first half of `addMarkersToWaveFile`: the file header, and the loop that goes through
the chunks, keeps the format chunk and notes where the others are.  `scanRound` is one
round of the loop, with a function for each of its four branches; the names of the
variables are those of the source.
-/
import Csnip.Wave.Basic

namespace Csnip.Wave

open LittleEndian Stdio Loop

/-- The variables of the loop. -/
structure Scan where
  inputFile : Stream
  /-- `NULL` until a format chunk was found -/
  formatChunk : Option (List UInt8)
  formatChunkExtraBytes : ChunkLocation
  existingCueChunk : Option CueChunk
  dataChunkLocation : ChunkLocation
  /-- the first `otherChunksCount` entries -/
  otherChunkLocations : List ChunkLocation
deriving Repr, DecidableEq

/-- The variables before the loop. -/
def Scan.start (inputFile : Stream) : Scan :=
  { inputFile
    formatChunk := none
    formatChunkExtraBytes := ⟨0, 0⟩
    existingCueChunk := none
    dataChunkLocation := ⟨0, 0⟩
    otherChunkLocations := [] }

def maxOtherChunks : ℕ := 256

/-- Skip the body of a chunk and its pad byte. -/
def skip (f : Stream) (size : ℕ) : Stream :=
  let f := (f.fseekCur size).2
  if size % 2 ≠ 0 then (f.fseekCur 1).2 else f

/-- The branch for "fmt ". -/
def scanFormat (env : Env) (s : Scan) : Outcome Scan := do
  exitIf (env.malloc sizeofFormatChunk = false)
  let f := (s.inputFile.fseekCur (-4)).2
  let (formatChunk, f) ← freadOrExit f sizeofFormatChunk
  let formatChunk ← complete sizeofFormatChunk formatChunk
  let compressionCode := field formatChunk 8 2
  exitIf (littleEndianBytesToUInt16 env.toHost (env.stack f.ftell) compressionCode ≠ 1)
  let chunkDataSize := field formatChunk 4 4
  let extraFormatBytesCount :=
    u32 (littleEndianBytesToUInt32 env.toHost chunkDataSize + 2 ^ 32 - 16)
  if extraFormatBytesCount > 0 then
    let formatChunkExtraBytes := ⟨f.ftell, extraFormatBytesCount⟩
    pure { s with
      inputFile := skip f extraFormatBytesCount
      formatChunk := some formatChunk
      formatChunkExtraBytes }
  else
    pure { s with
      inputFile := f
      formatChunk := some formatChunk }

/-- The branch for "data". -/
def scanData (env : Env) (s : Scan) : Outcome Scan := do
  let startOffset := s.inputFile.ftell - 4
  let (sampleDataSizeBytes, f) ← freadOrExit s.inputFile 4
  let sampleDataSizeBytes ← complete 4 sampleDataSizeBytes
  let sampleDataSize := littleEndianBytesToUInt32 env.toHost sampleDataSizeBytes
  pure { s with
    inputFile := skip f sampleDataSize
    dataChunkLocation := ⟨startOffset, 4 + 4 + sampleDataSize⟩ }

/-- One round of the loop that reads the cue points. -/
def readCuePoint (_ : ℤ) (r : List (List UInt8) × Stream) :
    Outcome (List (List UInt8) × Stream) := do
  let (cuePoint, f) ← freadOrExit r.2 sizeofCuePoint
  pure (r.1 ++ [cuePoint], f)

/-- The branch for "cue ". -/
def scanCue (env : Env) (s : Scan) : Outcome Scan := do
  let (cueChunkDataSizeBytes, f) ← freadOrExit s.inputFile 4
  let cueChunkDataSizeBytes ← complete 4 cueChunkDataSizeBytes
  let cueChunkDataSize := littleEndianBytesToUInt32 env.toHost cueChunkDataSizeBytes
  let (cuePointsCountBytes, f) ← freadOrExit f 4
  let cuePointsCountBytes ← complete 4 cuePointsCountBytes
  -- the count is a 32-bit number, of which 16 bits are read
  let cuePointsCount :=
    littleEndianBytesToUInt16 env.toHost (env.stack f.ftell) cuePointsCountBytes
  -- the result of `malloc` is not looked at
  let (existingCuePoints, f) ←
    (if cuePointsCount > 0 ∧ env.malloc (sizeofCuePoint * cuePointsCount) = false then .undefined
    else forUp 0 cuePointsCount readCuePoint ([], f))
  pure { s with
    inputFile := f
    existingCueChunk := some {
      chunkID := cueID
      chunkDataSize := uint32ToLittleEndianBytes env.toHost cueChunkDataSize
      cuePointsCount := uint32ToLittleEndianBytes env.toHost cuePointsCount
      cuePoints := existingCuePoints } }

/-- The branch for any other chunk. -/
def scanOther (env : Env) (s : Scan) : Outcome Scan := do
  exitIf (s.otherChunkLocations.length ≥ maxOtherChunks)
  let startOffset := s.inputFile.ftell - 4
  let (chunkDataSizeBytes, f) ← freadOrExit s.inputFile 4
  -- the array is initialised with zeros
  let chunkDataSizeBytes :=
    chunkDataSizeBytes ++ List.replicate (4 - chunkDataSizeBytes.length) 0
  let chunkDataSize := littleEndianBytesToUInt32 env.toHost chunkDataSizeBytes
  pure { s with
    inputFile := skip f chunkDataSize
    otherChunkLocations := s.otherChunkLocations ++ [⟨startOffset, 4 + 4 + chunkDataSize⟩] }

/-- One round of the loop over the chunks. -/
def scanRound (env : Env) (s : Scan) : Outcome (Round Scan Scan) := do
  let (nextChunkID, f) := s.inputFile.fread 4
  let s := { s with inputFile := f }
  if f.eof then pure (.done s)
  else do
    exitIf (f.error = true)
    let s ←
      (if nextChunkID = fmtID then scanFormat env s
      else if nextChunkID = dataID then scanData env s
      else if nextChunkID = cueID then scanCue env s
      else scanOther env s)
    pure (.again s)

/-- The rounds the loop needs at most: all but the last read on in the file. -/
def scanFuel (f : Stream) : ℕ := f.bytes.length + f.faults.length + 1

/-- From the opened files to the end of the loop: the header of the input file, and what was
found in it. -/
def readInput (env : Env) (inputFile : Stream) : Outcome (List UInt8 × Scan) := do
  exitIf (env.malloc sizeofWaveHeader = false)
  let (waveHeader, f) ← freadOrExit inputFile sizeofWaveHeader
  let waveHeader ← complete sizeofWaveHeader waveHeader
  exitIf (field waveHeader 0 4 ≠ riffID)
  exitIf (field waveHeader 8 4 ≠ waveID)
  let remainingFileSize :=
    u32 (littleEndianBytesToUInt32 env.toHost (field waveHeader 4 4) + 2 ^ 32 - 4)
  exitIf (remainingFileSize ≤ 0)
  let s ← loop (scanRound env) (scanFuel f) (.start f)
  -- Did we get enough data from the input file to proceed?
  exitIf (s.formatChunk = none ∨ s.dataChunkLocation.size = 0)
  pure (waveHeader, s)

end Csnip.Wave
