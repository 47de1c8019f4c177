/-
The ring buffer of rb.h.

`Rb` is `rb_t` together with the `size` bytes that follow it in the same block, and
the functions below are those of rb.h, statement by statement.  Words are natural
numbers reduced to 64 bits wherever the C forms a sum or a difference, and a
`memcpy` that leaves the buffer, like a remainder by zero, has no result.

A destination pointer is modelled by the bytes stored through it: every function
that fills one stores from `destination[0]` on without gaps, so the list it returns
is the whole effect on the caller's memory.
-/
import Csnip.Lib.Memory

namespace Csnip

open Memory

/-! ### The data structure -/

/-- `rb_t`, and in `buf` the buffer attached to it.  The `int` members are `ℤ`, the
`uint64_t` members `ℕ`, `version` is the bit pattern of the float. -/
structure Rb where
  magic : List UInt8
  version : ℕ
  size : ℕ
  readIndex : ℕ
  writeIndex : ℕ
  lastWasWrite : ℤ
  memoryLocked : ℤ
  inSharedMemory : ℤ
  memoryLockable : ℤ
  memoryShareable : ℤ
  mutexLockable : ℤ
  unlinkRequested : ℤ
  noMoreInputData : ℤ
  sampleRate : ℤ
  channelCount : ℤ
  bytesPerSample : ℤ
  totalBytesRead : ℕ
  totalBytesWrite : ℕ
  totalBytesPeek : ℕ
  totalUnderflows : ℕ
  totalOverflows : ℕ
  shmHandle : List UInt8
  humanName : List UInt8
  /-- The mutex attributes and the two locks, or the padding in their place. -/
  mutex : List UInt8
  buf : List UInt8
deriving Repr, DecidableEq

/-- A continuous part of the buffer: where it starts and how long it is. -/
structure RbRegion where
  buffer : ℕ
  size : ℕ
deriving Repr, DecidableEq

/-- `sizeof(rb_t)`. -/
def sizeofRb : ℕ := 716

/-- `RB_MAGIC`, "ringbuf" and its terminator. -/
def rbMagic : List UInt8 := [114, 105, 110, 103, 98, 117, 102, 0]

/-- The bit pattern of `RB_VERSION`, 0.25. -/
def rbVersion : ℕ := 0x3E800000

def rbMIN (a b : ℕ) : ℕ := if a < b then a else b

/-! ### Creating a ring -/

/-- What `malloc` can do: refuse, or hand out a block of exactly the size it was asked
for, whose bytes are arbitrary.  No object is larger than `PTRDIFF_MAX`. -/
structure Malloc where
  alloc : ℕ → Option (List UInt8)
  length_alloc : ∀ n block, alloc n = some block → block.length = n
  alloc_lt : ∀ n block, alloc n = some block → n < 2 ^ 63

/-- `strncpy(dst, src, n)` into a field that held `old`: the name, then zeros. -/
def strncpy (old src : List UInt8) (n : ℕ) : List UInt8 :=
  (src ++ List.replicate n 0).take n ++ old.drop n

/-- The block `malloc` returned, its first bytes being taken for an `rb_t`, after
`rb_set_common_init_values()` and the assignments that follow it in `rb_new_audio()`. -/
def rbInit (block : List UInt8) (size : ℕ) (name : List UInt8)
    (sampleRate channelCount bytesPerSample : ℤ) : Rb where
  magic := rbMagic
  version := rbVersion
  size := size
  readIndex := 0
  writeIndex := 0
  lastWasWrite := 0
  memoryLocked := 0
  inSharedMemory := 0
  memoryLockable := 1
  memoryShareable := 1
  mutexLockable := 1
  unlinkRequested := 0
  noMoreInputData := 0
  sampleRate := sampleRate
  channelCount := channelCount
  bytesPerSample := bytesPerSample
  totalBytesRead := 0
  totalBytesWrite := 0
  totalBytesPeek := 0
  totalUnderflows := 0
  totalOverflows := 0
  shmHandle := 0 :: (block.drop 121).take 255
  humanName := strncpy ((block.drop 376).take 256) name 255
  mutex := (block.drop 632).take 84
  buf := block.drop sizeofRb

/-- `rb_new_audio()`.  The outer `none` is a header that does not fit into the block,
`some none` is a returned `NULL`. -/
def rbNewAudio (malloc : Malloc) (size : ℕ) (name : List UInt8)
    (sampleRate channelCount bytesPerSample : ℤ) : Option (Option Rb) :=
  if size < 1 then some none
  else
    match malloc.alloc (u64 (sizeofRb + size)) with
    | none => some none
    | some block =>
        if block.length < sizeofRb then none
        else some (some (rbInit block size name sampleRate channelCount bytesPerSample))

/-- `rb_new()`: a ring called "anonymous". -/
def rbNew (malloc : Malloc) (size : ℕ) : Option (Option Rb) :=
  rbNewAudio malloc size [97, 110, 111, 110, 121, 109, 111, 117, 115] 0 1 1

namespace Rb

/-! ### Fill level -/

def resetStats (rb : Rb) : Rb :=
  { rb with
    totalBytesRead := 0, totalBytesWrite := 0, totalBytesPeek := 0
    totalUnderflows := 0, totalOverflows := 0 }

def reset (rb : Rb) : Rb :=
  resetStats { rb with readIndex := 0, writeIndex := 0, lastWasWrite := 0 }

def canRead (rb : Rb) : ℕ :=
  let r := rb.readIndex
  let w := rb.writeIndex
  if r = w then
    if rb.lastWasWrite ≠ 0 then rb.size else 0
  else if r < w then subU64 w r
  else subU64 (u64 (w + rb.size)) r

def canWrite (rb : Rb) : ℕ :=
  let r := rb.readIndex
  let w := rb.writeIndex
  if r = w then
    if rb.lastWasWrite ≠ 0 then 0 else rb.size
  else if r < w then u64 (subU64 rb.size w + r)
  else subU64 r w

/-! ### Copying readers and the copying writer -/

/-- The lengths of the two pieces a run of `count` bytes from `index` is copied in. -/
def copyCounts (rb : Rb) (index count : ℕ) : ℕ × ℕ :=
  let linearEnd := u64 (index + count)
  if linearEnd > rb.size then (subU64 rb.size index, subU64 linearEnd rb.size)
  else (count, 0)

/-- The bytes the one or two `memcpy()` of a reader store to `destination`: a piece from
`index`, and a second one, if it has a length, from the start of the buffer. -/
def copyOut (rb : Rb) (index copyCount1 copyCount2 : ℕ) : Option (List UInt8) := do
  let part1 ← load rb.buf index copyCount1
  if copyCount2 = 0 then pure part1
  else pure (part1 ++ (← load rb.buf 0 copyCount2))

/-- The buffer after the one or two `memcpy()` of the writer. -/
def copyIn (rb : Rb) (index : ℕ) (source : List UInt8) (copyCount1 copyCount2 : ℕ) :
    Option (List UInt8) := do
  let buf ← store rb.buf index (← load source 0 copyCount1)
  if copyCount2 = 0 then pure buf
  else store buf 0 (← load source copyCount1 copyCount2)

/-- `rb_generic_read()`: the count, the bytes stored to `destination`, the ring. -/
def genericRead (rb : Rb) (count isOver : ℕ) : Option (ℕ × List UInt8 × Rb) :=
  if count = 0 then some (0, [], rb)
  else
    let canReadCount := rb.canRead
    if isOver = 0 ∧ canReadCount = 0 then some (0, [], rb)
    else do
      let doReadCount :=
        if isOver ≠ 0 then rbMIN rb.size count
        else if count > canReadCount then canReadCount else count
      let (copyCount1, copyCount2) := rb.copyCounts rb.readIndex doReadCount
      let bytes ← rb.copyOut rb.readIndex copyCount1 copyCount2
      let readIndex ←
        umod (if copyCount2 = 0 then u64 (rb.readIndex + copyCount1) else copyCount2) rb.size
      pure (doReadCount, bytes,
        { rb with
          readIndex := readIndex
          -- if write index was overpassed, move up to read index
          writeIndex :=
            if isOver ≠ 0 ∧ canReadCount < doReadCount then readIndex else rb.writeIndex
          lastWasWrite := 0
          totalBytesRead := u64 (rb.totalBytesRead + doReadCount)
          totalUnderflows :=
            if doReadCount < count then u64 (rb.totalUnderflows + 1) else rb.totalUnderflows })

def read (rb : Rb) (count : ℕ) : Option (ℕ × List UInt8 × Rb) := rb.genericRead count 0

def overread (rb : Rb) (count : ℕ) : Option (ℕ × List UInt8 × Rb) := rb.genericRead count 1

/-- `rb_write()`.  `source` is the block the caller points at; reading past its end has
no result, like storing past the end of the buffer. -/
def write (rb : Rb) (source : List UInt8) (count : ℕ) : Option (ℕ × Rb) :=
  if count = 0 then some (0, rb)
  else
    let canWriteCount := rb.canWrite
    if canWriteCount = 0 then some (0, rb)
    else do
      let doWriteCount := if count > canWriteCount then canWriteCount else count
      let (copyCount1, copyCount2) := rb.copyCounts rb.writeIndex doWriteCount
      let buf ← rb.copyIn rb.writeIndex source copyCount1 copyCount2
      let writeIndex ←
        umod (if copyCount2 = 0 then u64 (rb.writeIndex + copyCount1) else copyCount2) rb.size
      pure (doWriteCount,
        { rb with
          buf := buf
          writeIndex := writeIndex
          lastWasWrite := 1
          totalBytesWrite := u64 (rb.totalBytesWrite + doWriteCount)
          totalOverflows :=
            if doWriteCount < count then u64 (rb.totalOverflows + 1) else rb.totalOverflows })

/-! ### Peeking -/

/-- Where `rb_peek_at()` copies from, and the lengths of its two pieces.  They are
computed on their own, not as in `rb_generic_read()`: the second one has `offset`
subtracted from it. -/
def peekPieces (rb : Rb) (offset doReadCount : ℕ) : Option (ℕ × ℕ × ℕ) :=
  let tmpReadIndex := u64 (rb.readIndex + offset)
  let linearEnd := u64 (tmpReadIndex + doReadCount)
  if linearEnd > rb.size then
    if tmpReadIndex ≥ rb.size then
      -- all in rolled over
      (umod tmpReadIndex rb.size).map fun index => (index, doReadCount, 0)
    else
      -- segmented
      some (tmpReadIndex, subU64 rb.size tmpReadIndex, subU64 (subU64 linearEnd rb.size) offset)
  else some (tmpReadIndex, doReadCount, 0)

/-- `rb_peek_at()`. -/
def peekAt (rb : Rb) (count offset : ℕ) : Option (ℕ × List UInt8 × Rb) :=
  if count = 0 then some (0, [], rb)
  else
    let canReadCount := rb.canRead
    if canReadCount ≤ offset then
      some (0, [], { rb with totalUnderflows := u64 (rb.totalUnderflows + 1) })
    else do
      let doReadCount :=
        if count > subU64 canReadCount offset then subU64 canReadCount offset else count
      let (tmpReadIndex, copyCount1, copyCount2) ← rb.peekPieces offset doReadCount
      let bytes ← rb.copyOut tmpReadIndex copyCount1 copyCount2
      pure (doReadCount, bytes,
        { rb with
          totalBytesPeek := u64 (rb.totalBytesPeek + doReadCount)
          totalUnderflows :=
            if doReadCount < count then u64 (rb.totalUnderflows + 1) else rb.totalUnderflows })

def peek (rb : Rb) (count : ℕ) : Option (ℕ × List UInt8 × Rb) := rb.peekAt count 0

/-- `rb_peek_byte_at()`: the count, the byte stored to `*destination` if any, the ring. -/
def peekByteAt (rb : Rb) (offset : ℕ) : Option (ℕ × List UInt8 × Rb) :=
  if rb.canRead ≤ offset then
    some (0, [], { rb with totalUnderflows := u64 (rb.totalUnderflows + 1) })
  else
    let tmpReadIndex := u64 (rb.readIndex + offset)
    let index := if rb.size ≤ tmpReadIndex then subU64 tmpReadIndex rb.size else tmpReadIndex
    (load rb.buf index 1).map fun byte =>
      (1, byte, { rb with totalBytesPeek := u64 (rb.totalBytesPeek + 1) })

/-- The loop of `rb_find_byte()`, for at most `fuel` rounds. -/
def findByteFrom (byte : UInt8) : ℕ → Rb → ℕ → Option (ℕ × ℕ × Rb)
  | 0, _, _ => none
  | fuel + 1, rb, off =>
      match rb.peekByteAt off with
      | none => none
      | some (n, c, rb) =>
          if n ≠ 0 then
            if c = [byte] then some (1, off, rb) else findByteFrom byte fuel rb (u64 (off + 1))
          else some (0, 0, rb)

/-- `rb_find_byte()`: whether the byte was found, the value stored to `*offset`, the
ring.  The peek refuses the first offset behind the content, so as many rounds as the
content has bytes, and one, are enough. -/
def findByte (rb : Rb) (byte : UInt8) : Option (ℕ × ℕ × Rb) :=
  findByteFrom byte (rb.canRead + 1) rb 0

/-- The loop of `rb_find_byte_sequence()`, for at most `fuel` rounds.  `compareBuffer` is
what the automatic array of `count` bytes holds; a copy that does not fit into it has no
result. -/
def findByteSequenceFrom (pattern : List UInt8) (patternOffset count : ℕ) :
    ℕ → Rb → ℕ → List UInt8 → Option (ℕ × ℕ × Rb)
  | 0, _, _, _ => none
  | fuel + 1, rb, off, compareBuffer => do
      let (n, c, rb) ← rb.peekByteAt off
      if n = 0 then pure (0, 0, rb)
      else if c = (← load pattern patternOffset 1) then do
        -- found start, read to compare buffer
        let (n, bytes, rb) ← rb.peekAt count off
        let compareBuffer ← store compareBuffer 0 bytes
        if n = count then
          if (← load pattern patternOffset count) = (← load compareBuffer 0 count) then
            pure (1, off, rb)
          else
            findByteSequenceFrom pattern patternOffset count fuel rb (u64 (off + 1)) compareBuffer
        else pure (0, 0, rb)
      else findByteSequenceFrom pattern patternOffset count fuel rb (u64 (off + 1)) compareBuffer

/-- `rb_find_byte_sequence()`: whether the sequence was found, the value stored to
`*offset`, the ring.  `compareBuffer` is what its array happens to hold at first. -/
def findByteSequence (rb : Rb) (pattern : List UInt8) (patternOffset count : ℕ)
    (compareBuffer : List UInt8) : Option (ℕ × ℕ × Rb) :=
  findByteSequenceFrom pattern patternOffset count (rb.canRead + 1) rb 0 compareBuffer

/-! ### Deinterleaving -/

/-- The loop of `rb_deinterleave_items()`, for at most `fuel` rounds: the copies it makes,
each with its place in `destination`, and the ring.  `bound` is the value the byte position
is compared with. -/
def deinterleaveFrom (itemSize initialBytepos bound step : ℕ) :
    ℕ → Rb → ℕ → ℕ → Option (List (ℕ × List UInt8) × Rb)
  | 0, _, _, _ => none
  | fuel + 1, rb, bytepos, destination =>
      if bytepos < bound then do
        let (_, bytes, rb) ← rb.peekAt itemSize (u64 (initialBytepos + bytepos))
        let (copies, rb) ← deinterleaveFrom itemSize initialBytepos bound step fuel rb
          (u64 (bytepos + step)) (destination + itemSize)
        pure ((destination, bytes) :: copies, rb)
      else some ([], rb)

/-- `rb_deinterleave_items()`, its loop cut off after `fuel` rounds: the returned value, the
copies, the ring.  The loop need not end, so no number of rounds is enough for all calls. -/
def deinterleaveItems (fuel : ℕ) (rb : Rb)
    (itemCount itemSize initialItemOffset itemBlockSize : ℕ) :
    Option (ℕ × List (ℕ × List UInt8) × Rb) :=
  let initialBytepos := u64 (initialItemOffset * itemSize)
  let concernedBlockSize :=
    u64 (u64 (u64 (subU64 itemCount 1 * itemSize) * itemBlockSize) + itemSize)
  let bound := u64 (initialBytepos + concernedBlockSize)
  if rb.canRead < bound then some (0, [], rb)
  else do
    let (copies, rb) ←
      deinterleaveFrom itemSize initialBytepos bound (u64 (itemSize * itemBlockSize)) fuel rb 0 0
    pure (u64 (itemCount * itemSize), copies, rb)

/-- `rb_deinterleave_audio()`: the sizes are `int` members of the ring, converted to
`uint64_t`. -/
def deinterleaveAudio (fuel : ℕ) (rb : Rb) (frameCount frameOffset : ℕ) :
    Option (ℕ × List (ℕ × List UInt8) × Rb) :=
  rb.deinterleaveItems fuel frameCount (rb.bytesPerSample % 2 ^ 64).toNat frameOffset
    (rb.channelCount % 2 ^ 64).toNat

/-! ### Moving the indices -/

/-- `rb_generic_advance_read_index()`. -/
def genericAdvanceReadIndex (rb : Rb) (count isOver : ℕ) : Option (ℕ × Rb) :=
  if count = 0 then some (0, rb)
  else
    let canReadCount := rb.canRead
    if isOver = 0 ∧ canReadCount = 0 then
      some (0, { rb with totalUnderflows := u64 (rb.totalUnderflows + 1) })
    else
      let doAdvanceCount :=
        if isOver ≠ 0 then rbMIN rb.size count
        else if count > canReadCount then canReadCount else count
      let r := rb.readIndex
      let linearEnd := u64 (r + doAdvanceCount)
      do
        let readIndex ←
          umod (if linearEnd > rb.size then subU64 linearEnd rb.size
            else u64 (r + doAdvanceCount)) rb.size
        pure (doAdvanceCount,
          { rb with
            readIndex := readIndex
            writeIndex :=
              if isOver ≠ 0 ∧ canReadCount < doAdvanceCount then readIndex else rb.writeIndex
            lastWasWrite := 0
            totalBytesRead := u64 (rb.totalBytesRead + doAdvanceCount)
            totalUnderflows :=
              if doAdvanceCount < count then u64 (rb.totalUnderflows + 1)
              else rb.totalUnderflows })

def advanceReadIndex (rb : Rb) (count : ℕ) : Option (ℕ × Rb) :=
  rb.genericAdvanceReadIndex count 0

def overadvanceReadIndex (rb : Rb) (count : ℕ) : Option (ℕ × Rb) :=
  rb.genericAdvanceReadIndex count 1

/-- `rb_skip()`, an alias. -/
def skip (rb : Rb) (count : ℕ) : Option (ℕ × Rb) := rb.advanceReadIndex count

def drop (rb : Rb) : Option (ℕ × Rb) := rb.advanceReadIndex rb.canRead

/-- `rb_advance_write_index()`. -/
def advanceWriteIndex (rb : Rb) (count : ℕ) : Option (ℕ × Rb) :=
  if count = 0 then some (0, rb)
  else
    let canWriteCount := rb.canWrite
    if canWriteCount = 0 then
      some (0, { rb with totalOverflows := u64 (rb.totalOverflows + 1) })
    else
      let doAdvanceCount := if count > canWriteCount then canWriteCount else count
      let w := rb.writeIndex
      let linearEnd := u64 (w + doAdvanceCount)
      do
        let writeIndex ←
          umod (if linearEnd > rb.size then subU64 linearEnd rb.size
            else u64 (w + doAdvanceCount)) rb.size
        pure (doAdvanceCount,
          { rb with
            writeIndex := writeIndex
            lastWasWrite := 1
            totalBytesWrite := u64 (rb.totalBytesWrite + doAdvanceCount)
            totalOverflows :=
              if doAdvanceCount < count then u64 (rb.totalOverflows + 1)
              else rb.totalOverflows })

/-! ### Regions -/

/-- The two regions of `count` bytes from `index`.  `regions[1].buffer` is not assigned
when the second one is empty; the model leaves it at the start of the buffer. -/
def regionsFrom (rb : Rb) (index count : ℕ) : RbRegion × RbRegion :=
  let linearEnd := u64 (index + count)
  if linearEnd > rb.size then (⟨index, subU64 rb.size index⟩, ⟨0, subU64 linearEnd rb.size⟩)
  else (⟨index, count⟩, ⟨0, 0⟩)

def getReadRegions (rb : Rb) : RbRegion × RbRegion := rb.regionsFrom rb.readIndex rb.canRead

def getWriteRegions (rb : Rb) : RbRegion × RbRegion := rb.regionsFrom rb.writeIndex rb.canWrite

/-- The region of the next functions: the first piece of `count` bytes from `index`. -/
def nextRegionFrom (rb : Rb) (index count : ℕ) : RbRegion :=
  let linearEnd := u64 (index + count)
  if linearEnd > rb.size then ⟨index, subU64 rb.size index⟩ else ⟨index, count⟩

def getNextReadRegion (rb : Rb) : RbRegion := rb.nextRegionFrom rb.readIndex rb.canRead

def getNextWriteRegion (rb : Rb) : RbRegion := rb.nextRegionFrom rb.writeIndex rb.canWrite

end Rb

end Csnip
