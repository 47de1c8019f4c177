/-
The class RB of RB.java.

The Java reader maps the block of a ring in shared memory and reads and writes the
members of the header at byte offsets it computes itself.  `Mbb` is the mapped buffer.
A `long` or an `int` is an integer reduced to its range after every operation; a get, a
put or a position outside the mapping or the destination array, like a remainder by
zero, throws, and is `none` here.
-/
import Csnip.Lib.LittleEndian
import Csnip.Lib.Memory

namespace Csnip

open Memory LittleEndian

namespace JavaRB

/-! ### Words and the mapped buffer -/

/-- The bytes of a `MappedByteBuffer` in little-endian order. -/
abbrev Mbb := List UInt8

/-- The result of an operation on `long`. -/
def long (z : ℤ) : ℤ := signed 8 z

/-- The cast `(int)`. -/
def int (z : ℤ) : ℤ := signed 4 z

/-- The operator `%`. -/
def rem (a b : ℤ) : Option ℤ := if b = 0 then none else some (a.tmod b)

def getLong (mbb : Mbb) (p : ℕ) : Option ℤ := (load mbb p 8).map fun bs => signed 8 (leNat bs)

def putLong (mbb : Mbb) (p : ℕ) (z : ℤ) : Option Mbb := store mbb p (leInt 8 z)

def getInt (mbb : Mbb) (p : ℕ) : Option ℤ := (load mbb p 4).map fun bs => signed 4 (leNat bs)

def putInt (mbb : Mbb) (p : ℕ) (z : ℤ) : Option Mbb := store mbb p (leInt 4 z)

/-- `position(p)` and then `get(dst, offset, length)`. -/
def get (mbb : Mbb) (p : ℤ) (dst : List UInt8) (offset length : ℤ) : Option (List UInt8) :=
  if p < 0 ∨ offset < 0 ∨ length < 0 then none
  else (load mbb p.toNat length.toNat).bind (store dst offset.toNat)

/-! ### The layout of the header -/

def boffVersion : ℕ := 8
def boffSize : ℕ := boffVersion + 4
def boffReadIndex : ℕ := boffSize + 8
def boffWriteIndex : ℕ := boffReadIndex + 8
def boffLastWasWrite : ℕ := boffWriteIndex + 8
def boffMemoryLocked : ℕ := boffLastWasWrite + 4
def boffInSharedMemory : ℕ := boffMemoryLocked + 4
def boffMemoryLockable : ℕ := boffInSharedMemory + 4
def boffMemoryShareable : ℕ := boffMemoryLockable + 4
def boffMutexLockable : ℕ := boffMemoryShareable + 4
def boffUnlinkRequested : ℕ := boffMutexLockable + 4
def boffNoMoreInputData : ℕ := boffUnlinkRequested + 4
def boffSampleRate : ℕ := boffNoMoreInputData + 4
def boffChannelCount : ℕ := boffSampleRate + 4
def boffBytesPerSample : ℕ := boffChannelCount + 4
def boffTotalBytesRead : ℕ := boffBytesPerSample + 4
def boffTotalBytesWrite : ℕ := boffTotalBytesRead + 8
def boffTotalBytesPeek : ℕ := boffTotalBytesWrite + 8
def boffTotalUnderflows : ℕ := boffTotalBytesPeek + 8

def headerLength : ℤ := 716

def size (mbb : Mbb) : Option ℤ := getLong mbb boffSize

def readIndex (mbb : Mbb) : Option ℤ := getLong mbb boffReadIndex

def setReadIndex (mbb : Mbb) (newindex : ℤ) : Option Mbb := putLong mbb boffReadIndex newindex

def writeIndex (mbb : Mbb) : Option ℤ := getLong mbb boffWriteIndex

def setWriteIndex (mbb : Mbb) (newindex : ℤ) : Option Mbb := putLong mbb boffWriteIndex newindex

def lastWasWrite (mbb : Mbb) : Option ℤ := getInt mbb boffLastWasWrite

def setLastWasWrite (mbb : Mbb) (wasWrite : ℤ) : Option Mbb := putInt mbb boffLastWasWrite wasWrite

/-- `total(total()+n)`, for the total at `p`. -/
def addTotal (mbb : Mbb) (p : ℕ) (n : ℤ) : Option Mbb :=
  (getLong mbb p).bind fun total => putLong mbb p (long (total + n))

/-! ### Fill level -/

/-- `can_read()`. -/
def canRead (mbb : Mbb) : Option ℤ := do
  let r ← readIndex mbb
  let w ← writeIndex mbb
  if r = w then (lastWasWrite mbb).bind fun flag => if flag = 1 then size mbb else some 0
  else if r < w then some (long (w - r))
  else (size mbb).map fun size => long (long (w + size) - r)

/-- `can_write()`. -/
def canWrite (mbb : Mbb) : Option ℤ := do
  let r ← readIndex mbb
  let w ← writeIndex mbb
  if r = w then (lastWasWrite mbb).bind fun flag => if flag = 1 then some 0 else size mbb
  else if r < w then (size mbb).map fun size => long (long (size - w) + r)
  else some (long (r - w))

/-! ### Reading, peeking and skipping -/

/-- The one or two `get()` of a reader: a piece from `index`, and a second one, if it has
a length, from the start of the buffer. -/
def copy (mbb : Mbb) (destination : List UInt8) (index copyCount1 copyCount2 : ℤ) :
    Option (List UInt8) := do
  let destination ← get mbb (int (headerLength + index)) destination 0 (int copyCount1)
  if copyCount2 > 0 then get mbb headerLength destination (int copyCount1) (int copyCount2)
  else some destination

/-- The statements both functions that move the read index end with. -/
def moveReadIndex (mbb : Mbb) (index doCount count isOver canReadCount : ℤ) : Option Mbb := do
  let mbb ← setReadIndex mbb index
  -- if write index was overpassed, move up to read index
  let mbb ← (if isOver = 1 ∧ canReadCount < doCount then (readIndex mbb).bind (setWriteIndex mbb)
    else some mbb)
  let mbb ← setLastWasWrite mbb 0
  let mbb ← addTotal mbb boffTotalBytesRead doCount
  if doCount < count then addTotal mbb boffTotalUnderflows 1 else some mbb

/-- `generic_read()`: the count, the destination array, the mapped buffer. -/
def genericRead (mbb : Mbb) (destination : List UInt8) (count isOver : ℤ) :
    Option (ℤ × List UInt8 × Mbb) :=
  if count = 0 then some (0, destination, mbb)
  else do
    let canReadCount ← canRead mbb
    let size ← size mbb
    if isOver ≠ 1 ∧ canReadCount < 1 then some (0, destination, mbb)
    else do
      let doReadCount :=
        if isOver = 1 then min size count
        else if count > canReadCount then canReadCount else count
      let r ← readIndex mbb
      let linearEnd := long (r + doReadCount)
      let copyCount1 := if linearEnd > size then long (size - r) else doReadCount
      let copyCount2 := if linearEnd > size then long (linearEnd - size) else 0
      let destination ← copy mbb destination r copyCount1 copyCount2
      let index ← rem (if copyCount2 < 1 then long (r + copyCount1) else copyCount2) size
      let mbb ← moveReadIndex mbb index doReadCount count isOver canReadCount
      pure (doReadCount, destination, mbb)

/-- Where `peek_at()` copies from, and the lengths of its two pieces. -/
def peekPieces (size tmpReadIndex doReadCount offset : ℤ) : Option (ℤ × ℤ × ℤ) :=
  let linearEnd := long (tmpReadIndex + doReadCount)
  if linearEnd > size then
    if tmpReadIndex ≥ size then
      -- all in rolled over
      (rem tmpReadIndex size).map fun index => (index, doReadCount, 0)
    else
      -- segmented
      some (tmpReadIndex, long (size - tmpReadIndex), long (long (linearEnd - size) - offset))
  else some (tmpReadIndex, doReadCount, 0)

/-- `peek_at()`. -/
def peekAt (mbb : Mbb) (destination : List UInt8) (count offset : ℤ) :
    Option (ℤ × List UInt8 × Mbb) :=
  if count = 0 then some (0, destination, mbb)
  else do
    let canReadCount ← canRead mbb
    if canReadCount ≤ offset then
      (addTotal mbb boffTotalUnderflows 1).map fun mbb => (0, destination, mbb)
    else do
      let doReadCount :=
        if count > long (canReadCount - offset) then long (canReadCount - offset) else count
      let r ← readIndex mbb
      let size ← size mbb
      let (tmpReadIndex, copyCount1, copyCount2) ←
        peekPieces size (long (r + offset)) doReadCount offset
      let destination ← copy mbb destination tmpReadIndex copyCount1 copyCount2
      let mbb ← addTotal mbb boffTotalBytesPeek doReadCount
      let mbb ← (if doReadCount < count then addTotal mbb boffTotalUnderflows 1 else some mbb)
      pure (doReadCount, destination, mbb)

/-- `generic_advance_read_index()`. -/
def genericAdvanceReadIndex (mbb : Mbb) (count isOver : ℤ) : Option (ℤ × Mbb) :=
  if count = 0 then some (0, mbb)
  else do
    let canReadCount ← canRead mbb
    let size ← size mbb
    if isOver ≠ 1 ∧ canReadCount < 1 then
      (addTotal mbb boffTotalUnderflows 1).map fun mbb => (0, mbb)
    else do
      let doAdvanceCount :=
        if isOver = 1 then min size count
        else if count > canReadCount then canReadCount else count
      let r ← readIndex mbb
      let linearEnd := long (r + doAdvanceCount)
      let tmpReadIndex :=
        if linearEnd > size then long (linearEnd - size) else long (r + doAdvanceCount)
      let index ← rem tmpReadIndex size
      let mbb ← moveReadIndex mbb index doAdvanceCount count isOver canReadCount
      pure (doAdvanceCount, mbb)

end JavaRB

end Csnip
