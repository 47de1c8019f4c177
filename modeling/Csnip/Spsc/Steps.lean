/-
One reader and one writer on the same ring.

`rb_read()` and `rb_write()` are cut into the accesses they make to the shared record:
every load of an index or of the flag, every `memcpy`, every store of an index or of the
flag is one step, and between any two of them the other party may run.  A program
counter says which access comes next and carries the local variables that are still
needed.  Each party counts in totals of its own, which the other never looks at; they
are left out.

Next to the record a state remembers the bytes accepted and delivered by the calls that
have returned.
-/
import Csnip.Lib.Machine
import Csnip.Rb.Basic

namespace Csnip

open Memory

namespace Spsc

/-! ### The reader -/

/-- Where `rb_read()` is: the access that comes next. -/
inductive Reader
  /-- Not inside a call. -/
  | idle
  /-- `rb_can_read()`: `r=rb->read_index`. -/
  | canReadR (count : ℕ)
  /-- `rb_can_read()`: `w=rb->write_index`. -/
  | canReadW (count r : ℕ)
  /-- `rb_can_read()` with `r==w`: `rb->last_was_write`. -/
  | canReadFlag (count : ℕ)
  /-- `linear_end=rb->read_index+do_read_count`. -/
  | linear (n : ℕ)
  /-- `copy_count_1=rb->size-rb->read_index`. -/
  | copyCount (n linearEnd : ℕ)
  /-- The index in the address the first copy starts from. -/
  | copyFrom (n copyCount1 copyCount2 : ℕ)
  /-- The first `memcpy`. -/
  | copy1 (n copyCount1 copyCount2 index : ℕ)
  /-- The second `memcpy`. -/
  | copy2 (n copyCount2 : ℕ) (destination : List UInt8)
  /-- `rb->read_index+copy_count_1`. -/
  | nextIndex (n copyCount1 : ℕ) (destination : List UInt8)
  /-- The store of `rb->read_index`. -/
  | storeIndex (n index : ℕ) (destination : List UInt8)
  /-- `rb->last_was_write=0`, the last access before the call returns. -/
  | storeFlag (n : ℕ) (destination : List UInt8)
deriving Repr, DecidableEq

namespace Reader

/-- `rb_read()` once `rb_can_read()` has returned. -/
def afterCanRead (count canReadCount : ℕ) : Reader :=
  if canReadCount = 0 then .idle
  else .linear (if count > canReadCount then canReadCount else count)

/-- The next access of the reader. -/
def next (rb : Rb) : Reader → Option (Rb × Reader)
  | .idle => none
  | .canReadR count => some (rb, .canReadW count rb.readIndex)
  | .canReadW count r =>
      let w := rb.writeIndex
      some (rb,
        if r = w then .canReadFlag count
        else afterCanRead count
          (if r < w then subU64 w r else subU64 (u64 (w + rb.size)) r))
  | .canReadFlag count =>
      some (rb, afterCanRead count (if rb.lastWasWrite ≠ 0 then rb.size else 0))
  | .linear n =>
      let linearEnd := u64 (rb.readIndex + n)
      some (rb, if linearEnd > rb.size then .copyCount n linearEnd else .copyFrom n n 0)
  | .copyCount n linearEnd =>
      some (rb, .copyFrom n (subU64 rb.size rb.readIndex) (subU64 linearEnd rb.size))
  | .copyFrom n copyCount1 copyCount2 =>
      some (rb, .copy1 n copyCount1 copyCount2 rb.readIndex)
  | .copy1 n copyCount1 copyCount2 index =>
      (load rb.buf index copyCount1).map fun bytes =>
        (rb, if copyCount2 = 0 then .nextIndex n copyCount1 bytes else .copy2 n copyCount2 bytes)
  | .copy2 n copyCount2 destination =>
      (load rb.buf 0 copyCount2).bind fun bytes =>
        (umod copyCount2 rb.size).map fun index =>
          (rb, .storeIndex n index (destination ++ bytes))
  | .nextIndex n copyCount1 destination =>
      (umod (u64 (rb.readIndex + copyCount1)) rb.size).map fun index =>
        (rb, .storeIndex n index destination)
  | .storeIndex n index destination =>
      some ({ rb with readIndex := index }, .storeFlag n destination)
  | .storeFlag _ _ => some ({ rb with lastWasWrite := 0 }, .idle)

/-- The bytes of the running call that its store of the index has released. -/
def released : Reader → List UInt8
  | .storeFlag _ destination => destination
  | _ => []

/-- The reader is about to store the flag. -/
def AtFlag : Reader → Prop
  | .storeFlag .. => True
  | _ => False

end Reader

/-! ### The writer -/

/-- Where `rb_write()` is: the access that comes next. -/
inductive Writer
  | idle
  /-- `rb_can_write()`: `r=rb->read_index`. -/
  | canWriteR (source : List UInt8) (count : ℕ)
  /-- `rb_can_write()`: `w=rb->write_index`. -/
  | canWriteW (source : List UInt8) (count r : ℕ)
  /-- `rb_can_write()` with `r==w`: `rb->last_was_write`. -/
  | canWriteFlag (source : List UInt8) (count : ℕ)
  /-- `linear_end=rb->write_index+do_write_count`. -/
  | linear (source : List UInt8) (n : ℕ)
  /-- `copy_count_1=rb->size-rb->write_index`. -/
  | copyCount (source : List UInt8) (n linearEnd : ℕ)
  /-- The index in the address the first copy goes to. -/
  | copyTo (source : List UInt8) (n copyCount1 copyCount2 : ℕ)
  /-- The first `memcpy`. -/
  | copy1 (source : List UInt8) (n copyCount1 copyCount2 index : ℕ)
  /-- The second `memcpy`. -/
  | copy2 (source : List UInt8) (n copyCount1 copyCount2 : ℕ)
  /-- `rb->write_index+copy_count_1`. -/
  | nextIndex (source : List UInt8) (n copyCount1 : ℕ)
  /-- The store of `rb->write_index`. -/
  | storeIndex (source : List UInt8) (n index : ℕ)
  /-- `rb->last_was_write=1`, the last access before the call returns. -/
  | storeFlag (source : List UInt8) (n : ℕ)
deriving Repr, DecidableEq

namespace Writer

/-- `rb_write()` once `rb_can_write()` has returned. -/
def afterCanWrite (source : List UInt8) (count canWriteCount : ℕ) : Writer :=
  if canWriteCount = 0 then .idle
  else .linear source (if count > canWriteCount then canWriteCount else count)

/-- The next access of the writer. -/
def next (rb : Rb) : Writer → Option (Rb × Writer)
  | .idle => none
  | .canWriteR source count => some (rb, .canWriteW source count rb.readIndex)
  | .canWriteW source count r =>
      let w := rb.writeIndex
      some (rb,
        if r = w then .canWriteFlag source count
        else afterCanWrite source count
          (if r < w then u64 (subU64 rb.size w + r) else subU64 r w))
  | .canWriteFlag source count =>
      some (rb, afterCanWrite source count (if rb.lastWasWrite ≠ 0 then 0 else rb.size))
  | .linear source n =>
      let linearEnd := u64 (rb.writeIndex + n)
      some (rb,
        if linearEnd > rb.size then .copyCount source n linearEnd else .copyTo source n n 0)
  | .copyCount source n linearEnd =>
      some (rb, .copyTo source n (subU64 rb.size rb.writeIndex) (subU64 linearEnd rb.size))
  | .copyTo source n copyCount1 copyCount2 =>
      some (rb, .copy1 source n copyCount1 copyCount2 rb.writeIndex)
  | .copy1 source n copyCount1 copyCount2 index =>
      (load source 0 copyCount1).bind fun bytes =>
        (store rb.buf index bytes).map fun buf =>
          ({ rb with buf := buf },
            if copyCount2 = 0 then .nextIndex source n copyCount1
            else .copy2 source n copyCount1 copyCount2)
  | .copy2 source n copyCount1 copyCount2 =>
      (load source copyCount1 copyCount2).bind fun bytes =>
        (store rb.buf 0 bytes).bind fun buf =>
          (umod copyCount2 rb.size).map fun index =>
            ({ rb with buf := buf }, .storeIndex source n index)
  | .nextIndex source n copyCount1 =>
      (umod (u64 (rb.writeIndex + copyCount1)) rb.size).map fun index =>
        (rb, .storeIndex source n index)
  | .storeIndex source n index => some ({ rb with writeIndex := index }, .storeFlag source n)
  | .storeFlag _ _ => some ({ rb with lastWasWrite := 1 }, .idle)

/-- The bytes the running call has accepted, once it knows how many. -/
def accepted : Writer → List UInt8
  | .linear source n | .copyCount source n _ | .copyTo source n _ _ | .copy1 source n _ _ _
  | .copy2 source n _ _ | .nextIndex source n _ | .storeIndex source n _ | .storeFlag source n =>
      source.take n
  | _ => []

/-- The bytes of the running call that its store of the index has published. -/
def published : Writer → List UInt8
  | .storeFlag source n => source.take n
  | _ => []

/-- The bytes of the running call that are in the buffer and not yet published. -/
def staged : Writer → List UInt8
  | .copy2 source _ copyCount1 _ => source.take copyCount1
  | .nextIndex source n _ | .storeIndex source n _ => source.take n
  | _ => []

/-- The writer is about to store the flag. -/
def AtFlag : Writer → Prop
  | .storeFlag .. => True
  | _ => False

end Writer

/-! ### Both together -/

/-- The shared record, the two parties, and what the returned calls have accepted and
delivered. -/
structure State where
  rb : Rb
  reader : Reader
  writer : Writer
  accepted : List UInt8
  delivered : List UInt8
deriving Repr, DecidableEq

/-- Calls begin when their party chooses, and everything else is the next access of a
party. -/
inductive Move
  /-- The reader calls `rb_read()`. -/
  | callRead (count : ℕ)
  /-- The writer calls `rb_write()` with a block of at least `count` bytes. -/
  | callWrite (source : List UInt8) (count : ℕ) (avail : count ≤ source.length)
  | reader
  | writer

namespace State

/-- The state after a move.  A call that asks for nothing returns at once. -/
def next (s : State) : Move → Option State
  | .callRead count =>
      if s.reader = .idle then
        some { s with reader := if count = 0 then .idle else .canReadR count }
      else none
  | .callWrite source count _ =>
      if s.writer = .idle then
        some { s with writer := if count = 0 then .idle else .canWriteR source count }
      else none
  | .reader =>
      (s.reader.next s.rb).map fun r =>
        { s with rb := r.1, reader := r.2, delivered := s.delivered ++ s.reader.released }
  | .writer =>
      (s.writer.next s.rb).map fun r =>
        { s with rb := r.1, writer := r.2, accepted := s.accepted ++ s.writer.published }

/-- Any move, in any order. -/
def Step (s t : State) : Prop := ∃ move, s.next move = some t

/-- A new ring, with nobody inside a call. -/
def start (rb : Rb) : State := ⟨rb, .idle, .idle, [], []⟩

/-- Everything published so far. -/
def produced (s : State) : List UInt8 := s.accepted ++ s.writer.published

/-- Everything released so far. -/
def consumed (s : State) : List UInt8 := s.delivered ++ s.reader.released

/-- How many bytes are published and not released. -/
def unread (s : State) : ℕ := s.produced.length - s.consumed.length

end State

end Spsc

end Csnip
