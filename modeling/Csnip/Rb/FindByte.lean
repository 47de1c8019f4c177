/-
One byte at a time.

`rb_peek_byte_at()` comes to its place with one subtraction, `rb_peek_at()` with the cases of
`peekPieces`.  A window of one byte does not cross the physical end, so that a general peek
of one byte is torn nowhere and the two are the same function (`byte_peek_eq_peek`).

The same holds for the searches: `rb_find_byte()` ends with the first place of the byte, and
`rb_find_byte_sequence()` with it too if its pattern is that byte.
-/
import Csnip.Rb.Search

namespace Csnip

open Memory Cyclic

namespace Rb

variable {rb : Rb}

/-- The window of one byte is on one side of the physical end. -/
theorem not_crossesEnd_one (rb : Rb) (offset : ℕ) : ¬ rb.CrossesEnd 1 offset := by
  rintro ⟨-, hbefore, hbehind⟩
  unfold peekCount at hbehind
  omega

/-! ### Peeking -/

/-- The place `rb_peek_byte_at()` copies from. -/
def bytePlace (rb : Rb) (offset : ℕ) : ℕ :=
  let tmpReadIndex := u64 (rb.readIndex + offset)
  if rb.size ≤ tmpReadIndex then subU64 tmpReadIndex rb.size else tmpReadIndex

theorem peekByteAt_place {offset : ℕ} (ho : offset < rb.canRead) :
    rb.peekByteAt offset = (load rb.buf (rb.bytePlace offset) 1).map fun byte =>
      (1, byte, { rb with totalBytesPeek := u64 (rb.totalBytesPeek + 1) }) := by
  rw [peekByteAt, if_neg (by omega)]
  rfl

/-- Both peeks copy one byte from the same place, which is in the buffer. -/
theorem bytePlace_eq (h : WF rb) {offset : ℕ} (ho : offset < rb.canRead) :
    rb.bytePlace offset < rb.size ∧
      rb.peekPieces offset 1 = some (rb.bytePlace offset, 1, 0) := by
  have hs := h.size_lt
  have hr := h.read_lt
  have hcr := canRead_le h
  have hindex : u64 (rb.readIndex + offset) = rb.readIndex + offset := u64_of_lt (by omega)
  have hend : u64 (rb.readIndex + offset + 1) = rb.readIndex + offset + 1 := u64_of_lt (by omega)
  simp only [bytePlace, peekPieces, hindex, hend]
  by_cases hover : rb.size ≤ rb.readIndex + offset
  · -- one round behind, the subtraction is the remainder
    have hmod : (rb.readIndex + offset) % rb.size = rb.readIndex + offset - rb.size := by
      rw [Nat.mod_eq_sub_mod hover, Nat.mod_eq_of_lt (by omega)]
    rw [if_pos hover, if_pos (by omega), if_pos hover, subU64_of_le (by omega) hover,
      umod_of_pos h.size_pos, hmod, Option.map_some]
    exact ⟨by omega, rfl⟩
  · rw [if_neg hover, if_neg (by omega)]
    exact ⟨by omega, rfl⟩

theorem peekByteAt_eq_peekAt (h : WF rb) (offset : ℕ) :
    rb.peekByteAt offset = rb.peekAt 1 offset := by
  by_cases ho : offset < rb.canRead
  · have hone : rb.peekCount 1 offset = 1 := by
      unfold peekCount
      omega
    rw [peekByteAt_eq h ho, peekAt_eq h one_ne_zero ho (not_crossesEnd_one rb offset), hone]
    rfl
  · rw [peekByteAt_none rb (by omega), peekAt_none rb one_ne_zero (by omega)]

/-- **The byte peek is the general peek of one byte**, in every ring that calls can make out
of a new one and at every offset: both are defined and come to the same value, byte and ring,
and they read inside the buffer. -/
theorem byte_peek_eq_peek {size : ℕ} (hsize : size < 2 ^ 64) (hrb : Reachable size rb)
    (offset : ℕ) :
    rb.peekByteAt offset = rb.peekAt 1 offset ∧
      (∃ n bytes rb', rb.peekByteAt offset = some (n, bytes, rb')) ∧
      (offset < rb.canRead → rb.bytePlace offset < rb.size ∧
        rb.peekPieces offset 1 = some (rb.bytePlace offset, 1, 0)) := by
  have hwf := (hrb.wf (hrb.size_lt hsize)).1
  refine ⟨peekByteAt_eq_peekAt hwf offset, ?_, fun ho => bytePlace_eq hwf ho⟩
  by_cases ho : offset < rb.canRead
  · have hplace := (bytePlace_eq hwf ho).1
    rw [peekByteAt_place ho, load_of_le (by rw [hwf.length_buf]; omega)]
    exact ⟨_, _, _, rfl⟩
  · exact ⟨_, _, _, peekByteAt_none rb (by omega)⟩

/-- At the first place behind the physical end. -/
theorem byte_peek_eq_peek_wrapped :
    wrappedRing.peekByteAt 3 = wrappedRing.peekAt 1 3 ∧
      (∃ n bytes rb', wrappedRing.peekByteAt 3 = some (n, bytes, rb')) ∧
      (3 < wrappedRing.canRead → wrappedRing.bytePlace 3 < wrappedRing.size ∧
        wrappedRing.peekPieces 3 1 = some (wrappedRing.bytePlace 3, 1, 0)) :=
  byte_peek_eq_peek (by decide) reachable_wrappedRing 3

/-! ### Searching -/

theorem FirstByte.unique {content : List UInt8} {byte : UInt8} {found offset found' offset' : ℕ}
    (h : FirstByte content byte found offset) (h' : FirstByte content byte found' offset') :
    found = found' ∧ offset = offset' := by
  rcases h with ⟨rfl, hat, hnone⟩ | ⟨rfl, rfl, hno⟩
  · rcases h' with ⟨rfl, hat', hnone'⟩ | ⟨-, -, hno⟩
    · refine ⟨rfl, Nat.le_antisymm ?_ ?_⟩
      · exact Nat.le_of_not_lt fun hlt => hnone _ hlt hat'
      · exact Nat.le_of_not_lt fun hlt => hnone' _ hlt hat
    · exact absurd (List.mem_of_getElem? hat) hno
  · rcases h' with ⟨-, hat, -⟩ | ⟨rfl, rfl, -⟩
    · exact absurd (List.mem_of_getElem? hat) hno
    · exact ⟨rfl, rfl⟩

/-- The first match of a pattern of one byte is the first place of the byte. -/
theorem FirstMatch.firstByte {content : List UInt8} {byte : UInt8} {found offset : ℕ}
    (h : FirstMatch content [byte] found offset) : FirstByte content byte found offset := by
  have hmatch : ∀ j, MatchesAt content [byte] j ↔ content[j]? = some byte := fun j =>
    take_one_eq_singleton_iff
  rcases h with ⟨rfl, hat, hnone⟩ | ⟨rfl, rfl, hno⟩
  · exact .inl ⟨rfl, (hmatch offset).mp hat, fun j hj hjat => hnone j hj ((hmatch j).mpr hjat)⟩
  · refine .inr ⟨rfl, rfl, fun hmem => ?_⟩
    obtain ⟨j, hj⟩ := List.mem_iff_getElem?.mp hmem
    exact hno j ((hmatch j).mpr hj)

/-- Searching for one byte of a pattern. -/
theorem findByteSequence_one (h : WF rb) {byte : UInt8} {pattern compareBuffer : List UInt8}
    {patternOffset : ℕ} (hbyte : pattern[patternOffset]? = some byte)
    (hlen : compareBuffer.length = 1) :
    ∃ found offset rb',
      rb.findByteSequence pattern patternOffset 1 compareBuffer = some (found, offset, rb') ∧
      FirstByte rb.queue byte found offset ∧ SameRing rb rb' := by
  have hone := take_one_eq_singleton_iff.mpr hbyte
  have hin := (List.getElem?_eq_some_iff.mp hbyte).1
  have hexact : rb.FindsExactly pattern patternOffset 1 :=
    (findsExactly_iff h ⟨hin, rfl, Nat.le_refl 1⟩).mpr
      fun off _ _ hx => absurd hx (not_crossesEnd_one rb off)
  obtain ⟨found, offset, rb', hrun, hfirst, hring⟩ := hexact compareBuffer hlen
  rw [hone] at hfirst
  exact ⟨found, offset, rb', hrun, hfirst.firstByte, hring⟩

/-- **The search for a byte is exact**, in every ring that calls can make out of a new one:
it ends with 1 and the first place of the byte in the content, or with 0 and the offset 0,
and leaves the ring as it was; and the search for a sequence ends with the same answer if the
one byte of its pattern is that byte. -/
theorem find_byte_exact {size : ℕ} (hsize : size < 2 ^ 64) (hrb : Reachable size rb)
    (byte : UInt8) :
    ∃ found offset rb', rb.findByte byte = some (found, offset, rb') ∧
      FirstByte rb.queue byte found offset ∧ SameRing rb rb' ∧
      ∀ (pattern : List UInt8) (patternOffset : ℕ) (compareBuffer : List UInt8),
        pattern[patternOffset]? = some byte → compareBuffer.length = 1 → ∃ rb'',
          rb.findByteSequence pattern patternOffset 1 compareBuffer
            = some (found, offset, rb'') ∧ SameRing rb rb'' := by
  have hwf := (hrb.wf (hrb.size_lt hsize)).1
  obtain ⟨found, offset, rb', hrun, hfirst, hring, -⟩ := findByte_first hwf byte
  refine ⟨found, offset, rb', hrun, hfirst, hring, ?_⟩
  intro pattern patternOffset compareBuffer hbyte hlen
  obtain ⟨found', offset', rb'', hrun', hfirst', hring'⟩ :=
    findByteSequence_one hwf hbyte hlen
  obtain ⟨rfl, rfl⟩ := hfirst.unique hfirst'
  exact ⟨rb'', hrun', hring'⟩

/-- The last byte of a content that goes round. -/
theorem find_byte_exact_wrapped :
    ∃ found offset rb', wrappedRing.findByte 5 = some (found, offset, rb') ∧
      FirstByte wrappedRing.queue 5 found offset ∧ SameRing wrappedRing rb' ∧
      ∀ (pattern : List UInt8) (patternOffset : ℕ) (compareBuffer : List UInt8),
        pattern[patternOffset]? = some 5 → compareBuffer.length = 1 → ∃ rb'',
          wrappedRing.findByteSequence pattern patternOffset 1 compareBuffer
            = some (found, offset, rb'') ∧ SameRing wrappedRing rb'' :=
  find_byte_exact (by decide) reachable_wrappedRing 5

end Rb

end Csnip
