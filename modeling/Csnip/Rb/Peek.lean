/-
The peeking functions.

`rb_peek_byte_at()` reads the byte it should at every offset inside the content.
`rb_peek_at()` computes the lengths of its two pieces separately, and the second one
has the offset subtracted although `linear_end` already starts from the offset
position.  The window is delivered as long as it stays on one side of the physical end
or the offset is zero (`peekAt_eq`); a window that crosses the end at a positive offset
is torn (`peekAt_torn`): either the subtraction wraps and the copy leaves the buffer, or
`offset` bytes too few are stored while the full count is returned.
-/
import Csnip.Rb.Spec

namespace Csnip

open Memory Cyclic

namespace Rb

variable {rb : Rb}

/-! ### The statistics a peek touches -/

/-- A peek of `n` bytes where `count` were asked for. -/
def afterPeek (rb : Rb) (n count : ℕ) : Rb :=
  { rb with
    totalBytesPeek := u64 (rb.totalBytesPeek + n)
    totalUnderflows :=
      if n < count then u64 (rb.totalUnderflows + 1) else rb.totalUnderflows }

theorem sameRing_afterPeek (rb : Rb) (n count : ℕ) : SameRing rb (rb.afterPeek n count) :=
  SameRing.stats ..

theorem sameRing_underflow (rb : Rb) :
    SameRing rb { rb with totalUnderflows := u64 (rb.totalUnderflows + 1) } :=
  SameRing.stats ..

/-! ### Peeking a window -/

/-- How many bytes a peek of `count` bytes at `offset` is for. -/
def peekCount (rb : Rb) (count offset : ℕ) : ℕ := min count (rb.canRead - offset)

/-- The window begins before the physical end at a positive offset and ends behind it. -/
def CrossesEnd (rb : Rb) (count offset : ℕ) : Prop :=
  0 < offset ∧ rb.readIndex + offset < rb.size ∧
    rb.size < rb.readIndex + offset + rb.peekCount count offset

instance (rb : Rb) (count offset : ℕ) : Decidable (rb.CrossesEnd count offset) := by
  unfold CrossesEnd; infer_instance

/-- A window of the content, found from the read index. -/
theorem take_drop_queue (h : WF rb) {offset n : ℕ} (hle : offset + n ≤ rb.canRead) :
    (rb.queue.drop offset).take n = window rb.buf (rb.readIndex + offset) n := by
  have hcr := canRead_le h
  rw [queue, drop_window (by omega) (by rw [h.length_buf]; omega), take_window (by omega)]

theorem peekAt_none (rb : Rb) {count offset : ℕ} (hc : count ≠ 0) (ho : rb.canRead ≤ offset) :
    rb.peekAt count offset =
      some (0, [], { rb with totalUnderflows := u64 (rb.totalUnderflows + 1) }) := by
  simp only [peekAt]
  rw [if_neg hc, if_pos ho]

/-- Inside the content a peek is for `peekCount` bytes. -/
theorem doPeekCount_eq (h : WF rb) {count offset : ℕ} (ho : offset < rb.canRead) :
    (if count > subU64 rb.canRead offset then subU64 rb.canRead offset else count)
      = rb.peekCount count offset := by
  have hs := h.size_lt
  have hcr := canRead_le h
  rw [subU64_of_le (by omega) (by omega), peekCount]
  split <;> omega

/-- The pieces of a peek whose window does not cross the end at a positive offset. -/
theorem peekPieces_eq (h : WF rb) {offset n : ℕ} (hpos : 0 < n) (hle : offset + n ≤ rb.size)
    (hx : ¬ (0 < offset ∧ rb.readIndex + offset < rb.size ∧ rb.size < rb.readIndex + offset + n)) :
    ∃ index c1 c2, rb.peekPieces offset n = some (index, c1, c2) ∧
      rb.copyOut index c1 c2 = some (window rb.buf (rb.readIndex + offset) n) := by
  have hs := h.size_lt
  have hr := h.read_lt
  simp only [peekPieces]
  rw [u64_of_lt (by omega : rb.readIndex + offset < 2 ^ 64), u64_of_lt (by omega)]
  by_cases hend : rb.readIndex + offset + n > rb.size
  · by_cases hover : rb.readIndex + offset ≥ rb.size
    · -- what is left of the round fits in front of the read index
      have hmod : (rb.readIndex + offset) % rb.size = rb.readIndex + offset - rb.size := by
        rw [Nat.mod_eq_sub_mod hover, Nat.mod_eq_of_lt (by omega)]
      rw [if_pos hend, if_pos hover, umod_of_pos h.size_pos, hmod, ← window_mod, h.length_buf, hmod]
      exact ⟨_, n, 0, rfl, copyOut_straight h (by omega)⟩
    · -- the offset is zero, and the two lengths are those of a read
      have ho0 : offset = 0 := by omega
      subst ho0
      rw [if_pos hend, if_neg hover, subU64_of_le (by omega) (by omega),
        subU64_of_le (a := rb.readIndex + 0 + n) (by omega) (by omega),
        subU64_of_le (by omega) (by omega)]
      exact ⟨_, _, _, rfl, copyOut_split h hr (by omega) (by omega)⟩
  · rw [if_neg hend]
    exact ⟨_, n, 0, rfl, copyOut_straight h (by omega)⟩

theorem peekAt_eq (h : WF rb) {count offset : ℕ} (hc : count ≠ 0) (ho : offset < rb.canRead)
    (hx : ¬ rb.CrossesEnd count offset) :
    rb.peekAt count offset =
      some (rb.peekCount count offset,
        window rb.buf (rb.readIndex + offset) (rb.peekCount count offset),
        rb.afterPeek (rb.peekCount count offset) count) := by
  have hcr := canRead_le h
  have hpos : 0 < rb.peekCount count offset := by unfold peekCount; omega
  have hle : offset + rb.peekCount count offset ≤ rb.canRead := by unfold peekCount; omega
  obtain ⟨index, c1, c2, hpieces, hcopy⟩ := peekPieces_eq h hpos (by omega) hx
  simp only [peekAt, doPeekCount_eq h ho]
  rw [if_neg hc, if_neg (by omega), hpieces]
  simp only [Option.bind_eq_bind, Option.bind_some, hcopy]
  rfl

/-- The pieces of a peek whose window does. -/
theorem peekPieces_torn (h : WF rb) {offset n : ℕ} (hle : offset + n ≤ rb.size)
    (hbefore : rb.readIndex + offset < rb.size) (hbehind : rb.size < rb.readIndex + offset + n) :
    rb.peekPieces offset n = some (rb.readIndex + offset, rb.size - (rb.readIndex + offset),
      subU64 (rb.readIndex + offset + n - rb.size) offset) := by
  have hs := h.size_lt
  have hr := h.read_lt
  simp only [peekPieces]
  rw [u64_of_lt (by omega : rb.readIndex + offset < 2 ^ 64), u64_of_lt (by omega),
    if_pos hbehind, if_neg (by omega), subU64_of_le (by omega) (by omega),
    subU64_of_le (a := rb.readIndex + offset + n) (by omega) (by omega)]

/-- **A window across the physical end at a positive offset is not delivered whole.** -/
theorem peekAt_torn (h : WF rb) {count offset : ℕ} (hc : count ≠ 0) (ho : offset < rb.canRead)
    (hx : rb.CrossesEnd count offset) {n : ℕ} {bytes : List UInt8} {rb' : Rb}
    (hpeek : rb.peekAt count offset = some (n, bytes, rb')) :
    bytes.length + offset = rb.peekCount count offset := by
  have hs := h.size_lt
  have hb := h.length_buf
  have hcr := canRead_le h
  have hle : offset + rb.peekCount count offset ≤ rb.canRead := by unfold peekCount; omega
  obtain ⟨hpos, hbefore, hbehind⟩ := hx
  simp only [peekAt, doPeekCount_eq h ho] at hpeek
  rw [if_neg hc, if_neg (by omega), peekPieces_torn h (by omega) hbefore hbehind] at hpeek
  simp only [Option.bind_eq_bind, Option.bind_some, Option.bind_eq_some_iff, Option.pure_def,
    Option.some.injEq, Prod.mk.injEq] at hpeek
  obtain ⟨stored, hcopy, -, rfl, -⟩ := hpeek
  obtain ⟨hc2, hlen⟩ := copyOut_eq_some hcopy
  by_cases hwrap : offset ≤ rb.readIndex + offset + rb.peekCount count offset - rb.size
  · -- the second piece is `offset` bytes short
    rw [subU64_of_le (by omega) hwrap] at hlen
    omega
  · -- the subtraction wraps, and the copy would leave the buffer
    have hhuge : rb.size < subU64 (rb.readIndex + offset + rb.peekCount count offset - rb.size)
        offset := lt_subU64 (by omega) (by omega)
    omega

/-- The second length of a crossing window wraps: the copy would leave the buffer. -/
def LeavesBuffer (rb : Rb) (count offset : ℕ) : Prop :=
  rb.CrossesEnd count offset ∧ rb.readIndex + rb.peekCount count offset < rb.size

instance (rb : Rb) (count offset : ℕ) : Decidable (rb.LeavesBuffer count offset) :=
  inferInstanceAs (Decidable (_ ∧ _))

/-- How many bytes a peek of `count` bytes at `offset` stores. -/
def storedCount (rb : Rb) (count offset : ℕ) : ℕ :=
  if rb.CrossesEnd count offset then rb.peekCount count offset - offset
  else rb.peekCount count offset

theorem storedCount_le (rb : Rb) (count offset : ℕ) : rb.storedCount count offset ≤ count := by
  unfold storedCount peekCount
  split <;> omega

theorem storedCount_le_size (h : WF rb) (count offset : ℕ) :
    rb.storedCount count offset ≤ rb.size := by
  have hcr := canRead_le h
  unfold storedCount peekCount
  split <;> omega

theorem SameRing.crossesEnd {rb' : Rb} (hring : SameRing rb rb') (count off : ℕ) :
    rb'.CrossesEnd count off ↔ rb.CrossesEnd count off := by
  unfold CrossesEnd peekCount
  rw [hring.canRead, hring.size, hring.readIndex]

theorem SameRing.leavesBuffer {rb' : Rb} (hring : SameRing rb rb') (count off : ℕ) :
    rb'.LeavesBuffer count off ↔ rb.LeavesBuffer count off := by
  unfold LeavesBuffer
  rw [hring.crossesEnd]
  unfold peekCount
  rw [hring.canRead, hring.size, hring.readIndex]

theorem SameRing.storedCount {rb' : Rb} (hring : SameRing rb rb') (count off : ℕ) :
    rb'.storedCount count off = rb.storedCount count off := by
  unfold Rb.storedCount
  simp only [hring.crossesEnd]
  unfold peekCount
  rw [hring.canRead]

/-- Behind the content there is no window. -/
theorem not_crossesEnd {count offset : ℕ} (ho : rb.canRead ≤ offset) :
    ¬ rb.CrossesEnd count offset := by
  rintro ⟨-, hbefore, hbehind⟩
  unfold peekCount at hbehind
  omega

theorem peekAt_leaves (h : WF rb) {count offset : ℕ} (hc : count ≠ 0)
    (hl : rb.LeavesBuffer count offset) : rb.peekAt count offset = none := by
  obtain ⟨hx, hwild⟩ := hl
  have ho : offset < rb.canRead := by
    by_contra hno
    exact not_crossesEnd (Nat.not_lt.mp hno) hx
  -- a result would have as many bytes as the first piece alone, and more than there are
  cases hpeek : rb.peekAt count offset with
  | none => rfl
  | some r =>
      exfalso
      obtain ⟨n, bytes, rb'⟩ := r
      have hcr := canRead_le h
      have hle : offset + rb.peekCount count offset ≤ rb.canRead := by unfold peekCount; omega
      have hlen := peekAt_torn h hc ho hx hpeek
      simp only [peekAt, doPeekCount_eq h ho] at hpeek
      rw [if_neg hc, if_neg (by omega), peekPieces_torn h (by omega) hx.2.1 hx.2.2] at hpeek
      simp only [Option.bind_eq_bind, Option.bind_some, Option.bind_eq_some_iff, Option.pure_def,
        Option.some.injEq, Prod.mk.injEq] at hpeek
      obtain ⟨stored, hcopy, -, rfl, -⟩ := hpeek
      obtain ⟨-, hpieces⟩ := copyOut_eq_some hcopy
      omega

/-- **What a peek inside the content delivers**, as long as it stays in the buffer. -/
theorem peekAt_stores (h : WF rb) {count offset : ℕ} (hc : count ≠ 0) (ho : offset < rb.canRead)
    (hl : ¬ rb.LeavesBuffer count offset) :
    rb.peekAt count offset =
      some (rb.peekCount count offset,
        window rb.buf (rb.readIndex + offset) (rb.storedCount count offset),
        rb.afterPeek (rb.peekCount count offset) count) := by
  by_cases hx : rb.CrossesEnd count offset
  · have hs := h.size_lt
    have hcr := canRead_le h
    have hle : offset + rb.peekCount count offset ≤ rb.canRead := by unfold peekCount; omega
    have hin : rb.size ≤ rb.readIndex + rb.peekCount count offset := by
      by_contra hno
      exact hl ⟨hx, Nat.not_le.mp hno⟩
    obtain ⟨hpos, hbefore, hbehind⟩ := hx
    -- the two pieces are those of a window that is `offset` bytes shorter
    have hshort : subU64 (rb.readIndex + offset + rb.peekCount count offset - rb.size) offset
        = rb.readIndex + offset + (rb.peekCount count offset - offset) - rb.size := by
      rw [subU64_of_le (by omega) (by omega)]
      omega
    have hcopy : rb.copyOut (rb.readIndex + offset) (rb.size - (rb.readIndex + offset))
        (rb.readIndex + offset + (rb.peekCount count offset - offset) - rb.size)
        = some (window rb.buf (rb.readIndex + offset) (rb.peekCount count offset - offset)) := by
      by_cases hend : rb.size < rb.readIndex + offset + (rb.peekCount count offset - offset)
      · exact copyOut_split h hbefore (by omega) hend
      · have hzero :
            rb.readIndex + offset + (rb.peekCount count offset - offset) - rb.size = 0 := by
          omega
        have hall : rb.size - (rb.readIndex + offset) = rb.peekCount count offset - offset := by
          omega
        rw [hzero, hall]
        exact copyOut_straight h (by omega)
    rw [storedCount, if_pos ⟨hpos, hbefore, hbehind⟩]
    simp only [peekAt, doPeekCount_eq h ho]
    rw [if_neg hc, if_neg (by omega), peekPieces_torn h (by omega) hbefore hbehind, hshort]
    simp only [Option.bind_eq_bind, Option.bind_some, hcopy]
    rfl
  · rw [storedCount, if_neg hx]
    exact peekAt_eq h hc ho hx

/-! ### Peeking a byte and searching -/

theorem peekByteAt_none (rb : Rb) {offset : ℕ} (ho : rb.canRead ≤ offset) :
    rb.peekByteAt offset =
      some (0, [], { rb with totalUnderflows := u64 (rb.totalUnderflows + 1) }) := by
  rw [peekByteAt, if_pos ho]

theorem peekByteAt_eq (h : WF rb) {offset : ℕ} (ho : offset < rb.canRead) :
    rb.peekByteAt offset =
      some (1, window rb.buf (rb.readIndex + offset) 1,
        { rb with totalBytesPeek := u64 (rb.totalBytesPeek + 1) }) := by
  have hs := h.size_lt
  have hr := h.read_lt
  have hb := h.length_buf
  have hcr := canRead_le h
  have hindex : (if rb.size ≤ rb.readIndex + offset
      then subU64 (rb.readIndex + offset) rb.size else rb.readIndex + offset)
      = (rb.readIndex + offset) % rb.size := by
    rw [add_mod_of_lt hr (by omega)]
    split
    · rw [subU64_of_le (by omega) (by omega), if_neg (by omega)]
    · rw [if_pos (by omega)]
  have hlt : (rb.readIndex + offset) % rb.size < rb.size := Nat.mod_lt _ h.size_pos
  simp only [peekByteAt]
  rw [if_neg (by omega), u64_of_lt (by omega : rb.readIndex + offset < 2 ^ 64), hindex,
    load_of_le (by omega), ← window_mod, hb, window_straight (by omega)]
  rfl

/-- The answer of a search for a byte: 1 and the first place where it stands, or 0 and the
offset 0. -/
def FirstByte (content : List UInt8) (byte : UInt8) (found offset : ℕ) : Prop :=
  found = 1 ∧ content[offset]? = some byte ∧ (∀ j < offset, content[j]? ≠ some byte) ∨
    found = 0 ∧ offset = 0 ∧ byte ∉ content

/-- One byte of a list, as a piece of it. -/
theorem take_one_eq_singleton_iff {content : List UInt8} {offset : ℕ} {byte : UInt8} :
    (content.drop offset).take 1 = [byte] ↔ content[offset]? = some byte := by
  rw [List.take_one, Option.toList_eq_singleton_iff, List.head?_drop]

/-- A search leaves the ring as it was, and it ends with the first place: each round moves
one byte further into the content. -/
theorem findByteFrom_first (byte : UInt8) :
    ∀ (fuel : ℕ) (rb : Rb) (off : ℕ), WF rb → rb.canRead < off + fuel → off ≤ rb.canRead →
      (∀ j < off, rb.queue[j]? ≠ some byte) →
      ∃ found pos rb', findByteFrom byte fuel rb off = some (found, pos, rb') ∧
        FirstByte rb.queue byte found pos ∧ SameRing rb rb' ∧
        rb'.totalBytesRead = rb.totalBytesRead ∧ rb'.totalBytesWrite = rb.totalBytesWrite := by
  intro fuel
  induction fuel with
  | zero => intro rb off _ hlt hle; omega
  | succ fuel ih =>
      intro rb off h hlt hle hnone
      by_cases ho : off < rb.canRead
      · have hcr := canRead_le h
        have hs := h.size_lt
        have hbyte : window rb.buf (rb.readIndex + off) 1 = [byte] ↔
            rb.queue[off]? = some byte := by
          rw [← take_drop_queue h (by omega)]
          exact take_one_eq_singleton_iff
        set rb₁ := { rb with totalBytesPeek := u64 (rb.totalBytesPeek + 1) } with hrb₁
        have hsame : SameRing rb rb₁ := SameRing.stats ..
        rw [findByteFrom, peekByteAt_eq h ho]
        simp only [ne_eq, one_ne_zero, not_false_eq_true, if_true]
        by_cases hfound : window rb.buf (rb.readIndex + off) 1 = [byte]
        · rw [if_pos hfound]
          exact ⟨1, off, rb₁, rfl, .inl ⟨rfl, hbyte.mp hfound, hnone⟩, hsame, rfl, rfl⟩
        · rw [if_neg hfound, u64_of_lt (by omega : off + 1 < 2 ^ 64)]
          have hnext : ∀ j < off + 1, rb₁.queue[j]? ≠ some byte := by
            intro j hj
            rw [hsame.queue]
            rcases Nat.lt_succ_iff_lt_or_eq.mp hj with hlt | rfl
            · exact hnone j hlt
            · exact fun heq => hfound (hbyte.mpr heq)
          obtain ⟨found, pos, rb', hrun, hfirst, hring, hread, hwrite⟩ :=
            ih rb₁ (off + 1) (hsame.wf h) (by rw [hsame.canRead]; omega)
              (by rw [hsame.canRead]; omega) hnext
          rw [hsame.queue] at hfirst
          exact ⟨found, pos, rb', hrun, hfirst, hsame.trans hring, hread, hwrite⟩
      · have hnowhere : byte ∉ rb.queue := by
          intro hmem
          obtain ⟨j, hj, heq⟩ := List.getElem_of_mem hmem
          have hlen := length_queue h
          exact hnone j (by omega) (List.getElem?_eq_some_iff.mpr ⟨hj, heq⟩)
        rw [findByteFrom, peekByteAt_none rb (by omega)]
        exact ⟨0, 0, _, rfl, .inr ⟨rfl, rfl, hnowhere⟩, sameRing_underflow rb, rfl, rfl⟩

theorem findByte_first (h : WF rb) (byte : UInt8) :
    ∃ found pos rb', rb.findByte byte = some (found, pos, rb') ∧
      FirstByte rb.queue byte found pos ∧ SameRing rb rb' ∧
      rb'.totalBytesRead = rb.totalBytesRead ∧ rb'.totalBytesWrite = rb.totalBytesWrite :=
  findByteFrom_first byte _ rb 0 h (by omega) (by omega) fun j hj => absurd hj (Nat.not_lt_zero j)

theorem findByte_total (h : WF rb) (byte : UInt8) :
    ∃ found pos rb', rb.findByte byte = some (found, pos, rb') ∧ SameRing rb rb' ∧
      rb'.totalBytesRead = rb.totalBytesRead ∧ rb'.totalBytesWrite = rb.totalBytesWrite := by
  obtain ⟨found, pos, rb', hrun, -, hring, hread, hwrite⟩ := findByte_first h byte
  exact ⟨found, pos, rb', hrun, hring, hread, hwrite⟩

end Rb

end Csnip
