/-
What a ring holds.

`WF` is the invariant of a ring in use: both indices lie inside the buffer, the flag is
0 or 1, and there are `size` bytes behind the header.  `size < 2 ^ 63` is what keeps
every sum the functions form below the word size.

The two indices and the flag determine a fill level, and `canRead_unique` says that
they do so unambiguously: a level `q` whose distance from `readIndex` is `writeIndex`,
with the flag telling 0 from `size`, is what `rb_can_read()` computes.  The content of
the ring is the window of that length from `readIndex`; behind it, from `writeIndex` on,
lie the spare bytes, and the two make up one whole round.
-/
import Csnip.Lib.Cyclic
import Csnip.Rb.Basic

namespace Csnip

open Memory Cyclic

namespace Rb

/-- The invariant of a ring in use. -/
structure WF (rb : Rb) : Prop where
  size_pos : 0 < rb.size
  size_lt : rb.size < 2 ^ 63
  read_lt : rb.readIndex < rb.size
  write_lt : rb.writeIndex < rb.size
  flag : rb.lastWasWrite = 0 ∨ rb.lastWasWrite = 1
  length_buf : rb.buf.length = rb.size

/-- The bytes available for reading, in the order they will be read. -/
def queue (rb : Rb) : List UInt8 := window rb.buf rb.readIndex rb.canRead

/-- The bytes the storage holds at the positions that will be written next. -/
def spare (rb : Rb) : List UInt8 := window rb.buf rb.writeIndex rb.canWrite

section Level

variable {rb : Rb}

/-! ### The fill level -/

theorem canRead_eq (h : WF rb) :
    rb.canRead = if rb.readIndex = rb.writeIndex then
        if rb.lastWasWrite = 0 then 0 else rb.size
      else if rb.readIndex < rb.writeIndex then rb.writeIndex - rb.readIndex
      else rb.writeIndex + rb.size - rb.readIndex := by
  have hs := h.size_lt
  have hr := h.read_lt
  have hw := h.write_lt
  simp only [canRead, ne_eq, ite_not]
  split
  · rfl
  · split
    · exact subU64_of_le (by omega) (by omega)
    · rw [u64_of_lt (by omega), subU64_of_le (by omega) (by omega)]

theorem canWrite_eq (h : WF rb) : rb.canWrite = rb.size - rb.canRead := by
  have hs := h.size_lt
  have hr := h.read_lt
  have hw := h.write_lt
  rw [canRead_eq h]
  simp only [canWrite, ne_eq, ite_not]
  split
  · split <;> omega
  · split
    · rw [subU64_of_le (by omega) (by omega), u64_of_lt (by omega)]
      omega
    · rw [subU64_of_le (by omega) (by omega)]
      omega

theorem canRead_le (h : WF rb) : rb.canRead ≤ rb.size := by
  have hr := h.read_lt
  have hw := h.write_lt
  rw [canRead_eq h]
  split
  · split <;> omega
  · split <;> omega

theorem canRead_add_canWrite (h : WF rb) : rb.canRead + rb.canWrite = rb.size := by
  have := canRead_le h
  rw [canWrite_eq h]
  omega

/-- The write index is the fill level ahead of the read index. -/
theorem writeIndex_eq (h : WF rb) : rb.writeIndex = (rb.readIndex + rb.canRead) % rb.size := by
  have hr := h.read_lt
  have hw := h.write_lt
  rw [add_mod_of_lt hr (canRead_le h), canRead_eq h]
  by_cases heq : rb.readIndex = rb.writeIndex
  · rw [if_pos heq]
    by_cases hf : rb.lastWasWrite = 0
    · rw [if_pos hf, if_pos (by omega)]
      omega
    · rw [if_neg hf, if_neg (by omega)]
      omega
  · rw [if_neg heq]
    by_cases hlt : rb.readIndex < rb.writeIndex
    · rw [if_pos hlt, if_pos (by omega)]
      omega
    · rw [if_neg hlt, if_neg (by omega)]
      omega

/-- **The indices and the flag determine the fill level.** -/
theorem canRead_unique (h : WF rb) {q : ℕ} (hq : q ≤ rb.size)
    (hw : rb.writeIndex = (rb.readIndex + q) % rb.size)
    (hempty : q = 0 → rb.lastWasWrite = 0) (hfull : q = rb.size → rb.lastWasWrite ≠ 0) :
    rb.canRead = q := by
  have hr := h.read_lt
  rw [canRead_eq h, hw, add_mod_of_lt hr hq]
  by_cases h0 : q = 0
  · rw [if_pos (by omega : rb.readIndex + q < rb.size), if_pos (by omega),
      if_pos (hempty h0), h0]
  · by_cases hs : q = rb.size
    · rw [if_neg (by omega : ¬ rb.readIndex + q < rb.size), if_pos (by omega),
        if_neg (hfull hs), hs]
    · by_cases hlt : rb.readIndex + q < rb.size
      · rw [if_pos hlt, if_neg (by omega), if_pos (by omega)]
        omega
      · rw [if_neg hlt, if_neg (by omega), if_neg (by omega)]
        omega

/-! ### The content -/

theorem length_queue (h : WF rb) : rb.queue.length = rb.canRead :=
  length_window (by rw [h.length_buf]; exact canRead_le h)

theorem length_spare (h : WF rb) : rb.spare.length = rb.canWrite :=
  length_window (by rw [h.length_buf, canWrite_eq h]; omega)

/-- The content and the spare bytes are one whole round of the storage. -/
theorem queue_append_spare (h : WF rb) :
    rb.queue ++ rb.spare = window rb.buf rb.readIndex rb.size := by
  have hlevel := canRead_add_canWrite h
  rw [← hlevel, window_add (by rw [h.length_buf]; omega), queue, spare]
  congr 1
  rw [← window_mod _ (rb.readIndex + rb.canRead), h.length_buf, ← writeIndex_eq h]

/-! ### Copying in two pieces -/

theorem copyCounts_eq (h : WF rb) {index n : ℕ} (hi : index < rb.size) (hn : n ≤ rb.size) :
    rb.copyCounts index n =
      if index + n > rb.size then (rb.size - index, index + n - rb.size) else (n, 0) := by
  have hs := h.size_lt
  simp only [copyCounts]
  rw [u64_of_lt (by omega)]
  split
  · rw [subU64_of_le (by omega) (by omega), subU64_of_le (by omega) (by omega)]
  · rfl

/-- One piece that stays in front of the physical end. -/
theorem copyOut_straight (h : WF rb) {index n : ℕ} (hn : index + n ≤ rb.size) :
    rb.copyOut index n 0 = some (window rb.buf index n) := by
  have hb := h.length_buf
  rw [copyOut, load_of_le (by omega), window_straight (by omega)]
  rfl

/-- Two pieces that meet at the physical end. -/
theorem copyOut_split (h : WF rb) {index n : ℕ} (hi : index < rb.size) (hn : n ≤ rb.size)
    (hend : rb.size < index + n) :
    rb.copyOut index (rb.size - index) (index + n - rb.size)
      = some (window rb.buf index n) := by
  have hb := h.length_buf
  have htake : (rb.buf.drop index).take (rb.size - index) = rb.buf.drop index :=
    List.take_of_length_le (by simp; omega)
  rw [copyOut, load_of_le (by omega), load_of_le (by omega), htake,
    window_split (by omega) (by omega) (by omega), hb]
  simp only [Option.bind_eq_bind, Option.bind_some]
  rw [if_neg (by omega)]
  rfl

/-- Copies that are defined stay inside the buffer and store what their lengths say. -/
theorem copyOut_eq_some {index c1 c2 : ℕ} {bytes : List UInt8}
    (h : rb.copyOut index c1 c2 = some bytes) :
    c2 ≤ rb.buf.length ∧ bytes.length = c1 + c2 := by
  simp only [copyOut, Option.bind_eq_bind, Option.bind_eq_some_iff] at h
  obtain ⟨part1, h1, h2⟩ := h
  obtain ⟨-, hlen1⟩ := load_eq_some h1
  by_cases hz : c2 = 0
  · rw [if_pos hz] at h2
    cases h2
    omega
  · simp only [if_neg hz, Option.bind_eq_some_iff] at h2
    obtain ⟨part2, h2, h3⟩ := h2
    obtain ⟨hle, hlen2⟩ := load_eq_some h2
    cases h3
    rw [List.length_append]
    omega

/-- **Whatever the split, the bytes of a reader are the window.** -/
theorem copyOut_eq (h : WF rb) {index n : ℕ} (hi : index < rb.size) (hn : n ≤ rb.size) :
    rb.copyOut index (rb.copyCounts index n).1 (rb.copyCounts index n).2
      = some (window rb.buf index n) := by
  rw [copyCounts_eq h hi hn]
  split
  · next hend => exact copyOut_split h hi hn hend
  · next hend => exact copyOut_straight h (by omega)

/-- **Whatever the split, the writer stores its bytes going round.** -/
theorem copyIn_eq (h : WF rb) {index n : ℕ} {source : List UInt8} (hi : index < rb.size)
    (hn : n ≤ rb.size) (hsrc : n ≤ source.length) :
    rb.copyIn index source (rb.copyCounts index n).1 (rb.copyCounts index n).2
      = some (Cyclic.write rb.buf index (source.take n)) := by
  have hb := h.length_buf
  rw [copyCounts_eq h hi hn, Cyclic.write, copyIn]
  split
  · next hend =>
      have h1 : (source.take (rb.size - index)).length = rb.size - index := by simp; omega
      have h2 : ((source.drop (rb.size - index)).take (index + n - rb.size)).length
          = index + n - rb.size := by simp; omega
      have hmid : (overwrite rb.buf index (source.take (rb.size - index))).length = rb.size := by
        rw [length_overwrite (by omega), hb]
      rw [if_neg (by simp; omega), load_of_le (by omega), load_of_le (by omega)]
      simp only [List.drop_zero, Option.bind_eq_bind, Option.bind_some]
      rw [store_of_le (by omega)]
      simp only [Option.bind_some]
      rw [if_neg (by omega), store_of_le (by omega), hb, List.take_take,
        Nat.min_eq_left (by omega), List.drop_take,
        show n - (rb.size - index) = index + n - rb.size by omega]
  · next hend =>
      rw [if_pos (by simp; omega), load_of_le (by omega)]
      simp only [List.drop_zero, Option.bind_eq_bind, Option.bind_some]
      rw [store_of_le (by simp; omega)]
      rfl

/-- The index a copying function stores: where its last piece ended. -/
theorem copyIndex_eq (h : WF rb) {index n : ℕ} (hi : index < rb.size) (hn : n ≤ rb.size) :
    umod (if (rb.copyCounts index n).2 = 0 then u64 (index + (rb.copyCounts index n).1)
      else (rb.copyCounts index n).2) rb.size = some ((index + n) % rb.size) := by
  have hs := h.size_lt
  rw [umod_of_pos h.size_pos, copyCounts_eq h hi hn]
  by_cases hend : index + n > rb.size
  · rw [if_pos hend, if_neg (by simp only; omega),
      Nat.mod_eq_sub_mod (by omega : index + n ≥ rb.size)]
  · rw [if_neg hend, if_pos rfl, u64_of_lt (by omega)]

/-- The index an advancing function stores, computed with one subtraction. -/
theorem wrapIndex_eq (h : WF rb) {index n : ℕ} (hi : index < rb.size) (hn : n ≤ rb.size) :
    umod (if u64 (index + n) > rb.size then subU64 (u64 (index + n)) rb.size
      else u64 (index + n)) rb.size = some ((index + n) % rb.size) := by
  have hs := h.size_lt
  rw [u64_of_lt (by omega), umod_of_pos h.size_pos]
  split
  · next hgt =>
      rw [subU64_of_le (by omega) (by omega), Nat.mod_eq_sub_mod (by omega : index + n ≥ rb.size)]
  · rfl

end Level

/-! ### The state after a read and after a write

Every function that consumes `n` bytes when `count` were asked for leaves the same
state behind, and so does every function that produces `n` bytes.
-/

/-- `n > 0` bytes consumed where `count` were asked for. -/
def afterRead (rb : Rb) (n count : ℕ) : Rb :=
  { rb with
    readIndex := (rb.readIndex + n) % rb.size
    writeIndex := if rb.canRead < n then (rb.readIndex + n) % rb.size else rb.writeIndex
    lastWasWrite := 0
    totalBytesRead := u64 (rb.totalBytesRead + n)
    totalUnderflows :=
      if n < count then u64 (rb.totalUnderflows + 1) else rb.totalUnderflows }

/-- `n > 0` bytes produced where `count` were asked for, the storage now being `buf`. -/
def afterWrite (rb : Rb) (n count : ℕ) (buf : List UInt8) : Rb :=
  { rb with
    buf := buf
    writeIndex := (rb.writeIndex + n) % rb.size
    lastWasWrite := 1
    totalBytesWrite := u64 (rb.totalBytesWrite + n)
    totalOverflows :=
      if n < count then u64 (rb.totalOverflows + 1) else rb.totalOverflows }

/-- The header's arrays of characters, and the part that belongs to the locks. -/
def arrays (rb : Rb) : List (List UInt8) := [rb.magic, rb.shmHandle, rb.humanName, rb.mutex]

/-- Everything that matters to the content agrees; the statistics may differ. -/
structure SameRing (rb rb' : Rb) : Prop where
  arrays : rb'.arrays = rb.arrays
  size : rb'.size = rb.size
  readIndex : rb'.readIndex = rb.readIndex
  writeIndex : rb'.writeIndex = rb.writeIndex
  lastWasWrite : rb'.lastWasWrite = rb.lastWasWrite
  buf : rb'.buf = rb.buf

namespace SameRing

variable {rb rb' rb'' : Rb}

theorem stats (rb : Rb) (r w p u o : ℕ) :
    SameRing rb { rb with
      totalBytesRead := r, totalBytesWrite := w, totalBytesPeek := p
      totalUnderflows := u, totalOverflows := o } :=
  ⟨rfl, rfl, rfl, rfl, rfl, rfl⟩

theorem refl (rb : Rb) : SameRing rb rb := ⟨rfl, rfl, rfl, rfl, rfl, rfl⟩

theorem symm (h : SameRing rb rb') : SameRing rb' rb :=
  ⟨h.arrays.symm, h.size.symm, h.readIndex.symm, h.writeIndex.symm, h.lastWasWrite.symm, h.buf.symm⟩

theorem trans (h : SameRing rb rb') (h' : SameRing rb' rb'') : SameRing rb rb'' :=
  ⟨h'.arrays.trans h.arrays, h'.size.trans h.size, h'.readIndex.trans h.readIndex,
    h'.writeIndex.trans h.writeIndex, h'.lastWasWrite.trans h.lastWasWrite, h'.buf.trans h.buf⟩

theorem wf (h : SameRing rb rb') (hwf : WF rb) : WF rb' where
  size_pos := by rw [h.size]; exact hwf.size_pos
  size_lt := by rw [h.size]; exact hwf.size_lt
  read_lt := by rw [h.size, h.readIndex]; exact hwf.read_lt
  write_lt := by rw [h.size, h.writeIndex]; exact hwf.write_lt
  flag := by rw [h.lastWasWrite]; exact hwf.flag
  length_buf := by rw [h.size, h.buf]; exact hwf.length_buf

theorem canRead (h : SameRing rb rb') : rb'.canRead = rb.canRead := by
  simp only [Rb.canRead, h.size, h.readIndex, h.writeIndex, h.lastWasWrite]

theorem queue (h : SameRing rb rb') : rb'.queue = rb.queue := by
  simp only [Rb.queue, h.canRead, h.buf, h.readIndex]

end SameRing

section After

variable {rb : Rb} {n count : ℕ}

theorem afterRead_wf (h : WF rb) : WF (rb.afterRead n count) where
  size_pos := h.size_pos
  size_lt := h.size_lt
  read_lt := Nat.mod_lt _ h.size_pos
  write_lt := by
    show (if rb.canRead < n then (rb.readIndex + n) % rb.size else rb.writeIndex) < rb.size
    split
    · exact Nat.mod_lt _ h.size_pos
    · exact h.write_lt
  flag := Or.inl rfl
  length_buf := h.length_buf

theorem canRead_afterRead (h : WF rb) (hn : 0 < n) :
    (rb.afterRead n count).canRead = rb.canRead - n := by
  have hq := canRead_le h
  refine canRead_unique (afterRead_wf h) ?_ ?_ (fun _ => rfl) (fun hfull => ?_)
  · show rb.canRead - n ≤ rb.size
    omega
  · show (if rb.canRead < n then (rb.readIndex + n) % rb.size else rb.writeIndex)
      = ((rb.readIndex + n) % rb.size + (rb.canRead - n)) % rb.size
    rw [mod_add_assoc]
    split
    · rw [show n + (rb.canRead - n) = n by omega]
    · rw [show n + (rb.canRead - n) = rb.canRead by omega]
      exact writeIndex_eq h
  · -- something was consumed, so the ring cannot be full
    have hpos := h.size_pos
    change rb.canRead - n = rb.size at hfull
    omega

/-- **Consuming `n` bytes removes them from the front of the content.** -/
theorem queue_afterRead (h : WF rb) (hn : 0 < n) :
    (rb.afterRead n count).queue = rb.queue.drop n := by
  have hq := canRead_le h
  unfold queue
  rw [canRead_afterRead h hn]
  show window rb.buf ((rb.readIndex + n) % rb.size) (rb.canRead - n) = _
  by_cases hle : n ≤ rb.canRead
  · rw [drop_window hle (by rw [h.length_buf]; exact hq), ← h.length_buf, window_mod]
  · rw [show rb.canRead - n = 0 by omega, window_zero,
      List.drop_of_length_le (by rw [length_window (by rw [h.length_buf]; exact hq)]; omega)]

theorem afterWrite_wf {buf : List UInt8} (h : WF rb) (hb : buf.length = rb.size) :
    WF (rb.afterWrite n count buf) where
  size_pos := h.size_pos
  size_lt := h.size_lt
  read_lt := h.read_lt
  write_lt := Nat.mod_lt _ h.size_pos
  flag := Or.inr rfl
  length_buf := hb

theorem canRead_afterWrite {buf : List UInt8} (h : WF rb) (hb : buf.length = rb.size)
    (hn : 0 < n) (hle : n ≤ rb.canWrite) :
    (rb.afterWrite n count buf).canRead = rb.canRead + n := by
  have hlevel := canRead_add_canWrite h
  refine canRead_unique (afterWrite_wf h hb) ?_ ?_ (fun hz => by omega)
    (fun _ => by show (1 : ℤ) ≠ 0; decide)
  · show rb.canRead + n ≤ rb.size
    omega
  · show (rb.writeIndex + n) % rb.size = (rb.readIndex + (rb.canRead + n)) % rb.size
    rw [writeIndex_eq h, mod_add_assoc]

/-- **Producing bytes appends what the storage then holds behind the content.** -/
theorem queue_afterWrite {buf : List UInt8} (h : WF rb) (hb : buf.length = rb.size)
    (hn : 0 < n) (hle : n ≤ rb.canWrite) :
    (rb.afterWrite n count buf).queue =
      window buf rb.readIndex rb.canRead ++ window buf rb.writeIndex n := by
  have hlevel := canRead_add_canWrite h
  unfold queue
  rw [canRead_afterWrite h hb hn hle]
  show window buf rb.readIndex (rb.canRead + n) = _
  rw [window_add (by omega), ← window_mod _ (rb.readIndex + rb.canRead), hb, ← writeIndex_eq h]

/-- Storing bytes behind the content leaves the content itself alone. -/
theorem window_write_queue {bs : List UInt8} (h : WF rb) (hle : bs.length ≤ rb.canWrite) :
    window (Cyclic.write rb.buf rb.writeIndex bs) rb.readIndex rb.canRead = rb.queue := by
  have hlevel := canRead_add_canWrite h
  have hr := h.read_lt
  have hw := writeIndex_eq h
  rw [← h.length_buf] at hw
  rw [hw]
  exact window_write_behind (by rw [h.length_buf]; exact hr) (by rw [h.length_buf]; omega)

end After

end Rb

end Csnip
