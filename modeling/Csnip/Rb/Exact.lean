/-
The arithmetic of the ring is exact.

The functions of this module are those of `Basic.lean` once more, except that the sums and
differences of sizes, indices and lengths are formed by `addExact` and `subExact`, which
have no result where a 64-bit word would wrap.  (The totals are counters and go on
wrapping.)  On a well-formed ring the two versions do the same, one equation a function,
so nothing wraps in any run of calls.

What is left is the sum `rb_new_audio()` asks `malloc()` for.  Nobody checks it: for the
largest sizes it wraps, and the block that is granted does not even hold the header
(`arithmetic_exact_iff`).
-/
import Csnip.Rb.Api

namespace Csnip

open Memory Cyclic

/-- `rb_new_audio()` with an exact sum. -/
def rbNewAudioExact (malloc : Malloc) (size : ℕ) (name : List UInt8)
    (sampleRate channelCount bytesPerSample : ℤ) : Option (Option Rb) :=
  if size < 1 then some none
  else do
    let bytes ← addExact sizeofRb size
    match malloc.alloc bytes with
    | none => some none
    | some block =>
        if block.length < sizeofRb then none
        else some (some (rbInit block size name sampleRate channelCount bytesPerSample))

namespace Rb

/-! ### The functions in exact arithmetic -/

def canReadExact (rb : Rb) : Option ℕ :=
  let r := rb.readIndex
  let w := rb.writeIndex
  if r = w then
    if rb.lastWasWrite ≠ 0 then some rb.size else some 0
  else if r < w then subExact w r
  else do
    let sum ← addExact w rb.size
    subExact sum r

def canWriteExact (rb : Rb) : Option ℕ :=
  let r := rb.readIndex
  let w := rb.writeIndex
  if r = w then
    if rb.lastWasWrite ≠ 0 then some 0 else some rb.size
  else if r < w then do
    let difference ← subExact rb.size w
    addExact difference r
  else subExact r w

def copyCountsExact (rb : Rb) (index count : ℕ) : Option (ℕ × ℕ) := do
  let linearEnd ← addExact index count
  if linearEnd > rb.size then
    let copyCount1 ← subExact rb.size index
    let copyCount2 ← subExact linearEnd rb.size
    pure (copyCount1, copyCount2)
  else pure (count, 0)

/-- The index a copying function stores. -/
def copyIndexExact (rb : Rb) (index copyCount1 copyCount2 : ℕ) : Option ℕ := do
  let next ← if copyCount2 = 0 then addExact index copyCount1 else some copyCount2
  umod next rb.size

/-- The index an advancing function stores. -/
def wrapIndexExact (rb : Rb) (index count : ℕ) : Option ℕ := do
  let linearEnd ← addExact index count
  let next ← if linearEnd > rb.size then subExact linearEnd rb.size else addExact index count
  umod next rb.size

def genericReadExact (rb : Rb) (count isOver : ℕ) : Option (ℕ × List UInt8 × Rb) :=
  if count = 0 then some (0, [], rb)
  else do
    let canReadCount ← rb.canReadExact
    if isOver = 0 ∧ canReadCount = 0 then some (0, [], rb)
    else do
      let doReadCount :=
        if isOver ≠ 0 then rbMIN rb.size count
        else if count > canReadCount then canReadCount else count
      let (copyCount1, copyCount2) ← rb.copyCountsExact rb.readIndex doReadCount
      let bytes ← rb.copyOut rb.readIndex copyCount1 copyCount2
      let readIndex ← rb.copyIndexExact rb.readIndex copyCount1 copyCount2
      pure (doReadCount, bytes,
        { rb with
          readIndex := readIndex
          writeIndex :=
            if isOver ≠ 0 ∧ canReadCount < doReadCount then readIndex else rb.writeIndex
          lastWasWrite := 0
          totalBytesRead := u64 (rb.totalBytesRead + doReadCount)
          totalUnderflows :=
            if doReadCount < count then u64 (rb.totalUnderflows + 1) else rb.totalUnderflows })

def writeExact (rb : Rb) (source : List UInt8) (count : ℕ) : Option (ℕ × Rb) :=
  if count = 0 then some (0, rb)
  else do
    let canWriteCount ← rb.canWriteExact
    if canWriteCount = 0 then some (0, rb)
    else do
      let doWriteCount := if count > canWriteCount then canWriteCount else count
      let (copyCount1, copyCount2) ← rb.copyCountsExact rb.writeIndex doWriteCount
      let buf ← rb.copyIn rb.writeIndex source copyCount1 copyCount2
      let writeIndex ← rb.copyIndexExact rb.writeIndex copyCount1 copyCount2
      pure (doWriteCount,
        { rb with
          buf := buf
          writeIndex := writeIndex
          lastWasWrite := 1
          totalBytesWrite := u64 (rb.totalBytesWrite + doWriteCount)
          totalOverflows :=
            if doWriteCount < count then u64 (rb.totalOverflows + 1) else rb.totalOverflows })

def genericAdvanceReadIndexExact (rb : Rb) (count isOver : ℕ) : Option (ℕ × Rb) :=
  if count = 0 then some (0, rb)
  else do
    let canReadCount ← rb.canReadExact
    if isOver = 0 ∧ canReadCount = 0 then
      some (0, { rb with totalUnderflows := u64 (rb.totalUnderflows + 1) })
    else do
      let doAdvanceCount :=
        if isOver ≠ 0 then rbMIN rb.size count
        else if count > canReadCount then canReadCount else count
      let readIndex ← rb.wrapIndexExact rb.readIndex doAdvanceCount
      pure (doAdvanceCount,
        { rb with
          readIndex := readIndex
          writeIndex :=
            if isOver ≠ 0 ∧ canReadCount < doAdvanceCount then readIndex else rb.writeIndex
          lastWasWrite := 0
          totalBytesRead := u64 (rb.totalBytesRead + doAdvanceCount)
          totalUnderflows :=
            if doAdvanceCount < count then u64 (rb.totalUnderflows + 1)
            else rb.totalUnderflows })

def advanceWriteIndexExact (rb : Rb) (count : ℕ) : Option (ℕ × Rb) :=
  if count = 0 then some (0, rb)
  else do
    let canWriteCount ← rb.canWriteExact
    if canWriteCount = 0 then
      some (0, { rb with totalOverflows := u64 (rb.totalOverflows + 1) })
    else do
      let doAdvanceCount := if count > canWriteCount then canWriteCount else count
      let writeIndex ← rb.wrapIndexExact rb.writeIndex doAdvanceCount
      pure (doAdvanceCount,
        { rb with
          writeIndex := writeIndex
          lastWasWrite := 1
          totalBytesWrite := u64 (rb.totalBytesWrite + doAdvanceCount)
          totalOverflows :=
            if doAdvanceCount < count then u64 (rb.totalOverflows + 1)
            else rb.totalOverflows })

/-- The six calls that move an index. -/
def Call.Moves : Call → Prop
  | .write .. | .read _ | .overread _ | .advanceReadIndex _ | .overadvanceReadIndex _
  | .advanceWriteIndex _ => True
  | _ => False

/-- The calls in exact arithmetic; the other ones are carried out as they are. -/
def execExact (rb : Rb) : Call → Option (Out × Rb)
  | .write source count _ => (rb.writeExact source count).map fun r => ({ ret := r.1 }, r.2)
  | .read count => (rb.genericReadExact count 0).map fun r =>
      ({ ret := r.1, bytes := r.2.1 }, r.2.2)
  | .overread count => (rb.genericReadExact count 1).map fun r =>
      ({ ret := r.1, bytes := r.2.1 }, r.2.2)
  | .advanceReadIndex count => (rb.genericAdvanceReadIndexExact count 0).map fun r =>
      ({ ret := r.1 }, r.2)
  | .overadvanceReadIndex count => (rb.genericAdvanceReadIndexExact count 1).map fun r =>
      ({ ret := r.1 }, r.2)
  | .advanceWriteIndex count => (rb.advanceWriteIndexExact count).map fun r =>
      ({ ret := r.1 }, r.2)
  | call => rb.exec call

/-! ### Nothing wraps on a well-formed ring -/

section Exact

variable {rb : Rb} (h : WF rb)

include h

theorem canReadExact_eq : rb.canReadExact = some rb.canRead := by
  have hs := h.size_lt
  have hr := h.read_lt
  have hw := h.write_lt
  rw [canRead_eq h, canReadExact]
  by_cases heq : rb.readIndex = rb.writeIndex
  · rw [if_pos heq, if_pos heq]
    by_cases hflag : rb.lastWasWrite = 0
    · rw [if_neg (not_not.mpr hflag), if_pos hflag]
    · rw [if_pos hflag, if_neg hflag]
  · rw [if_neg heq, if_neg heq]
    by_cases hlt : rb.readIndex < rb.writeIndex
    · rw [if_pos hlt, if_pos hlt, subExact_of_le hlt.le]
    · rw [if_neg hlt, if_neg hlt, addExact_of_lt (by omega)]
      exact subExact_of_le (by omega)

theorem canWriteExact_eq : rb.canWriteExact = some rb.canWrite := by
  have hs := h.size_lt
  have hr := h.read_lt
  have hw := h.write_lt
  rw [canWriteExact, canWrite]
  by_cases heq : rb.readIndex = rb.writeIndex
  · rw [if_pos heq, if_pos heq]
    by_cases hflag : rb.lastWasWrite = 0
    · rw [if_neg (not_not.mpr hflag), if_neg (not_not.mpr hflag)]
    · rw [if_pos hflag, if_pos hflag]
  · rw [if_neg heq, if_neg heq]
    by_cases hlt : rb.readIndex < rb.writeIndex
    · rw [if_pos hlt, if_pos hlt, subExact_of_le hw.le, subU64_of_le (by omega) hw.le,
        u64_of_lt (by omega)]
      exact addExact_of_lt (by omega)
    · rw [if_neg hlt, if_neg hlt, subExact_of_le (by omega), subU64_of_le (by omega) (by omega)]

variable {index n : ℕ} (hi : index < rb.size) (hn : n ≤ rb.size)

include hi hn

theorem copyCountsExact_eq : rb.copyCountsExact index n = some (rb.copyCounts index n) := by
  have hs := h.size_lt
  rw [copyCounts_eq h hi hn, copyCountsExact, addExact_of_lt (by omega)]
  simp only [Option.bind_eq_bind, Option.bind_some]
  by_cases hend : index + n > rb.size
  · rw [if_pos hend, if_pos hend, subExact_of_le hi.le, subExact_of_le hend.le]
    rfl
  · rw [if_neg hend, if_neg hend]
    rfl

theorem copyIndexExact_eq :
    rb.copyIndexExact index (rb.copyCounts index n).1 (rb.copyCounts index n).2
      = some ((index + n) % rb.size) := by
  have hs := h.size_lt
  rw [← copyIndex_eq h hi hn, copyIndexExact]
  by_cases hnone : (rb.copyCounts index n).2 = 0
  · have hle : index + (rb.copyCounts index n).1 < 2 ^ 64 := by
      rw [copyCounts_eq h hi hn]
      split <;> simp only <;> omega
    rw [if_pos hnone, if_pos hnone, addExact_of_lt hle, u64_of_lt hle]
    rfl
  · rw [if_neg hnone, if_neg hnone]
    rfl

theorem wrapIndexExact_eq : rb.wrapIndexExact index n = some ((index + n) % rb.size) := by
  have hs := h.size_lt
  rw [← wrapIndex_eq h hi hn, wrapIndexExact, addExact_of_lt (by omega), u64_of_lt (by omega)]
  simp only [Option.bind_eq_bind, Option.bind_some]
  by_cases hend : index + n > rb.size
  · rw [if_pos hend, if_pos hend, subExact_of_le hend.le, subU64_of_le (by omega) hend.le]
    rfl
  · rw [if_neg hend, if_neg hend]

omit hi hn

theorem genericReadExact_eq (count isOver : ℕ) :
    rb.genericReadExact count isOver = rb.genericRead count isOver := by
  have hn := readCount_le_size h count isOver
  simp only [genericReadExact, genericRead, canReadExact_eq h, doReadCount_eq,
    copyCountsExact_eq h h.read_lt hn, copyIndexExact_eq h h.read_lt hn,
    copyIndex_eq h h.read_lt hn, Option.bind_eq_bind, Option.bind_some]

theorem writeExact_eq (source : List UInt8) (count : ℕ) :
    rb.writeExact source count = rb.write source count := by
  have hn := writeCount_le_size h count
  simp only [writeExact, write, canWriteExact_eq h, doWriteCount_eq,
    copyCountsExact_eq h h.write_lt hn, copyIndexExact_eq h h.write_lt hn,
    copyIndex_eq h h.write_lt hn, Option.bind_eq_bind, Option.bind_some]

theorem genericAdvanceReadIndexExact_eq (count isOver : ℕ) :
    rb.genericAdvanceReadIndexExact count isOver = rb.genericAdvanceReadIndex count isOver := by
  have hn := readCount_le_size h count isOver
  simp only [genericAdvanceReadIndexExact, genericAdvanceReadIndex, canReadExact_eq h,
    doReadCount_eq, wrapIndexExact_eq h h.read_lt hn, wrapIndex_eq h h.read_lt hn,
    Option.bind_eq_bind, Option.bind_some]

theorem advanceWriteIndexExact_eq (count : ℕ) :
    rb.advanceWriteIndexExact count = rb.advanceWriteIndex count := by
  have hn := writeCount_le_size h count
  simp only [advanceWriteIndexExact, advanceWriteIndex, canWriteExact_eq h, doWriteCount_eq,
    wrapIndexExact_eq h h.write_lt hn, wrapIndex_eq h h.write_lt hn, Option.bind_eq_bind,
    Option.bind_some]

/-- The two versions of a call are one. -/
theorem execExact_eq (call : Call) : rb.execExact call = rb.exec call := by
  cases call
  case write source count avail => rw [execExact, exec, writeExact_eq h]
  case read count => rw [execExact, exec, genericReadExact_eq h, read]
  case overread count => rw [execExact, exec, genericReadExact_eq h, overread]
  case advanceReadIndex count =>
    rw [execExact, exec, genericAdvanceReadIndexExact_eq h, advanceReadIndex]
  case overadvanceReadIndex count =>
    rw [execExact, exec, genericAdvanceReadIndexExact_eq h, overadvanceReadIndex]
  case advanceWriteIndex count => rw [execExact, exec, advanceWriteIndexExact_eq h]
  all_goals rfl

/-- A call that moves an index is defined. -/
theorem exec_of_moves {call : Call} (hmoves : call.Moves) :
    ∃ out rb', rb.exec call = some (out, rb') := by
  cases call
  case write source count avail =>
    have hsrc : rb.writeCount count ≤ source.length := Nat.le_trans (Nat.min_le_left _ _) avail
    exact ⟨_, _, by rw [exec, write_eq h hsrc]; rfl⟩
  case read count => exact ⟨_, _, by rw [exec, read, genericRead_eq h]; rfl⟩
  case overread count => exact ⟨_, _, by rw [exec, overread, genericRead_eq h]; rfl⟩
  case advanceReadIndex count =>
    exact ⟨_, _, by rw [exec, advanceReadIndex, genericAdvanceReadIndex_eq h]; rfl⟩
  case overadvanceReadIndex count =>
    exact ⟨_, _, by rw [exec, overadvanceReadIndex, genericAdvanceReadIndex_eq h]; rfl⟩
  case advanceWriteIndex count => exact ⟨_, _, by rw [exec, advanceWriteIndex_eq h]; rfl⟩
  all_goals cases hmoves

/-- **A run of such calls is defined in exact arithmetic**, and it is the run of the code. -/
theorem run_exact {calls : List Call} (hmoves : ∀ call ∈ calls, call.Moves) :
    ∃ outs rb', Machine.run execExact rb calls = some (outs, rb') ∧
      Machine.run exec rb calls = some (outs, rb') := by
  induction calls generalizing rb with
  | nil => exact ⟨[], rb, rfl, rfl⟩
  | cons call calls ih =>
      obtain ⟨out, rb₁, hstep⟩ := exec_of_moves h (hmoves call List.mem_cons_self)
      obtain ⟨outs, rb', hexact, hrun⟩ :=
        ih (exec_wf h hstep).1 fun call' hmem => hmoves call' (List.mem_cons_of_mem _ hmem)
      refine ⟨out :: outs, rb', ?_, ?_⟩
      · rw [Machine.run_cons calls ((execExact_eq h call).trans hstep), hexact]
        rfl
      · rw [Machine.run_cons calls hstep, hrun]
        rfl

end Exact

/-- `rb_new_audio()` returns `NULL`, or the ring it returns, and every run of calls that
move an index, are the same in exact arithmetic: no sum and no difference wraps, no
remainder is by zero, and every copy is inside the block. -/
def ArithmeticExact (malloc : Malloc) (size : ℕ) (name : List UInt8)
    (sampleRate channelCount bytesPerSample : ℤ) : Prop :=
  rbNewAudio malloc size name sampleRate channelCount bytesPerSample = some none ∨
    ∃ rb, rbNewAudio malloc size name sampleRate channelCount bytesPerSample = some (some rb) ∧
      rbNewAudioExact malloc size name sampleRate channelCount bytesPerSample
        = some (some rb) ∧
      ∀ calls : List Call, (∀ call ∈ calls, call.Moves) → ∃ outs rb',
        Machine.run execExact rb calls = some (outs, rb') ∧
          Machine.run exec rb calls = some (outs, rb')

section New

variable {malloc : Malloc} {size : ℕ} {name : List UInt8}
  {sampleRate channelCount bytesPerSample : ℤ} {block : List UInt8}

/-- A sum that fits is the size of the block, and the ring in it is well formed. -/
theorem arithmeticExact_of_fits (hpos : ¬ size < 1)
    (halloc : malloc.alloc (u64 (sizeofRb + size)) = some block)
    (hfits : sizeofRb + size < 2 ^ 64) :
    ArithmeticExact malloc size name sampleRate channelCount bytesPerSample := by
  rw [u64_of_lt hfits] at halloc
  have hlen := malloc.length_alloc _ _ halloc
  have hlt := malloc.alloc_lt _ _ halloc
  have hroom : ¬ block.length < sizeofRb := by omega
  have hnew : rbNewAudio malloc size name sampleRate channelCount bytesPerSample
      = some (some (rbInit block size name sampleRate channelCount bytesPerSample)) := by
    rw [rbNewAudio, if_neg hpos, u64_of_lt hfits, halloc]
    exact if_neg hroom
  have hexact : rbNewAudioExact malloc size name sampleRate channelCount bytesPerSample
      = some (some (rbInit block size name sampleRate channelCount bytesPerSample)) := by
    rw [rbNewAudioExact, if_neg hpos, addExact_of_lt hfits]
    simp only [Option.bind_eq_bind, Option.bind_some, halloc]
    exact if_neg hroom
  refine Or.inr ⟨_, hnew, hexact, fun calls hmoves => ?_⟩
  exact run_exact (rbNewAudio_wf (by omega) hnew).1 hmoves

/-- A sum that wraps has no exact value, and the code does not return `NULL` for it. -/
theorem not_arithmeticExact_of_wraps (hpos : ¬ size < 1)
    (halloc : malloc.alloc (u64 (sizeofRb + size)) = some block)
    (hwraps : ¬ sizeofRb + size < 2 ^ 64) :
    ¬ ArithmeticExact malloc size name sampleRate channelCount bytesPerSample := by
  have hsum : addExact sizeofRb size = none := if_neg hwraps
  rintro (hnull | ⟨rb, -, hexact, -⟩)
  · rw [rbNewAudio, if_neg hpos, halloc] at hnull
    by_cases hshort : block.length < sizeofRb
    · simp [hshort] at hnull
    · simp [hshort] at hnull
  · rw [rbNewAudioExact, if_neg hpos, hsum] at hexact
    cases hexact

end New

/-- **When the arithmetic of a ring is exact**, for every size, allocator and run of calls:
nothing is allocated, or the size and the header together fit into 64 bits. -/
theorem arithmetic_exact_iff (malloc : Malloc) (size : ℕ) (name : List UInt8)
    (sampleRate channelCount bytesPerSample : ℤ) :
    ArithmeticExact malloc size name sampleRate channelCount bytesPerSample ↔
      size = 0 ∨ malloc.alloc (u64 (sizeofRb + size)) = none ∨ sizeofRb + size < 2 ^ 64 := by
  by_cases hzero : size < 1
  · exact iff_of_true (Or.inl (if_pos hzero)) (Or.inl (by omega))
  cases halloc : malloc.alloc (u64 (sizeofRb + size)) with
  | none =>
      refine iff_of_true (Or.inl ?_) (Or.inr (Or.inl rfl))
      rw [rbNewAudio, if_neg hzero, halloc]
  | some block =>
      by_cases hfits : sizeofRb + size < 2 ^ 64
      · exact iff_of_true (arithmeticExact_of_fits hzero halloc hfits) (Or.inr (Or.inr hfits))
      · apply iff_of_false (not_arithmeticExact_of_wraps hzero halloc hfits)
        rintro (hno | hno | hno)
        · omega
        · cases hno
        · exact hfits hno

/-- For the largest size, the sum is 715 in 64 bits, one byte less than the header, and an
allocator that grants it makes the code build a ring in a block that does not hold one. -/
theorem largest_size_wraps :
    u64 (sizeofRb + (2 ^ 64 - 1)) = 715 ∧
      (Malloc.cleared.alloc 715).map List.length = some 715 ∧
      ¬ ArithmeticExact .cleared (2 ^ 64 - 1) [] 0 1 1 := by
  refine ⟨by decide, by decide +kernel, ?_⟩
  rw [arithmetic_exact_iff]
  rintro (h | h | h)
  · exact absurd h (by decide)
  · exact absurd h (by decide +kernel)
  · exact absurd h (by decide)

end Rb

end Csnip
