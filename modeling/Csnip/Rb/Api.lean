/-
The calls of rb.h, and the states they lead to.

`exec` carries out one call and `Reachable` are the rings a sequence of calls can make
out of the one `rb_new()` builds.  Every call that is defined keeps `WF`, the copying,
the advancing, the peeking and the over-reading ones alike, so everything proved of
well-formed rings holds of every reachable one.
-/
import Csnip.Lib.Machine
import Csnip.Rb.Peek

namespace Csnip

open Memory

/-- An allocator that refuses nothing it can hand out, and clears it. -/
def Malloc.cleared : Malloc where
  alloc n := if n < 2 ^ 63 then some (List.replicate n 0) else none
  length_alloc := by
    intro n block h
    split at h
    · cases h
      simp
    · cases h
  alloc_lt := by
    intro n block h
    split at h
    · next hlt => exact hlt
    · cases h

namespace Rb

/-- The ring `rb_new()` makes out of a cleared block. -/
def cleared (size : ℕ) : Rb :=
  rbInit (List.replicate (sizeofRb + size) 0) size
    [97, 110, 111, 110, 121, 109, 111, 117, 115] 0 1 1

/-- A call of the interface.  The caller of `rb_write()` points at a block that holds
at least the bytes it offers. -/
inductive Call
  | write (source : List UInt8) (count : ℕ) (avail : count ≤ source.length)
  | read (count : ℕ)
  | overread (count : ℕ)
  | advanceReadIndex (count : ℕ)
  | overadvanceReadIndex (count : ℕ)
  | drop
  | advanceWriteIndex (count : ℕ)
  | reset
  | resetStats
  | peek (count : ℕ)
  | peekAt (count offset : ℕ)
  | peekByteAt (offset : ℕ)
  | findByte (byte : UInt8)
  | getReadRegions
  | getWriteRegions

/-- What a call gives back: the returned value, the bytes stored to `destination`, the
value stored to `*offset`, the regions filled in. -/
structure Out where
  ret : ℕ := 0
  bytes : List UInt8 := []
  offset : ℕ := 0
  regions : List RbRegion := []
deriving Repr, DecidableEq

def exec (rb : Rb) : Call → Option (Out × Rb)
  | .write source count _ => (rb.write source count).map fun r => ({ ret := r.1 }, r.2)
  | .read count => (rb.read count).map fun r => ({ ret := r.1, bytes := r.2.1 }, r.2.2)
  | .overread count => (rb.overread count).map fun r => ({ ret := r.1, bytes := r.2.1 }, r.2.2)
  | .advanceReadIndex count => (rb.advanceReadIndex count).map fun r => ({ ret := r.1 }, r.2)
  | .overadvanceReadIndex count =>
      (rb.overadvanceReadIndex count).map fun r => ({ ret := r.1 }, r.2)
  | .drop => rb.drop.map fun r => ({ ret := r.1 }, r.2)
  | .advanceWriteIndex count => (rb.advanceWriteIndex count).map fun r => ({ ret := r.1 }, r.2)
  | .reset => some ({}, rb.reset)
  | .resetStats => some ({}, rb.resetStats)
  | .peek count => (rb.peek count).map fun r => ({ ret := r.1, bytes := r.2.1 }, r.2.2)
  | .peekAt count offset =>
      (rb.peekAt count offset).map fun r => ({ ret := r.1, bytes := r.2.1 }, r.2.2)
  | .peekByteAt offset =>
      (rb.peekByteAt offset).map fun r => ({ ret := r.1, bytes := r.2.1 }, r.2.2)
  | .findByte byte => (rb.findByte byte).map fun r => ({ ret := r.1, offset := r.2.1 }, r.2.2)
  | .getReadRegions => some ({ regions := [rb.getReadRegions.1, rb.getReadRegions.2] }, rb)
  | .getWriteRegions => some ({ regions := [rb.getWriteRegions.1, rb.getWriteRegions.2] }, rb)

/-- `rb` is a ring that calls have made out of what `rb_new(size)` returned. -/
def Reachable (size : ℕ) (rb : Rb) : Prop :=
  ∃ (malloc : Malloc) (rb₀ : Rb) (calls : List Call) (outs : List Out),
    rbNew malloc size = some (some rb₀) ∧ Machine.run exec rb₀ calls = some (outs, rb)

/-! ### The ring `rb_new()` builds -/

/-- What a successful `rb_new_audio()` returns: an empty ring of the size asked for. -/
theorem rbNewAudio_eq_some {malloc : Malloc} {size : ℕ} {name : List UInt8}
    {sampleRate channelCount bytesPerSample : ℤ} {rb : Rb}
    (h : rbNewAudio malloc size name sampleRate channelCount bytesPerSample = some (some rb)) :
    ∃ block, malloc.alloc (u64 (sizeofRb + size)) = some block ∧ sizeofRb ≤ block.length ∧
      1 ≤ size ∧ rb = rbInit block size name sampleRate channelCount bytesPerSample := by
  unfold rbNewAudio at h
  by_cases hsize : size < 1
  · rw [if_pos hsize] at h
    simp at h
  · rw [if_neg hsize] at h
    cases halloc : malloc.alloc (u64 (sizeofRb + size)) with
    | none =>
        rw [halloc] at h
        simp at h
    | some block =>
        simp only [halloc] at h
        by_cases hshort : block.length < sizeofRb
        · rw [if_pos hshort] at h
          simp at h
        · rw [if_neg hshort] at h
          simp only [Option.some.injEq] at h
          exact ⟨block, rfl, by omega, by omega, h.symm⟩

theorem rbNew_eq_some {malloc : Malloc} {size : ℕ} {rb : Rb}
    (h : rbNew malloc size = some (some rb)) :
    ∃ block, malloc.alloc (u64 (sizeofRb + size)) = some block ∧ sizeofRb ≤ block.length ∧
      1 ≤ size ∧ rb = rbInit block size [97, 110, 111, 110, 121, 109, 111, 117, 115] 0 1 1 :=
  rbNewAudio_eq_some h

theorem rbNewAudio_wf {malloc : Malloc} {size : ℕ} {name : List UInt8}
    {sampleRate channelCount bytesPerSample : ℤ} {rb : Rb} (hsize : size < 2 ^ 63)
    (h : rbNewAudio malloc size name sampleRate channelCount bytesPerSample = some (some rb)) :
    WF rb ∧ rb.size = size ∧ rb.canRead = 0 := by
  obtain ⟨block, halloc, -, hpos, rfl⟩ := rbNewAudio_eq_some h
  refine ⟨⟨hpos, hsize, hpos, hpos, Or.inl rfl, ?_⟩, rfl, rfl⟩
  have hlen := malloc.length_alloc _ _ halloc
  rw [u64_of_lt (by unfold sizeofRb; omega)] at hlen
  show (block.drop sizeofRb).length = size
  simp [hlen]

theorem rbNew_wf {malloc : Malloc} {size : ℕ} {rb : Rb} (hsize : size < 2 ^ 63)
    (h : rbNew malloc size = some (some rb)) : WF rb ∧ rb.size = size ∧ rb.canRead = 0 :=
  rbNewAudio_wf hsize h

/-- A size whose sum with the header does not wrap is bounded by the allocator, and one
whose sum wraps leaves no room for the header. -/
theorem rbNewAudio_size_lt {malloc : Malloc} {size : ℕ} {name : List UInt8}
    {sampleRate channelCount bytesPerSample : ℤ} {rb : Rb} (hsize : size < 2 ^ 64)
    (h : rbNewAudio malloc size name sampleRate channelCount bytesPerSample = some (some rb)) :
    size < 2 ^ 63 := by
  obtain ⟨block, halloc, hblock, -, -⟩ := rbNewAudio_eq_some h
  have hlt := malloc.alloc_lt _ _ halloc
  have hlen := malloc.length_alloc _ _ halloc
  unfold sizeofRb at hblock hlt hlen
  unfold u64 at hlt hlen
  omega

theorem rbNew_size_lt {malloc : Malloc} {size : ℕ} {rb : Rb} (hsize : size < 2 ^ 64)
    (h : rbNew malloc size = some (some rb)) : size < 2 ^ 63 :=
  rbNewAudio_size_lt hsize h

theorem rbNew_cleared {size : ℕ} (hpos : 1 ≤ size) (hlt : sizeofRb + size < 2 ^ 63) :
    rbNew .cleared size = some (some (cleared size)) := by
  have hword : u64 (sizeofRb + size) = sizeofRb + size := u64_of_lt (by omega)
  rw [rbNew, rbNewAudio, if_neg (by omega)]
  simp only [Malloc.cleared, hword, if_pos hlt, List.length_replicate]
  rw [if_neg (by omega), cleared]

theorem reachable_cleared {size : ℕ} (hpos : 1 ≤ size) (hlt : sizeofRb + size < 2 ^ 63) :
    Reachable size (cleared size) :=
  ⟨.cleared, cleared size, [], [], rbNew_cleared hpos hlt, rfl⟩

/-- A ring of five bytes with the content 4, 5, 6, which goes round after the second byte. -/
def turnedRing : Rb :=
  { cleared 5 with
    readIndex := 3, writeIndex := 1, lastWasWrite := 1
    totalBytesRead := 3, totalBytesWrite := 6
    buf := [6, 2, 3, 4, 5] }

theorem reachable_turnedRing : Reachable 5 turnedRing :=
  ⟨.cleared, cleared 5,
    [.write [1, 2, 3, 4, 5] 5 (by decide), .advanceReadIndex 3, .write [6] 1 (by decide)],
    [{ ret := 5 }, { ret := 3 }, { ret := 1 }],
    rbNew_cleared (by decide) (by decide), by decide +kernel⟩

/-! ### Every defined call keeps the ring well formed -/

/-- What no call changes. -/
structure Kept (rb rb' : Rb) : Prop where
  size : rb'.size = rb.size
  arrays : rb'.arrays = rb.arrays

theorem Kept.moved (rb : Rb) (index index' : ℕ) (flag : ℤ) (r w p u o : ℕ) (buf : List UInt8) :
    Kept rb { rb with
      readIndex := index, writeIndex := index', lastWasWrite := flag
      totalBytesRead := r, totalBytesWrite := w, totalBytesPeek := p
      totalUnderflows := u, totalOverflows := o
      buf := buf } :=
  ⟨rfl, rfl⟩

theorem genericRead_wf {rb rb' : Rb} {count isOver n : ℕ} {bytes : List UInt8} (h : WF rb)
    (hrun : rb.genericRead count isOver = some (n, bytes, rb')) : WF rb' ∧ Kept rb rb' := by
  rw [genericRead_eq h, Option.some.injEq] at hrun
  split at hrun
  · cases hrun
    exact ⟨h, rfl, rfl⟩
  · cases hrun
    exact ⟨afterRead_wf h, Kept.moved ..⟩

theorem genericAdvanceReadIndex_wf {rb rb' : Rb} {count isOver n : ℕ} (h : WF rb)
    (hrun : rb.genericAdvanceReadIndex count isOver = some (n, rb')) :
    WF rb' ∧ Kept rb rb' := by
  rw [genericAdvanceReadIndex_eq h, Option.some.injEq] at hrun
  split at hrun
  · cases hrun
    exact ⟨h, rfl, rfl⟩
  · split at hrun
    · cases hrun
      exact ⟨(sameRing_underflow rb).wf h, Kept.moved ..⟩
    · cases hrun
      exact ⟨afterRead_wf h, Kept.moved ..⟩

theorem write_wf {rb rb' : Rb} {source : List UInt8} {count n : ℕ} (h : WF rb)
    (hsrc : rb.writeCount count ≤ source.length)
    (hrun : rb.write source count = some (n, rb')) : WF rb' ∧ Kept rb rb' := by
  rw [write_eq h hsrc, Option.some.injEq] at hrun
  split at hrun
  · cases hrun
    exact ⟨h, rfl, rfl⟩
  · cases hrun
    refine ⟨afterWrite_wf h ?_, Kept.moved ..⟩
    have hn := writeCount_le_size h count
    rw [Cyclic.length_write (by rw [h.length_buf]; exact h.write_lt.le)
      (by rw [h.length_buf, List.length_take]; omega), h.length_buf]

theorem advanceWriteIndex_wf {rb rb' : Rb} {count n : ℕ} (h : WF rb)
    (hrun : rb.advanceWriteIndex count = some (n, rb')) : WF rb' ∧ Kept rb rb' := by
  rw [advanceWriteIndex_eq h, Option.some.injEq] at hrun
  split at hrun
  · cases hrun
    exact ⟨h, rfl, rfl⟩
  · split at hrun
    · cases hrun
      exact ⟨⟨h.size_pos, h.size_lt, h.read_lt, h.write_lt, h.flag, h.length_buf⟩, Kept.moved ..⟩
    · cases hrun
      exact ⟨afterWrite_wf h h.length_buf, Kept.moved ..⟩

/-- A peek that is defined moves nothing, whatever it delivered. -/
theorem peekAt_sameRing {rb rb' : Rb} {count offset n : ℕ} {bytes : List UInt8}
    (hrun : rb.peekAt count offset = some (n, bytes, rb')) : SameRing rb rb' := by
  simp only [peekAt] at hrun
  split at hrun
  · cases hrun
    exact SameRing.refl rb
  · split at hrun
    · cases hrun
      exact sameRing_underflow rb
    · simp only [Option.bind_eq_bind, Option.bind_eq_some_iff, Option.pure_def,
        Option.some.injEq, Prod.mk.injEq] at hrun
      obtain ⟨-, -, -, -, -, -, rfl⟩ := hrun
      exact SameRing.stats ..

theorem peekByteAt_sameRing {rb rb' : Rb} {offset n : ℕ} {bytes : List UInt8}
    (hrun : rb.peekByteAt offset = some (n, bytes, rb')) : SameRing rb rb' := by
  simp only [peekByteAt] at hrun
  split at hrun
  · cases hrun
    exact sameRing_underflow rb
  · simp only [Option.map_eq_some_iff, Prod.mk.injEq] at hrun
    obtain ⟨-, -, -, -, rfl⟩ := hrun
    exact SameRing.stats ..

theorem reset_wf {rb : Rb} (h : WF rb) : WF rb.reset :=
  ⟨h.size_pos, h.size_lt, h.size_pos, h.size_pos, Or.inl rfl, h.length_buf⟩

theorem exec_wf {rb rb' : Rb} {call : Call} {out : Out} (h : WF rb)
    (hrun : rb.exec call = some (out, rb')) : WF rb' ∧ Kept rb rb' := by
  have hsame : ∀ {rb'}, SameRing rb rb' → WF rb' ∧ Kept rb rb' :=
    fun hring => ⟨hring.wf h, hring.size, hring.arrays⟩
  cases call <;>
    simp only [exec, Option.map_eq_some_iff, Prod.mk.injEq, Prod.exists, Option.some.injEq] at hrun
  case write source count avail =>
    obtain ⟨n, rb₁, hw, -, rfl⟩ := hrun
    exact write_wf h (Nat.le_trans (Nat.min_le_left _ _) avail) hw
  case read count =>
    obtain ⟨n, bytes, rb₁, hr, -, rfl⟩ := hrun
    exact genericRead_wf h hr
  case overread count =>
    obtain ⟨n, bytes, rb₁, hr, -, rfl⟩ := hrun
    exact genericRead_wf h hr
  case advanceReadIndex count =>
    obtain ⟨n, rb₁, ha, -, rfl⟩ := hrun
    exact genericAdvanceReadIndex_wf h ha
  case overadvanceReadIndex count =>
    obtain ⟨n, rb₁, ha, -, rfl⟩ := hrun
    exact genericAdvanceReadIndex_wf h ha
  case drop =>
    obtain ⟨n, rb₁, ha, -, rfl⟩ := hrun
    exact genericAdvanceReadIndex_wf h ha
  case advanceWriteIndex count =>
    obtain ⟨n, rb₁, ha, -, rfl⟩ := hrun
    exact advanceWriteIndex_wf h ha
  case reset =>
    obtain ⟨-, rfl⟩ := hrun
    exact ⟨reset_wf h, Kept.moved ..⟩
  case resetStats =>
    obtain ⟨-, rfl⟩ := hrun
    exact hsame (SameRing.stats ..)
  case peek count =>
    obtain ⟨n, bytes, rb₁, hp, -, rfl⟩ := hrun
    exact hsame (peekAt_sameRing hp)
  case peekAt count offset =>
    obtain ⟨n, bytes, rb₁, hp, -, rfl⟩ := hrun
    exact hsame (peekAt_sameRing hp)
  case peekByteAt offset =>
    obtain ⟨n, bytes, rb₁, hp, -, rfl⟩ := hrun
    exact hsame (peekByteAt_sameRing hp)
  case findByte byte =>
    obtain ⟨found, pos, rb₁, hf, -, rfl⟩ := hrun
    obtain ⟨found', pos', rb₂, hf', hring, -, -⟩ := findByte_total h byte
    rw [hf] at hf'
    cases hf'
    exact hsame hring
  case getReadRegions =>
    obtain ⟨-, rfl⟩ := hrun
    exact ⟨h, rfl, rfl⟩
  case getWriteRegions =>
    obtain ⟨-, rfl⟩ := hrun
    exact ⟨h, rfl, rfl⟩

/-- `rb` is a ring that calls have made out of what `rb_new_audio()` returned for the size,
whatever the other arguments were. -/
def ReachableAudio (size : ℕ) (rb : Rb) : Prop :=
  ∃ (malloc : Malloc) (name : List UInt8) (sampleRate channelCount bytesPerSample : ℤ) (rb₀ : Rb)
    (calls : List Call) (outs : List Out),
    rbNewAudio malloc size name sampleRate channelCount bytesPerSample = some (some rb₀) ∧
      Machine.run exec rb₀ calls = some (outs, rb)

theorem Reachable.audio {size : ℕ} {rb : Rb} (h : Reachable size rb) : ReachableAudio size rb := by
  obtain ⟨malloc, rb₀, calls, outs, hnew, hrun⟩ := h
  exact ⟨malloc, _, _, _, _, rb₀, calls, outs, hnew, hrun⟩

theorem ReachableAudio.size_lt {size : ℕ} {rb : Rb} (hsize : size < 2 ^ 64)
    (h : ReachableAudio size rb) : size < 2 ^ 63 := by
  obtain ⟨malloc, name, sampleRate, channelCount, bytesPerSample, rb₀, calls, outs, hnew, -⟩ := h
  exact rbNewAudio_size_lt hsize hnew

/-- **Every reachable ring is well formed and has the size it was created with.** -/
theorem ReachableAudio.wf {size : ℕ} {rb : Rb} (hsize : size < 2 ^ 63)
    (h : ReachableAudio size rb) : WF rb ∧ rb.size = size := by
  obtain ⟨malloc, name, sampleRate, channelCount, bytesPerSample, rb₀, calls, outs, hnew, hrun⟩ := h
  obtain ⟨hwf, hsz, -⟩ := rbNewAudio_wf hsize hnew
  exact Machine.run_invariant (I := fun rb => WF rb ∧ rb.size = size)
    (fun rb call out rb' hI hstep =>
      ⟨(exec_wf hI.1 hstep).1, (exec_wf hI.1 hstep).2.size.trans hI.2⟩)
    calls rb₀ outs rb ⟨hwf, hsz⟩ hrun

theorem Reachable.wf {size : ℕ} {rb : Rb} (hsize : size < 2 ^ 63) (h : Reachable size rb) :
    WF rb ∧ rb.size = size :=
  h.audio.wf hsize

/-- What a reachable ring was allocated with fits into the address space. -/
theorem Reachable.size_lt {size : ℕ} {rb : Rb} (hsize : size < 2 ^ 64) (h : Reachable size rb) :
    size < 2 ^ 63 :=
  h.audio.size_lt hsize

end Rb

end Csnip
