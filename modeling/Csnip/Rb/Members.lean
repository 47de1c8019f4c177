/-
The members of the header.

A call changes the indices, the flag, the totals and the buffer, and no other member; and what it
stores in a total is a word (`exec_moved`).  So the members of a ring keep values of their types,
and a ring is read back from the bytes it is stored in (`ofImage_image`): to work on a ring is to
work on a block that another process may have mapped, too.
-/
import Csnip.Rb.Image

namespace Csnip

open Memory LittleEndian

namespace Rb

/-! ### What a call changes -/

/-- The members a call may assign, and the buffer. -/
structure Movement where
  readIndex : ℕ
  writeIndex : ℕ
  lastWasWrite : ℤ
  totalBytesRead : ℕ
  totalBytesWrite : ℕ
  totalBytesPeek : ℕ
  totalUnderflows : ℕ
  totalOverflows : ℕ
  buf : List UInt8

def move (rb : Rb) (m : Movement) : Rb :=
  { rb with
    readIndex := m.readIndex, writeIndex := m.writeIndex, lastWasWrite := m.lastWasWrite
    totalBytesRead := m.totalBytesRead, totalBytesWrite := m.totalBytesWrite
    totalBytesPeek := m.totalBytesPeek, totalUnderflows := m.totalUnderflows
    totalOverflows := m.totalOverflows, buf := m.buf }

/-- Every total is a word. -/
structure CountsInWords (rb : Rb) : Prop where
  read : rb.totalBytesRead < 2 ^ 64
  write : rb.totalBytesWrite < 2 ^ 64
  peek : rb.totalBytesPeek < 2 ^ 64
  underflows : rb.totalUnderflows < 2 ^ 64
  overflows : rb.totalOverflows < 2 ^ 64

/-- No other member is changed, and the totals stay words. -/
structure Moved (rb rb' : Rb) : Prop where
  others : ∃ m, rb' = rb.move m
  words : rb.CountsInWords → rb'.CountsInWords

section Moved

variable {rb rb' rb'' : Rb}

theorem moved_refl (rb : Rb) : Moved rb rb := ⟨⟨⟨_, _, _, _, _, _, _, _, _⟩, rfl⟩, id⟩

theorem Moved.trans (h : Moved rb rb') (h' : Moved rb' rb'') : Moved rb rb'' := by
  obtain ⟨⟨m, rfl⟩, hwords⟩ := h
  obtain ⟨⟨m', rfl⟩, hwords'⟩ := h'
  exact ⟨⟨m', rfl⟩, fun hw => hwords' (hwords hw)⟩

/-- An incident is counted if there was one. -/
theorem incident_lt {p : Prop} [Decidable p] {n k : ℕ} (hn : n < 2 ^ 64) :
    (if p then u64 k else n) < 2 ^ 64 := by
  split_ifs
  · exact u64_lt k
  · exact hn

theorem afterRead_moved (rb : Rb) (n count : ℕ) : Moved rb (rb.afterRead n count) :=
  ⟨⟨⟨_, _, _, _, _, _, _, _, _⟩, rfl⟩,
    fun h => ⟨u64_lt _, h.write, h.peek, incident_lt h.underflows, h.overflows⟩⟩

theorem afterWrite_moved (rb : Rb) (n count : ℕ) (buf : List UInt8) :
    Moved rb (rb.afterWrite n count buf) :=
  ⟨⟨⟨_, _, _, _, _, _, _, _, _⟩, rfl⟩,
    fun h => ⟨h.read, u64_lt _, h.peek, h.underflows, incident_lt h.overflows⟩⟩

theorem afterPeek_moved (rb : Rb) (n count : ℕ) : Moved rb (rb.afterPeek n count) :=
  ⟨⟨⟨_, _, _, _, _, _, _, _, _⟩, rfl⟩,
    fun h => ⟨h.read, h.write, u64_lt _, incident_lt h.underflows, h.overflows⟩⟩

theorem underflow_moved (rb : Rb) :
    Moved rb { rb with totalUnderflows := u64 (rb.totalUnderflows + 1) } :=
  ⟨⟨⟨_, _, _, _, _, _, _, _, _⟩, rfl⟩,
    fun h => ⟨h.read, h.write, h.peek, u64_lt _, h.overflows⟩⟩

theorem overflow_moved (rb : Rb) :
    Moved rb { rb with totalOverflows := u64 (rb.totalOverflows + 1) } :=
  ⟨⟨⟨_, _, _, _, _, _, _, _, _⟩, rfl⟩,
    fun h => ⟨h.read, h.write, h.peek, h.underflows, u64_lt _⟩⟩

theorem zero_word : 0 < 2 ^ 64 := Nat.two_pow_pos 64

theorem reset_moved (rb : Rb) : Moved rb rb.reset :=
  ⟨⟨⟨_, _, _, _, _, _, _, _, _⟩, rfl⟩,
    fun _ => ⟨zero_word, zero_word, zero_word, zero_word, zero_word⟩⟩

theorem resetStats_moved (rb : Rb) : Moved rb rb.resetStats :=
  ⟨⟨⟨_, _, _, _, _, _, _, _, _⟩, rfl⟩,
    fun _ => ⟨zero_word, zero_word, zero_word, zero_word, zero_word⟩⟩

theorem genericRead_moved {count isOver n : ℕ} {bytes : List UInt8} (h : WF rb)
    (hrun : rb.genericRead count isOver = some (n, bytes, rb')) : Moved rb rb' := by
  rw [genericRead_eq h, Option.some.injEq] at hrun
  split at hrun
  · cases hrun
    exact moved_refl rb
  · cases hrun
    exact afterRead_moved ..

theorem genericAdvanceReadIndex_moved {count isOver n : ℕ} (h : WF rb)
    (hrun : rb.genericAdvanceReadIndex count isOver = some (n, rb')) : Moved rb rb' := by
  rw [genericAdvanceReadIndex_eq h, Option.some.injEq] at hrun
  split at hrun
  · cases hrun
    exact moved_refl rb
  · split at hrun
    · cases hrun
      exact underflow_moved rb
    · cases hrun
      exact afterRead_moved ..

theorem write_moved {source : List UInt8} {count n : ℕ} (h : WF rb)
    (hsrc : rb.writeCount count ≤ source.length)
    (hrun : rb.write source count = some (n, rb')) : Moved rb rb' := by
  rw [write_eq h hsrc, Option.some.injEq] at hrun
  split at hrun
  · cases hrun
    exact moved_refl rb
  · cases hrun
    exact afterWrite_moved ..

theorem advanceWriteIndex_moved {count n : ℕ} (h : WF rb)
    (hrun : rb.advanceWriteIndex count = some (n, rb')) : Moved rb rb' := by
  rw [advanceWriteIndex_eq h, Option.some.injEq] at hrun
  split at hrun
  · cases hrun
    exact moved_refl rb
  · split at hrun
    · cases hrun
      exact overflow_moved rb
    · cases hrun
      exact afterWrite_moved ..

theorem peekAt_moved {count offset n : ℕ} {bytes : List UInt8}
    (hrun : rb.peekAt count offset = some (n, bytes, rb')) : Moved rb rb' := by
  simp only [peekAt] at hrun
  split at hrun
  · cases hrun
    exact moved_refl rb
  · split at hrun
    · cases hrun
      exact underflow_moved rb
    · simp only [Option.bind_eq_bind, Option.bind_eq_some_iff, Option.pure_def,
        Option.some.injEq, Prod.mk.injEq] at hrun
      obtain ⟨-, -, -, -, -, -, rfl⟩ := hrun
      exact afterPeek_moved ..

theorem peekByteAt_moved {offset n : ℕ} {bytes : List UInt8}
    (hrun : rb.peekByteAt offset = some (n, bytes, rb')) : Moved rb rb' := by
  simp only [peekByteAt] at hrun
  split at hrun
  · cases hrun
    exact underflow_moved rb
  · simp only [Option.map_eq_some_iff, Prod.mk.injEq] at hrun
    obtain ⟨-, -, -, -, rfl⟩ := hrun
    exact ⟨⟨⟨_, _, _, _, _, _, _, _, _⟩, rfl⟩,
      fun h => ⟨h.read, h.write, u64_lt _, h.underflows, h.overflows⟩⟩

theorem findByteFrom_moved {byte : UInt8} {fuel off found pos : ℕ}
    (hrun : findByteFrom byte fuel rb off = some (found, pos, rb')) : Moved rb rb' := by
  induction fuel generalizing rb off with
  | zero => cases hrun
  | succ fuel ih =>
      rw [findByteFrom] at hrun
      cases hpeek : rb.peekByteAt off with
      | none =>
          rw [hpeek] at hrun
          cases hrun
      | some r =>
          obtain ⟨n, c, rb₁⟩ := r
          have hmoved := peekByteAt_moved hpeek
          rw [hpeek] at hrun
          dsimp only at hrun
          split_ifs at hrun
          · cases hrun
            exact hmoved
          · exact hmoved.trans (ih hrun)
          · cases hrun
            exact hmoved

/-- **What a call can have changed.** -/
theorem exec_moved {call : Call} {out : Out} (h : WF rb)
    (hrun : rb.exec call = some (out, rb')) : Moved rb rb' := by
  cases call <;>
    simp only [exec, Option.map_eq_some_iff, Prod.mk.injEq, Prod.exists, Option.some.injEq] at hrun
  case write source count avail =>
    obtain ⟨n, rb₁, hw, -, rfl⟩ := hrun
    exact write_moved h (Nat.le_trans (Nat.min_le_left _ _) avail) hw
  case read count =>
    obtain ⟨n, bytes, rb₁, hr, -, rfl⟩ := hrun
    exact genericRead_moved h hr
  case overread count =>
    obtain ⟨n, bytes, rb₁, hr, -, rfl⟩ := hrun
    exact genericRead_moved h hr
  case advanceReadIndex count =>
    obtain ⟨n, rb₁, ha, -, rfl⟩ := hrun
    exact genericAdvanceReadIndex_moved h ha
  case overadvanceReadIndex count =>
    obtain ⟨n, rb₁, ha, -, rfl⟩ := hrun
    exact genericAdvanceReadIndex_moved h ha
  case drop =>
    obtain ⟨n, rb₁, ha, -, rfl⟩ := hrun
    exact genericAdvanceReadIndex_moved h ha
  case advanceWriteIndex count =>
    obtain ⟨n, rb₁, ha, -, rfl⟩ := hrun
    exact advanceWriteIndex_moved h ha
  case reset =>
    obtain ⟨-, rfl⟩ := hrun
    exact reset_moved rb
  case resetStats =>
    obtain ⟨-, rfl⟩ := hrun
    exact resetStats_moved rb
  case peek count =>
    obtain ⟨n, bytes, rb₁, hp, -, rfl⟩ := hrun
    exact peekAt_moved hp
  case peekAt count offset =>
    obtain ⟨n, bytes, rb₁, hp, -, rfl⟩ := hrun
    exact peekAt_moved hp
  case peekByteAt offset =>
    obtain ⟨n, bytes, rb₁, hp, -, rfl⟩ := hrun
    exact peekByteAt_moved hp
  case findByte byte =>
    obtain ⟨found, pos, rb₁, hf, -, rfl⟩ := hrun
    exact findByteFrom_moved hf
  case getReadRegions =>
    obtain ⟨-, rfl⟩ := hrun
    exact moved_refl rb
  case getWriteRegions =>
    obtain ⟨-, rfl⟩ := hrun
    exact moved_refl rb

end Moved

/-! ### A ring is read back from its bytes -/

/-- Member `k` of the header at the front of a block. -/
def member (block : List UInt8) (k : ℕ) : Option (List UInt8) :=
  load block (Packed.offset widths k) (widths.getD k 0)

/-- An `int` member. -/
def intMember (block : List UInt8) (k : ℕ) : Option ℤ :=
  (member block k).map fun bytes => signed 4 (leNat bytes)

/-- A `uint64_t` member. -/
def wordMember (block : List UInt8) (k : ℕ) : Option ℕ := (member block k).map leNat

/-- The ring a pointer to the block points at. -/
def ofImage (block : List UInt8) : Option Rb := do
  let magic ← member block 0
  let version ← wordMember block 1
  let size ← wordMember block 2
  let readIndex ← wordMember block 3
  let writeIndex ← wordMember block 4
  let lastWasWrite ← intMember block 5
  let memoryLocked ← intMember block 6
  let inSharedMemory ← intMember block 7
  let memoryLockable ← intMember block 8
  let memoryShareable ← intMember block 9
  let mutexLockable ← intMember block 10
  let unlinkRequested ← intMember block 11
  let noMoreInputData ← intMember block 12
  let sampleRate ← intMember block 13
  let channelCount ← intMember block 14
  let bytesPerSample ← intMember block 15
  let totalBytesRead ← wordMember block 16
  let totalBytesWrite ← wordMember block 17
  let totalBytesPeek ← wordMember block 18
  let totalUnderflows ← wordMember block 19
  let totalOverflows ← wordMember block 20
  let shmHandle ← member block 21
  let humanName ← member block 22
  let mutex ← member block 23
  let buf ← load block sizeofRb size
  return {
    magic, version, size, readIndex, writeIndex, lastWasWrite, memoryLocked, inSharedMemory
    memoryLockable, memoryShareable, mutexLockable, unlinkRequested, noMoreInputData
    sampleRate, channelCount, bytesPerSample, totalBytesRead, totalBytesWrite, totalBytesPeek
    totalUnderflows, totalOverflows, shmHandle, humanName, mutex, buf }

/-- The members no call changes have values of their types, and the totals are words. -/
structure Stored (rb : Rb) : Prop where
  laid : Laid rb
  version : rb.version < 256 ^ 4
  ints : ∀ z ∈ [rb.memoryLocked, rb.inSharedMemory, rb.memoryLockable, rb.memoryShareable,
    rb.mutexLockable, rb.unlinkRequested, rb.noMoreInputData, rb.sampleRate, rb.channelCount,
    rb.bytesPerSample], signed 4 z = z
  counts : rb.CountsInWords

section Stored

variable {rb rb' : Rb}

theorem member_image (hl : Laid rb) {k : ℕ} {field : List UInt8} (hlt : k < widths.length)
    (hk : rb.fields[k]? = some field) : member rb.image k = some field := by
  have hwidth : field.length = widths.getD k 0 := by
    have hlen := congrArg (·[k]?) (fields_lengths hl)
    simp only [List.getElem?_map, hk, Option.map_some] at hlen
    rw [List.getElem?_append_left hlt] at hlen
    rw [List.getD_eq_getElem?_getD, ← hlen]
    rfl
  exact load_image hl hk hwidth rfl

theorem wordMember_image (hl : Laid rb) {k n : ℕ} (hlt : k < widths.length)
    (hk : rb.fields[k]? = some (leBytes 8 n)) (hn : n < 2 ^ 64) :
    wordMember rb.image k = some n := by
  have hword : n < 256 ^ 8 := hn
  rw [wordMember, member_image hl hlt hk, Option.map_some, leNat_leBytes, Nat.mod_eq_of_lt hword]

theorem intMember_image (hl : Laid rb) {k : ℕ} {z : ℤ} (hlt : k < widths.length)
    (hk : rb.fields[k]? = some (leInt 4 z)) (hz : signed 4 z = z) :
    intMember rb.image k = some z := by
  rw [intMember, member_image hl hlt hk, Option.map_some, signed_leNat_leInt, hz]

/-- **A ring is read back from the block it is stored in.** -/
theorem ofImage_image (h : WF rb) (hs : Stored rb) : ofImage rb.image = some rb := by
  have hl := hs.laid
  have hsize := h.size_lt
  have hr := h.read_lt
  have hw := h.write_lt
  have hints := hs.ints
  simp only [List.forall_mem_cons, List.not_mem_nil, IsEmpty.forall_iff, implies_true, and_true]
    at hints
  obtain ⟨hlocked, hshared, hlockable, hshareable, hmutex, hunlink, hmark, hrate, hchannels,
    hbytes⟩ := hints
  have hflag : signed 4 rb.lastWasWrite = rb.lastWasWrite := by
    rcases h.flag with hf | hf <;> rw [hf] <;> decide
  have hversion : wordMember rb.image 1 = some rb.version := by
    rw [wordMember, member_image hl (by decide) rfl, Option.map_some, leNat_leBytes,
      Nat.mod_eq_of_lt hs.version]
  have hbuf : load rb.image sizeofRb rb.size = some rb.buf := by
    have hall : load rb.buf 0 rb.size = some rb.buf := by
      rw [load_of_le (by rw [hl.length_buf]; omega), List.drop_zero, ← hl.length_buf,
        List.take_length]
    have hbehind := load_image_buf hl (p := 0) (n := rb.size)
    rwa [Nat.add_zero, hall] at hbehind
  rw [ofImage, member_image hl (by decide) rfl, hversion,
    wordMember_image hl (by decide) rfl (by omega),
    wordMember_image hl (by decide) rfl (by omega),
    wordMember_image hl (by decide) rfl (by omega),
    intMember_image hl (by decide) rfl hflag, intMember_image hl (by decide) rfl hlocked,
    intMember_image hl (by decide) rfl hshared, intMember_image hl (by decide) rfl hlockable,
    intMember_image hl (by decide) rfl hshareable, intMember_image hl (by decide) rfl hmutex,
    intMember_image hl (by decide) rfl hunlink, intMember_image hl (by decide) rfl hmark,
    intMember_image hl (by decide) rfl hrate, intMember_image hl (by decide) rfl hchannels,
    intMember_image hl (by decide) rfl hbytes,
    wordMember_image hl (by decide) rfl hs.counts.read,
    wordMember_image hl (by decide) rfl hs.counts.write,
    wordMember_image hl (by decide) rfl hs.counts.peek,
    wordMember_image hl (by decide) rfl hs.counts.underflows,
    wordMember_image hl (by decide) rfl hs.counts.overflows,
    member_image hl (by decide) rfl, member_image hl (by decide) rfl,
    member_image hl (by decide) rfl]
  simp only [Option.bind_eq_bind, Option.bind_some, hbuf, Option.pure_def]

/-- A call leaves a ring that can be stored. -/
theorem exec_stored {call : Call} {out : Out} (h : WF rb) (hs : Stored rb)
    (hrun : rb.exec call = some (out, rb')) : Stored rb' := by
  obtain ⟨⟨m, hothers⟩, hwords⟩ := exec_moved h hrun
  obtain ⟨hwf, hkept⟩ := exec_wf h hrun
  refine ⟨⟨?_, hwf.length_buf⟩, ?_, ?_, hwords hs.counts⟩
  · rw [hkept.arrays]
    exact hs.laid.arrays
  · rw [hothers]
    exact hs.version
  · rw [hothers]
    exact hs.ints

end Stored

end Rb

end Csnip
