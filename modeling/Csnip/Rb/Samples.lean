/-
Rings of whole samples.

A peek across the physical end tears what it delivers, and deinterleaving peeks.  But in a ring
whose size is a multiple of the unit it is used with, and in which the indices are only moved by
whole units, every unit lies in one piece (`Aligned`, `exec_aligned`), so no peek at a unit goes
across the end.  That is what an audio ring relies on: the samples of a channel are delivered by
`rb_deinterleave_audio()` as they were written, after whatever calls that came back.  A peek at an
offset that is longer than a unit need not: it may leave the buffer.
-/
import Csnip.Rb.Items
import Csnip.Rb.Members
import Csnip.Rb.PeekAgree

namespace Csnip

open Memory Cyclic

namespace Rb

/-! ### Moving by whole units -/

/-- The size is a number of units, and both indices are at the beginning of one. -/
structure Aligned (g : ℕ) (rb : Rb) : Prop where
  size : g ∣ rb.size
  readIndex : g ∣ rb.readIndex
  writeIndex : g ∣ rb.writeIndex

/-- The call moves the indices by whole units. -/
def Call.InUnits (g : ℕ) : Call → Prop
  | .write _ count _ | .read count | .overread count | .advanceReadIndex count
  | .overadvanceReadIndex count | .advanceWriteIndex count => g ∣ count
  | _ => True

instance (g : ℕ) (call : Call) : Decidable (call.InUnits g) := by
  cases call <;> unfold Call.InUnits <;> infer_instance

section Aligned

variable {g : ℕ} {rb rb' : Rb}

theorem dvd_min {a b : ℕ} (ha : g ∣ a) (hb : g ∣ b) : g ∣ min a b := by
  rcases Nat.le_total a b with h | h
  · rwa [Nat.min_eq_left h]
  · rwa [Nat.min_eq_right h]

namespace Aligned

theorem canRead (ha : Aligned g rb) (h : WF rb) : g ∣ rb.canRead := by
  rw [canRead_eq h]
  split_ifs
  · exact Nat.dvd_zero g
  · exact ha.size
  · exact Nat.dvd_sub ha.writeIndex ha.readIndex
  · exact Nat.dvd_sub (Nat.dvd_add ha.writeIndex ha.size) ha.readIndex

theorem canWrite (ha : Aligned g rb) (h : WF rb) : g ∣ rb.canWrite := by
  rw [canWrite_eq h]
  exact Nat.dvd_sub ha.size (ha.canRead h)

theorem readCount (ha : Aligned g rb) (h : WF rb) {count : ℕ} (hc : g ∣ count) (isOver : ℕ) :
    g ∣ rb.readCount count isOver := by
  rw [Rb.readCount]
  split_ifs
  · exact dvd_min hc (ha.canRead h)
  · exact dvd_min hc ha.size

theorem same (ha : Aligned g rb) (hring : SameRing rb rb') : Aligned g rb' :=
  ⟨hring.size ▸ ha.size, hring.readIndex ▸ ha.readIndex, hring.writeIndex ▸ ha.writeIndex⟩

theorem afterRead (ha : Aligned g rb) {n : ℕ} (hn : g ∣ n) (count : ℕ) :
    Aligned g (rb.afterRead n count) := by
  have hindex : g ∣ (rb.readIndex + n) % rb.size :=
    (Nat.dvd_mod_iff ha.size).mpr (Nat.dvd_add ha.readIndex hn)
  refine ⟨ha.size, hindex, ?_⟩
  show g ∣ if rb.canRead < n then (rb.readIndex + n) % rb.size else rb.writeIndex
  split_ifs
  · exact hindex
  · exact ha.writeIndex

theorem afterWrite (ha : Aligned g rb) {n : ℕ} (hn : g ∣ n) (count : ℕ) (buf : List UInt8) :
    Aligned g (rb.afterWrite n count buf) :=
  ⟨ha.size, ha.readIndex, (Nat.dvd_mod_iff ha.size).mpr (Nat.dvd_add ha.writeIndex hn)⟩

end Aligned

theorem genericRead_aligned {count isOver n : ℕ} {bytes : List UInt8} (h : WF rb)
    (ha : Aligned g rb) (hc : g ∣ count)
    (hrun : rb.genericRead count isOver = some (n, bytes, rb')) :
    Aligned g rb' := by
  rw [genericRead_eq h, Option.some.injEq] at hrun
  split at hrun
  · cases hrun
    exact ha
  · cases hrun
    exact ha.afterRead (ha.readCount h hc isOver) count

theorem genericAdvanceReadIndex_aligned {count isOver n : ℕ} (h : WF rb) (ha : Aligned g rb)
    (hc : g ∣ count) (hrun : rb.genericAdvanceReadIndex count isOver = some (n, rb')) :
    Aligned g rb' := by
  rw [genericAdvanceReadIndex_eq h, Option.some.injEq] at hrun
  split at hrun
  · cases hrun
    exact ha
  · split at hrun
    · cases hrun
      exact ha.same (sameRing_underflow rb)
    · cases hrun
      exact ha.afterRead (ha.readCount h hc isOver) count

theorem write_aligned {source : List UInt8} {count n : ℕ} (h : WF rb) (ha : Aligned g rb)
    (hc : g ∣ count) (hsrc : rb.writeCount count ≤ source.length)
    (hrun : rb.write source count = some (n, rb')) :
    Aligned g rb' := by
  rw [write_eq h hsrc, Option.some.injEq] at hrun
  split at hrun
  · cases hrun
    exact ha
  · cases hrun
    exact ha.afterWrite (dvd_min hc (ha.canWrite h)) count _

theorem advanceWriteIndex_aligned {count n : ℕ} (h : WF rb) (ha : Aligned g rb) (hc : g ∣ count)
    (hrun : rb.advanceWriteIndex count = some (n, rb')) :
    Aligned g rb' := by
  rw [advanceWriteIndex_eq h, Option.some.injEq] at hrun
  split at hrun
  · cases hrun
    exact ha
  · split at hrun
    · cases hrun
      exact ha.same (SameRing.stats ..)
    · cases hrun
      exact ha.afterWrite (dvd_min hc (ha.canWrite h)) count _

/-- **Every call that moves whole units keeps the ring aligned.** -/
theorem exec_aligned {call : Call} {out : Out} (h : WF rb) (ha : Aligned g rb)
    (hunits : call.InUnits g) (hrun : rb.exec call = some (out, rb')) : Aligned g rb' := by
  cases call <;>
    simp only [exec, Option.map_eq_some_iff, Prod.mk.injEq, Prod.exists, Option.some.injEq] at hrun
  case write source count avail =>
    obtain ⟨n, rb₁, hw, -, rfl⟩ := hrun
    exact write_aligned h ha hunits (Nat.le_trans (Nat.min_le_left _ _) avail) hw
  case read count =>
    obtain ⟨n, bytes, rb₁, hr, -, rfl⟩ := hrun
    exact genericRead_aligned h ha hunits hr
  case overread count =>
    obtain ⟨n, bytes, rb₁, hr, -, rfl⟩ := hrun
    exact genericRead_aligned h ha hunits hr
  case advanceReadIndex count =>
    obtain ⟨n, rb₁, hadv, -, rfl⟩ := hrun
    exact genericAdvanceReadIndex_aligned h ha hunits hadv
  case overadvanceReadIndex count =>
    obtain ⟨n, rb₁, hadv, -, rfl⟩ := hrun
    exact genericAdvanceReadIndex_aligned h ha hunits hadv
  case drop =>
    obtain ⟨n, rb₁, hadv, -, rfl⟩ := hrun
    exact genericAdvanceReadIndex_aligned h ha (ha.canRead h) hadv
  case advanceWriteIndex count =>
    obtain ⟨n, rb₁, hadv, -, rfl⟩ := hrun
    exact advanceWriteIndex_aligned h ha hunits hadv
  case reset =>
    obtain ⟨-, rfl⟩ := hrun
    exact ⟨ha.size, Nat.dvd_zero g, Nat.dvd_zero g⟩
  case resetStats =>
    obtain ⟨-, rfl⟩ := hrun
    exact ha.same (SameRing.stats ..)
  case peek count =>
    obtain ⟨n, bytes, rb₁, hp, -, rfl⟩ := hrun
    exact ha.same (peekAt_sameRing hp)
  case peekAt count offset =>
    obtain ⟨n, bytes, rb₁, hp, -, rfl⟩ := hrun
    exact ha.same (peekAt_sameRing hp)
  case peekByteAt offset =>
    obtain ⟨n, bytes, rb₁, hp, -, rfl⟩ := hrun
    exact ha.same (peekByteAt_sameRing hp)
  case findByte byte =>
    obtain ⟨found, pos, rb₁, hf, -, rfl⟩ := hrun
    obtain ⟨found', pos', rb₂, hf', hring, -, -⟩ := findByte_total h byte
    rw [hf] at hf'
    cases hf'
    exact ha.same hring
  case getReadRegions =>
    obtain ⟨-, rfl⟩ := hrun
    exact ha
  case getWriteRegions =>
    obtain ⟨-, rfl⟩ := hrun
    exact ha

end Aligned

/-! ### Runs -/

/-- The properties of the audio samples. -/
def format (rb : Rb) : ℤ × ℤ × ℤ := (rb.sampleRate, rb.channelCount, rb.bytesPerSample)

theorem Moved.format {rb rb' : Rb} (h : Moved rb rb') : rb'.format = rb.format := by
  obtain ⟨⟨m, rfl⟩, -⟩ := h
  rfl

section Runs

variable {g size : ℕ} {malloc : Malloc} {name : List UInt8}
  {sampleRate channelCount bytesPerSample : ℤ} {rb₀ rb : Rb} {calls : List Call} {outs : List Out}

/-- Calls that move whole units make an aligned ring out of a new one. -/
theorem run_aligned (hsize : size < 2 ^ 64)
    (hnew : rbNewAudio malloc size name sampleRate channelCount bytesPerSample = some (some rb₀))
    (hg : g ∣ size) (hunits : ∀ call ∈ calls, call.InUnits g)
    (hrun : Machine.run exec rb₀ calls = some (outs, rb)) :
    WF rb ∧ Aligned g rb ∧ rb.format = (sampleRate, channelCount, bytesPerSample) := by
  obtain ⟨hwf, hsz, -⟩ := rbNewAudio_wf (rbNewAudio_size_lt hsize hnew) hnew
  have hstart : Aligned g rb₀ ∧ rb₀.format = (sampleRate, channelCount, bytesPerSample) := by
    obtain ⟨block, -, -, -, rfl⟩ := rbNewAudio_eq_some hnew
    exact ⟨⟨hg, Nat.dvd_zero g, Nat.dvd_zero g⟩, rfl⟩
  clear hnew hsz
  induction calls generalizing rb₀ outs with
  | nil =>
      cases hrun
      exact ⟨hwf, hstart⟩
  | cons call calls ih =>
      obtain ⟨out, rb₁, outs', hexec, hrest, -⟩ := Machine.run_cons_eq_some hrun
      have ha := exec_aligned hwf hstart.1 (hunits call List.mem_cons_self) hexec
      have hformat := (exec_moved hwf hexec).format.trans hstart.2
      exact ih (fun c hc => hunits c (List.mem_cons_of_mem call hc)) hrest (exec_wf hwf hexec).1
        ⟨ha, hformat⟩

end Runs

/-! ### What is in one piece is not torn -/

section Whole

variable {g : ℕ} {rb : Rb}

/-- A window inside one unit does not go across the end. -/
theorem Aligned.not_crossesEnd (ha : Aligned g rb) {count offset : ℕ}
    (hin : offset % g + count ≤ g) : ¬ rb.CrossesEnd count offset := by
  intro hcross
  obtain ⟨-, hbefore, hbehind⟩ := hcross
  have hcount : rb.peekCount count offset ≤ count := Nat.min_le_left _ _
  -- the unit of the window begins before the end, and so it ends there at the latest
  have hunit : g ∣ rb.readIndex + (offset - offset % g) :=
    Nat.dvd_add ha.readIndex (Nat.dvd_sub_mod offset)
  have hmod := Nat.mod_le offset g
  obtain ⟨a, ha'⟩ := hunit
  obtain ⟨b, hb⟩ := ha.size
  have hab : a < b := by
    by_contra hle
    have hmul := Nat.mul_le_mul_left g (Nat.le_of_not_lt hle)
    omega
  have hnext : g * (a + 1) ≤ g * b := Nat.mul_le_mul_left g hab
  rw [Nat.mul_add, Nat.mul_one] at hnext
  omega

/-- The samples of a channel that is one of the channels are taken. -/
theorem Aligned.takesItems {frameCount channel channels : ℕ} (ha : Aligned g rb)
    (hword : g * channels < 2 ^ 64) (hframes : 1 ≤ frameCount) (hchannel : channel < channels)
    (hneeded : bytesNeeded frameCount g channel channels < 2 ^ 64) :
    rb.TakesItems frameCount g channel channels := by
  rw [TakesItems]
  by_cases henough : bytesNeeded frameCount g channel channels ≤ rb.queue.length
  · rw [if_pos henough]
    refine ⟨.inl ?_, fun k hk => ha.not_crossesEnd ?_⟩
    · -- the first frame reaches behind the sample of the channel
      have hfirst : (channel + 1) * g ≤ channels * g := Nat.mul_le_mul_right g hchannel
      have hall : frameCount * (g * channels)
          = (frameCount - 1) * g * channels + channels * g := by
        obtain ⟨n, rfl⟩ : ∃ n, frameCount = n + 1 := ⟨frameCount - 1, by omega⟩
        rw [Nat.add_sub_cancel]
        ring
      rw [blockStep, u64_of_lt hword, hall, bytesNeeded]
      rw [Nat.succ_mul] at hfirst
      omega
    · rw [itemPosition, Nat.mul_mod_left, Nat.zero_add]
  · rw [if_neg henough]
    exact .inl hneeded

end Whole

/-- A call that is for the samples of a channel: `frameCount` of them, or 0 if there are not so
many. -/
def DeliversChannel (rb : Rb) (bytesPerSample channels frameCount channel : ℕ) : Prop :=
  ∃ fuel ret copies rb', rb.deinterleaveAudio fuel frameCount channel = some (ret, copies, rb') ∧
    SameRing rb rb' ∧
    if bytesNeeded frameCount bytesPerSample channel channels ≤ rb.queue.length then
      ret = frameCount * bytesPerSample ∧
        ∀ destination : List UInt8, frameCount * bytesPerSample ≤ destination.length →
          storeAll destination copies = some (overwrite destination 0
            (itemsOf rb.queue frameCount bytesPerSample channel channels))
    else ret = 0 ∧ copies = []

/-- Two channels of two bytes a sample in a ring of six bytes, and frames across its end. -/
def stereoCalls : List Call :=
  [.write [1, 2, 3, 4] 4 (Nat.le_refl 4), .read 4,
    .write [5, 6, 7, 8] 4 (Nat.le_refl 4)]

/-- The ring before the calls. -/
def stereoRing : Rb := rbInit (List.replicate (sizeofRb + 6) 0) 6 [] 8000 2 2

end Rb

end Csnip
