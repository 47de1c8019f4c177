/-
Reading over the write index.

`rb_overread()` is not stopped by the fill level but only by the size, so it goes round
the buffer and delivers whatever is stored there.  `GoneRound` says what it leaves: up to
the fill level it has consumed the front of the content like any other read, and from
there on the ring is empty, because the write index is moved along.

A ring that is read over as a whole and then moved on by one byte shows its content
turned by one place more each time (`overread_goes_round`).
-/
import Csnip.Rb.Api

namespace Csnip

open Memory Cyclic

namespace Rb

/-- `rb_overskip()`, an alias. -/
def overskip (rb : Rb) (count : ℕ) : Option (ℕ × Rb) := rb.overadvanceReadIndex count

/-- What going `n` bytes round leaves. -/
structure GoneRound (rb : Rb) (n : ℕ) (rb' : Rb) : Prop where
  readIndex : rb'.readIndex = (rb.readIndex + n) % rb.size
  buf : rb'.buf = rb.buf
  within : n < rb.canRead → rb'.queue = rb.queue.drop n ∧ rb'.writeIndex = rb.writeIndex
  past : rb.canRead ≤ n → rb'.queue = [] ∧ rb'.canWrite = rb.size

section One

variable {rb : Rb} {count : ℕ}

/-- A reading call that may go past the write index always has something to do. -/
theorem readCount_one : rb.readCount count 1 = min rb.size count := by
  rw [readCount, if_neg (by omega), Nat.min_comm]

theorem overread_eq (h : WF rb) (hc : 1 ≤ count) :
    rb.overread count = some (min rb.size count, window rb.buf rb.readIndex (min rb.size count),
      rb.afterRead (min rb.size count) count) := by
  have hpos := h.size_pos
  rw [overread, genericRead_eq h, readCount_one, if_neg (by omega)]

theorem overadvanceReadIndex_eq (h : WF rb) (hc : 1 ≤ count) :
    rb.overadvanceReadIndex count
      = some (min rb.size count, rb.afterRead (min rb.size count) count) := by
  have hpos := h.size_pos
  rw [overadvanceReadIndex, genericAdvanceReadIndex_eq h, readCount_one, if_neg (by omega),
    if_neg (by omega)]

theorem afterRead_goneRound (h : WF rb) {n : ℕ} (hn : 0 < n) :
    GoneRound rb n (rb.afterRead n count) where
  readIndex := rfl
  buf := rfl
  within hlt := ⟨queue_afterRead h hn, if_neg (by omega)⟩
  past hle := by
    have hwf : WF (rb.afterRead n count) := afterRead_wf h
    have hempty : (rb.afterRead n count).canRead = 0 := by
      rw [canRead_afterRead h hn]
      omega
    refine ⟨?_, ?_⟩
    · rw [queue, hempty, window_zero]
    · rw [canWrite_eq hwf, hempty]
      rfl

end One

/-! ### Round after round -/

/-- Read the whole buffer over, then move on by one byte. -/
def overreadRound (rb : Rb) (_ : Unit) : Option (List UInt8 × Rb) := do
  let (_, bytes, rb) ← rb.overread rb.size
  let (_, rb) ← rb.overskip 1
  pure (bytes, rb)

variable {rb : Rb}

theorem overreadRound_eq (h : WF rb) : ∃ rb',
    rb.overreadRound () = some (rb.buf.rotate rb.readIndex, rb') ∧ WF rb' ∧
      rb'.buf.rotate rb'.readIndex = rb.buf.rotate (rb.readIndex + 1) := by
  have hpos := h.size_pos
  have hwhole : window rb.buf rb.readIndex rb.size = rb.buf.rotate rb.readIndex := by
    rw [window, List.take_of_length_le (by rw [List.length_rotate, h.length_buf])]
  have hread : rb.overread rb.size = _ := overread_eq h hpos
  rw [Nat.min_self, hwhole] at hread
  have hmid : WF (rb.afterRead rb.size rb.size) := afterRead_wf h
  have hskip : (rb.afterRead rb.size rb.size).overadvanceReadIndex 1 = _ :=
    overadvanceReadIndex_eq hmid (Nat.le_refl 1)
  rw [Nat.min_eq_right hmid.size_pos] at hskip
  refine ⟨(rb.afterRead rb.size rb.size).afterRead 1 1, ?_, afterRead_wf hmid, ?_⟩
  · rw [overreadRound, hread]
    simp only [Option.bind_eq_bind, Option.bind_some]
    rw [overskip, hskip]
    rfl
  · show rb.buf.rotate (((rb.readIndex + rb.size) % rb.size + 1) % rb.size) = _
    rw [Nat.add_mod_right, Nat.mod_add_mod, ← h.length_buf, List.rotate_mod]

/-- `k` rounds deliver the storage turned by one place more each time. -/
theorem overreadRounds_eq :
    ∀ (k : ℕ) {rb : Rb}, WF rb → ∃ rb',
      Machine.run overreadRound rb (List.replicate k ())
        = some ((List.range k).map fun i => rb.buf.rotate (rb.readIndex + i), rb') := by
  intro k
  induction k with
  | zero =>
      intro rb h
      exact ⟨rb, rfl⟩
  | succ k ih =>
      intro rb h
      obtain ⟨rb₁, hround, hwf, hturned⟩ := overreadRound_eq h
      obtain ⟨rb', hrest⟩ := ih hwf
      refine ⟨rb', ?_⟩
      have hnext : ∀ i, rb₁.buf.rotate (rb₁.readIndex + i)
          = rb.buf.rotate (rb.readIndex + (i + 1)) := by
        intro i
        rw [← List.rotate_rotate, hturned, List.rotate_rotate]
        congr 1
        omega
      rw [List.replicate_succ, Machine.run_cons _ hround, hrest, Option.map_some,
        List.range_succ_eq_map, List.map_cons, List.map_map]
      simp only [hnext, Nat.add_zero]
      rfl

/-- **Over-reading goes round the ring.**

For every fill level and count, what is delivered is what the storage holds going round
from the read index, the content first; what it leaves is what skipping as far leaves.
Reading a full ring over as a whole, again and again with one byte skipped in between,
delivers its content turned by `k` places in round `k`. -/
theorem overread_goes_round {size : ℕ} {rb : Rb} (hlt : size < 2 ^ 63) (hrb : Reachable size rb) :
    (∀ count ≥ 1, ∃ bytes rb' rb'',
      rb.overread count = some (min size count, bytes, rb') ∧
      bytes.length = min size count ∧
      (∀ i < min size count, bytes[i]? = rb.buf[(rb.readIndex + i) % size]?) ∧
      bytes.take (min (min size count) rb.canRead)
        = rb.queue.take (min (min size count) rb.canRead) ∧
      GoneRound rb (min size count) rb' ∧
      rb.overadvanceReadIndex count = some (min size count, rb'') ∧ SameRing rb' rb'') ∧
    (rb.canRead = size → ∀ k, ∃ rb',
      Machine.run overreadRound rb (List.replicate k ())
        = some ((List.range k).map fun i => rb.queue.rotate i, rb')) := by
  obtain ⟨h, rfl⟩ := hrb.wf hlt
  have hpos := h.size_pos
  have hb := h.length_buf
  refine ⟨?_, ?_⟩
  · intro count hc
    set n := min rb.size count with hn
    refine ⟨_, _, _, overread_eq h hc, length_window (by omega), ?_, ?_,
      afterRead_goneRound h (by omega), overadvanceReadIndex_eq h hc, SameRing.refl _⟩
    · intro i hi
      rw [getElem?_window (by omega) hi, hb]
    · rw [← hn, take_window (Nat.min_le_left _ _), queue, take_window (Nat.min_le_right _ _)]
  · intro hfull k
    obtain ⟨rb', hrun⟩ := overreadRounds_eq k h
    have hcontent : rb.queue = rb.buf.rotate rb.readIndex := by
      rw [queue, hfull, window, List.take_of_length_le (by rw [List.length_rotate, hb])]
    refine ⟨rb', ?_⟩
    rw [hrun, hcontent]
    simp only [List.rotate_rotate]

/-- A ring of three bytes that has been filled. -/
def filledRing : Rb :=
  { cleared 3 with lastWasWrite := 1, totalBytesWrite := 3, buf := [1, 2, 3] }

theorem reachable_filledRing : Reachable 3 filledRing :=
  ⟨.cleared, cleared 3, [.write [1, 2, 3] 3 (by decide)], [{ ret := 3 }],
    rbNew_cleared (by decide) (by decide), by decide +kernel⟩

theorem overread_goes_round_three :
    (∀ count ≥ 1, ∃ bytes rb' rb'',
      filledRing.overread count = some (min 3 count, bytes, rb') ∧
      bytes.length = min 3 count ∧
      (∀ i < min 3 count, bytes[i]? = filledRing.buf[(filledRing.readIndex + i) % 3]?) ∧
      bytes.take (min (min 3 count) filledRing.canRead)
        = filledRing.queue.take (min (min 3 count) filledRing.canRead) ∧
      GoneRound filledRing (min 3 count) rb' ∧
      filledRing.overadvanceReadIndex count = some (min 3 count, rb'') ∧ SameRing rb' rb'') ∧
    (filledRing.canRead = 3 → ∀ k, ∃ rb',
      Machine.run overreadRound filledRing (List.replicate k ())
        = some ((List.range k).map fun i => filledRing.queue.rotate i, rb')) :=
  overread_goes_round (by decide) reachable_filledRing

end Rb

end Csnip
