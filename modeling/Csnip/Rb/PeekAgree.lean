/-
Peeking against skipping and reading.

Whoever peeks at an offset expects what skipping so many bytes and reading would give.
`PeekAgrees` says so of one call, and `peekAgrees_iff` that the library keeps it
exactly when the window does not cross the physical end at a positive offset.
-/
import Csnip.Rb.Fifo

namespace Csnip

open Memory Cyclic

namespace Rb

variable {rb : Rb}

/-- The peek returns and stores what `rb_skip()` and then `rb_read()` would, and moves
nothing; behind the content it returns 0 and stores nothing. -/
def PeekAgrees (rb : Rb) (count offset : ℕ) : Prop :=
  if offset < rb.canRead then
    ∃ skipped rb₁ bytes rb₂ rb', rb.skip offset = some (skipped, rb₁) ∧
      rb₁.read count = some (rb.peekCount count offset, bytes, rb₂) ∧
      rb.peekAt count offset = some (rb.peekCount count offset, bytes, rb') ∧ SameRing rb rb'
  else ∃ rb', rb.peekAt count offset = some (0, [], rb') ∧ SameRing rb rb'

/-- What skipping and reading deliver is the window at the offset. -/
theorem skip_then_read (h : WF rb) {count offset : ℕ} (ho : offset < rb.canRead) :
    ∃ rb₁ rb₂, rb.skip offset = some (offset, rb₁) ∧ Consumes rb offset rb₁ ∧
      rb₁.read count = some (rb.peekCount count offset,
        window rb.buf (rb.readIndex + offset) (rb.peekCount count offset), rb₂) := by
  obtain ⟨rb₁, hskip, hc⟩ := advanceReadIndex_consumes h offset
  rw [Nat.min_eq_left ho.le] at hskip hc
  obtain ⟨rb₂, hread, -⟩ := read_consumes hc.wf count
  have hleft : rb₁.canRead = rb.canRead - offset := by
    rw [← length_queue hc.wf, hc.queue, List.length_drop, length_queue h]
  have hcount : min count rb₁.canRead = rb.peekCount count offset := by rw [hleft, peekCount]
  rw [hcount, hc.queue, take_drop_queue h (by unfold peekCount; omega)] at hread
  exact ⟨rb₁, rb₂, hskip, hc, hread⟩

/-- **A peek agrees with skipping and reading exactly when its window does not cross the
physical end at a positive offset.** -/
theorem peekAgrees_iff (h : WF rb) {count offset : ℕ} (hc : 1 ≤ count) :
    rb.PeekAgrees count offset ↔ ¬ rb.CrossesEnd count offset := by
  by_cases ho : offset < rb.canRead
  · obtain ⟨rb₁, rb₂, hskip, -, hread⟩ := skip_then_read h ho
    rw [PeekAgrees, if_pos ho]
    constructor
    · rintro ⟨skipped, rb₁', bytes, rb₂', rb', hskip', hread', hpeek, -⟩ hx
      have hpos := hx.1
      have htorn := peekAt_torn h (by omega) ho hx hpeek
      -- the read delivers the whole count, and the torn peek does not
      have hn := canRead_le h
      obtain rfl : rb₁ = rb₁' := by
        rw [hskip] at hskip'
        cases hskip'
        rfl
      rw [hread] at hread'
      cases hread'
      rw [length_window (by rw [h.length_buf]; unfold peekCount; omega)] at htorn
      omega
    · intro hx
      exact ⟨offset, rb₁, _, rb₂, _, hskip, hread, peekAt_eq h (by omega) ho hx,
        sameRing_afterPeek rb _ count⟩
  · rw [PeekAgrees, if_neg ho]
    have hout := peekAt_none rb (show count ≠ 0 by omega) (Nat.not_lt.mp ho)
    exact ⟨fun _ => not_crossesEnd (Nat.not_lt.mp ho), fun _ => ⟨_, hout, sameRing_underflow rb⟩⟩

end Rb

end Csnip
