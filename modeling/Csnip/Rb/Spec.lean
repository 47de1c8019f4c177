/-
What each function of rb.h does to a ring in use.

One lemma per function: on a well-formed ring the call is defined, and its answer and
the state it leaves are those of `afterRead` or `afterWrite`.  No later proof unfolds a
function of `Basic.lean` again.

The copying functions and the advancing ones compute the place to wrap each in their
own way.  `genericRead_eq` and `genericAdvanceReadIndex_eq` end in the same state, as
`write_eq` and `advanceWriteIndex_eq` do up to the storage.
-/
import Csnip.Rb.Ring

namespace Csnip

open Memory Cyclic

namespace Rb

variable {rb : Rb}

/-- How many bytes a reading call of `count` bytes consumes. -/
def readCount (rb : Rb) (count isOver : ℕ) : ℕ :=
  if isOver = 0 then min count rb.canRead else min count rb.size

/-- How many bytes a writing call of `count` bytes produces. -/
def writeCount (rb : Rb) (count : ℕ) : ℕ := min count rb.canWrite

theorem readCount_le_size (h : WF rb) (count isOver : ℕ) : rb.readCount count isOver ≤ rb.size := by
  have := canRead_le h
  unfold readCount
  split <;> omega

theorem readCount_zero (count : ℕ) : rb.readCount count 0 = min count rb.canRead := rfl

theorem writeCount_le_size (h : WF rb) (count : ℕ) : rb.writeCount count ≤ rb.size := by
  have := canWrite_eq h
  unfold writeCount
  omega

/-- A reading call moves nothing when it asks for nothing, or when there is nothing and
it may not go past the write index. -/
theorem readCount_eq_zero (h : WF rb) (count isOver : ℕ) :
    rb.readCount count isOver = 0 ↔ count = 0 ∨ isOver = 0 ∧ rb.canRead = 0 := by
  have hsp := h.size_pos
  unfold readCount
  split <;> omega

theorem writeCount_eq_zero (rb : Rb) (count : ℕ) :
    rb.writeCount count = 0 ↔ count = 0 ∨ rb.canWrite = 0 := by
  unfold writeCount
  omega

/-- The count both reading functions settle on once they have something to do. -/
theorem doReadCount_eq (count isOver : ℕ) :
    (if isOver ≠ 0 then rbMIN rb.size count
      else if count > rb.canRead then rb.canRead else count) = rb.readCount count isOver := by
  unfold readCount rbMIN
  by_cases ho : isOver = 0
  · rw [if_neg (by simpa using ho), if_pos ho]
    split <;> omega
  · rw [if_pos ho, if_neg ho]
    split <;> omega

theorem doWriteCount_eq (count : ℕ) :
    (if count > rb.canWrite then rb.canWrite else count) = rb.writeCount count := by
  unfold writeCount
  split <;> omega

/-- The writing index is only dragged along by a read that overtook it. -/
theorem dragged_eq (count isOver readIndex : ℕ) :
    (if isOver ≠ 0 ∧ rb.canRead < rb.readCount count isOver then readIndex else rb.writeIndex) =
      if rb.canRead < rb.readCount count isOver then readIndex else rb.writeIndex := by
  by_cases ho : isOver = 0
  · have hle : ¬ rb.canRead < rb.readCount count isOver := by
      rw [ho, readCount_zero]
      omega
    rw [if_neg (fun hc => hle hc.2), if_neg hle]
  · simp [ho]

/-! ### Reading and skipping -/

theorem genericRead_eq (h : WF rb) (count isOver : ℕ) :
    rb.genericRead count isOver =
      some (if rb.readCount count isOver = 0 then (0, [], rb)
        else (rb.readCount count isOver, window rb.buf rb.readIndex (rb.readCount count isOver),
          rb.afterRead (rb.readCount count isOver) count)) := by
  have hn := readCount_le_size h count isOver
  have hzero := readCount_eq_zero h count isOver
  simp only [genericRead]
  by_cases hc : count = 0
  · rw [if_pos hc, if_pos (hzero.mpr (Or.inl hc))]
  · rw [if_neg hc]
    by_cases hstop : isOver = 0 ∧ rb.canRead = 0
    · rw [if_pos hstop, if_pos (hzero.mpr (Or.inr hstop))]
    · have hnz : ¬ rb.readCount count isOver = 0 := by rw [hzero]; exact not_or.mpr ⟨hc, hstop⟩
      rw [if_neg hstop, if_neg hnz]
      simp only [doReadCount_eq, dragged_eq, copyOut_eq h h.read_lt hn, copyIndex_eq h h.read_lt hn]
      rfl

theorem genericAdvanceReadIndex_eq (h : WF rb) (count isOver : ℕ) :
    rb.genericAdvanceReadIndex count isOver =
      some (if count = 0 then (0, rb)
        else if rb.readCount count isOver = 0 then
          (0, { rb with totalUnderflows := u64 (rb.totalUnderflows + 1) })
        else (rb.readCount count isOver, rb.afterRead (rb.readCount count isOver) count)) := by
  have hn := readCount_le_size h count isOver
  have hzero := readCount_eq_zero h count isOver
  simp only [genericAdvanceReadIndex]
  by_cases hc : count = 0
  · rw [if_pos hc, if_pos hc]
  · rw [if_neg hc, if_neg hc]
    by_cases hstop : isOver = 0 ∧ rb.canRead = 0
    · rw [if_pos hstop, if_pos (hzero.mpr (Or.inr hstop))]
    · have hnz : ¬ rb.readCount count isOver = 0 := by rw [hzero]; exact not_or.mpr ⟨hc, hstop⟩
      rw [if_neg hstop, if_neg hnz]
      simp only [doReadCount_eq, dragged_eq, wrapIndex_eq h h.read_lt hn]
      rfl

/-! ### Writing and advancing -/

theorem write_eq (h : WF rb) {source : List UInt8} {count : ℕ}
    (hsrc : rb.writeCount count ≤ source.length) :
    rb.write source count =
      some (if rb.writeCount count = 0 then (0, rb)
        else (rb.writeCount count, rb.afterWrite (rb.writeCount count) count
          (Cyclic.write rb.buf rb.writeIndex (source.take (rb.writeCount count))))) := by
  have hn := writeCount_le_size h count
  have hzero := writeCount_eq_zero rb count
  simp only [write]
  by_cases hc : count = 0
  · rw [if_pos hc, if_pos (hzero.mpr (Or.inl hc))]
  · rw [if_neg hc]
    by_cases hstop : rb.canWrite = 0
    · rw [if_pos hstop, if_pos (hzero.mpr (Or.inr hstop))]
    · have hnz : ¬ rb.writeCount count = 0 := by rw [hzero]; exact not_or.mpr ⟨hc, hstop⟩
      rw [if_neg hstop, if_neg hnz]
      simp only [doWriteCount_eq, copyIn_eq h h.write_lt hn hsrc, copyIndex_eq h h.write_lt hn]
      rfl

theorem advanceWriteIndex_eq (h : WF rb) (count : ℕ) :
    rb.advanceWriteIndex count =
      some (if count = 0 then (0, rb)
        else if rb.writeCount count = 0 then
          (0, { rb with totalOverflows := u64 (rb.totalOverflows + 1) })
        else (rb.writeCount count, rb.afterWrite (rb.writeCount count) count rb.buf)) := by
  have hn := writeCount_le_size h count
  have hzero := writeCount_eq_zero rb count
  simp only [advanceWriteIndex]
  by_cases hc : count = 0
  · rw [if_pos hc, if_pos hc]
  · rw [if_neg hc, if_neg hc]
    by_cases hstop : rb.canWrite = 0
    · rw [if_pos hstop, if_pos (hzero.mpr (Or.inr hstop))]
    · have hnz : ¬ rb.writeCount count = 0 := by rw [hzero]; exact not_or.mpr ⟨hc, hstop⟩
      rw [if_neg hstop, if_neg hnz]
      simp only [doWriteCount_eq, wrapIndex_eq h h.write_lt hn]
      rfl

end Rb

end Csnip
