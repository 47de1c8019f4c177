/-
Counting underflows and overflows.

A reading call that gets less than it asked for is an underflow, a writing call that
could not store everything an overflow, and the ring counts both.  `CountsIncident` says
of one call that it counts what happened; `countsIncident_iff` says which calls do.

`rb_read()` and `rb_write()` leave early when there is nothing to read or no room at all,
and that exit counts nothing, although the advancing functions count it.
-/
import Csnip.Rb.Api

namespace Csnip

open Memory Cyclic

namespace Rb

/-- The two sides of a ring. -/
inductive Side
  | reader
  | writer
deriving DecidableEq

/-- The calls that count, their side and how many bytes they ask for. -/
def Call.request : Call → Option (Side × ℕ)
  | .read count => some (.reader, count)
  | .peekAt count _ => some (.reader, count)
  | .advanceReadIndex count => some (.reader, count)
  | .overread count => some (.reader, count)
  | .overadvanceReadIndex count => some (.reader, count)
  | .write _ count _ => some (.writer, count)
  | .advanceWriteIndex count => some (.writer, count)
  | _ => none

/-- A counter, one further when there was an incident. -/
def counter (total : ℕ) (incident : Prop) [Decidable incident] : ℕ :=
  if incident then u64 (total + 1) else total

/-- The call returned `ret` where `count` were asked for, and the counter of its side says
so; the other one is as it was. -/
structure Counted (rb : Rb) (side : Side) (count ret : ℕ) (rb' : Rb) : Prop where
  underflows : rb'.totalUnderflows = counter rb.totalUnderflows (side = .reader ∧ ret < count)
  overflows : rb'.totalOverflows = counter rb.totalOverflows (side = .writer ∧ ret < count)

/-- The call is answered and counts its incident, if it was one. -/
def CountsIncident (rb : Rb) (call : Call) (side : Side) (count : ℕ) : Prop :=
  ∃ out rb', rb.exec call = some (out, rb') ∧ Counted rb side count out.ret rb'

/-- A read finds something, a write finds room, and a peek stays in the buffer. -/
def Call.Noted (rb : Rb) : Call → Prop
  | .read _ => rb.canRead ≠ 0
  | .write .. => rb.canWrite ≠ 0
  | .peekAt count offset => ¬ rb.LeavesBuffer count offset
  | _ => True

section Counters

variable {rb : Rb} {count n : ℕ}

theorem counter_ne (total : ℕ) : u64 (total + 1) ≠ total := by
  unfold u64
  omega

theorem counter_of_not {total : ℕ} {incident : Prop} [Decidable incident] (h : ¬ incident) :
    counter total incident = total := if_neg h

theorem counter_side (total : ℕ) (side : Side) (p : Prop) [Decidable p] :
    counter total (side = side ∧ p) = counter total p := by
  simp [counter]

theorem afterRead_counted (rb : Rb) (n count : ℕ) :
    Counted rb .reader count n (rb.afterRead n count) :=
  ⟨(counter_side _ _ _).symm, (counter_of_not (by simp)).symm⟩

theorem afterPeek_counted (rb : Rb) (n count : ℕ) :
    Counted rb .reader count n (rb.afterPeek n count) :=
  ⟨(counter_side _ _ _).symm, (counter_of_not (by simp)).symm⟩

theorem afterWrite_counted (rb : Rb) (n count : ℕ) (buf : List UInt8) :
    Counted rb .writer count n (rb.afterWrite n count buf) :=
  ⟨(counter_of_not (by simp)).symm, (counter_side _ _ _).symm⟩

/-- Nothing delivered, and that is counted. -/
theorem underflow_counted (rb : Rb) (hc : 1 ≤ count) :
    Counted rb .reader count 0 { rb with totalUnderflows := u64 (rb.totalUnderflows + 1) } :=
  ⟨by rw [counter_side]; exact (if_pos hc).symm, (counter_of_not (by simp)).symm⟩

theorem overflow_counted (rb : Rb) (hc : 1 ≤ count) :
    Counted rb .writer count 0 { rb with totalOverflows := u64 (rb.totalOverflows + 1) } :=
  ⟨(counter_of_not (by simp)).symm, by rw [counter_side]; exact (if_pos hc).symm⟩

/-- A call that returns 0 and leaves the ring as it is counts nothing. -/
theorem not_counted_self (rb : Rb) (side : Side) (hc : 1 ≤ count) :
    ¬ Counted rb side count 0 rb := by
  intro h
  cases side with
  | reader =>
      have hsame := h.underflows
      rw [counter_side, counter, if_pos (show 0 < count by omega)] at hsame
      exact counter_ne _ hsame.symm
  | writer =>
      have hsame := h.overflows
      rw [counter_side, counter, if_pos (show 0 < count by omega)] at hsame
      exact counter_ne _ hsame.symm

end Counters

/-! ### The seven calls -/

section Calls

variable {rb : Rb} {count : ℕ}

/-- A call whose answer is known counts its incident or does not. -/
theorem countsIncident_of_eq {call : Call} {out : Out} {rb' : Rb} {side : Side}
    (hrun : rb.exec call = some (out, rb')) :
    CountsIncident rb call side count ↔ Counted rb side count out.ret rb' := by
  refine ⟨?_, fun h => ⟨out, rb', hrun, h⟩⟩
  rintro ⟨out₁, rb₁, hrun₁, hcounted⟩
  rw [hrun] at hrun₁
  cases hrun₁
  exact hcounted

theorem read_counts (h : WF rb) (hc : 1 ≤ count) :
    CountsIncident rb (.read count) .reader count ↔ rb.canRead ≠ 0 := by
  have hrun := genericRead_eq h count 0
  rw [readCount_zero] at hrun
  by_cases hz : rb.canRead = 0
  · rw [if_pos (by omega)] at hrun
    have hexec : rb.exec (.read count) = some ({ ret := 0 }, rb) := by rw [exec, read, hrun]; rfl
    rw [countsIncident_of_eq hexec]
    exact iff_of_false (not_counted_self rb .reader hc) (fun hne => hne hz)
  · rw [if_neg (by omega)] at hrun
    have hexec : rb.exec (.read count) = some ({
        ret := min count rb.canRead
        bytes := window rb.buf rb.readIndex (min count rb.canRead) },
        rb.afterRead (min count rb.canRead) count) := by rw [exec, read, hrun]; rfl
    rw [countsIncident_of_eq hexec]
    exact iff_of_true (afterRead_counted rb _ count) hz

theorem overread_counts (h : WF rb) (hc : 1 ≤ count) :
    CountsIncident rb (.overread count) .reader count := by
  have hpos := h.size_pos
  have hn : rb.readCount count 1 = min count rb.size := if_neg (by omega)
  refine ⟨{ ret := min count rb.size, bytes := window rb.buf rb.readIndex (min count rb.size) },
    rb.afterRead (min count rb.size) count, ?_, afterRead_counted rb _ count⟩
  rw [exec, overread, genericRead_eq h, hn, if_neg (by omega)]
  rfl

theorem genericAdvance_counts (h : WF rb) (hc : 1 ≤ count) (isOver : ℕ) : ∃ n rb',
    rb.genericAdvanceReadIndex count isOver = some (n, rb') ∧ Counted rb .reader count n rb' := by
  rw [genericAdvanceReadIndex_eq h, if_neg (by omega)]
  by_cases hz : rb.readCount count isOver = 0
  · rw [if_pos hz]
    exact ⟨_, _, rfl, underflow_counted rb hc⟩
  · rw [if_neg hz]
    exact ⟨_, _, rfl, afterRead_counted rb _ count⟩

theorem peekAt_counts (h : WF rb) (hc : 1 ≤ count) (offset : ℕ) :
    CountsIncident rb (.peekAt count offset) .reader count ↔ ¬ rb.LeavesBuffer count offset := by
  by_cases hl : rb.LeavesBuffer count offset
  · refine iff_of_false ?_ (fun hno => hno hl)
    rintro ⟨out, rb', hrun, -⟩
    rw [exec, peekAt_leaves h (by omega) hl] at hrun
    cases hrun
  · refine iff_of_true ?_ hl
    by_cases ho : offset < rb.canRead
    · refine ⟨{
        ret := rb.peekCount count offset
        bytes := window rb.buf (rb.readIndex + offset) (rb.storedCount count offset) },
        rb.afterPeek (rb.peekCount count offset) count, ?_, afterPeek_counted rb _ count⟩
      rw [exec, peekAt_stores h (by omega) ho hl]
      rfl
    · refine ⟨{ ret := 0 }, _, ?_, underflow_counted rb hc⟩
      rw [exec, peekAt_none rb (by omega) (Nat.not_lt.mp ho)]
      rfl

theorem write_counts (h : WF rb) {source : List UInt8} (avail : count ≤ source.length)
    (hc : 1 ≤ count) :
    CountsIncident rb (.write source count avail) .writer count ↔ rb.canWrite ≠ 0 := by
  have hsrc : rb.writeCount count ≤ source.length := Nat.le_trans (Nat.min_le_left _ _) avail
  have hrun := write_eq h hsrc
  unfold writeCount at hrun
  by_cases hz : rb.canWrite = 0
  · rw [if_pos (by omega)] at hrun
    have hexec : rb.exec (.write source count avail) = some ({ ret := 0 }, rb) := by
      rw [exec, hrun]
      rfl
    rw [countsIncident_of_eq hexec]
    exact iff_of_false (not_counted_self rb .writer hc) (fun hne => hne hz)
  · rw [if_neg (by omega)] at hrun
    have hexec : rb.exec (.write source count avail) = some ({ ret := min count rb.canWrite },
        rb.afterWrite (min count rb.canWrite) count (Cyclic.write rb.buf rb.writeIndex
          (source.take (min count rb.canWrite)))) := by
      rw [exec, hrun]
      rfl
    exact iff_of_true ⟨_, _, hexec, afterWrite_counted rb _ count _⟩ hz

theorem advanceWriteIndex_counts (h : WF rb) (hc : 1 ≤ count) :
    CountsIncident rb (.advanceWriteIndex count) .writer count := by
  have hrun := advanceWriteIndex_eq h count
  rw [if_neg (by omega)] at hrun
  by_cases hz : rb.writeCount count = 0
  · rw [if_pos hz] at hrun
    exact ⟨{ ret := 0 }, _, by rw [exec, hrun]; rfl, overflow_counted rb hc⟩
  · rw [if_neg hz] at hrun
    exact ⟨{ ret := rb.writeCount count }, rb.afterWrite (rb.writeCount count) count rb.buf,
      by rw [exec, hrun]; rfl, afterWrite_counted rb _ count _⟩

theorem countsIncident_iff (h : WF rb) {call : Call} {side : Side}
    (hcall : call.request = some (side, count)) (hc : 1 ≤ count) :
    CountsIncident rb call side count ↔ call.Noted rb := by
  cases call <;> simp only [Call.request, reduceCtorEq, Option.some.injEq, Prod.mk.injEq] at hcall
  case read count' =>
    obtain ⟨rfl, rfl⟩ := hcall
    exact read_counts h hc
  case peekAt count' offset =>
    obtain ⟨rfl, rfl⟩ := hcall
    exact peekAt_counts h hc offset
  case advanceReadIndex count' =>
    obtain ⟨rfl, rfl⟩ := hcall
    obtain ⟨n, rb', hrun, hcounted⟩ := genericAdvance_counts h hc 0
    exact iff_of_true ⟨{ ret := n }, rb', by rw [exec, advanceReadIndex, hrun]; rfl, hcounted⟩
      trivial
  case overread count' =>
    obtain ⟨rfl, rfl⟩ := hcall
    exact iff_of_true (overread_counts h hc) trivial
  case overadvanceReadIndex count' =>
    obtain ⟨rfl, rfl⟩ := hcall
    obtain ⟨n, rb', hrun, hcounted⟩ := genericAdvance_counts h hc 1
    exact iff_of_true ⟨{ ret := n }, rb', by rw [exec, overadvanceReadIndex, hrun]; rfl, hcounted⟩
      trivial
  case write source count' avail =>
    obtain ⟨rfl, rfl⟩ := hcall
    exact write_counts h avail hc
  case advanceWriteIndex count' =>
    obtain ⟨rfl, rfl⟩ := hcall
    exact iff_of_true (advanceWriteIndex_counts h hc) trivial

end Calls

/-- **Which calls count their incidents.**

In every ring that calls can make out of a new one, a call of one of the seven kinds that
asks for at least one byte counts an underflow or an overflow exactly when it returned
less, and touches the other counter in no case: the advancing and over-reading calls
always, a read when the ring is not empty, a write when it is not full, and a peek when
its copy stays in the buffer. -/
theorem incidents_counted_exactly {size : ℕ} {rb : Rb} (hsize : size < 2 ^ 64)
    (hrb : Reachable size rb) {call : Call} {side : Side} {count : ℕ}
    (hcall : call.request = some (side, count)) (hc : 1 ≤ count) :
    CountsIncident rb call side count ↔ call.Noted rb :=
  countsIncident_iff (hrb.wf (hrb.size_lt hsize)).1 hcall hc

/-- A read of seven bytes gets three and counts an underflow, and a write of seven bytes finds
room for two and counts an overflow. -/
theorem turnedRing_incidents_counted :
    CountsIncident turnedRing (.read 7) .reader 7 ∧
      CountsIncident turnedRing (.write [1, 2, 3, 4, 5, 6, 7] 7 (by decide)) .writer 7 := by
  have hread : turnedRing.canRead ≠ 0 := by decide
  have hwrite : turnedRing.canWrite ≠ 0 := by decide
  constructor
  · exact (incidents_counted_exactly (by decide) reachable_turnedRing rfl (by decide)).mpr hread
  · exact (incidents_counted_exactly (by decide) reachable_turnedRing rfl (by decide)).mpr hwrite

/-- An empty ring of four bytes delivers none of the three that are read, and counts no
underflow. -/
theorem read_empty_not_counted :
    Reachable 4 (cleared 4) ∧ (cleared 4).read 3 = some (0, [], cleared 4) ∧
      ¬ CountsIncident (cleared 4) (.read 3) .reader 3 :=
  have hwf : WF (cleared 4) ∧ (cleared 4).size = 4 :=
    (reachable_cleared (by decide) (by decide)).wf (by decide)
  ⟨reachable_cleared (by decide) (by decide), by decide +kernel,
    fun h => (read_counts hwf.1 (by decide)).mp h (by decide +kernel)⟩

end Rb

end Csnip
