/-
The ring is a bounded queue.

A `Belt` is what a ring is for, with the indices forgotten: the bytes waiting to be
read, and behind them the stale bytes that the next writes will replace, together
always as many as the ring has room for.  A write moves the front of the spare part to
the back of the queue, replaced by the caller's bytes; advancing the write index moves
it as it is; a read or a skip moves the front of the queue to the back of the spare
part.

`exec_refines` says that each call of the ring is the step of the belt of the same
name, and `rb_refines_belt` carries this through every sequence of calls.
-/
import Csnip.Rb.Api

namespace Csnip

open Memory Cyclic

/-- A bounded queue of bytes, and the bytes in its free space. -/
structure Belt (capacity : ℕ) where
  queue : List UInt8
  spare : List UInt8
  length_eq : queue.length + spare.length = capacity

namespace Belt

open Rb

variable {capacity : ℕ}

/-- What the sequential calls of a ring do to a belt. -/
inductive Step : Belt capacity → Call → Out → Belt capacity → Prop
  | write {b b' : Belt capacity} {source : List UInt8} {count : ℕ}
      {avail : count ≤ source.length} {n : ℕ}
      (hn : n = min count (capacity - b.queue.length))
      (hqueue : b'.queue = b.queue ++ source.take n) (hspare : b'.spare = b.spare.drop n) :
      Step b (.write source count avail) { ret := n } b'
  | read {b b' : Belt capacity} {count n : ℕ} (hn : n = min count b.queue.length)
      (hqueue : b'.queue = b.queue.drop n) (hspare : b'.spare = b.spare ++ b.queue.take n) :
      Step b (.read count) { ret := n, bytes := b.queue.take n } b'
  | advanceReadIndex {b b' : Belt capacity} {count n : ℕ} (hn : n = min count b.queue.length)
      (hqueue : b'.queue = b.queue.drop n) (hspare : b'.spare = b.spare ++ b.queue.take n) :
      Step b (.advanceReadIndex count) { ret := n } b'
  | drop {b b' : Belt capacity} (hqueue : b'.queue = [])
      (hspare : b'.spare = b.spare ++ b.queue) :
      Step b .drop { ret := b.queue.length } b'
  | advanceWriteIndex {b b' : Belt capacity} {count n : ℕ}
      (hn : n = min count (capacity - b.queue.length))
      (hqueue : b'.queue = b.queue ++ b.spare.take n) (hspare : b'.spare = b.spare.drop n) :
      Step b (.advanceWriteIndex count) { ret := n } b'
  | reset {b b' : Belt capacity} (hqueue : b'.queue = [])
      (hspare : b'.spare ~r b.queue ++ b.spare) :
      Step b .reset {} b'

end Belt

namespace Rb

/-- The calls a belt has a step for. -/
def Call.Sequential : Call → Prop
  | .write .. | .read _ | .advanceReadIndex _ | .drop | .advanceWriteIndex _ | .reset => True
  | _ => False

/-- The belt a well-formed ring carries. -/
def belt {capacity : ℕ} (rb : Rb) (h : WF rb) (hsize : rb.size = capacity) : Belt capacity where
  queue := rb.queue
  spare := rb.spare
  length_eq := by
    rw [length_queue h, length_spare h, ← hsize]
    exact canRead_add_canWrite h

section Spare

variable {rb : Rb} {n count : ℕ}

/-- Consuming bytes leaves them at the back of the free space. -/
theorem spare_afterRead (h : WF rb) (hn : 0 < n) (hle : n ≤ rb.canRead) :
    (rb.afterRead n count).spare = rb.spare ++ rb.queue.take n := by
  have hlevel := canRead_add_canWrite h
  have hwrite : (rb.afterRead n count).canWrite = rb.canWrite + n := by
    rw [canWrite_eq (afterRead_wf h), canRead_afterRead h hn, canWrite_eq h]
    show rb.size - (rb.canRead - n) = rb.size - rb.canRead + n
    omega
  have hw : (rb.afterRead n count).writeIndex = rb.writeIndex := if_neg (by omega)
  unfold spare
  rw [hwrite, hw]
  show window rb.buf rb.writeIndex (rb.canWrite + n) = _
  rw [window_add (by rw [h.length_buf]; omega), queue, take_window hle]
  congr 1
  -- going on from the end of the free space leads back to the read index
  rw [← window_mod, h.length_buf, writeIndex_eq h, mod_add_assoc, hlevel, Nat.add_mod_right,
    Nat.mod_eq_of_lt h.read_lt]

/-- Producing bytes uses up the front of the free space. -/
theorem spare_afterWrite {buf : List UInt8} (h : WF rb) (hb : buf.length = rb.size) (hn : 0 < n)
    (hle : n ≤ rb.canWrite)
    (hbuf : window buf (rb.writeIndex + n) (rb.canWrite - n)
      = window rb.buf (rb.writeIndex + n) (rb.canWrite - n)) :
    (rb.afterWrite n count buf).spare = rb.spare.drop n := by
  have hlevel := canRead_add_canWrite h
  have hwrite : (rb.afterWrite n count buf).canWrite = rb.canWrite - n := by
    rw [canWrite_eq (afterWrite_wf h hb), canRead_afterWrite h hb hn hle, canWrite_eq h]
    show rb.size - (rb.canRead + n) = rb.size - rb.canRead - n
    omega
  unfold spare
  rw [hwrite]
  show window buf ((rb.writeIndex + n) % rb.size) (rb.canWrite - n) = _
  rw [← hb, window_mod, hbuf, drop_window hle (by rw [h.length_buf]; omega)]

end Spare

/-! ### What a call does to the content -/

/-- `n` bytes went from the front of the content to the back of the free space. -/
structure Consumes (rb : Rb) (n : ℕ) (rb' : Rb) : Prop where
  wf : WF rb'
  size : rb'.size = rb.size
  queue : rb'.queue = rb.queue.drop n
  spare : rb'.spare = rb.spare ++ rb.queue.take n

/-- `bs` took the place of the front of the free space, as the back of the content. -/
structure Produces (rb : Rb) (bs : List UInt8) (rb' : Rb) : Prop where
  wf : WF rb'
  size : rb'.size = rb.size
  queue : rb'.queue = rb.queue ++ bs
  spare : rb'.spare = rb.spare.drop bs.length

section Content

variable {rb rb' : Rb}

theorem SameRing.canWrite (h : SameRing rb rb') : rb'.canWrite = rb.canWrite := by
  simp only [Rb.canWrite, h.size, h.readIndex, h.writeIndex, h.lastWasWrite]

theorem SameRing.spare (h : SameRing rb rb') : rb'.spare = rb.spare := by
  rw [Rb.spare, Rb.spare, h.canWrite, h.buf, h.writeIndex]

theorem SameRing.consumes (hring : SameRing rb rb') (h : WF rb) : Consumes rb 0 rb' :=
  ⟨hring.wf h, hring.size, by rw [hring.queue, List.drop_zero], by simp [hring.spare]⟩

theorem SameRing.produces (hring : SameRing rb rb') (h : WF rb) : Produces rb [] rb' :=
  ⟨hring.wf h, hring.size, by rw [hring.queue, List.append_nil], by simp [hring.spare]⟩

theorem afterRead_consumes {n : ℕ} (count : ℕ) (h : WF rb) (hn : 0 < n) (hle : n ≤ rb.canRead) :
    Consumes rb n (rb.afterRead n count) :=
  ⟨afterRead_wf h, rfl, queue_afterRead h hn, spare_afterRead h hn hle⟩

theorem take_queue {n : ℕ} (hn : n ≤ rb.canRead) :
    rb.queue.take n = window rb.buf rb.readIndex n := take_window hn

theorem take_spare {n : ℕ} (hn : n ≤ rb.canWrite) :
    rb.spare.take n = window rb.buf rb.writeIndex n := take_window hn

theorem read_consumes (h : WF rb) (count : ℕ) : ∃ rb',
    rb.read count = some (min count rb.canRead, rb.queue.take (min count rb.canRead), rb') ∧
      Consumes rb (min count rb.canRead) rb' := by
  rw [read, genericRead_eq h, readCount_zero, ← take_queue (Nat.min_le_right _ _)]
  by_cases hz : min count rb.canRead = 0
  · rw [if_pos hz, hz, List.take_zero]
    exact ⟨rb, rfl, (SameRing.refl rb).consumes h⟩
  · rw [if_neg hz]
    exact ⟨_, rfl, afterRead_consumes count h (by omega) (Nat.min_le_right _ _)⟩

theorem advanceReadIndex_consumes (h : WF rb) (count : ℕ) : ∃ rb',
    rb.advanceReadIndex count = some (min count rb.canRead, rb') ∧
      Consumes rb (min count rb.canRead) rb' := by
  rw [advanceReadIndex, genericAdvanceReadIndex_eq h, readCount_zero]
  by_cases hc : count = 0
  · rw [if_pos hc, hc, Nat.zero_min]
    exact ⟨rb, rfl, (SameRing.refl rb).consumes h⟩
  · rw [if_neg hc]
    by_cases hz : min count rb.canRead = 0
    · rw [if_pos hz, hz]
      exact ⟨_, rfl, (sameRing_underflow rb).consumes h⟩
    · rw [if_neg hz]
      exact ⟨_, rfl, afterRead_consumes count h (by omega) (Nat.min_le_right _ _)⟩

theorem write_produces (h : WF rb) {source : List UInt8} {count : ℕ}
    (hsrc : min count rb.canWrite ≤ source.length) : ∃ rb',
    rb.write source count = some (min count rb.canWrite, rb') ∧
      Produces rb (source.take (min count rb.canWrite)) rb' := by
  have hlevel := canRead_add_canWrite h
  rw [write_eq h hsrc, writeCount]
  by_cases hz : min count rb.canWrite = 0
  · rw [if_pos hz, hz, List.take_zero]
    exact ⟨rb, rfl, (SameRing.refl rb).produces h⟩
  · rw [if_neg hz]
    generalize hn : min count rb.canWrite = n at hz hsrc ⊢
    have hbs : (source.take n).length = n := by simp; omega
    have hlen : (Cyclic.write rb.buf rb.writeIndex (source.take n)).length = rb.size := by
      rw [length_write (by rw [h.length_buf]; exact h.write_lt.le) (by rw [h.length_buf]; omega),
        h.length_buf]
    have hw : rb.writeIndex < rb.buf.length := by rw [h.length_buf]; exact h.write_lt
    have hself : window (Cyclic.write rb.buf rb.writeIndex (source.take n)) rb.writeIndex
        (source.take n).length = source.take n :=
      window_write_self hw (by rw [h.length_buf]; omega)
    have hahead : window (Cyclic.write rb.buf rb.writeIndex (source.take n))
        (rb.writeIndex + (source.take n).length) (rb.canWrite - n)
        = window rb.buf (rb.writeIndex + (source.take n).length) (rb.canWrite - n) :=
      window_write_ahead hw (by rw [h.length_buf]; omega)
    rw [hbs] at hself hahead
    refine ⟨_, rfl, afterWrite_wf h hlen, rfl, ?_, ?_⟩
    · rw [queue_afterWrite h hlen (by omega) (by omega), hself, window_write_queue h (by omega)]
    · rw [hbs]
      exact spare_afterWrite h hlen (by omega) (by omega) hahead

theorem advanceWriteIndex_produces (h : WF rb) (count : ℕ) : ∃ rb',
    rb.advanceWriteIndex count = some (min count rb.canWrite, rb') ∧
      Produces rb (rb.spare.take (min count rb.canWrite)) rb' := by
  have hlevel := canRead_add_canWrite h
  have hlen := length_spare h
  rw [advanceWriteIndex_eq h, writeCount]
  by_cases hc : count = 0
  · rw [if_pos hc, hc, Nat.zero_min, List.take_zero]
    exact ⟨rb, rfl, (SameRing.refl rb).produces h⟩
  · rw [if_neg hc]
    by_cases hz : min count rb.canWrite = 0
    · rw [if_pos hz, hz, List.take_zero]
      exact ⟨_, rfl, SameRing.produces (SameRing.stats ..) h⟩
    · rw [if_neg hz]
      have hle : min count rb.canWrite ≤ rb.canWrite := Nat.min_le_right _ _
      refine ⟨_, rfl, afterWrite_wf h h.length_buf, rfl, ?_, ?_⟩
      · rw [queue_afterWrite h h.length_buf (by omega) hle, take_spare hle]
        rfl
      · rw [List.length_take, hlen, Nat.min_eq_left hle]
        exact spare_afterWrite h h.length_buf (by omega) hle rfl

theorem queue_reset (rb : Rb) : rb.reset.queue = [] := by
  rw [queue, show rb.reset.canRead = 0 from rfl, window_zero]

/-- Resetting keeps the storage, and reads it from its physical beginning. -/
theorem spare_reset (h : WF rb) : rb.reset.spare ~r rb.queue ++ rb.spare := by
  have hstorage : rb.reset.spare = rb.buf := by
    show window rb.buf 0 rb.size = rb.buf
    rw [← h.length_buf, window_whole]
  rw [hstorage, queue_append_spare h, ← h.length_buf, window,
    List.take_of_length_le (by simp)]
  exact ⟨rb.readIndex, rfl⟩

/-- A new ring is all free space. -/
theorem spare_rbNew {malloc : Malloc} {size : ℕ} (hlt : size < 2 ^ 63)
    (hnew : rbNew malloc size = some (some rb)) : rb.spare = rb.buf := by
  obtain ⟨hwf, hsize, hempty⟩ := rbNew_wf hlt hnew
  have hw : rb.writeIndex = 0 := by
    obtain ⟨block, -, -, -, rfl⟩ := rbNew_eq_some hnew
    rfl
  rw [spare, canWrite_eq hwf, hempty, Nat.sub_zero, ← hwf.length_buf, hw, window_whole]

end Content

/-! ### The simulation -/

/-- **Each sequential call is defined and is the step of the belt of the same name.** -/
theorem exec_refines {size : ℕ} {rb : Rb} {call : Call} (hcall : call.Sequential) (h : WF rb)
    (hsize : rb.size = size) :
    ∃ out rb', ∃ (h' : WF rb') (hsize' : rb'.size = size), rb.exec call = some (out, rb') ∧
      Belt.Step (rb.belt h hsize) call out (rb'.belt h' hsize') := by
  have hread : rb.canRead = rb.queue.length := (length_queue h).symm
  have hwrite : rb.canWrite = size - rb.queue.length := by
    rw [canWrite_eq h, hread, hsize]
  cases call with
  | write source count avail =>
      obtain ⟨rb', hrun, hp⟩ := write_produces h
        (Nat.le_trans (Nat.min_le_left count _) avail)
      have hbs : (source.take (min count rb.canWrite)).length = min count rb.canWrite := by
        simp; omega
      have hspare := hp.spare
      rw [hbs] at hspare
      exact ⟨_, rb', hp.wf, hp.size.trans hsize, by rw [exec, hrun]; rfl,
        .write (congrArg (min count) hwrite) hp.queue hspare⟩
  | read count =>
      obtain ⟨rb', hrun, hc⟩ := read_consumes h count
      exact ⟨_, rb', hc.wf, hc.size.trans hsize, by rw [exec, hrun]; rfl,
        .read (congrArg (min count) hread) hc.queue hc.spare⟩
  | advanceReadIndex count =>
      obtain ⟨rb', hrun, hc⟩ := advanceReadIndex_consumes h count
      exact ⟨_, rb', hc.wf, hc.size.trans hsize, by rw [exec, hrun]; rfl,
        .advanceReadIndex (congrArg (min count) hread) hc.queue hc.spare⟩
  | drop =>
      obtain ⟨rb', hrun, hc⟩ := advanceReadIndex_consumes h rb.canRead
      rw [Nat.min_self] at hrun hc
      have hqueue : rb'.queue = [] := by rw [hc.queue, hread, List.drop_length]
      have hspare : rb'.spare = rb.spare ++ rb.queue := by
        rw [hc.spare, hread, List.take_length]
      exact ⟨{ ret := rb.queue.length }, rb', hc.wf, hc.size.trans hsize,
        by rw [exec, drop, hrun, hread]; rfl, .drop hqueue hspare⟩
  | advanceWriteIndex count =>
      obtain ⟨rb', hrun, hp⟩ := advanceWriteIndex_produces h count
      have hbs : (rb.spare.take (min count rb.canWrite)).length = min count rb.canWrite := by
        rw [List.length_take, length_spare h]
        omega
      have hspare := hp.spare
      rw [hbs] at hspare
      exact ⟨_, rb', hp.wf, hp.size.trans hsize, by rw [exec, hrun]; rfl,
        .advanceWriteIndex (congrArg (min count) hwrite) hp.queue hspare⟩
  | reset =>
      exact ⟨_, rb.reset, reset_wf h, hsize, rfl, .reset (queue_reset rb) (spare_reset h)⟩
  | _ => exact absurd hcall id

/-- The ring a belt is carried by, as the relation of the simulation. -/
def Carries {size : ℕ} (rb : Rb) (b : Belt size) : Prop :=
  ∃ (h : WF rb) (hsize : rb.size = size), b = rb.belt h hsize

/-- **A ring is a bounded queue over every sequence of sequential calls.**

Whatever calls follow `rb_new(size)`, none is undefined, their answers are those of a
belt that starts with an empty queue, and the ring they end in carries the belt's queue
and free space.  The indices stay inside the buffer and the two fill levels are those
of the queue. -/
theorem rb_refines_belt {malloc : Malloc} {size : ℕ} {rb₀ : Rb} (hlt : size < 2 ^ 63)
    (hnew : rbNew malloc size = some (some rb₀)) (calls : List Call)
    (hcalls : ∀ call ∈ calls, call.Sequential) :
    ∃ outs rb, ∃ b₀ b : Belt size,
      Machine.run exec rb₀ calls = some (outs, rb) ∧
      b₀.queue = [] ∧ b₀.spare = rb₀.buf ∧ Machine.Run Belt.Step b₀ calls outs b ∧
      rb.queue = b.queue ∧ rb.spare = b.spare ∧
      rb.readIndex < size ∧ rb.writeIndex < size ∧
      rb.canRead = b.queue.length ∧ rb.canWrite = size - b.queue.length := by
  obtain ⟨hwf, hsize, hempty⟩ := rbNew_wf hlt hnew
  have hsim : ∀ (rb : Rb) (b : Belt size) (call : Call), call.Sequential → rb.Carries b →
      ∃ out rb' b', rb.exec call = some (out, rb') ∧ Belt.Step b call out b' ∧ rb'.Carries b' := by
    rintro rb b call hcall ⟨h, hsz, rfl⟩
    obtain ⟨out, rb', h', hsz', hrun, hstep⟩ := exec_refines hcall h hsz
    exact ⟨out, rb', _, hrun, hstep, h', hsz', rfl⟩
  obtain ⟨outs, rb, b, hrun, hRun, h, hsz, rfl⟩ :=
    Machine.run_refines hsim calls rb₀ (rb₀.belt hwf hsize) hcalls ⟨hwf, hsize, rfl⟩
  have hread : rb.canRead = rb.queue.length := (length_queue h).symm
  refine ⟨outs, rb, _, _, hrun, ?_, ?_, hRun, rfl, rfl, ?_, ?_, hread, ?_⟩
  · show rb₀.queue = []
    rw [queue, hempty, window_zero]
  · exact spare_rbNew hlt hnew
  · rw [← hsz]
    exact h.read_lt
  · rw [← hsz]
    exact h.write_lt
  · show rb.canWrite = size - rb.queue.length
    rw [canWrite_eq h, hsz, hread]

theorem rb_refines_belt_three : ∃ outs rb, ∃ b₀ b : Belt 3,
    Machine.run exec (cleared 3)
      [.write [1, 2, 3, 4] 4 (by decide), .read 2, .write [5] 1 (by decide), .drop]
      = some (outs, rb) ∧
    b₀.queue = [] ∧ b₀.spare = (cleared 3).buf ∧
    Machine.Run Belt.Step b₀
      [.write [1, 2, 3, 4] 4 (by decide), .read 2, .write [5] 1 (by decide), .drop] outs b ∧
    rb.queue = b.queue ∧ rb.spare = b.spare ∧ rb.readIndex < 3 ∧ rb.writeIndex < 3 ∧
    rb.canRead = b.queue.length ∧ rb.canWrite = 3 - b.queue.length :=
  rb_refines_belt (by decide) (rbNew_cleared (by decide) (by decide)) _
    (by simp [Call.Sequential])

end Rb

end Csnip
