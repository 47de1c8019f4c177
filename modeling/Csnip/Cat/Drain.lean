/-
Dumping a ring with rb_cat.

The reading loop of `main()` looks at `no_more_input_data`, reads, prints, and looks again,
while another process writes to the same ring and in the end sets the mark.  A read, a
write, a look at the mark and the store of the mark are one step each, and the steps of the
two processes come in any order.  Next to the ring a state remembers what has been printed
and what the writes have accepted.

Nothing gets lost on the way: what was accepted is what was printed, what is being printed
and what is still in the ring (`State.Inv`).  But the loop ends as soon as it sees the mark,
and does not look whether the ring is empty: `cat_prints_everything` says when it is.
-/
import Csnip.Rb.Fifo

namespace Csnip

open Memory

namespace Cat

/-! ### The two processes -/

/-- Where the reading loop is. -/
inductive Reader
  /-- `while(rb_->no_more_input_data<1)`. -/
  | checking
  /-- `rb_read(rb_,buf,bufsize)`. -/
  | reading
  /-- The bytes in `buf` that are to be printed. -/
  | printing (bytes : List UInt8)
  /-- Behind the loop. -/
  | ended
deriving DecidableEq

/-- The writing process writes, and when it has set the mark it is done. -/
inductive Writer
  | writing
  | marked
deriving DecidableEq

/-- The ring the two processes share, where they are, and what has been printed and
accepted. -/
structure State where
  rb : Rb
  reader : Reader
  writer : Writer
  printed : List UInt8
  accepted : List UInt8

/-- A step of the reading loop, a write, or the store of the mark. -/
inductive Move
  | reader
  | write (source : List UInt8) (count : ℕ) (avail : count ≤ source.length)
  | mark

def bufsize : ℕ := 64000

namespace State

/-- Two processes that have just opened the ring. -/
def start (rb : Rb) : State := ⟨rb, .checking, .writing, [], []⟩

/-- The next step of the reading loop. -/
def readerNext (s : State) : Option State :=
  match s.reader with
  | .checking => some { s with reader := if s.rb.noMoreInputData < 1 then .reading else .ended }
  | .reading => (s.rb.read bufsize).map fun r => { s with rb := r.2.2, reader := .printing r.2.1 }
  | .printing bytes => some { s with reader := .checking, printed := s.printed ++ bytes }
  | .ended => none

def next (s : State) : Move → Option State
  | .reader => s.readerNext
  | .write source count _ =>
      if s.writer = .writing then
        (s.rb.write source count).map fun r =>
          { s with rb := r.2, accepted := s.accepted ++ source.take r.1 }
      else none
  | .mark =>
      if s.writer = .writing then
        some { s with rb := { s.rb with noMoreInputData := 1 }, writer := .marked }
      else none

def Step (s t : State) : Prop := ∃ move, s.next move = some t

/-- The step is not the one that ends the loop while there are bytes in the ring. -/
def Drained (s : State) : Move → Prop
  | .reader => s.reader = .checking → 1 ≤ s.rb.noMoreInputData → s.rb.canRead = 0
  | _ => True

instance (s : State) (move : Move) : Decidable (s.Drained move) := by
  cases move <;> unfold Drained <;> infer_instance

/-- A step that does not end the loop too early. -/
def DrainedStep (s t : State) : Prop := ∃ move, s.Drained move ∧ s.next move = some t

end State

/-- The bytes that were read and not yet printed. -/
def Reader.inFlight : Reader → List UInt8
  | .printing bytes => bytes
  | .checking | .reading | .ended => []

/-! ### Where the accepted bytes are -/

/-- What holds in every state. -/
structure State.Inv (s : State) : Prop where
  wf : Rb.WF s.rb
  order : s.accepted = s.printed ++ s.reader.inFlight ++ s.rb.queue
  mark : s.rb.noMoreInputData = if s.writer = .writing then 0 else 1
  ended : s.reader = .ended → s.writer = .marked

section Inv

variable {s t : State}

theorem read_keeps_mark {rb rb' : Rb} {count n : ℕ} {bytes : List UInt8} (h : Rb.WF rb)
    (hrun : rb.read count = some (n, bytes, rb')) : rb'.noMoreInputData = rb.noMoreInputData := by
  rw [Rb.read, Rb.genericRead_eq h, Option.some.injEq] at hrun
  split at hrun <;> cases hrun <;> rfl

theorem write_keeps_mark {rb rb' : Rb} {source : List UInt8} {count n : ℕ} (h : Rb.WF rb)
    (hsrc : rb.writeCount count ≤ source.length) (hrun : rb.write source count = some (n, rb')) :
    rb'.noMoreInputData = rb.noMoreInputData := by
  rw [Rb.write_eq h hsrc, Option.some.injEq] at hrun
  split at hrun <;> cases hrun <;> rfl

theorem start_inv {rb : Rb} (h : Rb.WF rb) (hempty : rb.canRead = 0)
    (hmark : rb.noMoreInputData = 0) : (State.start rb).Inv := by
  refine ⟨h, ?_, hmark, fun hended => by cases hended⟩
  have hlen := Rb.length_queue h
  rw [hempty, List.length_eq_zero_iff] at hlen
  exact hlen.symm

theorem reader_inv (h : s.Inv) (hnext : s.readerNext = some t) : t.Inv := by
  unfold State.readerNext at hnext
  have horder := h.order
  cases hreader : s.reader with
  | checking =>
      rw [hreader] at hnext horder
      cases hnext
      by_cases hmark : s.rb.noMoreInputData < 1
      · rw [if_pos hmark]
        exact ⟨h.wf, horder, h.mark, fun hended => by cases hended⟩
      · rw [if_neg hmark]
        refine ⟨h.wf, horder, h.mark, fun _ => ?_⟩
        -- the mark is only there when the writer has set it
        have hvalue := h.mark
        cases hwriter : s.writer with
        | writing =>
            rw [hwriter, if_pos rfl] at hvalue
            omega
        | marked => rfl
  | reading =>
      rw [hreader] at hnext horder
      obtain ⟨rb', hread, hcons⟩ := Rb.read_consumes h.wf bufsize
      simp only [hread, Option.map_some, Option.some.injEq] at hnext
      subst hnext
      refine ⟨hcons.wf, ?_, (read_keeps_mark h.wf hread).trans h.mark,
        fun hended => by cases hended⟩
      show s.accepted = s.printed ++ s.rb.queue.take _ ++ rb'.queue
      rw [horder, hcons.queue, Reader.inFlight, List.append_nil, List.append_assoc,
        List.take_append_drop]
  | printing bytes =>
      rw [hreader] at hnext horder
      cases hnext
      refine ⟨h.wf, ?_, h.mark, fun hended => by cases hended⟩
      simpa [Reader.inFlight] using horder
  | ended =>
      rw [hreader] at hnext
      cases hnext

theorem write_inv (h : s.Inv) {source : List UInt8} {count : ℕ} {avail : count ≤ source.length}
    (hnext : s.next (.write source count avail) = some t) : t.Inv := by
  have hsrc : s.rb.writeCount count ≤ source.length := Nat.le_trans (Nat.min_le_left _ _) avail
  rw [State.next] at hnext
  by_cases hw : s.writer = .writing
  · obtain ⟨rb', hwrite, hprod⟩ := Rb.write_produces h.wf hsrc
    rw [if_pos hw, hwrite, Option.map_some, Option.some.injEq] at hnext
    subst hnext
    refine ⟨hprod.wf, ?_, (write_keeps_mark h.wf hsrc hwrite).trans h.mark, h.ended⟩
    show s.accepted ++ _ = s.printed ++ s.reader.inFlight ++ rb'.queue
    rw [h.order, hprod.queue, List.append_assoc]
  · rw [if_neg hw] at hnext
    cases hnext

theorem mark_inv (h : s.Inv) (hnext : s.next .mark = some t) : t.Inv := by
  rw [State.next] at hnext
  by_cases hw : s.writer = .writing
  · rw [if_pos hw] at hnext
    cases hnext
    exact ⟨⟨h.wf.size_pos, h.wf.size_lt, h.wf.read_lt, h.wf.write_lt, h.wf.flag, h.wf.length_buf⟩,
      h.order, rfl, fun _ => rfl⟩
  · rw [if_neg hw] at hnext
    cases hnext

/-- **Every step keeps the invariant.** -/
theorem step_inv (h : s.Inv) {move : Move} (hnext : s.next move = some t) : t.Inv := by
  cases move with
  | reader => exact reader_inv h hnext
  | write source count avail => exact write_inv h hnext
  | mark => exact mark_inv h hnext

/-- Behind the loop, everything has been printed exactly when the ring is empty. -/
theorem printed_iff (h : s.Inv) (hended : s.reader = .ended) :
    s.printed = s.accepted ↔ s.rb.canRead = 0 := by
  have horder := h.order
  rw [hended, Reader.inFlight, List.append_nil] at horder
  rw [horder, ← Rb.length_queue h.wf, List.length_eq_zero_iff, List.self_eq_append_right]

/-- A loop that has ended on an empty ring leaves it empty: the writer is done. -/
theorem step_empty (h : s.Inv) (hempty : s.reader = .ended → s.rb.canRead = 0) {move : Move}
    (hdrained : s.Drained move) (hnext : s.next move = some t) :
    t.reader = .ended → t.rb.canRead = 0 := by
  intro hended
  cases move with
  | reader =>
      change s.readerNext = some t at hnext
      unfold State.readerNext at hnext
      cases hreader : s.reader with
      | checking =>
          rw [hreader] at hnext
          cases hnext
          by_cases hmark : s.rb.noMoreInputData < 1
          · rw [if_pos hmark] at hended
            cases hended
          · exact hdrained hreader (by omega)
      | reading =>
          rw [hreader] at hnext
          obtain ⟨r, -, rfl⟩ := Option.map_eq_some_iff.mp hnext
          cases hended
      | printing bytes =>
          rw [hreader] at hnext
          cases hnext
          cases hended
      | ended =>
          rw [hreader] at hnext
          cases hnext
  | write source count avail =>
      rw [State.next] at hnext
      by_cases hw : s.writer = .writing
      · rw [if_pos hw] at hnext
        obtain ⟨r, -, rfl⟩ := Option.map_eq_some_iff.mp hnext
        have hmarked := h.ended hended
        rw [hw] at hmarked
        cases hmarked
      · rw [if_neg hw] at hnext
        cases hnext
  | mark =>
      rw [State.next] at hnext
      by_cases hw : s.writer = .writing
      · rw [if_pos hw] at hnext
        cases hnext
        exact hempty hended
      · rw [if_neg hw] at hnext
        cases hnext

end Inv

/-- **When dumping a ring loses nothing.**

In every run of the two processes on a new ring whose reading loop ends with the ring
empty, what has been printed once the loop has ended is what the writes have accepted, in
order.  And in every state of every run in which the loop has ended, the two are the same
only if the ring is empty. -/
theorem cat_prints_everything {malloc : Malloc} {size : ℕ} {name : List UInt8}
    {sampleRate channelCount bytesPerSample : ℤ} {rb : Rb} (hsize : size < 2 ^ 64)
    (hnew : rbNewAudio malloc size name sampleRate channelCount bytesPerSample
      = some (some rb)) :
    (∀ s, Relation.ReflTransGen State.DrainedStep (.start rb) s → s.reader = .ended →
      s.printed = s.accepted) ∧
    ∀ s, Relation.ReflTransGen State.Step (.start rb) s → s.reader = .ended →
      (s.printed = s.accepted ↔ s.rb.canRead = 0) := by
  obtain ⟨hwf, -, hempty⟩ := Rb.rbNewAudio_wf (Rb.rbNewAudio_size_lt hsize hnew) hnew
  have hstart : (State.start rb).Inv := by
    obtain ⟨block, -, -, -, rfl⟩ := Rb.rbNewAudio_eq_some hnew
    exact start_inv hwf hempty rfl
  constructor
  · intro s hrun hended
    obtain ⟨hinv, hnothing⟩ := Machine.invariant_of_reflTransGen
      (I := fun s : State => s.Inv ∧ (s.reader = .ended → s.rb.canRead = 0))
      ⟨hstart, fun hno => by cases hno⟩
      (fun a b ha hab => by
        obtain ⟨move, hdrained, hnext⟩ := hab
        exact ⟨step_inv ha.1 hnext, step_empty ha.1 ha.2 hdrained hnext⟩) hrun
    exact (printed_iff hinv hended).mpr (hnothing hended)
  · intro s hrun hended
    have hinv : s.Inv := Machine.invariant_of_reflTransGen hstart
      (fun a b ha hab => by
        obtain ⟨move, hnext⟩ := hab
        exact step_inv ha hnext) hrun
    exact printed_iff hinv hended

/-- A byte is written, read and printed before the mark is set. -/
def timelyMark : List Move :=
  [.write [9] 1 (by decide), .reader, .reader, .reader, .mark, .reader]

theorem cat_prints_everything_two : ∃ s,
    Machine.followIf State.next State.Drained (.start (Rb.cleared 2)) timelyMark = some s ∧
      s.reader = .ended ∧ s.printed = s.accepted := by
  have hrun : ((Machine.followIf State.next State.Drained (.start (Rb.cleared 2))
      timelyMark).map State.reader) = some .ended := by decide +kernel
  obtain ⟨s, hs, hended⟩ := Option.map_eq_some_iff.mp hrun
  exact ⟨s, hs, hended, (cat_prints_everything (by decide)
    (Rb.rbNew_cleared (by decide) (by decide))).1 s (Machine.reach_of_followIf _ _ hs) hended⟩

/-- The mark is set while the byte is still in the ring. -/
def earlyMark : List Move := [.write [9] 1 (by decide), .mark, .reader]

/-- **The loop ends although there is something to read**: the byte that was accepted is
never printed. -/
theorem cat_leaves_a_byte :
    rbNew .cleared 2 = some (some (Rb.cleared 2)) ∧
      ∃ s, Relation.ReflTransGen State.Step (.start (Rb.cleared 2)) s ∧ s.reader = .ended ∧
        s.accepted = [9] ∧ s.printed = [] := by
  refine ⟨Rb.rbNew_cleared (by decide) (by decide), ?_⟩
  have hrun : ((Machine.followIf State.next (fun _ _ => True) (.start (Rb.cleared 2))
      earlyMark).map fun s => (s.reader, s.accepted, s.printed)) = some (.ended, [9], []) := by
    decide +kernel
  obtain ⟨s, hs, heq⟩ := Option.map_eq_some_iff.mp hrun
  simp only [Prod.mk.injEq] at heq
  exact ⟨s, Machine.reach_of_follow hs, heq⟩

end Cat

end Csnip
