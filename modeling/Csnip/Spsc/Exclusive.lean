/-
Many readers and many writers on the same ring.

`rb_try_exclusive_read()` and `rb_try_exclusive_write()` try the two locks of the ring, and a
thread that has got one calls `rb_read()` or `rb_write()` until it releases the lock.  The calls are
cut into their accesses to the shared record as before, and any number of threads run in any order.

The read lock makes one reader of all the readers, and the write lock one writer of all the writers
(`step_sim`): whatever the threads do is done by one reader and one writer.  So it is safe under the
condition they are safe under, and no other.
-/
import Csnip.Lib.Mutex
import Csnip.Spsc.Safety

namespace Csnip

namespace Exclusive

open Spsc (Reader Writer)

variable {R W : Type*}

/-- The ring with its two locks, where the threads are (`none` when a thread has not got the lock),
and which writer has had each byte accepted and which reader has got it. -/
structure State (R W : Type*) where
  rb : Rb
  readLock : Option R
  writeLock : Option W
  reader : R → Option Reader
  writer : W → Option Writer
  accepted : List (W × UInt8)
  delivered : List (R × UInt8)

inductive Move (R W : Type*)
  /-- `rb_try_exclusive_read()`. -/
  | tryRead (r : R)
  /-- `rb_release_read()`, by a thread that has the lock. -/
  | releaseRead (r : R)
  /-- `rb_read()`, by a thread that has the lock. -/
  | callRead (r : R) (count : ℕ)
  /-- The next access of a reader. -/
  | reader (r : R)
  /-- `rb_try_exclusive_write()`. -/
  | tryWrite (w : W)
  /-- `rb_release_write()`, by a thread that has the lock. -/
  | releaseWrite (w : W)
  /-- `rb_write()`, by a thread that has the lock. -/
  | callWrite (w : W) (source : List UInt8) (count : ℕ) (avail : count ≤ source.length)
  /-- The next access of a writer. -/
  | writer (w : W)

/-- `rb_try_exclusive_read()` and `rb_try_exclusive_write()`: what is returned, and the lock. -/
def tryExclusive {T : Type*} (lock : Option T) (t : T) : ℕ × Option T :=
  if lock.isSome then (0, lock) else (1, some t)

namespace State

section Next

variable [DecidableEq R] [DecidableEq W]

def setReader (s : State R W) (r : R) (at' : Option Reader) : State R W :=
  { s with reader := Function.update s.reader r at' }

def setWriter (s : State R W) (w : W) (at' : Option Writer) : State R W :=
  { s with writer := Function.update s.writer w at' }

/-- The state after a move. -/
def next (s : State R W) : Move R W → Option (State R W)
  | .tryRead r =>
      if (tryExclusive s.readLock r).1 = 1 then
        some ({ s with readLock := (tryExclusive s.readLock r).2 }.setReader r (some .idle))
      else some s
  | .releaseRead r =>
      if s.reader r = some .idle then some ({ s with readLock := none }.setReader r none)
      else none
  | .callRead r count =>
      if s.reader r = some .idle then
        some (s.setReader r (some (if count = 0 then .idle else .canReadR count)))
      else none
  | .reader r =>
      (s.reader r).bind fun reader =>
        (reader.next s.rb).map fun after =>
          { s with
            rb := after.1
            delivered := s.delivered ++ reader.released.map (r, ·) }.setReader r (some after.2)
  | .tryWrite w =>
      if (tryExclusive s.writeLock w).1 = 1 then
        some ({ s with writeLock := (tryExclusive s.writeLock w).2 }.setWriter w (some .idle))
      else some s
  | .releaseWrite w =>
      if s.writer w = some .idle then some ({ s with writeLock := none }.setWriter w none)
      else none
  | .callWrite w source count _ =>
      if s.writer w = some .idle then
        some (s.setWriter w (some (if count = 0 then .idle else .canWriteR source count)))
      else none
  | .writer w =>
      (s.writer w).bind fun writer =>
        (writer.next s.rb).map fun after =>
          { s with
            rb := after.1
            accepted := s.accepted ++ writer.published.map (w, ·) }.setWriter w (some after.2)

/-- Any move, in any order. -/
def Step (s t : State R W) : Prop := ∃ move, s.next move = some t

end Next

/-- A new ring, with both locks free. -/
def start (rb : Rb) : State R W := ⟨rb, none, none, fun _ => none, fun _ => none, [], []⟩

/-! ### One reader and one writer -/

/-- What the thread that has the lock is doing. -/
def holding {T P : Type*} (idle : P) (lock : Option T) (at' : T → Option P) : P :=
  (lock.bind at').getD idle

/-- The readers as one, and the writers as one. -/
def one (s : State R W) : Spsc.State where
  rb := s.rb
  reader := holding .idle s.readLock s.reader
  writer := holding .idle s.writeLock s.writer
  accepted := s.accepted.map Prod.snd
  delivered := s.delivered.map Prod.snd

end State

/-- What a move is when it is done by one reader or one writer; the locks do not concern them. -/
def Move.one : Move R W → Option Spsc.Move
  | .callRead _ count => some (.callRead count)
  | .reader _ => some .reader
  | .callWrite _ source count avail => some (.callWrite source count avail)
  | .writer _ => some .writer
  | .tryRead _ | .releaseRead _ | .tryWrite _ | .releaseWrite _ => none

namespace State

/-- The condition of one reader and one writer. -/
def Safe (s : State R W) (move : Move R W) : Prop := ∀ m, move.one = some m → s.one.Safe m

/-- A move that meets the condition. -/
def SafeStep [DecidableEq R] [DecidableEq W] (s t : State R W) : Prop :=
  ∃ move, s.Safe move ∧ s.next move = some t

end State

/-! ### The locks let one through -/

section Lock

variable {T P : Type*} {idle p q : P} {lock : Option T} {at' : T → Option P} {t u : T}

/-- The threads that try a lock are one at a time, and the one that has it is at `p`; otherwise `p`
is where one is who is not at work. -/
def OneAtATime (idle : P) (lock : Option T) (at' : T → Option P) (p : P) : Prop :=
  Mutex.Guarded (fun x : Option P => x.isSome) (· = idle) (fun _ x p => x = some p) at' lock p

theorem oneAtATime_start (idle : P) : OneAtATime idle (none : Option T) (fun _ => none) idle :=
  ⟨fun _ => by simp, fun _ => rfl, fun _ h => by cases h⟩

namespace OneAtATime

theorem holding_eq (h : OneAtATime idle lock at' p) : State.holding idle lock at' = p := by
  cases hlock : lock with
  | none => exact (h.free hlock).symm
  | some t =>
      have hstage : at' t = some p := h.held t hlock
      rw [State.holding, Option.bind_some, hstage, Option.getD_some]

/-- The thread that has the lock is where the one is. -/
theorem at_eq (h : OneAtATime idle lock at' p) (ht : at' t = some q) : q = p := by
  have hlock := (h.holder t).mp (by rw [ht]; rfl)
  have hstage : at' t = some p := h.held t hlock
  rw [ht] at hstage
  exact Option.some.inj hstage

variable [DecidableEq T]

theorem tryLock (h : OneAtATime idle lock at' p) (htry : (tryExclusive lock t).1 = 1) :
    OneAtATime idle (tryExclusive lock t).2 (Function.update at' t (some idle)) p := by
  by_cases hlock : lock.isSome
  · rw [tryExclusive, if_pos hlock] at htry
    cases htry
  · rw [tryExclusive, if_neg hlock]
    exact h.acquire (Option.not_isSome_iff_eq_none.mp hlock) rfl fun hfree => by rw [hfree]

theorem unlock (h : OneAtATime idle lock at' p) (ht : at' t = some idle) :
    OneAtATime idle none (Function.update at' t none) p :=
  h.release (by rw [ht]; rfl) (by simp) fun _ => (h.at_eq ht).symm

theorem move (h : OneAtATime idle lock at' p) (ht : at' t = some q) (p' : P) :
    OneAtATime idle lock (Function.update at' t (some p')) p' :=
  h.advance (by rw [ht]; rfl) rfl fun _ => rfl

end OneAtATime

end Lock

/-! ### The simulation -/

/-- The readers together do what the reader of `a` does, and the writers what its writer does. -/
structure Sim (s : State R W) (a : Spsc.State) : Prop where
  rb : s.rb = a.rb
  readers : OneAtATime .idle s.readLock s.reader a.reader
  writers : OneAtATime .idle s.writeLock s.writer a.writer
  accepted : s.accepted.map Prod.snd = a.accepted
  delivered : s.delivered.map Prod.snd = a.delivered

section Simulation

variable {s t : State R W} {a : Spsc.State} {move : Move R W}

theorem start_sim (rb : Rb) : Sim (.start rb : State R W) (.start rb) :=
  ⟨rfl, oneAtATime_start _, oneAtATime_start _, rfl, rfl⟩

theorem Sim.one_eq (h : Sim s a) : s.one = a := by
  rw [State.one, h.rb, h.readers.holding_eq, h.writers.holding_eq, h.accepted, h.delivered]

/-- A thread that has the lock is at work on its own. -/
theorem Sim.alone {a : Spsc.State} (h : Sim s a) :
    (∀ r r', (s.reader r).isSome → (s.reader r').isSome → r = r') ∧
      ∀ w w', (s.writer w).isSome → (s.writer w').isSome → w = w' :=
  ⟨fun _ _ hr hr' => h.readers.exclusive hr hr', fun _ _ hw hw' => h.writers.exclusive hw hw'⟩

variable [DecidableEq R] [DecidableEq W]

/-- **Each move is a move of one reader and one writer, or none.** -/
theorem step_sim (h : Sim s a) (hnext : s.next move = some t) :
    (move.one = none ∧ Sim t a) ∨ ∃ m b, move.one = some m ∧ a.next m = some b ∧ Sim t b := by
  cases move with
  | tryRead r =>
      left
      rw [State.next] at hnext
      by_cases htry : (tryExclusive s.readLock r).1 = 1
      · rw [if_pos htry] at hnext
        cases hnext
        exact ⟨rfl, h.rb, h.readers.tryLock htry, h.writers, h.accepted, h.delivered⟩
      · rw [if_neg htry] at hnext
        cases hnext
        exact ⟨rfl, h⟩
  | releaseRead r =>
      left
      rw [State.next] at hnext
      by_cases hr : s.reader r = some .idle
      · rw [if_pos hr] at hnext
        cases hnext
        exact ⟨rfl, h.rb, h.readers.unlock hr, h.writers, h.accepted, h.delivered⟩
      · rw [if_neg hr] at hnext
        cases hnext
  | callRead r count =>
      right
      rw [State.next] at hnext
      by_cases hr : s.reader r = some .idle
      · rw [if_pos hr] at hnext
        cases hnext
        refine ⟨.callRead count, _, rfl, if_pos (h.readers.at_eq hr).symm, ?_⟩
        exact ⟨h.rb, h.readers.move hr _, h.writers, h.accepted, h.delivered⟩
      · rw [if_neg hr] at hnext
        cases hnext
  | reader r =>
      right
      obtain ⟨reader, hr, hafter⟩ := Option.bind_eq_some_iff.mp hnext
      obtain ⟨after, hread, rfl⟩ := Option.map_eq_some_iff.mp hafter
      have hreader : reader = a.reader := h.readers.at_eq hr
      rw [hreader, h.rb] at hread
      refine ⟨.reader, _, rfl, by rw [Spsc.State.next, hread]; rfl, ?_⟩
      refine ⟨rfl, h.readers.move hr _, h.writers, h.accepted, ?_⟩
      show (s.delivered ++ reader.released.map (r, ·)).map Prod.snd = _
      rw [List.map_append, h.delivered, List.map_map, hreader]
      exact congrArg _ (List.map_id _)
  | tryWrite w =>
      left
      rw [State.next] at hnext
      by_cases htry : (tryExclusive s.writeLock w).1 = 1
      · rw [if_pos htry] at hnext
        cases hnext
        exact ⟨rfl, h.rb, h.readers, h.writers.tryLock htry, h.accepted, h.delivered⟩
      · rw [if_neg htry] at hnext
        cases hnext
        exact ⟨rfl, h⟩
  | releaseWrite w =>
      left
      rw [State.next] at hnext
      by_cases hw : s.writer w = some .idle
      · rw [if_pos hw] at hnext
        cases hnext
        exact ⟨rfl, h.rb, h.readers, h.writers.unlock hw, h.accepted, h.delivered⟩
      · rw [if_neg hw] at hnext
        cases hnext
  | callWrite w source count avail =>
      right
      rw [State.next] at hnext
      by_cases hw : s.writer w = some .idle
      · rw [if_pos hw] at hnext
        cases hnext
        refine ⟨.callWrite source count avail, _, rfl, if_pos (h.writers.at_eq hw).symm, ?_⟩
        exact ⟨h.rb, h.readers, h.writers.move hw _, h.accepted, h.delivered⟩
      · rw [if_neg hw] at hnext
        cases hnext
  | writer w =>
      right
      obtain ⟨writer, hw, hafter⟩ := Option.bind_eq_some_iff.mp hnext
      obtain ⟨after, hwrite, rfl⟩ := Option.map_eq_some_iff.mp hafter
      have hwriter : writer = a.writer := h.writers.at_eq hw
      rw [hwriter, h.rb] at hwrite
      refine ⟨.writer, _, rfl, by rw [Spsc.State.next, hwrite]; rfl, ?_⟩
      refine ⟨rfl, h.readers, h.writers.move hw _, ?_, h.delivered⟩
      show (s.accepted ++ writer.published.map (w, ·)).map Prod.snd = _
      rw [List.map_append, h.accepted, List.map_map, hwriter]
      exact congrArg _ (List.map_id _)

end Simulation

/-! ### Runs -/

section Runs

variable [DecidableEq R] [DecidableEq W] {s : State R W}

/-- A run of the threads is a run of one reader and one writer. -/
theorem run_sim {rb : Rb} (hrun : Relation.ReflTransGen State.Step (.start rb) s) :
    ∃ a, Relation.ReflTransGen Spsc.State.Step (.start rb) a ∧ Sim s a := by
  induction hrun with
  | refl => exact ⟨_, .refl, start_sim rb⟩
  | tail _ hstep ih =>
      obtain ⟨a, hreach, hsim⟩ := ih
      obtain ⟨move, hnext⟩ := hstep
      rcases step_sim hsim hnext with ⟨-, hsame⟩ | ⟨m, b, -, hmove, hb⟩
      · exact ⟨a, hreach, hsame⟩
      · exact ⟨b, hreach.tail ⟨m, hmove⟩, hb⟩

/-- A run of the threads that meets the condition keeps the invariant of one reader and one
writer. -/
theorem run_inv {rb : Rb} (h0 : (Spsc.State.start rb).Inv)
    (hrun : Relation.ReflTransGen State.SafeStep (.start rb) s) : ∃ a, Sim s a ∧ a.Inv := by
  refine Machine.invariant_of_reflTransGen (I := fun s : State R W => ∃ a, Sim s a ∧ a.Inv)
    ⟨_, start_sim rb, h0⟩ (fun s t hs hstep => ?_) hrun
  obtain ⟨a, hsim, hinv⟩ := hs
  obtain ⟨move, hsafe, hnext⟩ := hstep
  rcases step_sim hsim hnext with ⟨-, hsame⟩ | ⟨m, b, hm, hmove, hb⟩
  · exact ⟨a, hsame, hinv⟩
  · exact ⟨b, hb, Spsc.step_inv hinv (hsim.one_eq ▸ hsafe m hm) hmove⟩

end Runs

/-- **The locks make one reader of many readers, and one writer of many writers.**

In every run of any threads on a new ring at most one has each lock, and what they have done to the
ring is what one reader and one writer can do.  When the moves meet the condition under which one
reader and one writer are safe without locks, the bytes the readers have got, put together in the
order they got them, are the front of those the writers have had accepted, so that no byte goes to
two readers, and while no thread has a lock the rest is in the ring. -/
theorem exclusive_threads_share_ring [DecidableEq R] [DecidableEq W] {malloc : Malloc} {size : ℕ}
    {rb : Rb} (hsize : size < 2 ^ 64) (hnew : rbNew malloc size = some (some rb)) :
    (∀ s : State R W, Relation.ReflTransGen State.Step (.start rb) s →
      Relation.ReflTransGen Spsc.State.Step (.start rb) s.one ∧
      (∀ r r', (s.reader r).isSome → (s.reader r').isSome → r = r') ∧
      ∀ w w', (s.writer w).isSome → (s.writer w').isSome → w = w') ∧
    ∀ s : State R W, Relation.ReflTransGen State.SafeStep (.start rb) s →
      s.delivered.map Prod.snd <+: s.accepted.map Prod.snd ++ s.one.writer.accepted ∧
      (s.readLock = none → s.writeLock = none →
        s.rb.canRead + s.delivered.length = s.accepted.length) := by
  refine ⟨fun s hrun => ?_, fun s hrun => ?_⟩
  · obtain ⟨a, hreach, hsim⟩ := run_sim hrun
    rw [hsim.one_eq]
    exact ⟨hreach, hsim.alone⟩
  · obtain ⟨a, hsim, hinv⟩ := run_inv (Spsc.start_inv_of_rbNew hsize hnew) hrun
    rw [hsim.one_eq, hsim.delivered, hsim.accepted]
    refine ⟨hinv.delivered_front, fun hread hwrite => ?_⟩
    have hlevel := hinv.canRead_idle (hsim.readers.free hread) (hsim.writers.free hwrite)
    rw [← hsim.rb, ← hsim.delivered, ← hsim.accepted, List.length_map, List.length_map] at hlevel
    exact hlevel

instance (s : State R W) (move : Move R W) : Decidable (s.Safe move) :=
  match h : move.one with
  | none => isTrue fun m hm => by rw [h] at hm; cases hm
  | some m => decidable_of_iff (s.one.Safe m)
      ⟨fun hsafe m' hm' => by rw [h] at hm'; cases hm'; exact hsafe, fun hsafe => hsafe m h⟩

/-- One of two writers writes a byte while the other one tries, and one of two readers gets it. -/
def twoByTwo : List (Move Bool Bool) :=
  [.tryWrite true, .callWrite true [7] 1 Nat.zero_lt_one, .tryWrite false] ++
    List.replicate 9 (.writer true) ++ [.releaseWrite true, .tryRead false, .callRead false 2] ++
    List.replicate 8 (.reader false) ++ [.releaseRead false]

theorem exclusive_threads_share_ring_two : ∃ s : State Bool Bool,
    Machine.followIf State.next State.Safe (.start (Rb.cleared 2)) twoByTwo = some s ∧
      s.delivered = [(false, 7)] ∧
      s.delivered.map Prod.snd <+: s.accepted.map Prod.snd ++ s.one.writer.accepted := by
  have hrun : ((Machine.followIf State.next State.Safe
      (.start (Rb.cleared 2) : State Bool Bool) twoByTwo).map State.delivered)
        = some [(false, 7)] := by decide +kernel
  obtain ⟨s, hs, hdelivered⟩ := Option.map_eq_some_iff.mp hrun
  exact ⟨s, hs, hdelivered, ((exclusive_threads_share_ring (by decide)
    (Rb.rbNew_cleared (by decide) (by decide))).2 s (Machine.reach_of_followIf _ _ hs)).1⟩

end Exclusive

end Csnip
