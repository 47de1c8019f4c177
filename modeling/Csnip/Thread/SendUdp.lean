/-
Numbered messages from many threads.

Every thread of threads_send_udp.c calls `msg_send()` again and again.  Inside the lock it
creates a message, puts the common counter into it, counts on and sends.  The statements of
`msg_send()` are one step each, and the threads take their steps in any order.

`increment_and_send_lock` owns the counter and the messages sent so far: while it is free
the counter is the number of the next message, and `Stage` says what holds at each statement
inside.  So the messages are numbered in the order they are sent (`counters_in_order`).

The messages are those of liblo, of which `Liblo` says that they hold the arguments that were
added.  A message is sent by the call of `lo_send_message_from()`: that the call may fail, which
nobody looks at, is left out, and so is a shortage of memory.
-/
import Csnip.Lib.Machine
import Csnip.Lib.Memory
import Csnip.Lib.Mutex

namespace Csnip

open Memory

namespace SendUdp

/-! ### The messages -/

/-- What is added to an `lo_message`.  An `int64` argument is given by its 64 bits. -/
inductive Arg
  | int32 (i : ℤ)
  | string (s : String)
  | int64 (bits : ℕ)
deriving DecidableEq

/-- What is used of liblo: an `lo_message` is made without arguments, and each call adds one
behind those there are. -/
structure Liblo (Message : Type*) where
  messageNew : Message
  messageAddInt32 : Message → ℤ → Message
  messageAddString : Message → String → Message
  messageAddInt64 : Message → ℕ → Message
  /-- What a receiver finds in a message. -/
  args : Message → List Arg
  args_new : args messageNew = []
  args_addInt32 : ∀ msg i, args (messageAddInt32 msg i) = args msg ++ [.int32 i]
  args_addString : ∀ msg s, args (messageAddString msg s) = args msg ++ [.string s]
  args_addInt64 : ∀ msg bits, bits < 2 ^ 64 →
    args (messageAddInt64 msg bits) = args msg ++ [.int64 bits]

/-- The arguments of `msg_send()`. -/
structure MsgSend where
  message : String
  i : ℤ

def thread1Function : MsgSend := ⟨"hello", 1⟩

def thread2Function : MsgSend := ⟨"world", 2⟩

/-- The threads of `main()`. -/
def mainThreads (t : Fin 5) : MsgSend := if t = 0 then thread1Function else thread2Function

section Messages

variable {Message : Type*} (lo : Liblo Message)

/-- The message before the counter is added. -/
def MsgSend.filled (call : MsgSend) : Message :=
  lo.messageAddString (lo.messageAddInt32 lo.messageNew call.i) call.message

/-- The message with the counter. -/
def MsgSend.numbered (call : MsgSend) (counter : ℕ) : Message :=
  lo.messageAddInt64 (call.filled lo) counter

/-- The counter value in a message. -/
def counterOf (msg : Message) : Option ℕ :=
  (lo.args msg).findSome? fun
    | .int64 bits => some bits
    | _ => none

theorem counterOf_numbered (call : MsgSend) {counter : ℕ} (hcounter : counter < 2 ^ 64) :
    counterOf lo (call.numbered lo counter) = some counter := by
  rw [counterOf, MsgSend.numbered, lo.args_addInt64 _ _ hcounter, MsgSend.filled,
    lo.args_addString, lo.args_addInt32, lo.args_new]
  rfl

end Messages

/-! ### The threads -/

/-- Where a thread is in `msg_send()`, and its local `msg`. -/
inductive Pc (Message : Type*)
  /-- In `usleep()`, or in front of `pthread_mutex_lock()`. -/
  | outside
  /-- In front of `lo_message_new()`. -/
  | locked
  /-- In front of `lo_message_add_int64(msg,common_counter)`. -/
  | filled (msg : Message)
  /-- In front of `common_counter++`. -/
  | counted (msg : Message)
  /-- In front of `lo_send_message_from()`. -/
  | incremented (msg : Message)
  /-- In front of `lo_message_free()`. -/
  | sent (msg : Message)
  /-- In front of `pthread_mutex_unlock()`. -/
  | freed

/-- Between lock and unlock. -/
def Pc.Inside {Message : Type*} : Pc Message → Prop
  | .outside => False
  | _ => True

/-- What the threads share: `common_counter`, and the messages in the order of the calls
that sent them. -/
structure Shared (Message : Type*) where
  commonCounter : ℕ
  sent : List Message

structure State (Thread Message : Type*) where
  pc : Thread → Pc Message
  lock : Option Thread
  shared : Shared Message

section Threads

variable {Thread Message : Type*}

def start : State Thread Message := ⟨fun _ => .outside, none, ⟨0, []⟩⟩

/-- The thread moves on, and leaves the lock alone. -/
def State.goto [DecidableEq Thread] (s : State Thread Message) (t : Thread) (pc : Pc Message)
    (shared : Shared Message) : State Thread Message :=
  { s with pc := Function.update s.pc t pc, shared := shared }

/-- The next statement of a thread, unless it has to wait for the lock. -/
def State.next [DecidableEq Thread] (lo : Liblo Message) (calls : Thread → MsgSend)
    (s : State Thread Message) (t : Thread) : Option (State Thread Message) :=
  match s.pc t with
  | .outside =>
      if s.lock.isNone then
        some { s with pc := Function.update s.pc t .locked, lock := some t }
      else none
  | .locked => some (s.goto t (.filled ((calls t).filled lo)) s.shared)
  | .filled msg =>
      some (s.goto t (.counted (lo.messageAddInt64 msg s.shared.commonCounter)) s.shared)
  | .counted msg =>
      some (s.goto t (.incremented msg)
        { s.shared with commonCounter := u64 (s.shared.commonCounter + 1) })
  | .incremented msg =>
      some (s.goto t (.sent msg) { s.shared with sent := s.shared.sent ++ [msg] })
  | .sent _ => some (s.goto t .freed s.shared)
  | .freed => some { s with pc := Function.update s.pc t .outside, lock := none }

def State.Step [DecidableEq Thread] (lo : Liblo Message) (calls : Thread → MsgSend)
    (s s' : State Thread Message) : Prop :=
  ∃ t, s.next lo calls t = some s'

/-! ### What the lock owns -/

/-- The messages sent so far are those of some senders, numbered from zero on. -/
def Numbered (lo : Liblo Message) (calls : Thread → MsgSend) (shared : Shared Message) : Prop :=
  ∃ senders : List Thread,
    shared.sent = senders.mapIdx fun k t => (calls t).numbered lo (u64 k)

/-- While nobody holds the lock, the counter is the number of the next message. -/
def Free (lo : Liblo Message) (calls : Thread → MsgSend) (shared : Shared Message) : Prop :=
  Numbered lo calls shared ∧ shared.commonCounter = u64 shared.sent.length

/-- What holds where the holder of the lock is: behind `common_counter++`, and until the
message is sent, the counter is one ahead. -/
def Stage (lo : Liblo Message) (calls : Thread → MsgSend) (t : Thread) (pc : Pc Message)
    (shared : Shared Message) : Prop :=
  Numbered lo calls shared ∧
    match pc with
    | .outside => False
    | .locked => shared.commonCounter = u64 shared.sent.length
    | .filled msg =>
        msg = (calls t).filled lo ∧ shared.commonCounter = u64 shared.sent.length
    | .counted msg =>
        msg = (calls t).numbered lo (u64 shared.sent.length) ∧
          shared.commonCounter = u64 shared.sent.length
    | .incremented msg =>
        msg = (calls t).numbered lo (u64 shared.sent.length) ∧
          shared.commonCounter = u64 (shared.sent.length + 1)
    | .sent _ => shared.commonCounter = u64 shared.sent.length
    | .freed => shared.commonCounter = u64 shared.sent.length

def State.Inv (lo : Liblo Message) (calls : Thread → MsgSend) (s : State Thread Message) : Prop :=
  Mutex.Guarded Pc.Inside (Free lo calls) (Stage lo calls) s.pc s.lock s.shared

variable {lo : Liblo Message} {calls : Thread → MsgSend} {s s' : State Thread Message}

theorem start_inv : (start : State Thread Message).Inv lo calls :=
  ⟨fun _ => iff_of_false id (fun hno => by cases hno), fun _ => ⟨⟨[], rfl⟩, rfl⟩,
    fun _ hno => (by cases hno)⟩

/-- One more message of the sender whose turn it is. -/
theorem Numbered.send {shared : Shared Message} (h : Numbered lo calls shared) (t : Thread) :
    Numbered lo calls { shared with
      sent := shared.sent ++ [(calls t).numbered lo (u64 shared.sent.length)] } := by
  obtain ⟨senders, hsent⟩ := h
  refine ⟨senders ++ [t], ?_⟩
  show shared.sent ++ [(calls t).numbered lo (u64 shared.sent.length)] = _
  rw [List.mapIdx_concat, hsent, List.length_mapIdx]

/-- A statement between lock and unlock keeps the invariant when it leads from the stage of
its place to that of the next one. -/
theorem goto_inv [DecidableEq Thread] (h : s.Inv lo calls) {t : Thread} {pc pc' : Pc Message}
    {shared : Shared Message} (hpc : s.pc t = pc) (hin : pc.Inside) (hin' : pc'.Inside)
    (hstage : Stage lo calls t pc s.shared → Stage lo calls t pc' shared) :
    (s.goto t pc' shared).Inv lo calls := by
  rw [← hpc] at hin hstage
  exact Mutex.Guarded.advance h hin hin' hstage

/-- **Every statement keeps what the lock owns in order.** -/
theorem step_inv [DecidableEq Thread] (h : s.Inv lo calls) {t : Thread}
    (hnext : s.next lo calls t = some s') : s'.Inv lo calls := by
  unfold State.next at hnext
  cases hpc : s.pc t with
  | outside =>
      simp only [hpc] at hnext
      by_cases hfree : s.lock.isNone
      · rw [if_pos hfree] at hnext
        cases hnext
        exact Mutex.Guarded.acquire h (Option.isNone_iff_eq_none.mp hfree) trivial id
      · rw [if_neg hfree] at hnext
        cases hnext
  | locked =>
      simp only [hpc] at hnext
      cases hnext
      refine goto_inv h hpc trivial trivial ?_
      rintro ⟨hsent, hcounter⟩
      exact ⟨hsent, rfl, hcounter⟩
  | filled msg =>
      simp only [hpc] at hnext
      cases hnext
      refine goto_inv h hpc trivial trivial ?_
      rintro ⟨hsent, hmsg, hcounter⟩
      refine ⟨hsent, ?_, hcounter⟩
      rw [hmsg, hcounter, MsgSend.numbered]
  | counted msg =>
      simp only [hpc] at hnext
      cases hnext
      refine goto_inv h hpc trivial trivial ?_
      rintro ⟨hsent, hmsg, hcounter⟩
      refine ⟨hsent, hmsg, ?_⟩
      show u64 (s.shared.commonCounter + 1) = u64 (s.shared.sent.length + 1)
      rw [hcounter, u64, u64, u64, Nat.mod_add_mod]
  | incremented msg =>
      simp only [hpc] at hnext
      cases hnext
      refine goto_inv h hpc trivial trivial ?_
      rintro ⟨hsent, hmsg, hcounter⟩
      refine ⟨by rw [hmsg]; exact hsent.send t, ?_⟩
      show s.shared.commonCounter = u64 (s.shared.sent ++ [msg]).length
      rw [hcounter, List.length_append, List.length_singleton]
  | sent msg =>
      simp only [hpc] at hnext
      cases hnext
      exact goto_inv h hpc trivial trivial id
  | freed =>
      simp only [hpc] at hnext
      cases hnext
      refine Mutex.Guarded.release h (by rw [hpc]; trivial) id ?_
      rw [hpc]
      exact id

/-- At every place the messages sent are numbered. -/
theorem State.Inv.numbered (h : s.Inv lo calls) : Numbered lo calls s.shared := by
  cases hlock : s.lock with
  | none => exact (h.free hlock).1
  | some t => exact (h.held t hlock).1

end Threads

/-- **The counters of the messages sent are 0, 1, 2, and so on**, in 64 bits and in that
order: for any threads with any arguments, in every state they can come to in any order of
their steps. -/
theorem counters_in_order {Thread Message : Type*} [DecidableEq Thread] (lo : Liblo Message)
    (calls : Thread → MsgSend) {s : State Thread Message}
    (hrun : Relation.ReflTransGen (State.Step lo calls) start s) :
    s.shared.sent.map (counterOf lo)
      = (List.range s.shared.sent.length).map fun m => some (u64 m) := by
  have hinv : s.Inv lo calls := Machine.invariant_of_reflTransGen start_inv
    (fun a b ha hab => by
      obtain ⟨t, hnext⟩ := hab
      exact step_inv ha hnext) hrun
  obtain ⟨senders, hsent⟩ := hinv.numbered
  rw [hsent]
  apply List.ext_getElem
  · simp
  · intro k hk hk'
    rw [List.getElem_map, List.getElem_mapIdx, counterOf_numbered lo _ (u64_lt k)]
    simp

/-- Messages that are the lists of their arguments. -/
def argLists : Liblo (List Arg) where
  messageNew := []
  messageAddInt32 msg i := msg ++ [.int32 i]
  messageAddString msg s := msg ++ [.string s]
  messageAddInt64 msg bits := msg ++ [.int64 bits]
  args msg := msg
  args_new := rfl
  args_addInt32 _ _ := rfl
  args_addString _ _ := rfl
  args_addInt64 _ _ _ := rfl

/-- Two of the threads of `main()` send, one after the other. -/
def twoSenders : List (Fin 5) := List.replicate 7 0 ++ List.replicate 6 3

theorem counters_in_order_two : ∃ s,
    Machine.followIf (State.next argLists mainThreads) (fun _ _ => True) start twoSenders
        = some s ∧
      s.shared.sent = [[.int32 1, .string "hello", .int64 0],
        [.int32 2, .string "world", .int64 1]] ∧
      s.shared.sent.map (counterOf argLists)
        = (List.range s.shared.sent.length).map fun m => some (u64 m) := by
  have hrun : ((Machine.followIf (State.next argLists mainThreads) (fun _ _ => True) start
      twoSenders).map fun s => s.shared.sent)
      = some [[.int32 1, .string "hello", .int64 0], [.int32 2, .string "world", .int64 1]] := by
    decide +kernel
  obtain ⟨s, hs, hsent⟩ := Option.map_eq_some_iff.mp hrun
  exact ⟨s, hs, hsent, counters_in_order argLists mainThreads (Machine.reach_of_follow hs)⟩

end SendUdp

end Csnip
