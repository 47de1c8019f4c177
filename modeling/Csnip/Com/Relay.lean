/-
A terminal on a serial port.

`main()` waits until the keyboard or the port has something to read, and `transfer_byte()` takes one
byte from there to the other side.  A call that was interrupted, or found the other side busy, is
made again.  What the calls of the system answer is given by lists, one for each kind of call and
each side, and a call without an answer waits for ever.

Whatever the order in which the two sides are ready, the program is two relays that know nothing of
each other: `Relayed` says what has gone over each of them.  The one thing they share is
`need_exit`, and there they do get in each other's way (`Turn.Ends`).
-/
import Csnip.Lib.Machine
import Mathlib.Data.Int.Notation
import Mathlib.Data.List.Count
import Mathlib.Logic.Function.Basic

namespace Csnip

namespace Com

/-! ### The program -/

/-- `STDIN_FILENO` and `comfd`. -/
inductive Side
  | keyboard
  | port
deriving Repr, DecidableEq

def Side.other : Side → Side
  | .keyboard => .port
  | .port => .keyboard

/-- What `read(from, &c, 1)` may answer. -/
inductive ReadAnswer
  /-- -1, and `errno` is `EINTR`. -/
  | interrupted
  /-- -1, and `errno` is something else. -/
  | failed
  /-- 0 -/
  | nothing
  | byte (c : UInt8)
deriving Repr, DecidableEq

/-- What `write(to, &c, 1)` may answer. -/
inductive WriteAnswer
  /-- -1, and `errno` is `EAGAIN` or `EINTR`. -/
  | again
  /-- -1, and `errno` is something else. -/
  | failed
  /-- 0 -/
  | nothing
  | written
deriving Repr, DecidableEq

/-- What `select` may answer: -1, or which sides are ready. -/
inductive SelectAnswer
  | failed
  | ready (keyboard port : Bool)
deriving Repr, DecidableEq

/-- What is said on the standard error stream. -/
inductive Message
  /-- `print_status(to)` -/
  | status
  /-- "nothing to read. probably port disconnected." -/
  | nothingToRead
  /-- `perror("write failed")` -/
  | writeFailed
  /-- `perror("select")` -/
  | select
deriving Repr, DecidableEq

/-- The answers to come, what has been written to each side, what has been said, and
`need_exit`. -/
structure Terminal where
  reads : Side → List ReadAnswer
  writes : Side → List WriteAnswer
  sent : Side → List UInt8
  said : List Message
  needExit : ℤ

/-- `do ret = read(from, &c, 1); while (ret < 0 && errno == EINTR);` -/
def readByte : List ReadAnswer → Option (ReadAnswer × List ReadAnswer)
  | .interrupted :: answers => readByte answers
  | answer :: answers => some (answer, answers)
  | [] => none

/-- `while (write(to, &c, 1) == -1)`, which is left with the first answer that does not ask for
another try. -/
def writeByte : List WriteAnswer → Option (WriteAnswer × List WriteAnswer)
  | .again :: answers => writeByte answers
  | answer :: answers => some (answer, answers)
  | [] => none

namespace Terminal

def say (s : Terminal) (m : Message) : Terminal := { s with said := s.said ++ [m] }

/-- `write` of a byte, as often as it takes. -/
def put (s : Terminal) («to» : Side) (c : UInt8) : Option Terminal := do
  let (answer, answers) ← writeByte (s.writes «to»)
  let s := { s with writes := Function.update s.writes «to» answers }
  match answer with
  | .written => pure { s with sent := Function.update s.sent «to» (s.sent «to» ++ [c]) }
  | .failed => pure (s.say .writeFailed)
  -- one byte, and none of it was written
  | .nothing | .again => pure s

/-- `transfer_byte()`: what it returns, and what it leaves. -/
def transferByte (s : Terminal) («from» «to» : Side) (isControl : Bool) :
    Option (ℤ × Terminal) := do
  let (answer, answers) ← readByte (s.reads «from»)
  let s := { s with reads := Function.update s.reads «from» answers }
  match answer with
  | .byte c =>
      -- C-a
      if isControl ∧ c = 0x01 then pure (-1, s)
      -- C-x
      else if isControl ∧ c = 0x18 then pure (0, s.say .status)
      else do
        let s ← s.put «to» c
        pure (0, s)
  | _ => pure (-2, s.say .nothingToRead)

/-- The part of a round that is about one side: `need_exit` is set if the side is ready. -/
def serve (s : Terminal) («from» «to» : Side) (isControl isReady : Bool) : Option Terminal :=
  if isReady then
    (s.transferByte «from» «to» isControl).map fun r => { r.2 with needExit := r.1 }
  else some s

/-- A round of the loop of `main()`. -/
def round (s : Terminal) : SelectAnswer → Option Terminal
  | .failed => some (s.say .select)
  | .ready keyboard port => do
      let s ← s.serve .keyboard .port true keyboard
      s.serve .port .keyboard false port

end Terminal

/-- What was read from the two sides in a round. -/
structure Turn where
  keyboard : Option ReadAnswer
  port : Option ReadAnswer
deriving Repr, DecidableEq

/-- What is read from a side next. -/
def Terminal.next (s : Terminal) (e : Side) : Option ReadAnswer :=
  (readByte (s.reads e)).map Prod.fst

def Terminal.turn (s : Terminal) : SelectAnswer → Turn
  | .failed => ⟨none, none⟩
  | .ready keyboard port =>
      ⟨if keyboard then s.next .keyboard else none, if port then s.next .port else none⟩

/-- A round, as long as `need_exit` is zero, and what was read in it. -/
def Terminal.step (s : Terminal) (answer : SelectAnswer) : Option (Turn × Terminal) :=
  if s.needExit ≠ 0 then none else (s.round answer).map fun t => (s.turn answer, t)

/-! ### What the answers come to -/

/-- The bytes among the answers. -/
def got (answers : List ReadAnswer) : List UInt8 :=
  answers.filterMap fun
    | .byte c => some c
    | _ => none

/-- The answers that do not ask for another try. -/
def settled (answers : List WriteAnswer) : List WriteAnswer := answers.filter (· ≠ .again)

/-- C-a and C-x are for the program when they come from the keyboard. -/
def IsForwarded (e : Side) (c : UInt8) : Prop := ¬ (e = .port ∧ (c = 0x01 ∨ c = 0x18))

instance (e : Side) (c : UInt8) : Decidable (IsForwarded e c) :=
  inferInstanceAs (Decidable (¬ _))

/-- The bytes a side is to get. -/
def due (e : Side) (answers : List ReadAnswer) : List UInt8 :=
  (got answers).filter fun c => IsForwarded e c

/-- Those it does get: there is one answer for each byte that is due. -/
def carried (bytes : List UInt8) (answers : List WriteAnswer) : List UInt8 :=
  ((bytes.zip (settled answers)).filter fun p => p.2 = .written).map Prod.fst

@[simp] theorem got_nil : got [] = [] := rfl

@[simp] theorem settled_nil : settled [] = [] := rfl

theorem got_append (l m : List ReadAnswer) : got (l ++ m) = got l ++ got m :=
  List.filterMap_append

theorem settled_append (l m : List WriteAnswer) : settled (l ++ m) = settled l ++ settled m :=
  List.filter_append l m

theorem due_append (e : Side) (l m : List ReadAnswer) : due e (l ++ m) = due e l ++ due e m := by
  rw [due, got_append, List.filter_append]
  rfl

theorem due_byte {e : Side} {c : UInt8} (h : IsForwarded e c) : due e [.byte c] = [c] := by
  simp [due, got, h]

theorem due_command {e : Side} {c : UInt8} (h : ¬ IsForwarded e c) : due e [.byte c] = [] := by
  simp [due, got, h]

theorem carried_append {bytes bytes' : List UInt8} {l m : List WriteAnswer}
    (h : (settled l).length = bytes.length) :
    carried (bytes ++ bytes') (l ++ m) = carried bytes l ++ carried bytes' m := by
  rw [carried, settled_append, List.zip_append h.symm, List.filter_append, List.map_append]
  rfl

/-- If every write is done in the end, no byte is lost. -/
theorem carried_of_written (answers : List WriteAnswer) :
    ∀ bytes : List UInt8, (∀ a ∈ answers, a = .again ∨ a = .written) →
      (settled answers).length = bytes.length → carried bytes answers = bytes := by
  induction answers with
  | nil =>
      intro bytes _ hlen
      exact (List.length_eq_zero_iff.mp hlen.symm) ▸ rfl
  | cons a answers ih =>
      intro bytes hall hlen
      have hrest : ∀ a ∈ answers, a = .again ∨ a = .written := fun a ha =>
        hall a (List.mem_cons_of_mem _ ha)
      rcases hall a List.mem_cons_self with rfl | rfl
      · exact ih bytes hrest hlen
      · rcases bytes with _ | ⟨c, bytes⟩
        · simp [settled] at hlen
        · have hlen' : (settled answers).length = bytes.length := Nat.succ.inj hlen
          have hone : settled [WriteAnswer.written] = [.written] := rfl
          have hsplit : carried ([c] ++ bytes) ([.written] ++ answers)
              = carried [c] [.written] ++ carried bytes answers :=
            carried_append (by rw [hone]; rfl)
          rw [ih bytes hrest hlen'] at hsplit
          exact hsplit

/-- Interruptions, and then the answer. -/
theorem readByte_eq_some {answer : ReadAnswer} {answers : List ReadAnswer} :
    ∀ l : List ReadAnswer, readByte l = some (answer, answers) →
      ∃ front, l = front ++ answer :: answers ∧ got front = [] ∧ answer ≠ .interrupted := by
  intro l
  induction l with
  | nil =>
      intro h
      simp [readByte] at h
  | cons a l ih =>
      intro h
      by_cases ha : a = .interrupted
      · subst ha
        obtain ⟨front, rfl, hfront, hanswer⟩ := ih h
        exact ⟨.interrupted :: front, rfl, hfront, hanswer⟩
      · have hread : readByte (a :: l) = some (a, l) := by
          cases a <;> simp_all [readByte]
        rw [hread] at h
        obtain ⟨rfl, rfl⟩ := by simpa using h
        exact ⟨[], rfl, rfl, ha⟩

theorem writeByte_eq_some {answer : WriteAnswer} {answers : List WriteAnswer} :
    ∀ l : List WriteAnswer, writeByte l = some (answer, answers) →
      ∃ front, l = front ++ answer :: answers ∧ settled front = [] ∧ answer ≠ .again := by
  intro l
  induction l with
  | nil =>
      intro h
      simp [writeByte] at h
  | cons a l ih =>
      intro h
      by_cases ha : a = .again
      · subst ha
        obtain ⟨front, rfl, hfront, hanswer⟩ := ih h
        exact ⟨.again :: front, rfl, by simpa [settled] using hfront, hanswer⟩
      · have hwrite : writeByte (a :: l) = some (a, l) := by
          cases a <;> simp_all [writeByte]
        rw [hwrite] at h
        obtain ⟨rfl, rfl⟩ := by simpa using h
        exact ⟨[], rfl, rfl, ha⟩

/-! ### The two relays -/

theorem Side.other_other (e : Side) : e.other.other = e := by
  cases e <;> rfl

theorem Side.other_ne {e e' : Side} (h : e' ≠ e) : e'.other ≠ e.other := by
  intro hother
  have hsame := congrArg Side.other hother
  rw [other_other, other_other] at hsame
  exact h hsame

/-- With these answers of `read` and `write`, the bytes due to each side were tried once each, in
their order, and those that could be written are what it has got. -/
structure Relayed (reads : Side → List ReadAnswer) (writes : Side → List WriteAnswer)
    (s s' : Terminal) : Prop where
  reads_eq : ∀ e, s.reads e = reads e ++ s'.reads e
  writes_eq : ∀ e, s.writes e = writes e ++ s'.writes e
  tried : ∀ e, (settled (writes e)).length = (due e (reads e.other)).length
  sent_eq : ∀ e, s'.sent e = s.sent e ++ carried (due e (reads e.other)) (writes e)
  shown : s'.said.count .status = s.said.count .status + (got (reads .keyboard)).count 0x18

namespace Relayed

theorem refl (s : Terminal) : Relayed (fun _ => []) (fun _ => []) s s := by
  refine ⟨?_, ?_, ?_, ?_, ?_⟩ <;> simp [due, carried]

theorem trans {reads reads' : Side → List ReadAnswer} {writes writes' : Side → List WriteAnswer}
    {s s' s'' : Terminal} (h : Relayed reads writes s s') (h' : Relayed reads' writes' s' s'') :
    Relayed (fun e => reads e ++ reads' e) (fun e => writes e ++ writes' e) s s'' where
  reads_eq e := by rw [h.reads_eq, h'.reads_eq, List.append_assoc]
  writes_eq e := by rw [h.writes_eq, h'.writes_eq, List.append_assoc]
  tried e := by
    rw [settled_append, due_append, List.length_append, List.length_append, h.tried, h'.tried]
  sent_eq e := by
    rw [h'.sent_eq, h.sent_eq, due_append, carried_append (h.tried e), List.append_assoc]
  shown := by
    rw [h'.shown, h.shown, got_append, List.count_append, Nat.add_assoc]

/-- One byte for one side. -/
theorem of_transfer (e : Side) {s s' : Terminal} {rs answers : List ReadAnswer}
    {ws answers' : List WriteAnswer} (hreads : s'.reads = Function.update s.reads e.other answers)
    (hrs : s.reads e.other = rs ++ answers)
    (hwrites : s'.writes = Function.update s.writes e answers')
    (hws : s.writes e = ws ++ answers') (htried : (settled ws).length = (due e rs).length)
    (hsent : s'.sent = Function.update s.sent e (s.sent e ++ carried (due e rs) ws))
    (hshown : s'.said.count .status
      = s.said.count .status + if e = .port then (got rs).count 0x18 else 0) :
    Relayed (Function.update (fun _ => []) e.other rs) (Function.update (fun _ => []) e ws)
      s s' := by
  refine ⟨?_, ?_, ?_, ?_, ?_⟩
  · intro e'
    by_cases he : e' = e.other
    · rw [he, hreads, Function.update_self, Function.update_self, hrs]
    · rw [hreads, Function.update_of_ne he, Function.update_of_ne he, List.nil_append]
  · intro e'
    by_cases he : e' = e
    · rw [he, hwrites, Function.update_self, Function.update_self, hws]
    · rw [hwrites, Function.update_of_ne he, Function.update_of_ne he, List.nil_append]
  · intro e'
    by_cases he : e' = e
    · rw [he, Function.update_self, Function.update_self, htried]
    · rw [Function.update_of_ne he, Function.update_of_ne (Side.other_ne he)]
      rfl
  · intro e'
    by_cases he : e' = e
    · rw [he, hsent, Function.update_self, Function.update_self, Function.update_self]
    · rw [hsent, Function.update_of_ne he, Function.update_of_ne he,
        Function.update_of_ne (Side.other_ne he)]
      simp [due, carried]
  · rw [hshown]
    cases e
    · rfl
    · rfl

/-- Nothing for the side was read. -/
theorem of_read (e : Side) {s s' : Terminal} {rs answers : List ReadAnswer}
    (hreads : s'.reads = Function.update s.reads e.other answers)
    (hrs : s.reads e.other = rs ++ answers) (hdue : due e rs = []) (hwrites : s'.writes = s.writes)
    (hsent : s'.sent = s.sent)
    (hshown : s'.said.count .status
      = s.said.count .status + if e = .port then (got rs).count 0x18 else 0) :
    Relayed (Function.update (fun _ => []) e.other rs) (Function.update (fun _ => []) e [])
      s s' := by
  have hwrites' : s'.writes = Function.update s.writes e (s.writes e) := by
    rw [hwrites, Function.update_eq_self]
  refine of_transfer e hreads hrs hwrites' rfl ?_ ?_ hshown
  · rw [hdue]
    rfl
  · have hnone : carried (due e rs) [] = [] := by rw [hdue]; rfl
    rw [hsent, hnone, List.append_nil, Function.update_eq_self]

end Relayed

/-! ### One byte -/

/-- With these answers of `read` nothing more comes for a side, or the user wants to leave. -/
def Stops (e : Side) (answer : ReadAnswer) : Prop :=
  answer = .failed ∨ answer = .nothing ∨ (e = .port ∧ answer = .byte 0x01)

instance (e : Side) (answer : ReadAnswer) : Decidable (Stops e answer) :=
  inferInstanceAs (Decidable (_ ∨ _))

namespace Terminal

variable {s s' : Terminal} {e : Side} {c : UInt8} {r : ℤ}

/-- A byte is tried once, and `settled` has what came of it. -/
theorem put_eq_some (h : s.put e c = some s') :
    ∃ ws answers, s.writes e = ws ++ answers ∧ (settled ws).length = 1 ∧
      s'.reads = s.reads ∧ s'.writes = Function.update s.writes e answers ∧
      s'.sent = Function.update s.sent e (s.sent e ++ carried [c] ws) ∧
      s'.said.count .status = s.said.count .status ∧ s'.needExit = s.needExit := by
  obtain ⟨⟨answer, answers⟩, hwrite, h⟩ := Option.bind_eq_some_iff.mp h
  obtain ⟨front, hfront, hagain, hanswer⟩ := writeByte_eq_some _ hwrite
  have hsettled : settled (front ++ [answer]) = [answer] := by
    rw [settled_append, hagain]
    simp [settled, hanswer]
  refine ⟨front ++ [answer], answers, ?_, ?_, ?_⟩
  · rw [hfront, List.append_assoc]
    rfl
  · rw [hsettled]
    rfl
  · cases answer with
    | again => exact absurd rfl hanswer
    | failed =>
        obtain rfl := by simpa using h
        simp [carried, hsettled, say]
    | nothing =>
        obtain rfl := by simpa using h
        simp [carried, hsettled]
    | written =>
        obtain rfl := by simpa using h
        simp [carried, hsettled]

/-- What `transfer_byte` is to do for a side, and when it is to return something else than 0. -/
def Transferred (e : Side) (s : Terminal) (r : ℤ) (s' : Terminal) : Prop :=
  ∃ reads writes answer, Relayed reads writes s s' ∧ s'.needExit = s.needExit ∧
    s'.reads e = s.reads e ∧ s.next e.other = some answer ∧ (r ≠ 0 ↔ Stops e answer)

/-- What has been read for a side, and the answer it comes down to. -/
theorem read_eq_some {answer : ReadAnswer} {answers : List ReadAnswer}
    (h : readByte (s.reads e.other) = some (answer, answers)) :
    ∃ rs, s.reads e.other = rs ++ answers ∧ got rs = got [answer] ∧ due e rs = due e [answer] ∧
      answer ≠ .interrupted := by
  obtain ⟨front, hfront, hnone, hanswer⟩ := readByte_eq_some _ h
  have hgot : got (front ++ [answer]) = got [answer] := by
    rw [got_append, hnone, List.nil_append]
  refine ⟨front ++ [answer], ?_, hgot, ?_, hanswer⟩
  · rw [hfront, List.append_assoc]
    rfl
  · rw [due, hgot, due]

theorem next_of_read {answer : ReadAnswer} {answers : List ReadAnswer}
    (h : readByte (s.reads e) = some (answer, answers)) : s.next e = some answer := by
  rw [next, h]
  rfl

/-- The answers for a side are not those of the other one. -/
theorem reads_kept {answers : List ReadAnswer}
    (h : s'.reads = Function.update s.reads e.other answers) : s'.reads e = s.reads e := by
  have hother : e ≠ e.other := by cases e <;> simp [Side.other]
  rw [h, Function.update_of_ne hother]

/-- An answer with nothing to pass on. -/
theorem Transferred.of_read {answer : ReadAnswer} {answers : List ReadAnswer}
    (h : readByte (s.reads e.other) = some (answer, answers)) (hdue : due e [answer] = [])
    (hreads : s'.reads = Function.update s.reads e.other answers) (hwrites : s'.writes = s.writes)
    (hsent : s'.sent = s.sent) (hexit : s'.needExit = s.needExit)
    (hshown : s'.said.count .status
      = s.said.count .status + if e = .port then (got [answer]).count 0x18 else 0)
    (hstops : r ≠ 0 ↔ Stops e answer) : Transferred e s r s' := by
  obtain ⟨rs, hrs, hgot, hdue', -⟩ := read_eq_some h
  refine ⟨_, _, answer, Relayed.of_read e hreads hrs ?_ hwrites hsent ?_, hexit,
    reads_kept hreads, next_of_read h, hstops⟩
  · rw [hdue', hdue]
  · rw [hshown, hgot]

/-- A byte that is passed on. -/
theorem Transferred.of_put {answers : List ReadAnswer}
    (h : readByte (s.reads e.other) = some (.byte c, answers)) (hc : IsForwarded e c)
    (hput : put { s with reads := Function.update s.reads e.other answers } e c = some s') :
    Transferred e s 0 s' := by
  obtain ⟨rs, hrs, hgot, hdue, -⟩ := read_eq_some h
  obtain ⟨ws, answers', hws, hone, hreads, hwrites, hsent, hshown, hexit⟩ := put_eq_some hput
  rw [due_byte hc] at hdue
  have hstays : ¬ Stops e (.byte c) := by
    intro hstops
    rcases hstops with h | h | ⟨he, hcommand⟩
    · simp at h
    · simp at h
    · exact hc ⟨he, .inl (by simpa using hcommand)⟩
  refine ⟨_, _, .byte c, Relayed.of_transfer e hreads hrs hwrites hws ?_ ?_ ?_, hexit,
    reads_kept hreads, next_of_read h, ?_⟩
  · rw [hone, hdue]
    rfl
  · rw [hsent, hdue]
  · have hbyte : got [.byte c] = [c] := rfl
    rw [hshown, hgot, hbyte]
    by_cases he : e = .port
    · have hx : c ≠ 0x18 := fun hx => hc ⟨he, .inr hx⟩
      simp [he, hx]
    · simp [he]
  · simp [hstays]

theorem transferByte_eq_some
    (h : s.transferByte e.other e (decide (e = .port)) = some (r, s')) :
    Transferred e s r s' := by
  obtain ⟨⟨answer, answers⟩, hread, h⟩ := Option.bind_eq_some_iff.mp h
  cases answer with
  | interrupted =>
      obtain ⟨-, -, -, -, hanswer⟩ := read_eq_some hread
      exact absurd rfl hanswer
  | failed =>
      obtain ⟨rfl, rfl⟩ := by simpa using h
      exact .of_read hread rfl rfl rfl rfl rfl (by simp [say, got]) (by simp [Stops])
  | nothing =>
      obtain ⟨rfl, rfl⟩ := by simpa using h
      exact .of_read hread rfl rfl rfl rfl rfl (by simp [say, got]) (by simp [Stops])
  | byte c =>
      simp only [decide_eq_true_eq] at h
      by_cases ha : e = .port ∧ c = 0x01
      · rw [if_pos ha] at h
        obtain ⟨rfl, rfl⟩ := by simpa using h
        exact .of_read hread (due_command (by simp [IsForwarded, ha])) rfl rfl rfl rfl
          (by simp [got, ha]) (by simp [Stops, ha])
      · rw [if_neg ha] at h
        by_cases hx : e = .port ∧ c = 0x18
        · rw [if_pos hx] at h
          obtain ⟨rfl, rfl⟩ := by simpa using h
          exact .of_read hread (due_command (by simp [IsForwarded, hx])) rfl rfl rfl rfl
            (by simp [say, got, hx]) (by simp [Stops, hx])
        · rw [if_neg hx] at h
          obtain ⟨t, hput, h⟩ := Option.bind_eq_some_iff.mp h
          obtain ⟨rfl, rfl⟩ := by simpa using h
          refine .of_put hread ?_ hput
          rintro ⟨he, hc | hc⟩
          · exact ha ⟨he, hc⟩
          · exact hx ⟨he, hc⟩

/-- What serving a side that gets its bytes from the other one comes to. -/
theorem serve_eq_some {isReady : Bool}
    (h : s.serve e.other e (decide (e = .port)) isReady = some s') :
    ∃ reads writes, Relayed reads writes s s' ∧ s'.reads e = s.reads e ∧
      ((isReady = false ∧ s'.needExit = s.needExit) ∨ (isReady = true ∧ ∃ answer,
        s.next e.other = some answer ∧ (s'.needExit ≠ 0 ↔ Stops e answer))) := by
  cases isReady with
  | false =>
      obtain rfl := by simpa [serve] using h
      exact ⟨_, _, Relayed.refl s, rfl, .inl ⟨rfl, rfl⟩⟩
  | true =>
      obtain ⟨⟨r, t⟩, htransfer, rfl⟩ := Option.map_eq_some_iff.mp h
      obtain ⟨reads, writes, answer, hrelay, -, hreads, hnext, hstops⟩ :=
        transferByte_eq_some htransfer
      exact ⟨reads, writes, ⟨hrelay.reads_eq, hrelay.writes_eq, hrelay.tried, hrelay.sent_eq,
        hrelay.shown⟩, hreads, .inr ⟨rfl, answer, hnext, hstops⟩⟩

end Terminal

/-! ### Rounds -/

/-- The program ends with a round in which the port is gone, or in which the port is not ready and
the keyboard is gone or has sent C-a: what `transfer_byte` returned for the keyboard is forgotten if
the port is ready as well. -/
def Turn.Ends (turn : Turn) : Prop :=
  (∃ answer, turn.port = some answer ∧ Stops .keyboard answer) ∨
    (turn.port = none ∧ ∃ answer, turn.keyboard = some answer ∧ Stops .port answer)

/-- C-a goes unnoticed in a round in which the port has sent something, too. -/
theorem Turn.not_ends_of_port {turn : Turn} {c : UInt8} (h : turn.port = some (.byte c)) :
    ¬ turn.Ends := by
  intro hends
  rcases hends with ⟨answer, hport, hstops⟩ | ⟨hport, -⟩
  · rw [h] at hport
    obtain rfl := Option.some.inj hport
    rcases hstops with h | h | ⟨h, -⟩
    · simp at h
    · simp at h
    · simp at h
  · rw [h] at hport
    simp at hport

namespace Terminal

/-- A round serves both sides. -/
theorem round_relayed {s s' : Terminal} {answer : SelectAnswer} (hexit : s.needExit = 0)
    (h : s.round answer = some s') :
    ∃ reads writes, Relayed reads writes s s' ∧ (s'.needExit ≠ 0 ↔ (s.turn answer).Ends) := by
  cases answer with
  | failed =>
      obtain rfl := Option.some.inj h
      refine ⟨fun _ => [], fun _ => [], ?_, ?_⟩
      · refine ⟨?_, ?_, ?_, ?_, ?_⟩ <;> simp [due, carried, say]
      · simp [say, hexit, turn, Turn.Ends]
  | ready keyboard port =>
      obtain ⟨t, hkeyboard, hport⟩ := Option.bind_eq_some_iff.mp h
      obtain ⟨reads, writes, hrelay, hreads, hfirst⟩ := serve_eq_some (e := .port) hkeyboard
      obtain ⟨reads', writes', hrelay', -, hsecond⟩ := serve_eq_some (e := .keyboard) hport
      refine ⟨_, _, hrelay.trans hrelay', ?_⟩
      -- the port has not been read in the meantime
      have hnext : t.next .port = s.next .port := by rw [next, hreads, next]
      rcases hsecond with ⟨rfl, hkept⟩ | ⟨rfl, a, ha, hstops⟩
      · rw [hkept]
        rcases hfirst with ⟨rfl, hkept⟩ | ⟨rfl, a, ha, hstops⟩
        · simp [hkept, hexit, turn, Turn.Ends]
        · rw [hstops]
          have hread : s.next .keyboard = some a := ha
          simp [turn, Turn.Ends, hread]
      · rw [hstops]
        have hread : s.next .port = some a := hnext ▸ ha
        simp [turn, Turn.Ends, hread]

/-- **Runs.** -/
theorem run_relayed (answers : List SelectAnswer) :
    ∀ (s s' : Terminal) (turns : List Turn), s.needExit = 0 →
      Machine.run step s answers = some (turns, s') →
      ∃ reads writes, Relayed reads writes s s' ∧
        (s'.needExit ≠ 0 ↔ ∃ turn ∈ turns, turn.Ends) ∧ ∀ turn ∈ turns.dropLast, ¬ turn.Ends := by
  induction answers with
  | nil =>
      intro s s' turns hexit h
      obtain ⟨rfl, rfl⟩ := by simpa using h
      refine ⟨_, _, Relayed.refl s, ?_, ?_⟩
      · simp [hexit]
      · simp
  | cons answer answers ih =>
      intro s s'' turns hexit h
      obtain ⟨turn, t, turns', hstep, hrun, rfl⟩ := Machine.run_cons_eq_some h
      rw [step, if_neg (by simp [hexit])] at hstep
      obtain ⟨t', hround, hsame⟩ := Option.map_eq_some_iff.mp hstep
      obtain ⟨rfl, rfl⟩ := Prod.mk.inj hsame
      obtain ⟨reads, writes, hrelay, hends⟩ := round_relayed hexit hround
      by_cases hzero : t'.needExit = 0
      · obtain ⟨reads', writes', hrelay', hends', hearlier⟩ := ih t' s'' turns' hzero hrun
        have hnot : ¬ (s.turn answer).Ends := fun h => (hends.mpr h) hzero
        refine ⟨_, _, hrelay.trans hrelay', ?_, ?_⟩
        · rw [hends']
          simp [hnot]
        · rcases turns' with _ | ⟨turn, turns'⟩
          · simp
          · intro u hu
            rcases List.mem_cons.mp hu with rfl | hu
            · exact hnot
            · exact hearlier u hu
      · -- the loop is left, so that there is no further round
        rcases answers with _ | ⟨next, answers⟩
        · obtain ⟨rfl, rfl⟩ := by simpa using hrun
          refine ⟨_, _, hrelay, ?_, ?_⟩
          · simpa [hzero] using hends.mp hzero
          · simp
        · obtain ⟨_, _, _, hstep', -, -⟩ := Machine.run_cons_eq_some hrun
          rw [step, if_pos hzero] at hstep'
          simp at hstep'

/-- **The program is two relays.**  In every run the bytes the port gets are those that were typed,
but for C-a and C-x, and the keyboard's side gets those that came from the port: each is tried once,
in order, and is lost only if its write fails.  The lines are shown once for each C-x.  The run is
over when a round ends it, and no sooner. -/
theorem com_relays {s s' : Terminal} {answers : List SelectAnswer} {turns : List Turn}
    (hsent : ∀ e, s.sent e = []) (hsaid : s.said = []) (hexit : s.needExit = 0)
    (h : Machine.run step s answers = some (turns, s')) :
    (∃ (reads : Side → List ReadAnswer) (writes : Side → List WriteAnswer),
      (∀ e, s.reads e = reads e ++ s'.reads e ∧ s.writes e = writes e ++ s'.writes e) ∧
      (∀ e, (settled (writes e)).length = (due e (reads e.other)).length ∧
        s'.sent e = carried (due e (reads e.other)) (writes e) ∧
        ((∀ a ∈ writes e, a = .again ∨ a = .written) → s'.sent e = due e (reads e.other))) ∧
      s'.said.count .status = (got (reads .keyboard)).count 0x18) ∧
    (s'.needExit ≠ 0 ↔ ∃ turn ∈ turns, turn.Ends) ∧ ∀ turn ∈ turns.dropLast, ¬ turn.Ends := by
  obtain ⟨reads, writes, hrelay, hends, hearlier⟩ := run_relayed answers s s' turns hexit h
  have hcarried : ∀ e, s'.sent e = carried (due e (reads e.other)) (writes e) := by
    intro e
    rw [hrelay.sent_eq, hsent, List.nil_append]
  refine ⟨⟨reads, writes, ?_, ?_, ?_⟩, hends, hearlier⟩
  · intro e
    exact ⟨hrelay.reads_eq e, hrelay.writes_eq e⟩
  · intro e
    refine ⟨hrelay.tried e, hcarried e, ?_⟩
    intro hwritten
    rw [hcarried]
    exact carried_of_written _ _ hwritten (hrelay.tried e)
  · rw [hrelay.shown, hsaid, List.count_nil, Nat.zero_add]

/-- The user types a letter, C-a just when the port sends one, and C-a again. -/
def threeKeys : Terminal where
  reads
    | .keyboard => [.interrupted, .byte 104, .byte 1, .byte 1]
    | .port => [.byte 62]
  writes
    | .keyboard => [.written]
    | .port => [.again, .written]
  sent _ := []
  said := []
  needExit := 0

theorem com_relays_three_keys :
    ∃ turns s', Machine.run step threeKeys [.ready true false, .ready true true, .ready true false]
        = some (turns, s') ∧
      s'.sent .port = [104] ∧ (∃ turn ∈ turns, turn.Ends) ∧
      ∀ turn ∈ turns.dropLast, ¬ turn.Ends := by
  obtain ⟨⟨turns, s'⟩, hrun⟩ := Option.isSome_iff_exists.mp (by decide :
    (Machine.run step threeKeys
      [.ready true false, .ready true true, .ready true false]).isSome)
  have hlast : (Machine.run step threeKeys
      [.ready true false, .ready true true, .ready true false]).map
        (fun r => (r.2.sent .port, r.2.needExit)) = some ([104], -1) := by decide
  rw [hrun] at hlast
  obtain ⟨hsent, hexit⟩ := Prod.mk.inj (Option.some.inj hlast)
  obtain ⟨-, hends, hearlier⟩ := com_relays (fun _ => rfl) rfl rfl hrun
  exact ⟨turns, s', hrun, hsent, hends.mp (by
    dsimp only at hexit
    omega), hearlier⟩

end Terminal

end Com

end Csnip
