/-
Floats over the ring (rb_float.h).

Each function checks that a whole float can be moved and then makes the call that moves
up to so many bytes.  A float is the four bytes it is stored as; no alignment is asked
of the ring, so a float may go over the physical end at any of its bytes.

`Tape` remembers which floats a ring has taken in and which it has given back or
skipped.  As long as only these functions are used the ring holds the rest of them, each
one whole (`Holds`), which is why a call that passes its check moves exactly four bytes.
-/
import Csnip.Rb.Fifo

namespace Csnip

open Memory Cyclic

/-- `sizeof(float)`. -/
def sizeofFloat : ℕ := 4

/-- A float, as the bytes it is in memory. -/
structure FloatBytes where
  bytes : List UInt8
  length_bytes : bytes.length = sizeofFloat

/-- Floats one behind the other. -/
def floatStream (floats : List FloatBytes) : List UInt8 := floats.flatMap FloatBytes.bytes

theorem floatStream_cons (f : FloatBytes) (floats : List FloatBytes) :
    floatStream (f :: floats) = f.bytes ++ floatStream floats := rfl

theorem floatStream_append (floats floats' : List FloatBytes) :
    floatStream (floats ++ floats') = floatStream floats ++ floatStream floats' :=
  List.flatMap_append

theorem length_floatStream (floats : List FloatBytes) :
    (floatStream floats).length = 4 * floats.length := by
  induction floats with
  | nil => rfl
  | cons f floats ih =>
      rw [floatStream_cons, List.length_append, f.length_bytes, ih, List.length_cons, sizeofFloat]
      omega

namespace Rb

/-! ### The functions -/

def underflow (rb : Rb) : Rb := { rb with totalUnderflows := u64 (rb.totalUnderflows + 1) }

def overflow (rb : Rb) : Rb := { rb with totalOverflows := u64 (rb.totalOverflows + 1) }

/-- `rb_read_float()`. -/
def readFloat (rb : Rb) : Option (ℕ × List UInt8 × Rb) :=
  if rb.canRead ≥ sizeofFloat then rb.read sizeofFloat else some (0, [], rb.underflow)

/-- `rb_peek_float()`. -/
def peekFloat (rb : Rb) : Option (ℕ × List UInt8 × Rb) :=
  if rb.canRead ≥ sizeofFloat then rb.peek sizeofFloat else some (0, [], rb.underflow)

/-- `rb_skip_float()`. -/
def skipFloat (rb : Rb) : Option (ℕ × Rb) :=
  if rb.canRead ≥ sizeofFloat then rb.advanceReadIndex sizeofFloat else some (0, rb.underflow)

/-- `rb_write_float()`. -/
def writeFloat (rb : Rb) (source : FloatBytes) : Option (ℕ × Rb) :=
  if rb.canWrite ≥ sizeofFloat then rb.write source.bytes sizeofFloat else some (0, rb.overflow)

inductive FloatCall
  | write (source : FloatBytes)
  | read
  | skip
  | peek

def execFloat (rb : Rb) : FloatCall → Option (Out × Rb)
  | .write source => (rb.writeFloat source).map fun r => ({ ret := r.1 }, r.2)
  | .read => rb.readFloat.map fun r => ({ ret := r.1, bytes := r.2.1 }, r.2.2)
  | .skip => rb.skipFloat.map fun r => ({ ret := r.1 }, r.2)
  | .peek => rb.peekFloat.map fun r => ({ ret := r.1, bytes := r.2.1 }, r.2.2)

/-! ### What they are for -/

/-- The floats accepted so far, and those returned or skipped so far. -/
structure Tape where
  accepted : List FloatBytes
  taken : List FloatBytes

/-- `f` is the float that comes after the taken ones. -/
def Tape.Next (t : Tape) (f : FloatBytes) : Prop := t.taken ++ [f] <+: t.accepted

/-- What a call may do.  Each one moves, or shows, one whole float and returns 4, or it
returns 0 and leaves everything but one counter alone. -/
inductive FloatStep : Rb × Tape → FloatCall → Out → Rb × Tape → Prop
  | write {rb rb' : Rb} {t : Tape} {f : FloatBytes} (hroom : 4 ≤ rb.canWrite)
      (hqueue : rb'.queue = rb.queue ++ f.bytes) :
      FloatStep (rb, t) (.write f) { ret := 4 } (rb', { t with accepted := t.accepted ++ [f] })
  | writeRefused {rb : Rb} {t : Tape} {f : FloatBytes} (hroom : rb.canWrite < 4) :
      FloatStep (rb, t) (.write f) { ret := 0 } (rb.overflow, t)
  | read {rb rb' : Rb} {t : Tape} {f : FloatBytes} (hnext : t.Next f)
      (hqueue : rb.queue = f.bytes ++ rb'.queue) :
      FloatStep (rb, t) .read { ret := 4, bytes := f.bytes }
        (rb', { t with taken := t.taken ++ [f] })
  | skip {rb rb' : Rb} {t : Tape} {f : FloatBytes} (hnext : t.Next f)
      (hqueue : rb.queue = f.bytes ++ rb'.queue) :
      FloatStep (rb, t) .skip { ret := 4 } (rb', { t with taken := t.taken ++ [f] })
  | peek {rb rb' : Rb} {t : Tape} {f : FloatBytes} (hnext : t.Next f)
      (hring : SameRing rb rb') :
      FloatStep (rb, t) .peek { ret := 4, bytes := f.bytes } (rb', t)
  | readRefused {rb : Rb} {t : Tape} (hempty : t.taken = t.accepted) :
      FloatStep (rb, t) .read { ret := 0 } (rb.underflow, t)
  | skipRefused {rb : Rb} {t : Tape} (hempty : t.taken = t.accepted) :
      FloatStep (rb, t) .skip { ret := 0 } (rb.underflow, t)
  | peekRefused {rb : Rb} {t : Tape} (hempty : t.taken = t.accepted) :
      FloatStep (rb, t) .peek { ret := 0 } (rb.underflow, t)

/-- The ring holds exactly the accepted floats that have not been taken. -/
structure Holds (rb : Rb) (t : Tape) (rest : List FloatBytes) : Prop where
  wf : WF rb
  split : t.accepted = t.taken ++ rest
  queue : rb.queue = floatStream rest

variable {rb rb' : Rb} {t : Tape} {rest : List FloatBytes}

theorem Holds.canRead (h : Holds rb t rest) : rb.canRead = 4 * rest.length := by
  rw [← length_queue h.wf, h.queue, length_floatStream]

theorem Holds.next {f : FloatBytes} (h : Holds rb t (f :: rest)) : t.Next f :=
  ⟨rest, by rw [h.split, List.append_assoc, List.singleton_append]⟩

/-- A float is at the front of the ring that holds it. -/
theorem Holds.take {f : FloatBytes} (h : Holds rb t (f :: rest)) :
    rb.queue.take sizeofFloat = f.bytes := by
  rw [h.queue, floatStream_cons]
  exact List.take_left' f.length_bytes

theorem Holds.drop {f : FloatBytes} (h : Holds rb t (f :: rest)) :
    rb.queue.drop sizeofFloat = floatStream rest := by
  rw [h.queue, floatStream_cons]
  exact List.drop_left' f.length_bytes

theorem Holds.same (h : Holds rb t rest) (hring : SameRing rb rb') : Holds rb' t rest :=
  ⟨hring.wf h.wf, h.split, by rw [hring.queue, h.queue]⟩

theorem Holds.underflow (h : Holds rb t rest) : Holds rb.underflow t rest :=
  h.same (sameRing_underflow rb)

/-- Four bytes less are one float less. -/
theorem Holds.consume {f : FloatBytes} (h : Holds rb t (f :: rest))
    (hc : Consumes rb sizeofFloat rb') :
    Holds rb' { t with taken := t.taken ++ [f] } rest where
  wf := hc.wf
  split := by
    show t.accepted = t.taken ++ [f] ++ rest
    rw [h.split, List.append_assoc, List.singleton_append]
  queue := by rw [hc.queue, h.drop]

theorem Holds.front {f : FloatBytes} (h : Holds rb t (f :: rest))
    (hc : Consumes rb sizeofFloat rb') :
    rb.queue = f.bytes ++ rb'.queue := by
  rw [hc.queue, h.drop, h.queue, floatStream_cons]

theorem Holds.produce {f : FloatBytes} (h : Holds rb t rest) (hp : Produces rb f.bytes rb') :
    Holds rb' { t with accepted := t.accepted ++ [f] } (rest ++ [f]) where
  wf := hp.wf
  split := by
    show t.accepted ++ [f] = t.taken ++ (rest ++ [f])
    rw [h.split, List.append_assoc]
  queue := by
    rw [hp.queue, h.queue, floatStream_append, floatStream_cons]
    simp [floatStream]

/-! ### Each call moves a whole float or none -/

theorem Holds.canRead_of_cons {f : FloatBytes} (h : Holds rb t (f :: rest)) :
    sizeofFloat ≤ rb.canRead := by
  rw [h.canRead, List.length_cons, sizeofFloat]
  omega

theorem Holds.canRead_of_nil (h : Holds rb t []) : rb.canRead < sizeofFloat := by
  rw [h.canRead, List.length_nil, sizeofFloat]
  omega

theorem Holds.taken_of_nil (h : Holds rb t []) : t.taken = t.accepted := by
  rw [h.split, List.append_nil]

theorem writeFloat_step (h : Holds rb t rest) (f : FloatBytes) : ∃ out rb' t' rest',
    rb.execFloat (.write f) = some (out, rb') ∧ FloatStep (rb, t) (.write f) out (rb', t') ∧
      Holds rb' t' rest' := by
  by_cases hroom : sizeofFloat ≤ rb.canWrite
  · have hmin : min sizeofFloat rb.canWrite = sizeofFloat := Nat.min_eq_left hroom
    obtain ⟨rb', hrun, hp⟩ := write_produces h.wf
      (by rw [hmin, f.length_bytes])
    rw [hmin] at hrun hp
    rw [List.take_of_length_le (Nat.le_of_eq f.length_bytes)] at hp
    refine ⟨_, rb', _, _, ?_, .write hroom hp.queue, h.produce hp⟩
    rw [execFloat, writeFloat, if_pos hroom, hrun]
    rfl
  · refine ⟨_, rb.overflow, t, rest, ?_, .writeRefused (Nat.not_le.mp hroom),
      h.same (SameRing.stats ..)⟩
    rw [execFloat, writeFloat, if_neg hroom]
    rfl

theorem readFloat_step (h : Holds rb t rest) : ∃ out rb' t' rest',
    rb.execFloat .read = some (out, rb') ∧ FloatStep (rb, t) .read out (rb', t') ∧
      Holds rb' t' rest' := by
  cases rest with
  | nil =>
      refine ⟨_, _, t, [], ?_, .readRefused h.taken_of_nil, h.underflow⟩
      rw [execFloat, readFloat, if_neg (Nat.not_le.mpr h.canRead_of_nil)]
      rfl
  | cons f rest =>
      have hmin : min sizeofFloat rb.canRead = sizeofFloat := Nat.min_eq_left h.canRead_of_cons
      obtain ⟨rb', hrun, hc⟩ := read_consumes h.wf sizeofFloat
      rw [hmin] at hrun hc
      rw [h.take] at hrun
      refine ⟨_, rb', _, rest, ?_, .read h.next (h.front hc), h.consume hc⟩
      rw [execFloat, readFloat, if_pos h.canRead_of_cons, hrun]
      rfl

theorem skipFloat_step (h : Holds rb t rest) : ∃ out rb' t' rest',
    rb.execFloat .skip = some (out, rb') ∧ FloatStep (rb, t) .skip out (rb', t') ∧
      Holds rb' t' rest' := by
  cases rest with
  | nil =>
      refine ⟨_, _, t, [], ?_, .skipRefused h.taken_of_nil, h.underflow⟩
      rw [execFloat, skipFloat, if_neg (Nat.not_le.mpr h.canRead_of_nil)]
      rfl
  | cons f rest =>
      have hmin : min sizeofFloat rb.canRead = sizeofFloat := Nat.min_eq_left h.canRead_of_cons
      obtain ⟨rb', hrun, hc⟩ := advanceReadIndex_consumes h.wf sizeofFloat
      rw [hmin] at hrun hc
      refine ⟨_, rb', _, rest, ?_, .skip h.next (h.front hc), h.consume hc⟩
      rw [execFloat, skipFloat, if_pos h.canRead_of_cons, hrun]
      rfl

theorem peekFloat_step (h : Holds rb t rest) : ∃ out rb' t' rest',
    rb.execFloat .peek = some (out, rb') ∧ FloatStep (rb, t) .peek out (rb', t') ∧
      Holds rb' t' rest' := by
  cases rest with
  | nil =>
      refine ⟨_, _, t, [], ?_, .peekRefused h.taken_of_nil, h.underflow⟩
      rw [execFloat, peekFloat, if_neg (Nat.not_le.mpr h.canRead_of_nil)]
      rfl
  | cons f rest =>
      have hfour := h.canRead_of_cons
      have hcount : rb.peekCount sizeofFloat 0 = sizeofFloat := Nat.min_eq_left hfour
      have hpeek : rb.peekAt sizeofFloat 0 = _ := peekAt_eq h.wf (by decide)
        (Nat.lt_of_lt_of_le (by decide) hfour) (fun hx => Nat.lt_irrefl 0 hx.1)
      rw [hcount, Nat.add_zero, ← take_queue hfour, h.take] at hpeek
      have hring := sameRing_afterPeek rb sizeofFloat sizeofFloat
      refine ⟨_, _, t, f :: rest, ?_, .peek h.next hring, h.same hring⟩
      rw [execFloat, peekFloat, if_pos hfour, peek, hpeek]
      rfl

theorem execFloat_step (h : Holds rb t rest) (call : FloatCall) : ∃ out rb' t' rest',
    rb.execFloat call = some (out, rb') ∧ FloatStep (rb, t) call out (rb', t') ∧
      Holds rb' t' rest' := by
  cases call with
  | write f => exact writeFloat_step h f
  | read => exact readFloat_step h
  | skip => exact skipFloat_step h
  | peek => exact peekFloat_step h

/-- **Floats are never torn.**

From an empty ring of any size every sequence of float calls is defined, each call is a
`FloatStep`, the fill level stays a multiple of four, and the floats returned or skipped
are the first ones of those accepted. -/
theorem floats_never_torn (hwf : WF rb) (hempty : rb.canRead = 0) (calls : List FloatCall) :
    ∃ outs rb' t, Machine.run execFloat rb calls = some (outs, rb') ∧
      Machine.Run FloatStep (rb, ⟨[], []⟩) calls outs (rb', t) ∧
      t.taken <+: t.accepted ∧
      rb'.canRead = 4 * (t.accepted.length - t.taken.length) := by
  have hsim : ∀ (rb : Rb) (q : Rb × Tape) (call : FloatCall), True →
      (q.1 = rb ∧ ∃ rest, Holds rb q.2 rest) → ∃ out rb' q', rb.execFloat call = some (out, rb') ∧
        FloatStep q call out q' ∧ (q'.1 = rb' ∧ ∃ rest, Holds rb' q'.2 rest) := by
    rintro rb ⟨_, t⟩ call - ⟨rfl, rest, h⟩
    obtain ⟨out, rb', t', rest', hrun, hstep, h'⟩ := execFloat_step h call
    exact ⟨out, rb', (rb', t'), hrun, hstep, rfl, rest', h'⟩
  have hstart : Holds rb ⟨[], []⟩ [] := ⟨hwf, rfl, by rw [queue, hempty]; rfl⟩
  obtain ⟨outs, rb', ⟨_, t⟩, hrun, hRun, rfl, rest, h⟩ :=
    Machine.run_refines hsim calls rb (rb, ⟨[], []⟩) (fun _ _ => trivial) ⟨rfl, [], hstart⟩
  have hsplit : t.accepted = t.taken ++ rest := h.split
  refine ⟨outs, _, t, hrun, hRun, ⟨rest, hsplit.symm⟩, ?_⟩
  rw [h.canRead, hsplit, List.length_append]
  omega

theorem floats_never_torn_six : ∃ outs rb' t,
    Machine.run execFloat (cleared 6)
      [.write ⟨[1, 2, 3, 4], rfl⟩, .read, .write ⟨[5, 6, 7, 8], rfl⟩, .skip] = some (outs, rb') ∧
    Machine.Run FloatStep (cleared 6, ⟨[], []⟩)
      [.write ⟨[1, 2, 3, 4], rfl⟩, .read, .write ⟨[5, 6, 7, 8], rfl⟩, .skip] outs (rb', t) ∧
    t.taken <+: t.accepted ∧ rb'.canRead = 4 * (t.accepted.length - t.taken.length) :=
  floats_never_torn ((reachable_cleared (by decide) (by decide)).wf (by decide)).1 rfl _

end Rb

end Csnip
