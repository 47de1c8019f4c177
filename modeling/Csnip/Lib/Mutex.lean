/-
A lock and what it protects.

Any number of threads, each at a program counter, share some data and one lock.  A thread is
inside the critical section exactly when it holds the lock, so at most one thread is.  While
nobody holds it the data satisfy `Free`, and while somebody does, the `Stage` of the place
the holder has come to.  The three rules are the three things a thread can do about it: take
the lock, move on inside, and give the lock back.
-/
import Mathlib.Logic.Function.Basic

namespace Mutex

variable {Thread Pc Shared : Type*}

/-- The lock protects the data. -/
structure Guarded (Inside : Pc → Prop) (Free : Shared → Prop) (Stage : Thread → Pc → Shared → Prop)
    (pc : Thread → Pc) (lock : Option Thread) (shared : Shared) : Prop where
  holder : ∀ t, Inside (pc t) ↔ lock = some t
  free : lock = none → Free shared
  held : ∀ t, lock = some t → Stage t (pc t) shared

section Rules

variable {Inside : Pc → Prop} {Free : Shared → Prop} {Stage : Thread → Pc → Shared → Prop}
  {pc : Thread → Pc} {lock : Option Thread} {shared shared' : Shared} {t : Thread} {next : Pc}

/-- At most one thread is inside. -/
theorem Guarded.exclusive (h : Guarded Inside Free Stage pc lock shared) {u : Thread}
    (ht : Inside (pc t)) (hu : Inside (pc u)) : t = u := by
  have hlock := (h.holder t).mp ht
  rw [(h.holder u).mp hu] at hlock
  exact (Option.some.inj hlock).symm

variable [DecidableEq Thread]

/-- A thread takes the free lock. -/
theorem Guarded.acquire (h : Guarded Inside Free Stage pc lock shared) (hfree : lock = none)
    (hin : Inside next) (hstage : Free shared → Stage t next shared) :
    Guarded Inside Free Stage (Function.update pc t next) (some t) shared := by
  refine ⟨?_, fun hno => (by cases hno), ?_⟩
  · intro u
    by_cases hu : u = t
    · rw [hu, Function.update_self]
      exact iff_of_true hin rfl
    · rw [Function.update_of_ne hu, h.holder u, hfree]
      exact iff_of_false (fun hno => by cases hno) (fun hsome => hu (Option.some.inj hsome).symm)
  · intro u hu
    rw [← Option.some.inj hu, Function.update_self]
    exact hstage (h.free hfree)

/-- The holder moves on inside, and changes the data. -/
theorem Guarded.advance (h : Guarded Inside Free Stage pc lock shared) (ht : Inside (pc t))
    (hin : Inside next) (hstage : Stage t (pc t) shared → Stage t next shared') :
    Guarded Inside Free Stage (Function.update pc t next) lock shared' := by
  have hlock := (h.holder t).mp ht
  refine ⟨?_, fun hno => ?_, ?_⟩
  · intro u
    by_cases hu : u = t
    · rw [hu, Function.update_self]
      exact iff_of_true hin hlock
    · rw [Function.update_of_ne hu]
      exact h.holder u
  · rw [hlock] at hno
    cases hno
  · intro u hu
    rw [hlock] at hu
    rw [← Option.some.inj hu, Function.update_self]
    exact hstage (h.held t hlock)

/-- The holder gives the lock back. -/
theorem Guarded.release (h : Guarded Inside Free Stage pc lock shared) (ht : Inside (pc t))
    (hout : ¬ Inside next) (hfree : Stage t (pc t) shared → Free shared) :
    Guarded Inside Free Stage (Function.update pc t next) none shared := by
  refine ⟨?_, fun _ => hfree (h.held t ((h.holder t).mp ht)), fun u hu => (by cases hu)⟩
  intro u
  by_cases hu : u = t
  · rw [hu, Function.update_self]
    exact iff_of_false hout (fun hno => by cases hno)
  · rw [Function.update_of_ne hu]
    exact iff_of_false (fun hin => hu (h.exclusive hin ht)) (fun hno => by cases hno)

end Rules

end Mutex
