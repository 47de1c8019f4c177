/-
Programs that may leave early.

A call of a program comes to a value, leaves the program with an exit code, or has no
meaning in the language.  `Outcome` is the monad of such calls.
-/
import Csnip.Lib.Loop

universe u

/-- What a call of a program comes to. -/
inductive Outcome (α : Type u) where
  | ok (a : α)
  | exit (code : ℤ)
  | undefined
deriving Repr, DecidableEq

namespace Outcome

variable {α β : Type u}

/-- One call after another. -/
def bind : Outcome α → (α → Outcome β) → Outcome β
  | .ok a, f => f a
  | .exit code, _ => .exit code
  | .undefined, _ => .undefined

instance : Monad Outcome where
  pure := .ok
  bind := bind

instance : Loop.Undefined Outcome := ⟨.undefined⟩

@[simp] theorem ok_bind (a : α) (f : α → Outcome β) : (Outcome.ok a >>= f) = f a := rfl

@[simp] theorem exit_bind (code : ℤ) (f : α → Outcome β) :
    (Outcome.exit code >>= f) = .exit code := rfl

@[simp] theorem undefined_bind (f : α → Outcome β) :
    (Outcome.undefined >>= f) = .undefined := rfl

@[simp] theorem pure_eq (a : α) : (pure a : Outcome α) = .ok a := rfl

instance : LawfulMonad Outcome := LawfulMonad.mk' Outcome
  (fun x => by cases x <;> rfl) (fun _ _ => rfl) (fun x _ _ => by cases x <;> rfl)

/-- A value that may be missing, where its absence has no meaning. -/
def ofOption : Option α → Outcome α
  | some a => .ok a
  | none => .undefined

@[simp] theorem ofOption_some (a : α) : ofOption (some a) = .ok a := rfl

/-! ### What a call that came to a value went through -/

theorem bind_eq_ok {x : Outcome α} {f : α → Outcome β} {b : β} :
    (x >>= f) = .ok b ↔ ∃ a, x = .ok a ∧ f a = .ok b := by
  cases x with
  | ok a => simp
  | exit code => simp
  | undefined => simp

/-- **Partial correctness.**  What every round keeps holds of a result, whether or not the
loop has one. -/
theorem loop_partial {body : α → Outcome (Loop.Round α β)} {I : α → Prop} {Q : β → Prop}
    (hagain : ∀ s s', I s → body s = .ok (.again s') → I s')
    (hdone : ∀ s b, I s → body s = .ok (.done b) → Q b) :
    ∀ (fuel : ℕ) (s : α) (b : β), I s → Loop.loop body fuel s = .ok b → Q b := by
  intro fuel
  induction fuel with
  | zero => intro s b _ h; cases h
  | succ fuel ih =>
      intro s b hs h
      rw [Loop.loop, bind_eq_ok] at h
      obtain ⟨r, hbody, h⟩ := h
      cases r with
      | again s' => exact ih s' b (hagain s s' hs hbody) h
      | done b' =>
          cases h
          exact hdone s b hs hbody

/-! ### A call that may leave earlier than another one -/

/-- The first call comes to what the second one comes to, values being related, or it leaves with
the code. -/
inductive Follows (code : ℤ) (R : α → β → Prop) : Outcome α → Outcome β → Prop
  | ok {a : α} {b : β} (h : R a b) : Follows code R (.ok a) (.ok b)
  | early (y : Outcome β) : Follows code R (.exit code) y
  | exit (c : ℤ) : Follows code R (.exit c) (.exit c)
  | undefined : Follows code R .undefined .undefined

/-- Rounds of two loops that do the same. -/
inductive SameRound (R : α → α → Prop) (Q : β → β → Prop) :
    Loop.Round α β → Loop.Round α β → Prop
  | again {s t : α} (h : R s t) : SameRound R Q (.again s) (.again t)
  | done {a b : β} (h : Q a b) : SameRound R Q (.done a) (.done b)

namespace Follows

variable {γ δ : Type u} {code : ℤ} {R : α → β → Prop} {x : Outcome α} {y : Outcome β}

theorem same (x : Outcome α) : Follows code Eq x x := by
  cases x with
  | ok a => exact .ok rfl
  | exit c => exact .exit c
  | undefined => exact .undefined

/-- One call after another. -/
theorem bind {S : γ → δ → Prop} {f : α → Outcome γ} {g : β → Outcome δ} (h : Follows code R x y)
    (hfg : ∀ a b, R a b → Follows code S (f a) (g b)) : Follows code S (x >>= f) (y >>= g) := by
  cases h with
  | ok h => exact hfg _ _ h
  | early y => exact .early _
  | exit c => exact .exit c
  | undefined => exact .undefined

/-- The same call in front of two others. -/
theorem bind_same {S : γ → δ → Prop} (x : Outcome α) {f : α → Outcome γ} {g : α → Outcome δ}
    (hfg : ∀ a, Follows code S (f a) (g a)) : Follows code S (x >>= f) (x >>= g) := by
  refine (same x).bind fun a b hab => ?_
  rw [← hab]
  exact hfg a

theorem foldlM {σ : Type u} {R : σ → σ → Prop} {f : σ → α → Outcome σ}
    (hf : ∀ s t a, R s t → Follows code R (f s a) (f t a)) (l : List α) :
    ∀ s t : σ, R s t → Follows code R (l.foldlM f s) (l.foldlM f t) := by
  induction l with
  | nil =>
      intro s t h
      exact .ok h
  | cons a l ih =>
      intro s t h
      rw [List.foldlM_cons, List.foldlM_cons]
      exact (hf s t a h).bind ih

theorem loop {R : α → α → Prop} {Q : β → β → Prop} {body : α → Outcome (Loop.Round α β)}
    (hbody : ∀ s t, R s t → Follows code (SameRound R Q) (body s) (body t)) (fuel : ℕ) :
    ∀ s t : α, R s t → Follows code Q (Loop.loop body fuel s) (Loop.loop body fuel t) := by
  induction fuel with
  | zero =>
      intro s t _
      exact .undefined
  | succ fuel ih =>
      intro s t h
      rw [Loop.loop, Loop.loop]
      refine (hbody s t h).bind fun r r' hr => ?_
      cases hr with
      | again h => exact ih _ _ h
      | done h => exact .ok h

/-- Both come to the same, or the first leaves early. -/
theorem eq_or_exit {x y : Outcome α} (h : Follows code Eq x y) : x = y ∨ x = .exit code := by
  cases h with
  | ok h => exact .inl (congrArg _ h)
  | early y => exact .inr rfl
  | exit c => exact .inl rfl
  | undefined => exact .inl rfl

end Follows

end Outcome
