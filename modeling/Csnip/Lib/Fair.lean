/-
What parties come to who all get their turns.

A schedule says whose turn it is at every moment, and it is fair when everybody's turn comes again
and again.  `eventually_done` is the rule for it: as long as something is to be done there is a
party whose next turn brings the measure down, and no other turn takes that away.
-/
import Mathlib.Data.Nat.Notation
import Mathlib.Tactic.ByContra

namespace Fair

variable {σ P : Type*}

/-- Everybody's turn comes again and again. -/
def IsFair (schedule : ℕ → P) : Prop := ∀ p n, ∃ m, n ≤ m ∧ schedule m = p

/-- The states of a run in which the turns are taken by the schedule. -/
def Runs (next : σ → P → Option σ) (schedule : ℕ → P) (run : ℕ → σ) : Prop :=
  ∀ n, next (run n) (schedule n) = some (run (n + 1))

/-- The run from `s`, which stands still where a turn is not defined. -/
def follow (next : σ → P → Option σ) (schedule : ℕ → P) (s : σ) : ℕ → σ
  | 0 => s
  | n + 1 => (next (follow next schedule s n) (schedule n)).getD (follow next schedule s n)

section Rules

variable {next : σ → P → Option σ} {schedule : ℕ → P} {run : ℕ → σ}

/-- An invariant every turn keeps holds at every moment. -/
theorem Runs.invariant {I : σ → Prop} (hrun : Runs next schedule run) (h0 : I (run 0))
    (hstep : ∀ s p t, I s → next s p = some t → I t) : ∀ n, I (run n) := by
  intro n
  induction n with
  | zero => exact h0
  | succ n ih => exact hstep _ _ _ ih (hrun n)

/-- When every turn is defined in the states of an invariant, there is a run. -/
theorem runs_follow {I : σ → Prop} {s : σ} (h0 : I s)
    (hstep : ∀ s p, I s → ∃ t, next s p = some t ∧ I t) (schedule : ℕ → P) :
    Runs next schedule (follow next schedule s) := by
  have hnext : ∀ n, I (follow next schedule s n) →
      next (follow next schedule s n) (schedule n) = some (follow next schedule s (n + 1)) ∧
        I (follow next schedule s (n + 1)) := by
    intro n hn
    obtain ⟨t, ht, hI⟩ := hstep _ (schedule n) hn
    have hfollow : follow next schedule s (n + 1) = t := by
      rw [follow, ht, Option.getD_some]
    rw [hfollow]
    exact ⟨ht, hI⟩
  have hI : ∀ n, I (follow next schedule s n) := by
    intro n
    induction n with
    | zero => exact h0
    | succ n ih => exact (hnext n ih).2
  exact fun n => (hnext n (hI n)).1

/-- A turn that is not the helpful one may change nothing that matters. -/
def Helps (measure : σ → ℕ) (helpful : σ → P) (Done : σ → Prop) (s : σ) (p : P) (t : σ) : Prop :=
  measure t < measure s ∨ Done t ∨
    measure t = measure s ∧ helpful t = helpful s ∧ p ≠ helpful s

/-- Until something is achieved, the measure and the helpful party stay as they are. -/
theorem waiting {measure : σ → ℕ} {helpful : σ → P} {Done : σ → Prop}
    (hstep : ∀ n, ¬ Done (run n) →
      Helps measure helpful Done (run n) (schedule n) (run (n + 1))) (n k : ℕ) :
    (∃ j, Done (run j)) ∨ (∃ j, measure (run j) < measure (run n)) ∨
      measure (run (n + k)) = measure (run n) ∧ helpful (run (n + k)) = helpful (run n) := by
  induction k with
  | zero => exact .inr (.inr ⟨rfl, rfl⟩)
  | succ k ih =>
      rcases ih with hdone | hless | ⟨hmeasure, hhelpful⟩
      · exact .inl hdone
      · exact .inr (.inl hless)
      · by_cases hdone : Done (run (n + k))
        · exact .inl ⟨_, hdone⟩
        · rcases hstep (n + k) hdone with hless | hnow | ⟨hsame, hstill, -⟩
          · exact .inr (.inl ⟨_, hmeasure ▸ hless⟩)
          · exact .inl ⟨_, hnow⟩
          · exact .inr (.inr ⟨hsame.trans hmeasure, hstill.trans hhelpful⟩)

/-- **Everything gets done** in a run whose schedule is fair. -/
theorem eventually_done {measure : σ → ℕ} {helpful : σ → P} {Done : σ → Prop}
    (hfair : IsFair schedule)
    (hstep : ∀ n, ¬ Done (run n) →
      Helps measure helpful Done (run n) (schedule n) (run (n + 1))) : ∃ n, Done (run n) := by
  by_contra hno
  have hnever : ∀ n, ¬ Done (run n) := fun n hn => hno ⟨n, hn⟩
  have hdown : ∀ bound n, measure (run n) ≠ bound := by
    intro bound
    induction bound using Nat.strongRecOn with
    | ind bound ih =>
        intro n hn
        -- the turn of the party that helps
        obtain ⟨m, hm, hturn⟩ := hfair (helpful (run n)) n
        obtain ⟨k, rfl⟩ := Nat.exists_eq_add_of_le hm
        rcases waiting hstep n k with ⟨j, hj⟩ | ⟨j, hj⟩ | ⟨hmeasure, hhelpful⟩
        · exact hnever j hj
        · exact ih _ (hn ▸ hj) j rfl
        · rcases hstep (n + k) (hnever _) with hless | hdone | ⟨-, -, hother⟩
          · exact ih _ (by omega) (n + k + 1) rfl
          · exact hnever _ hdone
          · exact hother (hturn.trans hhelpful.symm)
  exact hdown _ 0 rfl

end Rules

end Fair
