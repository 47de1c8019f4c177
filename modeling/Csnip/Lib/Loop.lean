/-
Loops.

A loop is given by its body, which from the state of the loop goes round once more with
another state or leaves the loop with a result, in any monad that has a value without
meaning.  `loop` runs it for a number of rounds and has no meaning when they do not
suffice, so that a result it has is the result of the loop.  `loop_total` is the rule of
total correctness: an invariant, and a measure every round decreases.  The two counting
loops and their rules are instances.  `length_filter_range_le_iff` counts the rounds in
which something happens, when they lie together.
-/
import Mathlib.Control.Basic
import Mathlib.Data.Finset.Max
import Mathlib.Data.Int.Notation
import Mathlib.Order.Interval.Finset.Nat
import Mathlib.Order.Lattice

namespace Loop

universe u v

/-- Monads with a value that stands for the absence of a meaning. -/
class Undefined (m : Type u → Type v) where
  undefined {α : Type u} : m α

instance : Undefined Option := ⟨none⟩

variable {m : Type u → Type v} [Monad m] [Undefined m] {σ β : Type u}

/-- What one round of a loop comes to. -/
inductive Round (σ β : Type u) where
  | again (s : σ)
  | done (b : β)

/-- At most `fuel` rounds of `body`. -/
def loop (body : σ → m (Round σ β)) : ℕ → σ → m β
  | 0, _ => Undefined.undefined
  | fuel + 1, s => do
      match ← body s with
      | .again s' => loop body fuel s'
      | .done b => pure b

/-- `for (i = a; i < b; i++)` over a body that changes neither `i` nor `b`. -/
def forUp (a b : ℤ) (body : ℤ → σ → m σ) (s : σ) : m σ :=
  loop (fun r : ℤ × σ =>
    if r.1 < b then do
      let s' ← body r.1 r.2
      pure (.again (r.1 + 1, s'))
    else pure (.done r.2)) ((b - a).toNat + 1) (a, s)

/-- `for (i = a; i > b; i--)` over a body that changes neither `i` nor `b`. -/
def forDown (a b : ℤ) (body : ℤ → σ → m σ) (s : σ) : m σ :=
  loop (fun r : ℤ × σ =>
    if b < r.1 then do
      let s' ← body r.1 r.2
      pure (.again (r.1 - 1, s'))
    else pure (.done r.2)) ((a - b).toNat + 1) (a, s)

section Rules

variable [LawfulMonad m]

theorem loop_again {body : σ → m (Round σ β)} {s s' : σ} (fuel : ℕ)
    (h : body s = pure (.again s')) : loop body (fuel + 1) s = loop body fuel s' := by
  rw [loop, h, pure_bind]

theorem loop_done {body : σ → m (Round σ β)} {s : σ} {b : β} (fuel : ℕ)
    (h : body s = pure (.done b)) : loop body (fuel + 1) s = pure b := by
  rw [loop, h, pure_bind]

/-- **Total correctness.**  A round from a state of the invariant either goes round again
with the invariant kept and the measure smaller, or leaves with a good result. -/
theorem loop_total (body : σ → m (Round σ β)) {I : σ → Prop} {Q : β → Prop}
    (measure : σ → ℕ)
    (hround : ∀ s, I s →
      (∃ s', body s = pure (.again s') ∧ I s' ∧ measure s' < measure s) ∨
      (∃ b, body s = pure (.done b) ∧ Q b)) :
    ∀ (fuel : ℕ) (s : σ), I s → measure s < fuel →
      ∃ b, loop body fuel s = pure b ∧ Q b := by
  intro fuel
  induction fuel with
  | zero => intro s _ hfuel; omega
  | succ fuel ih =>
      intro s hs hfuel
      rcases hround s hs with ⟨s', hbody, hs', hless⟩ | ⟨b, hbody, hb⟩
      · rw [loop_again fuel hbody]
        exact ih s' hs' (by omega)
      · exact ⟨b, loop_done fuel hbody, hb⟩

/-! ### Counting loops -/

/-- An invariant indexed by the counter holds at the end of the loop for its bound, or
for its start when there was no round. -/
theorem forUp_total (body : ℤ → σ → m σ) {I : ℤ → σ → Prop} {a b : ℤ} {s : σ} (h0 : I a s)
    (hround : ∀ i s, a ≤ i → i < b → I i s → ∃ s', body i s = pure s' ∧ I (i + 1) s') :
    ∃ s', forUp a b body s = pure s' ∧ I (max a b) s' := by
  refine loop_total _ (I := fun r : ℤ × σ => a ≤ r.1 ∧ r.1 ≤ max a b ∧ I r.1 r.2)
    (fun r => (b - r.1).toNat) ?_ _ _ ⟨by simp, by simp, h0⟩ (by simp)
  rintro ⟨i, s⟩ ⟨hlo, hhi, hI⟩
  by_cases h : i < b
  · obtain ⟨s', hbody, hI'⟩ := hround i s hlo h hI
    refine .inl ⟨(i + 1, s'), ?_, ⟨by dsimp only at *; omega, by dsimp only at *; omega, hI'⟩,
      by dsimp only at *; omega⟩
    rw [if_pos h, hbody, pure_bind]
  · refine .inr ⟨s, if_neg h, ?_⟩
    have hi : i = max a b := by dsimp only at *; omega
    exact hi ▸ hI

theorem forDown_total (body : ℤ → σ → m σ) {I : ℤ → σ → Prop} {a b : ℤ} {s : σ}
    (h0 : I a s)
    (hround : ∀ i s, i ≤ a → b < i → I i s → ∃ s', body i s = pure s' ∧ I (i - 1) s') :
    ∃ s', forDown a b body s = pure s' ∧ I (min a b) s' := by
  refine loop_total _ (I := fun r : ℤ × σ => r.1 ≤ a ∧ min a b ≤ r.1 ∧ I r.1 r.2)
    (fun r => (r.1 - b).toNat) ?_ _ _ ⟨by simp, by simp, h0⟩ (by simp)
  rintro ⟨i, s⟩ ⟨hhi, hlo, hI⟩
  by_cases h : b < i
  · obtain ⟨s', hbody, hI'⟩ := hround i s hhi h hI
    refine .inl ⟨(i - 1, s'), ?_, ⟨by dsimp only at *; omega, by dsimp only at *; omega, hI'⟩,
      by dsimp only at *; omega⟩
    rw [if_pos h, hbody, pure_bind]
  · refine .inr ⟨s, if_neg h, ?_⟩
    have hi : i = min a b := by dsimp only at *; omega
    exact hi ▸ hI

end Rules

/-- A counting loop whose first round is undefined. -/
theorem forDown_none {body : ℤ → σ → Option σ} {a b : ℤ} {s : σ} (h : b < a)
    (hround : body a s = none) : forDown a b body s = none := by
  rw [forDown, loop, if_pos h, hround]
  rfl

/-! ### Rounds in which something happens -/

/-- Rounds that lie together are at most `n` when no two of them are `n` apart. -/
theorem length_filter_range_le_iff {P : ℕ → Prop} [DecidablePred P] {m : ℕ}
    (hconvex : ∀ i j k, i ≤ j → j ≤ k → P i → P k → P j) (hrounds : ∀ j, P j → j < m) (n : ℕ) :
    ((List.range m).filter P).length ≤ n ↔ ∀ j, P j → ¬ P (j + n) := by
  have hcard : ((List.range m).filter P).length = ((Finset.range m).filter P).card := rfl
  have hmem : ∀ j, j ∈ (Finset.range m).filter P ↔ P j := by
    intro j
    rw [Finset.mem_filter, Finset.mem_range]
    exact and_iff_right_of_imp (hrounds j)
  rw [hcard]
  constructor
  · intro hle j hj hjn
    have hbetween : Finset.Icc j (j + n) ⊆ (Finset.range m).filter P := by
      intro i hi
      obtain ⟨hji, hin⟩ := Finset.mem_Icc.mp hi
      exact (hmem i).mpr (hconvex j i (j + n) hji hin hj hjn)
    have hmany := Finset.card_le_card hbetween
    rw [Nat.card_Icc] at hmany
    omega
  · intro hapart
    by_cases hnone : ((Finset.range m).filter P).Nonempty
    · -- all of them lie between the first and the last one
      set first := ((Finset.range m).filter P).min' hnone with hfirst
      set last := ((Finset.range m).filter P).max' hnone with hlast
      have hP := (hmem first).mp (Finset.min'_mem _ hnone)
      have hP' := (hmem last).mp (Finset.max'_mem _ hnone)
      have hbetween : (Finset.range m).filter P ⊆ Finset.Icc first last := fun i hi =>
        Finset.mem_Icc.mpr ⟨Finset.min'_le _ i hi, Finset.le_max' _ i hi⟩
      have hfew := Finset.card_le_card hbetween
      rw [Nat.card_Icc] at hfew
      have hshort : ¬ first + n ≤ last := fun hle =>
        hapart first hP (hconvex first (first + n) last (Nat.le_add_right _ _) hle hP hP')
      omega
    · rw [Finset.not_nonempty_iff_eq_empty.mp hnone, Finset.card_empty]
      exact Nat.zero_le n

end Loop
