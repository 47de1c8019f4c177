/-
Runs of calls.

A component whose calls are deterministic is a function `step` from a state and a
call to the answer and the next state.  It is partial: `none` stands for a call the
language gives no meaning to, an access outside a block for instance, and a run that
meets one has no result.  A specification is a relation, so that it may leave an
answer open.

`run_refines` is the forward simulation rule: a relation between the two states that
every single call keeps is kept by every run, and no run of the component is
undefined; `run_refines_within` is the rule for a component that keeps up with the
specification only within bounds.  `invariant_of_reflTransGen` is the same induction for a
component that is given by a step relation instead, as interleaved parties are.

`Each` and `Throughout` speak of all the calls and of all the states of a run, and
`each_iff_each` and `throughout_iff_each` reduce that to one call.
-/
import Mathlib.Logic.Relation

namespace Machine

variable {σ τ Op Out : Type*}

/-- Carry out the calls one after another and collect the answers. -/
def run (step : σ → Op → Option (Out × σ)) : σ → List Op → Option (List Out × σ)
  | s, [] => some ([], s)
  | s, op :: ops =>
      match step s op with
      | none => none
      | some (out, s') =>
          match run step s' ops with
          | none => none
          | some (outs, s'') => some (out :: outs, s'')

/-- The runs a specification allows. -/
inductive Run (spec : τ → Op → Out → τ → Prop) : τ → List Op → List Out → τ → Prop
  | nil (q : τ) : Run spec q [] [] q
  | cons {q q' q'' : τ} {op : Op} {out : Out} {ops : List Op} {outs : List Out}
      (hstep : spec q op out q') (hrest : Run spec q' ops outs q'') :
      Run spec q (op :: ops) (out :: outs) q''

section Run

variable {step : σ → Op → Option (Out × σ)}

@[simp] theorem run_nil (s : σ) : run step s [] = some ([], s) := rfl

theorem run_cons {s s' : σ} {op : Op} {out : Out} (ops : List Op)
    (h : step s op = some (out, s')) :
    run step s (op :: ops) = (run step s' ops).map fun r => (out :: r.1, r.2) := by
  simp only [run, h]
  cases hr : run step s' ops with
  | none => rfl
  | some r => rfl

/-- What one more call at the front of a run can have done. -/
theorem run_cons_eq_some {s s'' : σ} {op : Op} {ops : List Op} {outs : List Out}
    (h : run step s (op :: ops) = some (outs, s'')) :
    ∃ out s' outs', step s op = some (out, s') ∧ run step s' ops = some (outs', s'') ∧
      outs = out :: outs' := by
  rw [run] at h
  split at h
  · cases h
  · next out s' hstep =>
      split at h
      · cases h
      · next outs' s₂ hrest =>
          obtain ⟨rfl, rfl⟩ := by simpa using h
          exact ⟨out, s', outs', hstep, hrest, rfl⟩

/-- **An invariant every call keeps holds after every run.** -/
theorem run_invariant {I : σ → Prop}
    (hstep : ∀ s op out s', I s → step s op = some (out, s') → I s') :
    ∀ (ops : List Op) (s : σ) (outs : List Out) (s' : σ), I s →
      run step s ops = some (outs, s') → I s' := by
  intro ops
  induction ops with
  | nil =>
      intro s outs s' hs h
      obtain ⟨-, rfl⟩ := by simpa using h
      exact hs
  | cons op ops ih =>
      intro s outs s'' hs h
      obtain ⟨out, s', outs', h1, hrest, -⟩ := run_cons_eq_some h
      exact ih s' outs' s'' (hstep s op out s' hs h1) hrest

/-- **Forward simulation within bounds.**  As long as every run the specification allows
stays in `G`, calls that are matched there suffice. -/
theorem run_refines_within {spec : τ → Op → Out → τ → Prop} {R : σ → τ → Prop}
    {P : Op → Prop} {G : τ → Prop}
    (hsim : ∀ s q op, P op → G q → R s q → ∃ out s' q',
      step s op = some (out, s') ∧ spec q op out q' ∧ R s' q') :
    ∀ (ops : List Op) (s : σ) (q : τ), (∀ op ∈ ops, P op) →
      (∀ pre outs q', pre <+: ops → Run spec q pre outs q' → G q') → R s q →
      ∃ outs s' q', run step s ops = some (outs, s') ∧ Run spec q ops outs q' ∧
        R s' q' ∧ G q' := by
  intro ops
  induction ops with
  | nil =>
      intro s q _ hG hR
      exact ⟨[], s, q, rfl, Run.nil q, hR, hG [] [] q (List.prefix_refl []) (Run.nil q)⟩
  | cons op ops ih =>
      intro s q hP hG hR
      have hq : G q := hG [] [] q List.nil_prefix (Run.nil q)
      obtain ⟨out, s', q', h1, hspec, hR'⟩ := hsim s q op (hP op (by simp)) hq hR
      obtain ⟨outs, s'', q'', hrun, hRun, hR'', hG''⟩ :=
        ih s' q' (fun op' hop => hP op' (by simp [hop]))
          (fun pre outs q'' hpre hRun =>
            hG (op :: pre) (out :: outs) q'' ((List.prefix_cons_inj op).mpr hpre)
              (Run.cons hspec hRun)) hR'
      refine ⟨out :: outs, s'', q'', ?_, Run.cons hspec hRun, hR'', hG''⟩
      rw [run_cons ops h1, hrun]
      rfl

/-- **Forward simulation.**  If every call of the component is defined and matched by a
call of the specification, every run is defined and is a run of the specification. -/
theorem run_refines {spec : τ → Op → Out → τ → Prop} {R : σ → τ → Prop} {P : Op → Prop}
    (hsim : ∀ s q op, P op → R s q → ∃ out s' q',
      step s op = some (out, s') ∧ spec q op out q' ∧ R s' q')
    (ops : List Op) (s : σ) (q : τ) (hP : ∀ op ∈ ops, P op) (hR : R s q) :
    ∃ outs s' q', run step s ops = some (outs, s') ∧ Run spec q ops outs q' ∧ R s' q' := by
  obtain ⟨outs, s', q', hrun, hRun, hR', -⟩ := run_refines_within (G := fun _ => True)
    (fun s q op hop _ hR => hsim s q op hop hR) ops s q hP (fun _ _ _ _ _ => trivial) hR
  exact ⟨outs, s', q', hrun, hRun, hR'⟩

/-- The runs of a component are those it allows as its own specification. -/
theorem run_of_Run {s t : σ} {ops : List Op} {outs : List Out}
    (h : Run (fun s op out t => step s op = some (out, t)) s ops outs t) :
    run step s ops = some (outs, t) := by
  induction h with
  | nil s => rfl
  | @cons s s' t op out ops outs hstep _ ih =>
      rw [run_cons ops hstep, ih]
      rfl

/-- **Total runs within bounds.**  As long as every state a run comes to is in `G`, calls that
are defined there and keep the invariant suffice. -/
theorem run_within {I G : σ → Prop} {P : Op → Prop}
    (hstep : ∀ s op, P op → I s → G s → ∃ out t, step s op = some (out, t) ∧ I t)
    (ops : List Op) (s : σ) (hP : ∀ op ∈ ops, P op)
    (hG : ∀ pre outs t, pre <+: ops → run step s pre = some (outs, t) → G t) (hI : I s) :
    ∃ outs t, run step s ops = some (outs, t) ∧ I t ∧ G t := by
  -- the component is its own specification
  have hsim : ∀ s q op, P op → G q → s = q ∧ I s → ∃ out s' q', step s op = some (out, s') ∧
      step q op = some (out, q') ∧ s' = q' ∧ I s' := by
    rintro s q op hop hq ⟨rfl, hs⟩
    obtain ⟨out, t, h, ht⟩ := hstep s op hop hs hq
    exact ⟨out, t, t, h, h, rfl, ht⟩
  obtain ⟨outs, t, q, hrun, -, ⟨rfl, ht⟩, hG'⟩ := run_refines_within hsim ops s s hP
    (fun pre outs t hpre hRun => hG pre outs t hpre (run_of_Run hRun)) ⟨rfl, hI⟩
  exact ⟨outs, t, hrun, ht, hG'⟩

/-- **Total runs.** -/
theorem run_total {I : σ → Prop} {P : Op → Prop}
    (hstep : ∀ s op, P op → I s → ∃ out t, step s op = some (out, t) ∧ I t)
    (ops : List Op) (s : σ) (hP : ∀ op ∈ ops, P op) (hI : I s) :
    ∃ outs t, run step s ops = some (outs, t) ∧ I t := by
  obtain ⟨outs, t, hrun, ht, -⟩ := run_within (G := fun _ => True)
    (fun s op hop hs _ => hstep s op hop hs) ops s hP (fun _ _ _ _ _ => trivial) hI
  exact ⟨outs, t, hrun, ht⟩

end Run

/-! ### Along a run -/

/-- Every call of a run meets `P` in the state it is made in. -/
def Each (step : σ → Op → Option (Out × σ)) (P : σ → Op → Prop) : σ → List Op → Prop
  | _, [] => True
  | s, op :: ops => P s op ∧ ∀ out s', step s op = some (out, s') → Each step P s' ops

/-- `P` holds in every state of a run, the first and the last one included. -/
def Throughout (step : σ → Op → Option (Out × σ)) (P : σ → Prop) : σ → List Op → Prop
  | s, [] => P s
  | s, op :: ops => P s ∧ ∀ out s', step s op = some (out, s') → Throughout step P s' ops

section Along

variable {step : σ → Op → Option (Out × σ)} {I : σ → Prop}

/-- Two properties of a call that are the same wherever the run may be are the same along
the run.  The first one may be what keeps the run there. -/
theorem each_iff_each {P Q : σ → Op → Prop}
    (hinv : ∀ s op out s', I s → P s op → step s op = some (out, s') → I s')
    (hiff : ∀ s op, I s → (P s op ↔ Q s op)) :
    ∀ (ops : List Op) (s : σ), I s → (Each step P s ops ↔ Each step Q s ops) := by
  intro ops
  induction ops with
  | nil => intro s _; exact Iff.rfl
  | cons op ops ih =>
      intro s hs
      rw [Each, Each, ← hiff s op hs]
      refine and_congr_right fun hP => ?_
      have hnext : ∀ out s', step s op = some (out, s') →
          (Each step P s' ops ↔ Each step Q s' ops) :=
        fun out s' h => ih s' (hinv s op out s' hs hP h)
      exact forall₂_congr fun out s' => forall_congr' fun h => hnext out s' h

/-- What holds throughout a run holds in its last state. -/
theorem last_of_throughout {P : σ → Prop} :
    ∀ (ops : List Op) (s : σ) (outs : List Out) (t : σ), Throughout step P s ops →
      run step s ops = some (outs, t) → P t := by
  intro ops
  induction ops with
  | nil =>
      intro s outs t hP hrun
      cases hrun
      exact hP
  | cons op ops ih =>
      intro s outs t hP hrun
      obtain ⟨out, s', outs', h, hrest, -⟩ := run_cons_eq_some hrun
      exact ih s' outs' t (hP.2 out s' h) hrest

/-- A property of the states holds along a run that is defined exactly when each call does
what brings it to the next state. -/
theorem throughout_iff_each {P : σ → Prop} {Q : σ → Op → Prop}
    (hinv : ∀ s op out s', I s → step s op = some (out, s') → I s')
    (hstep : ∀ s op out s', I s → P s → step s op = some (out, s') → (P s' ↔ Q s op)) :
    ∀ (ops : List Op) (s : σ), I s → P s → (run step s ops).isSome →
      (Throughout step P s ops ↔ Each step Q s ops) := by
  intro ops
  induction ops with
  | nil => intro s _ hP _; exact iff_of_true hP trivial
  | cons op ops ih =>
      intro s hs hP hrun
      obtain ⟨⟨outs, t⟩, hrun⟩ := Option.isSome_iff_exists.mp hrun
      obtain ⟨out, s', outs', h, hrest, -⟩ := run_cons_eq_some hrun
      have hrest' : (run step s' ops).isSome := by rw [hrest]; rfl
      have hs' := hinv s op out s' hs h
      have hiff := hstep s op out s' hs hP h
      have hfirst : ∀ P' : σ → Prop,
          (∀ out s', step s op = some (out, s') → P' s') ↔ P' s' := by
        intro P'
        constructor
        · intro hall
          exact hall out s' h
        · intro hP' out₁ s₁ h₁
          rw [h] at h₁
          cases h₁
          exact hP'
      rw [Throughout, Each, hfirst (Throughout step P · ops), hfirst (Each step Q · ops)]
      constructor
      · rintro ⟨-, hthrough⟩
        have hP' : P s' := by
          cases ops with
          | nil => exact hthrough
          | cons op' ops => exact hthrough.1
        exact ⟨hiff.mp hP', (ih s' hs' hP' hrest').mp hthrough⟩
      · rintro ⟨hQ, heach⟩
        exact ⟨hP, (ih s' hs' (hiff.mpr hQ) hrest').mpr heach⟩

end Along

/-- An invariant every step of a relation keeps holds in every state it reaches. -/
theorem invariant_of_reflTransGen {r : σ → σ → Prop} {I : σ → Prop} {s t : σ} (h0 : I s)
    (hstep : ∀ a b, I a → r a b → I b) (h : Relation.ReflTransGen r s t) : I t := by
  induction h with
  | refl => exact h0
  | tail _ hr ih => exact hstep _ _ ih hr

/-! ### Schedules -/

section Schedule

variable {next : σ → Op → Option σ} {ok : σ → Op → Prop} [∀ s op, Decidable (ok s op)]

/-- The state after the moves of a schedule, each of which `ok` has to allow. -/
def followIf (next : σ → Op → Option σ) (ok : σ → Op → Prop) [∀ s op, Decidable (ok s op)] :
    σ → List Op → Option σ
  | s, [] => some s
  | s, op :: ops => if ok s op then (next s op).bind fun t => followIf next ok t ops else none

theorem reach_of_followIf {t : σ} : ∀ (ops : List Op) (s : σ), followIf next ok s ops = some t →
    Relation.ReflTransGen (fun a b => ∃ op, ok a op ∧ next a op = some b) s t := by
  intro ops
  induction ops with
  | nil =>
      intro s h
      cases h
      exact .refl
  | cons op ops ih =>
      intro s h
      rw [followIf] at h
      by_cases hok : ok s op
      · rw [if_pos hok] at h
        obtain ⟨s', hnext, hrest⟩ := Option.bind_eq_some_iff.mp h
        exact .head ⟨op, hok, hnext⟩ (ih s' hrest)
      · rw [if_neg hok] at h
        cases h

/-- A schedule whose moves are only asked to be possible. -/
theorem reach_of_follow {s t : σ} {ops : List Op}
    (h : followIf next (fun _ _ => True) s ops = some t) :
    Relation.ReflTransGen (fun a b => ∃ op, next a op = some b) s t :=
  Relation.ReflTransGen.mono (fun _ _ ⟨op, _, hnext⟩ => ⟨op, hnext⟩) _ _ (reach_of_followIf ops s h)

end Schedule

end Machine
