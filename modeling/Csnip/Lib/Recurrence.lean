/-
Tables filled by a recurrence.

`fill` computes the entries of a table one after the other, each from those before it.
`fillCyclic` does so with a few cells, of which entry `i` takes the one that is `i` places round:
it keeps only the last entries.  A sequence solves the recurrence up to a bound when each entry is
what the recurrence makes of it.  There is one: a table comes to hold it (`solves_fill`), and so do
the cells as far as they reach (`getD_fillCyclic`), when the recurrence looks no further back than
there are cells.
-/
import Mathlib.Data.Nat.ModEq

namespace Recurrence

variable {α : Type*}

/-- The recurrence looks at the last `m` entries at most. -/
def LooksBack (m : ℕ) (next : ℕ → (ℕ → α) → α) : Prop :=
  ∀ i t t', (∀ j < i, i ≤ j + m → t j = t' j) → next i t = next i t'

/-- The entries below `n` are those of the recurrence. -/
def Solves (next : ℕ → (ℕ → α) → α) (n : ℕ) (w : ℕ → α) : Prop := ∀ i < n, w i = next i w

/-- The entries below `n` computed in order, in a table that held anything. -/
def fill (d : α) (next : ℕ → (ℕ → α) → α) (n : ℕ) (table : List α) : List α :=
  (List.range n).foldl (fun table i => table.set i (next i fun j => table.getD j d)) table

/-- The same in `m` cells. -/
def fillCyclic (d : α) (m : ℕ) (next : ℕ → (ℕ → α) → α) (n : ℕ) (cells : List α) : List α :=
  (List.range n).foldl
    (fun cells i => cells.set (i % m) (next i fun j => cells.getD (j % m) d)) cells

variable {d : α} {next : ℕ → (ℕ → α) → α}

theorem fill_succ (n : ℕ) (table : List α) : fill d next (n + 1) table
    = (fill d next n table).set n (next n fun j => (fill d next n table).getD j d) := by
  rw [fill, List.range_succ, List.foldl_append]
  rfl

theorem fillCyclic_succ (m n : ℕ) (cells : List α) : fillCyclic d m next (n + 1) cells
    = (fillCyclic d m next n cells).set (n % m)
        (next n fun j => (fillCyclic d m next n cells).getD (j % m) d) := by
  rw [fillCyclic, List.range_succ, List.foldl_append]
  rfl

@[simp] theorem length_fillCyclic (m n : ℕ) (cells : List α) :
    (fillCyclic d m next n cells).length = cells.length := by
  induction n with
  | zero => rfl
  | succ n ih => rw [fillCyclic_succ, List.length_set, ih]

/-- There is one solution at most. -/
theorem Solves.unique {m n : ℕ} (hback : LooksBack m next) {w w' : ℕ → α}
    (h : Solves next n w) (h' : Solves next n w') : ∀ i < n, w i = w' i := by
  intro i
  induction i using Nat.strong_induction_on with
  | _ i ih =>
      intro hi
      rw [h i hi, h' i hi]
      exact hback i w w' fun j hj _ => ih j hj (hj.trans hi)

/-- Places that lie less than a round apart are different cells. -/
theorem mod_ne {m i j : ℕ} (hlt : j < i) (hwin : i < j + m) : j % m ≠ i % m := by
  intro h
  have hdvd : m ∣ i - j := (Nat.modEq_iff_dvd' hlt.le).mp h
  have hle := Nat.le_of_dvd (by omega) hdvd
  omega

theorem getD_set_self {l : List α} {i : ℕ} (h : i < l.length) (a : α) :
    (l.set i a).getD i d = a := by
  rw [List.getD_eq_getElem?_getD, List.getElem?_set_self h, Option.getD_some]

theorem getD_set_ne {l : List α} {i j : ℕ} (h : i ≠ j) (a : α) :
    (l.set i a).getD j d = l.getD j d := by
  rw [List.getD_eq_getElem?_getD, List.getElem?_set_ne h, List.getD_eq_getElem?_getD]

/-- **The cells hold the last entries of the solution.** -/
theorem getD_fillCyclic {m : ℕ} (hm : 0 < m) (hback : LooksBack m next) {cells : List α}
    (hcells : cells.length = m) {w : ℕ → α} (n : ℕ) (hw : Solves next n w) :
    ∀ j < n, n ≤ j + m → (fillCyclic d m next n cells).getD (j % m) d = w j := by
  induction n with
  | zero =>
      intro j hj _
      exact absurd hj (Nat.not_lt_zero j)
  | succ n ih =>
      intro j hj hwin
      have hbefore := ih fun i hi => hw i (Nat.lt_succ_of_lt hi)
      rw [fillCyclic_succ]
      rcases Nat.lt_succ_iff_lt_or_eq.mp hj with hlt | rfl
      · rw [getD_set_ne (mod_ne hlt (by omega)).symm, hbefore j hlt (by omega)]
      · rw [getD_set_self (by rw [length_fillCyclic, hcells]; exact Nat.mod_lt _ hm),
          hw j (Nat.lt_succ_self j)]
        exact hback _ _ _ hbefore

@[simp] theorem length_fill (n : ℕ) (table : List α) :
    (fill d next n table).length = table.length := by
  induction n with
  | zero => rfl
  | succ n ih => rw [fill_succ, List.length_set, ih]

/-- **What a table comes to hold is a solution.** -/
theorem solves_fill {m : ℕ} (hback : LooksBack m next) {table : List α} {n : ℕ}
    (hn : n ≤ table.length) : Solves next n fun j => (fill d next n table).getD j d := by
  induction n with
  | zero =>
      intro i hi
      exact absurd hi (Nat.not_lt_zero i)
  | succ n ih =>
      intro i hi
      have hsame : ∀ j < n,
          (fill d next n table).getD j d = (fill d next (n + 1) table).getD j d := by
        intro j hj
        rw [fill_succ, getD_set_ne hj.ne']
      have hnext : next i (fun j => (fill d next n table).getD j d)
          = next i fun j => (fill d next (n + 1) table).getD j d :=
        hback i _ _ fun j hj _ => hsame j (by omega)
      rcases Nat.lt_succ_iff_lt_or_eq.mp hi with hlt | rfl
      · exact (hsame i hlt).symm.trans ((ih (by omega) i hlt).trans hnext)
      · have hroom : i < (fill d next i table).length := by
          rw [length_fill]
          omega
        have hset : (fill d next (i + 1) table).getD i d
            = next i fun j => (fill d next i table).getD j d := by
          rw [fill_succ, getD_set_self hroom]
        exact hset.trans hnext

/-- The table holds every solution. -/
theorem getD_fill {m n : ℕ} (hback : LooksBack m next) {table : List α} (hn : n ≤ table.length)
    {w : ℕ → α} (hw : Solves next n w) : ∀ j < n, (fill d next n table).getD j d = w j :=
  (solves_fill hback hn).unique hback hw

end Recurrence
