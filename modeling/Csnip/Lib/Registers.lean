/-
Macros over a few registers whose names are handed on.

An unrolled loop often writes its round as a macro over the names of its registers and, instead
of moving the registers up by one after each round, hands the names over in another order the
next time.  `turns` is what such a text does: its round `i` is the macro expanded with every
name moved `i` places round.  `rounds` is the loop that was meant, with one order of the names
and the registers moved.  `turns_eq` says that the two agree once the names have come round.
-/
import Mathlib.Algebra.Group.Fin.Basic
import Mathlib.Algebra.GroupWithZero.Nat

namespace Registers

variable {n : ℕ} {α : Type*}

/-- An assignment in the body of a macro: the name on its left and the value of its right side. -/
structure Assign (n : ℕ) (α : Type*) where
  dst : Fin n
  value : (Fin n → α) → α

/-- The macro expanded, its names standing for the registers `names`. -/
def expand (names : Fin n → Fin n) (body : List (Assign n α)) (r : Vector α n) : Vector α n :=
  body.foldl (fun r a => r.set (names a.dst) (a.value fun j => r[names j])) r

/-- The registers in the order of their names. -/
def through (names : Fin n → Fin n) (r : Vector α n) : Vector α n :=
  Vector.ofFn fun j => r[names j]

@[simp] theorem expand_nil (names : Fin n → Fin n) (r : Vector α n) : expand names [] r = r := rfl

@[simp] theorem expand_cons (names : Fin n → Fin n) (a : Assign n α) (body : List (Assign n α))
    (r : Vector α n) : expand names (a :: body) r
      = expand names body (r.set (names a.dst) (a.value fun j => r[names j])) := rfl

@[simp] theorem getElem_through (names : Fin n → Fin n) (r : Vector α n) (j : Fin n) :
    (through names r)[j] = r[names j] := by
  simp [through]

@[simp] theorem through_id (r : Vector α n) : through id r = r := by
  apply Vector.ext
  intro j hj
  exact getElem_through id r ⟨j, hj⟩

/-- Two files of registers put together one by one. -/
theorem ofFn_eq_zipWith (f : α → α → α) (u v : Vector α n) :
    (Vector.ofFn fun j => f u[j] v[j]) = u.zipWith f v := by
  apply Vector.ext
  intro j hj
  simp

theorem through_through (names names' : Fin n → Fin n) (r : Vector α n) :
    through names (through names' r) = through (names' ∘ names) r := by
  apply Vector.ext
  intro j hj
  have hboth : (through (names' ∘ names) r)[j] = r[names' (names ⟨j, hj⟩)] :=
    getElem_through _ r ⟨j, hj⟩
  have hfirst : (through names (through names' r))[j] = (through names' r)[names ⟨j, hj⟩] :=
    getElem_through names _ ⟨j, hj⟩
  rw [hboth, hfirst, getElem_through]

theorem through_set {names : Fin n → Fin n} (hinj : Function.Injective names) (r : Vector α n)
    (k : Fin n) (v : α) : through names (r.set (names k) v) = (through names r).set k v := by
  apply Vector.ext
  intro j hj
  have hname : (through names (r.set (names k) v))[j] = (r.set (names k) v)[names ⟨j, hj⟩] :=
    getElem_through names _ ⟨j, hj⟩
  have hold : (through names r)[j] = r[names ⟨j, hj⟩] := getElem_through names r ⟨j, hj⟩
  rw [hname, Vector.getElem_set, Fin.getElem_fin, Vector.getElem_set, hold]
  by_cases h : k.val = j
  · obtain rfl : k = ⟨j, hj⟩ := Fin.ext h
    rw [if_pos rfl, if_pos rfl]
  · have hne : (names k).val ≠ (names ⟨j, hj⟩).val := fun heq =>
      h (Fin.val_eq_of_eq (hinj (Fin.ext heq)))
    rw [if_neg h, if_neg hne, Fin.getElem_fin]

/-- Through its own names, a macro does what it does under any others. -/
theorem through_expand {names : Fin n → Fin n} (hinj : Function.Injective names)
    (body : List (Assign n α)) (r : Vector α n) :
    through names (expand names body r) = expand id body (through names r) := by
  induction body generalizing r with
  | nil => rfl
  | cons a body ih =>
      have hvalue : (fun j => (through names r)[id j]) = fun j => r[names j] :=
        funext fun j => getElem_through names r j
      rw [expand_cons, ih, expand_cons, through_set hinj, hvalue]
      rfl

section Turns

variable [NeZero n]

/-- The names of round `i`, each `i` places before its own. -/
def turned (i : ℕ) : Fin n → Fin n := fun j => j - Fin.ofNat n i

/-- Every register in the place of the one before it. -/
def shift (v : Vector α n) : Vector α n := through (fun j => j - 1) v

/-- The rounds of the unrolled text, each with its names. -/
def turns (body : ℕ → List (Assign n α)) (count : ℕ) (r : Vector α n) : Vector α n :=
  (List.range count).foldl (fun r i => expand (turned i) (body i) r) r

/-- The rounds of the loop. -/
def rounds (body : ℕ → List (Assign n α)) (count : ℕ) (v : Vector α n) : Vector α n :=
  (List.range count).foldl (fun v i => shift (expand id (body i) v)) v

theorem turned_injective (i : ℕ) : Function.Injective (turned i : Fin n → Fin n) :=
  sub_left_injective

/-- The names have come round. -/
theorem turned_of_dvd {i : ℕ} (h : n ∣ i) : (turned i : Fin n → Fin n) = id := by
  have hzero : Fin.ofNat n i = 0 := by
    apply Fin.ext
    exact Nat.mod_eq_zero_of_dvd h
  funext j
  rw [turned, hzero, sub_zero, id]

theorem turned_succ (i : ℕ) :
    (turned (i + 1) : Fin n → Fin n) = turned i ∘ fun j => j - 1 := by
  have hsucc : Fin.ofNat n (i + 1) = 1 + Fin.ofNat n i := by
    apply Fin.ext
    rw [Fin.val_add, Fin.val_one']
    simp only [Fin.ofNat_eq_cast, Fin.val_natCast]
    rw [Nat.mod_add_mod, Nat.add_mod_mod, Nat.add_comm]
  funext j
  rw [turned, Function.comp_apply, turned, hsucc, sub_sub]

theorem turns_succ (body : ℕ → List (Assign n α)) (i : ℕ) (r : Vector α n) :
    turns body (i + 1) r = expand (turned i) (body i) (turns body i r) := by
  rw [turns, List.range_succ, List.foldl_append]
  rfl

theorem rounds_succ (body : ℕ → List (Assign n α)) (i : ℕ) (v : Vector α n) :
    rounds body (i + 1) v = shift (expand id (body i) (rounds body i v)) := by
  rw [rounds, List.range_succ, List.foldl_append]
  rfl

/-- Before round `i` the text has, through the names of that round, what the loop has. -/
theorem through_turns (body : ℕ → List (Assign n α)) (r : Vector α n) (i : ℕ) :
    through (turned i) (turns body i r) = rounds body i r := by
  induction i with
  | zero =>
      rw [turned_of_dvd (Nat.dvd_zero n), through_id]
      rfl
  | succ i ih =>
      rw [turned_succ, ← through_through, turns_succ, through_expand (turned_injective i), ih,
        rounds_succ]
      rfl

/-- **An unrolled text whose names have come round did what the loop does.** -/
theorem turns_eq (body : ℕ → List (Assign n α)) {count : ℕ} (h : n ∣ count) (r : Vector α n) :
    turns body count r = rounds body count r := by
  rw [← through_turns, turned_of_dvd h, through_id]

/-- A loop is the steps it takes. -/
theorem rounds_eq_foldl {body : ℕ → List (Assign n α)} {step : ℕ → Vector α n → Vector α n}
    {count : ℕ} (h : ∀ i < count, ∀ v, shift (expand id (body i) v) = step i v) (v : Vector α n) :
    rounds body count v = (List.range count).foldl (fun v i => step i v) v := by
  induction count with
  | zero => rfl
  | succ count ih =>
      rw [rounds_succ, ih fun i hi => h i (Nat.lt_succ_of_lt hi), h count (Nat.lt_succ_self count),
        List.range_succ, List.foldl_append]
      rfl

end Turns

end Registers
