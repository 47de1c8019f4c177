/-
How the capacity follows the size.

The capacity is doubled when no slot is free, and halved when an item is deleted and the size
is a quarter of the capacity.  That test is an equality; `Tight` is the invariant that it is
never stepped over, so that the space stays in proportion to the items.

When items are only added, the capacity is the initial one, doubled some times.  The product
is an `int`: growing is safe exactly as long as one of these capacities holds the items.
-/
import Csnip.Vector.Refine
import Mathlib.Algebra.Order.Ring.Int

namespace Csnip

/-- The calls that add an item. -/
def VecOp.IsAdd {α : Type*} : VecOp α → Prop
  | .add _ | .insert _ _ => True
  | .set _ _ | .get _ | .delete _ | .clear => False

namespace Vec

variable {α : Type*}

/-! ### Proportion -/

/-- The space of a vector is in proportion to its size, or the vector has never been larger
than at first. -/
structure Tight (v : Vec α) : Prop where
  size_le : v.size ≤ v.capacity
  capacity_pos : 1 ≤ v.capacity
  tight : v.capacity ≤ max v.initialCapacity 3 ∨ v.capacity / 4 < v.size

section

variable {v v' : Vec α} {l : List (Option α)}

/-- An item more, in a block that has grown if it was full. -/
theorem Tight.grown (h : v.Tight) (hsize : v'.size = v.size + 1)
    (hcap : v'.capacity = v.grownCapacity) (hinit : v'.initialCapacity = v.initialCapacity) :
    v'.Tight := by
  obtain ⟨hle, hpos, htight⟩ := h
  have hgrown : v.size + 1 ≤ v.grownCapacity ∧ 1 ≤ v.grownCapacity ∧
      (v.grownCapacity ≤ max v.initialCapacity 3 ∨ v.grownCapacity / 4 < v.size + 1) := by
    unfold grownCapacity
    by_cases hfull : v.capacity = v.size
    · rw [if_pos hfull]
      omega
    · rw [if_neg hfull]
      omega
  constructor <;> rw [hcap]
  · omega
  · omega
  · rw [hsize, hinit]
    exact hgrown.2.2

theorem Tight.same (h : v.Tight) (hsize : v'.size = v.size) (hcap : v'.capacity = v.capacity)
    (hinit : v'.initialCapacity = v.initialCapacity) : v'.Tight where
  size_le := by rw [hsize, hcap]; exact h.size_le
  capacity_pos := by rw [hcap]; exact h.capacity_pos
  tight := by rw [hsize, hcap, hinit]; exact h.tight

/-- An item less, in a block that is halved if that leaves a quarter of it. -/
theorem Tight.shrunk (h : v.Tight) (hlo : 0 ≤ v'.size) (hsize : v'.size = v.size - 1)
    (hcap : v'.capacity = if v.size - 1 > 0 ∧ v.size - 1 = v.capacity / 4 then v.capacity / 2
      else v.capacity) (hinit : v'.initialCapacity = v.initialCapacity) : v'.Tight := by
  obtain ⟨hle, hpos, htight⟩ := h
  by_cases hshrink : v.size - 1 > 0 ∧ v.size - 1 = v.capacity / 4
  · -- a quarter of the capacity is more than a quarter of its half
    rw [if_pos hshrink] at hcap
    exact ⟨by omega, by omega, .inr (by omega)⟩
  · rw [if_neg hshrink] at hcap
    exact ⟨by omega, by omega, by rw [hcap, hinit, hsize]; omega⟩

/-- **One call** whose block is granted keeps the space in proportion. -/
theorem tight_after (h : v.Tight) {c : VecCall α} (hgrant : c.realloc.isSome)
    (hsize : v'.size = c.op.sizeAfter v.size) (hcap : v'.capacity = v.capacityAfter c)
    (hinit : v'.initialCapacity = v.initialCapacity) : v'.Tight := by
  obtain ⟨op, realloc⟩ := c
  cases op with
  | add item => exact h.grown hsize hcap hinit
  | insert index item =>
      by_cases hin : 0 ≤ index ∧ index < v.size
      · exact h.grown (hsize.trans (if_pos hin)) (hcap.trans (if_pos hin)) hinit
      · exact h.same (hsize.trans (if_neg hin)) (hcap.trans (if_neg hin)) hinit
  | delete index =>
      by_cases hin : 0 ≤ index ∧ index < v.size
      · have hsize : v'.size = v.size - 1 := hsize.trans (if_pos hin)
        have hcap : v'.capacity = if v.size - 1 > 0 ∧ v.size - 1 = v.capacity / 4 then
            v.capacity / 2 else v.capacity := by
          rw [hcap, capacityAfter]
          dsimp only
          simp only [hin, hgrant, and_self, true_and]
        exact h.shrunk (by omega) hsize hcap hinit
      · have hcap : v'.capacity = v.capacity := hcap.trans (if_neg fun hall => hin hall.1)
        exact h.same (hsize.trans (if_neg hin)) hcap hinit
  | set index item | get index => exact h.same hsize hcap hinit
  | clear =>
      have hsize : v'.size = 0 := hsize
      have hcap : v'.capacity = max v.initialCapacity 1 := hcap.trans (if_pos hgrant)
      exact ⟨by omega, by omega, .inl (by omega)⟩

end

/-- **The space stays in proportion to the size.**  From a vector of any initial capacity,
every run of calls with granted blocks is defined as long as the capacity stays below 2^30.
In the state reached the size is within the capacity, and the capacity is at most the initial
one, or 3, or a quarter of it is below the size. -/
theorem space_proportional (capacity : ℤ) (fresh : ℕ → Option α) {calls : List (VecCall α)}
    (hgrant : ∀ c ∈ calls, c.realloc.isSome)
    (hbound : ∀ pre outs v, pre <+: calls →
      Machine.run Vec.call (Vec.init capacity (some fresh)).2 pre = some (outs, v) →
      v.capacity < 2 ^ 30) :
    ∃ outs v, Machine.run Vec.call (Vec.init capacity (some fresh)).2 calls = some (outs, v) ∧
      v.size ≤ v.capacity ∧ 1 ≤ v.capacity ∧
      (v.capacity ≤ max (initialCapacityOf capacity) 3 ∨ v.capacity / 4 < v.size) := by
  obtain ⟨v₀, hnew, hv₀, hcap₀, hinit₀⟩ := init_spec capacity fresh
  rw [hnew] at hbound ⊢
  have hstep : ∀ (v : Vec α) (c : VecCall α), c.realloc.isSome →
      ((∃ l, v.Stores l) ∧ v.Tight ∧ v.initialCapacity = initialCapacityOf capacity) →
      v.capacity < 2 ^ 30 → ∃ out v', v.call c = some (out, v') ∧
        (∃ l, v'.Stores l) ∧ v'.Tight ∧ v'.initialCapacity = initialCapacityOf capacity := by
    rintro v c hc ⟨⟨l, hv⟩, htight, hinit⟩ hsmall
    have hsize := hv.size
    have hle := hv.size_le
    have hshort := length_onList_le (l := l) v.initialCapacity c.op
    have hlen := length_onList (l := l) v.initialCapacity c.op
    obtain ⟨out, v', hcall, hv', hcap, hinit', -⟩ := call_stores hv (c := c) (by omega) (by omega)
      fun _ => ⟨hc, hsmall⟩
    refine ⟨out, v', hcall, ⟨_, hv'⟩, ?_, hinit'.trans hinit⟩
    refine tight_after htight hc ?_ hcap hinit'
    rw [hv'.size, hlen, hsize]
  obtain ⟨outs, v, hrun, ⟨-, htight, hinit⟩, -⟩ := Machine.run_within
    (G := fun v : Vec α => v.capacity < 2 ^ 30) hstep calls v₀ hgrant hbound
    ⟨⟨[], hv₀.stores⟩, ⟨hv₀.stores.size_le, hv₀.capacity_pos, .inl (by omega)⟩, hinit₀⟩
  refine ⟨outs, v, hrun, htight.size_le, htight.capacity_pos, ?_⟩
  rw [← hinit]
  exact htight.tight

/-- Two items, on a vector with one slot. -/
theorem space_proportional_two :
    ∃ outs v, Machine.run Vec.call (Vec.init 1 (some fun _ => none)).2
        [(⟨.add (some 7), some fun _ => none⟩ : VecCall ℕ), ⟨.add (some 8), some fun _ => none⟩]
        = some (outs, v) ∧
      v.size ≤ v.capacity ∧ 1 ≤ v.capacity ∧
      (v.capacity ≤ max (initialCapacityOf 1) 3 ∨ v.capacity / 4 < v.size) :=
  space_proportional 1 _ (by simp) (by
    intro pre outs v hpre hrun
    rcases List.prefix_cons_iff.mp hpre with rfl | ⟨one, rfl, hone⟩
    · cases hrun
      decide
    · rcases List.prefix_cons_iff.mp hone with rfl | ⟨two, rfl, htwo⟩
      · cases hrun
        decide
      · rw [List.prefix_nil.mp htwo] at hrun
        cases hrun
        decide)

/-! ### Growing only -/

/-- The call adds an item, and is granted the block it may ask for. -/
def Adds (c : VecCall α) : Prop :=
  c.realloc.isSome ∧ c.op.IsAdd

/-- The list after the calls. -/
def listAfter (initialCapacity : ℤ) (calls : List (VecCall α)) (l : List (Option α)) :
    List (Option α) :=
  calls.foldl (fun l c => (c.op.onList initialCapacity l).2) l

/-- **The call grows the vector safely**: it is defined and cuts no item off, and if it asks
for a larger block, the capacity it asks for does not wrap, and there is a slot for the
item. -/
def GrowsSafely (v : Vec α) (c : VecCall α) : Prop :=
  ∃ out v', v.call c = some (out, v') ∧
    v'.list = (c.op.onList v.initialCapacity v.list).2 ∧
    (v.Grows c.op → i32 (v.capacity * 2) = v.capacity * 2 ∧ v.size < v'.capacity)

section

variable {v : Vec α} {l : List (Option α)} {c : VecCall α}

theorem i32_lt (n : ℤ) : i32 n < 2 ^ 31 := by
  unfold i32
  rw [Int.bmod_eq_emod]
  split <;> omega

/-- Adding does not make the list shorter. -/
theorem length_le_onList {op : VecOp α} (hadd : op.IsAdd) (initialCapacity : ℤ) :
    l.length ≤ (op.onList initialCapacity l).2.length := by
  have hlen := length_onList (l := l) initialCapacity op
  cases op with
  | add item =>
      simp only [VecOp.sizeAfter] at hlen
      omega
  | insert index item =>
      simp only [VecOp.sizeAfter] at hlen
      split at hlen <;> omega
  | set index item | get index | delete index => exact hadd.elim
  | clear => exact hadd.elim

/-- A call that grows the vector makes the list longer. -/
theorem length_onList_of_grows (h : v.Stores l) {op : VecOp α} (hgrows : v.Grows op)
    (initialCapacity : ℤ) : (op.onList initialCapacity l).2.length = l.length + 1 := by
  have hlen := length_onList (l := l) initialCapacity op
  have hsize := h.size
  obtain ⟨-, hop⟩ := hgrows
  cases op with
  | add item =>
      simp only [VecOp.sizeAfter] at hlen
      omega
  | insert index item =>
      rw [hsize] at hop
      rw [VecOp.sizeAfter, if_pos hop] at hlen
      omega
  | set index item | get index | delete index => exact hop.elim
  | clear => exact hop.elim

/-- The capacity is doubled when the vector grows, and else kept. -/
theorem capacityAfter_adds (hadd : c.op.IsAdd) (hpos : 1 ≤ v.capacity) :
    v.capacityAfter c = v.capacity ∨ v.Grows c.op ∧ v.capacityAfter c = v.capacity * 2 := by
  have hgrown : v.grownCapacity = if v.capacity = v.size then v.capacity * 2 else v.capacity := by
    rw [grownCapacity, max_eq_left (by omega)]
  obtain ⟨op, realloc⟩ := c
  cases op with
  | add item =>
      by_cases hfull : v.capacity = v.size
      · rw [if_pos hfull] at hgrown
        exact .inr ⟨⟨hfull, trivial⟩, hgrown⟩
      · rw [if_neg hfull] at hgrown
        exact .inl hgrown
  | insert index item =>
      by_cases hin : 0 ≤ index ∧ index < v.size
      · have hcap : v.capacityAfter ⟨.insert index item, realloc⟩ = v.grownCapacity := if_pos hin
        by_cases hfull : v.capacity = v.size
        · rw [if_pos hfull] at hgrown
          exact .inr ⟨⟨hfull, hin⟩, hcap.trans hgrown⟩
        · rw [if_neg hfull] at hgrown
          exact .inl (hcap.trans hgrown)
      · exact .inl (if_neg hin)
  | set index item | get index | delete index => exact hadd.elim
  | clear => exact hadd.elim

/-- A call that adds an item, on a vector whose capacity can be doubled if need be. -/
theorem call_adds (h : v.Stores l) (hc : Adds c) (hpos : 1 ≤ v.capacity)
    (hlt : v.capacity < 2 ^ 31) (hsmall : v.Grows c.op → v.capacity < 2 ^ 30) :
    ∃ out v', v.call c = some (out, v') ∧ v'.Stores (c.op.onList v.initialCapacity l).2 ∧
      v'.initialCapacity = v.initialCapacity ∧ v'.capacity < 2 ^ 31 ∧
      (v'.capacity = v.capacity ∨ v'.capacity = v.capacity * 2) := by
  have hsize := h.size
  have hle := h.size_le
  have hnext : (c.op.onList v.initialCapacity l).2.length < 2 ^ 31 := by
    have hshort := length_onList_le (l := l) v.initialCapacity c.op
    by_cases hfull : v.capacity = v.size
    · by_cases hgrows : v.Grows c.op
      · have hsmall := hsmall hgrows
        omega
      · have hsame := length_onList_of_not_grows h hfull hgrows v.initialCapacity
        omega
    · omega
  obtain ⟨out, v', hcall, hv', hcap, hinit, -⟩ := call_stores h (by omega) hnext
    fun hgrows => ⟨hc.1, hsmall hgrows⟩
  refine ⟨out, v', hcall, hv', hinit, ?_⟩
  rw [hcap]
  rcases capacityAfter_adds hc.2 hpos with hkept | ⟨hgrows, hdouble⟩
  · exact ⟨by omega, .inl hkept⟩
  · have hsmall := hsmall hgrows
    exact ⟨by omega, .inr hdouble⟩

/-- **One call.** -/
theorem growsSafely_iff (h : v.Stores l) (hc : Adds c) (hpos : 1 ≤ v.capacity)
    (hlt : v.capacity < 2 ^ 31) :
    v.GrowsSafely c ↔ (v.Grows c.op → v.capacity < 2 ^ 30) := by
  constructor
  · rintro ⟨out, v', -, -, hsafe⟩ hgrows
    have hdouble := (hsafe hgrows).1
    have hbound := i32_lt (v.capacity * 2)
    omega
  · intro hsmall
    obtain ⟨out, v', hcall, hv', -⟩ := call_adds h hc hpos hlt hsmall
    refine ⟨out, v', hcall, by rw [hv'.list_eq, h.list_eq], fun hgrows => ⟨?_, ?_⟩⟩
    · have hsmall := hsmall hgrows
      exact i32_of_range (by omega) (by omega)
    · have hlonger := length_onList_of_grows h hgrows v.initialCapacity
      have hsize := h.size
      have hsize' := hv'.size
      have hle' := hv'.size_le
      omega

theorem length_le_listAfter (initialCapacity : ℤ) {calls : List (VecCall α)} :
    ∀ {l : List (Option α)}, (∀ c ∈ calls, Adds c) →
      l.length ≤ (listAfter initialCapacity calls l).length := by
  induction calls with
  | nil => intro l _; exact Nat.le_refl _
  | cons c calls ih =>
      intro l hadds
      have hfirst := length_le_onList (l := l) (hadds c List.mem_cons_self).2 initialCapacity
      exact Nat.le_trans hfirst (ih fun c' hc' => hadds c' (List.mem_cons_of_mem c hc'))

/-- A capacity that is doubled more often is twice as large at least. -/
theorem mul_two_le_of_lt {initialCapacity : ℤ} (hinitial : 1 ≤ initialCapacity) {j k : ℕ}
    (h : initialCapacity * 2 ^ j < initialCapacity * 2 ^ k) :
    initialCapacity * 2 ^ j * 2 ≤ initialCapacity * 2 ^ k := by
  have hjk : j < k :=
    (pow_lt_pow_iff_right₀ one_lt_two).mp (lt_of_mul_lt_mul_left h (by omega))
  have hpow := pow_le_pow_right₀ (one_le_two (α := ℤ)) hjk
  have hmul := mul_le_mul_of_nonneg_left hpow (show 0 ≤ initialCapacity by omega)
  rw [pow_succ, ← mul_assoc] at hmul
  exact hmul

/-- **Every run** of calls that add items, from a capacity that is the initial one doubled `j`
times. -/
theorem each_growsSafely_iff {initialCapacity : ℤ} (hinitial : 1 ≤ initialCapacity)
    {calls : List (VecCall α)} :
    ∀ {v : Vec α} {l : List (Option α)} (j : ℕ), v.Stores l →
      v.initialCapacity = initialCapacity → v.capacity = initialCapacity * 2 ^ j →
      v.capacity < 2 ^ 31 → (∀ c ∈ calls, Adds c) →
      (Machine.Each Vec.call GrowsSafely v calls ↔
        ∃ k : ℕ, ((listAfter initialCapacity calls l).length : ℤ) ≤ initialCapacity * 2 ^ k ∧
          initialCapacity * 2 ^ k < 2 ^ 31) := by
  induction calls with
  | nil =>
      intro v l j hv _ hcap hlt _
      have hle := hv.size_le
      rw [hv.size, hcap] at hle
      exact iff_of_true trivial ⟨j, hle, by rw [← hcap]; exact hlt⟩
  | cons c calls ih =>
      intro v l j hv hinit hcap hlt hadds
      have hc : Adds c := hadds c List.mem_cons_self
      have hrest : ∀ c' ∈ calls, Adds c' := fun c' hc' => hadds c' (List.mem_cons_of_mem c hc')
      have hpow : (1 : ℤ) ≤ 2 ^ j := one_le_pow₀ (by decide)
      have hpos : 1 ≤ v.capacity := by
        rw [hcap]
        exact one_le_mul_of_one_le_of_one_le hinitial hpow
      rw [Machine.Each, growsSafely_iff hv hc hpos hlt]
      have hafter : listAfter initialCapacity (c :: calls) l
          = listAfter initialCapacity calls (c.op.onList v.initialCapacity l).2 := by
        rw [hinit]
        rfl
      rw [hafter]
      -- what the rest of the calls needs, once the first is carried out
      have hnext : (v.Grows c.op → v.capacity < 2 ^ 30) → ∃ out v', v.call c = some (out, v') ∧
          (Machine.Each Vec.call GrowsSafely v' calls ↔ ∃ k : ℕ,
            ((listAfter initialCapacity calls (c.op.onList v.initialCapacity l).2).length : ℤ)
                ≤ initialCapacity * 2 ^ k ∧
              initialCapacity * 2 ^ k < 2 ^ 31) := by
        intro hsmall
        obtain ⟨out, v', hcall, hv', hinit', hlt', hcap'⟩ := call_adds hv hc hpos hlt hsmall
        obtain ⟨j', hj'⟩ : ∃ j', v'.capacity = initialCapacity * 2 ^ j' := by
          rcases hcap' with hkept | hdouble
          · exact ⟨j, hkept.trans hcap⟩
          · exact ⟨j + 1, by rw [hdouble, hcap, pow_succ, mul_assoc]⟩
        exact ⟨out, v', hcall, ih j' hv' (hinit'.trans hinit) hj' hlt' hrest⟩
      constructor
      · rintro ⟨hsmall, heach⟩
        obtain ⟨out, v', hcall, hiff⟩ := hnext hsmall
        exact hiff.mp (heach out v' hcall)
      · rintro ⟨k, hfits, hk⟩
        have hsmall : v.Grows c.op → v.capacity < 2 ^ 30 := by
          intro hgrows
          have hlonger := length_onList_of_grows hv hgrows v.initialCapacity
          have hmore := length_le_listAfter initialCapacity hrest
            (l := (c.op.onList v.initialCapacity l).2)
          have hfull := hgrows.1
          have hsize := hv.size
          -- the vector is full, so that the items need one more doubling
          have hbelow : initialCapacity * 2 ^ j < initialCapacity * 2 ^ k := by omega
          have hdouble := mul_two_le_of_lt hinitial hbelow
          omega
        obtain ⟨out, v', hcall, hiff⟩ := hnext hsmall
        refine ⟨hsmall, fun out₁ v₁ hcall₁ => ?_⟩
        rw [hcall] at hcall₁
        cases hcall₁
        exact hiff.mpr ⟨k, hfits, hk⟩

end

/-- **Growth is safe at the limit** of the `int` exactly if one of the capacities that are
reached by doubling the initial one is an `int` and holds all items: for every initial
capacity, and every run of calls that add items, with granted blocks. -/
theorem growth_safe_iff {capacity : ℤ} (hlo : 1 ≤ capacity) (hhi : capacity < 2 ^ 31)
    (fresh : ℕ → Option α) {calls : List (VecCall α)} (hadds : ∀ c ∈ calls, Adds c) :
    Machine.Each Vec.call GrowsSafely (Vec.init capacity (some fresh)).2 calls ↔
      ∃ k : ℕ, ((listAfter capacity calls []).length : ℤ) ≤ capacity * 2 ^ k ∧
        capacity * 2 ^ k < 2 ^ 31 := by
  obtain ⟨v₀, hnew, hv₀, hcap₀, hinit₀⟩ := init_spec capacity fresh
  have hsame : initialCapacityOf capacity = capacity := if_neg (by omega)
  rw [hsame] at hnew hcap₀ hinit₀
  rw [hnew]
  exact each_growsSafely_iff hlo 0 hv₀.stores hinit₀ (by rw [hcap₀, pow_zero, mul_one])
    (by rw [hcap₀]; exact hhi) hadds

/-- Three items, on a vector with one slot that is doubled twice. -/
theorem growth_safe_doubled :
    Machine.Each Vec.call GrowsSafely (Vec.init 1 (some fun _ => none)).2
      (List.replicate 3 (⟨.add (some 7), some fun _ => none⟩ : VecCall ℕ)) := by
  refine (growth_safe_iff (by decide) (by decide) _ ?_).mpr ⟨2, by decide, by decide⟩
  intro c hc
  rw [List.eq_of_mem_replicate hc]
  exact ⟨rfl, trivial⟩

/-- The same item added `n` times. -/
theorem length_listAfter_replicate (initialCapacity : ℤ) (item : Option α) (grant : Grant α)
    (n : ℕ) : ∀ l : List (Option α),
      (listAfter initialCapacity (List.replicate n ⟨.add item, grant⟩) l).length
        = l.length + n := by
  induction n with
  | zero => intro l; rfl
  | succ n ih =>
      intro l
      have hrest := ih (l ++ [item])
      rw [List.length_append, List.length_singleton] at hrest
      rw [List.replicate_succ]
      refine Eq.trans ?_ (hrest.trans (by omega))
      rfl

/-- One item more than 2^30, on a vector with 2^30 slots. -/
theorem growth_wraps :
    (listAfter (2 ^ 30) (List.replicate (2 ^ 30 + 1)
        (⟨.add none, some fun _ => none⟩ : VecCall ℕ)) []).length ≤ 2 ^ 31 - 1 ∧
      ¬ Machine.Each Vec.call GrowsSafely (Vec.init (2 ^ 30) (some fun _ => none)).2
        (List.replicate (2 ^ 30 + 1) (⟨.add none, some fun _ => none⟩ : VecCall ℕ)) := by
  have hmany := length_listAfter_replicate (2 ^ 30) (none : Option ℕ) (some fun _ => none)
    (2 ^ 30 + 1) []
  refine ⟨by rw [hmany]; simp, fun heach => ?_⟩
  obtain ⟨v₀, hnew, hv₀, hcap₀, hinit₀⟩ := init_spec (2 ^ 30) (fun _ => (none : Option ℕ))
  have hsame : initialCapacityOf (2 ^ 30) = 2 ^ 30 := if_neg (by omega)
  rw [hsame] at hnew hcap₀ hinit₀
  rw [hnew] at heach
  obtain ⟨k, hfits, hk⟩ := (each_growsSafely_iff (by omega) 0 hv₀.stores hinit₀
    (by rw [hcap₀, pow_zero, mul_one]) (by omega) (by
      intro c hc
      rw [List.eq_of_mem_replicate hc]
      exact ⟨rfl, trivial⟩)).mp heach
  rw [hmany] at hfits
  cases k with
  | zero => omega
  | succ k =>
      have hpow : (1 : ℤ) ≤ 2 ^ k := one_le_pow₀ (by decide)
      rw [pow_succ] at hk
      omega

end Vec

end Csnip
