/-
The dynamic array when the allocator refuses.

A vector survives a call whose block may not shrink: it keeps the larger one.  A call that
asks for a larger block does not look whether it got it, and stores behind the old one.  The
same happens when the capacity cannot be doubled any more: the product wraps, and what is
asked for is a block with one slot.  `Overgrows` is the call that runs into one of them.
-/
import Csnip.Vector.Calls
import Csnip.Lib.Machine

namespace Csnip

open Loop

namespace Vec

variable {α : Type*}

/-- A vector whose size is within its capacity, with a block of that many slots; its counts
are `int`s. -/
structure Sized (v : Vec α) : Prop where
  size_nonneg : 0 ≤ v.size
  size_le : v.size ≤ v.capacity
  block : (v.items.length : ℤ) = v.capacity
  capacity_lt : v.capacity < 2 ^ 31
  initial_lt : v.initialCapacity < 2 ^ 31

/-- **The call does no harm**, whatever the allocator does: it is defined, so that every slot
it reads or writes is below the capacity, and leaves a vector whose size is within its
capacity.  If the larger block it asks for is refused, it answers -1 and leaves the vector as
it was; else the vector has the items it should. -/
def Survives (v : Vec α) (c : VecCall α) : Prop :=
  ∃ out v', v.call c = some (out, v') ∧ v'.Sized ∧
    ((v.Grows c.op ∧ c.realloc = none → out = .count (-1) ∧ v' = v) ∧
      (¬ (v.Grows c.op ∧ c.realloc = none) →
        v'.list = (c.op.onList v.initialCapacity v.list).2))

/-- The call asks for a larger block, and does not get one. -/
def Overgrows (v : Vec α) (c : VecCall α) : Prop :=
  v.Grows c.op ∧ (c.realloc = none ∨ 2 ^ 30 ≤ v.capacity)

section

variable {v : Vec α} {l : List (Option α)}

theorem Sized.stores (h : v.Sized) : v.Stores v.list := by
  have hlo := h.size_nonneg
  have hle := h.size_le
  have hblock := h.block
  refine ⟨List.take_prefix _ _, ?_, hblock⟩
  rw [list, List.length_take]
  omega

theorem Stores.sized (h : v.Stores l) (hcap : v.capacity < 2 ^ 31)
    (hinit : v.initialCapacity < 2 ^ 31) : v.Sized :=
  ⟨by rw [h.size]; omega, h.size_le, h.block, hcap, hinit⟩

/-! ### Without a free slot -/

/-- A slot at the capacity is behind the block. -/
theorem store_full {i : ℤ} (h : v.capacity ≤ i) (item : Option α) : v.store i item = none :=
  if_neg fun hin => by omega

/-- A refused block leaves the vector as it was. -/
theorem resize_refused (capacity : ℤ) : (v.resize capacity none).2 = v := by
  by_cases hsame : v.capacity = if capacity < 1 then 1 else capacity
  · simp only [resize, if_pos hsame]
  · simp only [resize, if_neg hsame]
    rfl

/-- What add and insert do first leaves no slot free. -/
theorem no_room (h : v.Sized) (hfull : v.capacity = v.size) {grant : Grant α}
    (hfails : grant = none ∨ 2 ^ 30 ≤ v.capacity) :
    ∃ v', (if v.capacity = v.size then (v.resize (i32 (v.capacity * 2)) grant).2 else v) = v' ∧
      v'.size = v.size ∧ v'.capacity ≤ v.size := by
  rw [if_pos hfull]
  rcases hfails with rfl | hlarge
  · exact ⟨v, resize_refused _, rfl, by omega⟩
  · -- the product wraps, and one slot is asked for
    have hlt := h.capacity_lt
    have hwrap : i32 (v.capacity * 2) < 1 := by
      unfold i32
      rw [Int.bmod_eq_emod]
      split <;> omega
    have hne : v.capacity ≠ 1 := by omega
    rw [resize, if_pos hwrap, if_neg hne]
    cases reallocSlots grant v.items (1 : ℤ).toNat with
    | none => exact ⟨v, rfl, rfl, by omega⟩
    | some items => exact ⟨_, rfl, rfl, by dsimp only; omega⟩

/-- Copying to a slot at the capacity. -/
theorem insertRound_full {i : ℤ} (h : v.capacity ≤ i) : insertRound i v = none := by
  rw [insertRound]
  cases v.load (i - 1) with
  | none => rfl
  | some item => exact store_full h item

/-- **Without a larger block the call is undefined**: it stores to a slot that is not below
the capacity. -/
theorem call_overgrows (h : v.Sized) {c : VecCall α} (hover : v.Overgrows c) : v.call c = none := by
  obtain ⟨⟨hfull, hop⟩, hfails⟩ := hover
  obtain ⟨v', hroom, hsize, hcap⟩ := no_room h hfull hfails
  obtain ⟨op, realloc⟩ := c
  cases op with
  | set index item | get index | delete index => exact hop.elim
  | clear => exact hop.elim
  | add item =>
      have hadd : v.add item realloc = none := by
        rw [add, hroom]
        dsimp only
        rw [store_full (by omega)]
        rfl
      rw [call]
      dsimp only
      rw [hadd, Option.map_none]
  | insert index item =>
      obtain ⟨hlo, hhi⟩ := hop
      have hle := h.size_le
      have hlt := h.capacity_lt
      have hlast : i32 (v.size - 1) = v.size - 1 := i32_of_range (by omega) (by omega)
      have hin : ¬ (index < 0 ∨ index > i32 (v.size - 1)) := by omega
      have hinsert : v.insert index item realloc = none := by
        rw [insert, if_neg hin, hroom]
        dsimp only
        rw [forDown_none (by omega) (insertRound_full (by omega))]
        rfl
      rw [call]
      dsimp only
      rw [hinsert, Option.map_none]

/-! ### With a free slot -/

/-- The list a call leaves fits into an `int`, unless the call overgrows. -/
theorem length_onList_lt (h : v.Sized) {c : VecCall α} (hover : ¬ v.Overgrows c) :
    (c.op.onList v.initialCapacity v.list).2.length < 2 ^ 31 := by
  have hlist := h.stores.size
  have hle := h.size_le
  have hlt := h.capacity_lt
  have hshort := length_onList_le (l := v.list) v.initialCapacity c.op
  by_cases hfull : v.capacity = v.size
  · by_cases hlarge : 2 ^ 30 ≤ v.capacity
    · -- only an added item makes the list longer
      have hop : ¬ v.Grows c.op := fun hgrows => hover ⟨hgrows, .inr hlarge⟩
      have hsame := length_onList_of_not_grows h.stores hfull hop v.initialCapacity
      omega
    · omega
  · omega

/-- The capacity after a call is an `int`. -/
theorem capacityAfter_lt (h : v.Sized) {c : VecCall α} (hover : ¬ v.Overgrows c) :
    v.capacityAfter c < 2 ^ 31 := by
  have hlo := h.size_nonneg
  have hle := h.size_le
  have hlt := h.capacity_lt
  have hinit := h.initial_lt
  obtain ⟨op, realloc⟩ := c
  have hgrown : v.Grows op → v.grownCapacity < 2 ^ 31 := by
    intro hgrows
    have hsmall : ¬ 2 ^ 30 ≤ v.capacity := fun hlarge => hover ⟨hgrows, .inr hlarge⟩
    unfold grownCapacity
    split <;> omega
  have hkept : v.capacity ≠ v.size → v.grownCapacity < 2 ^ 31 := by
    intro hfree
    rw [grownCapacity, if_neg hfree]
    exact hlt
  cases op with
  | add item =>
      by_cases hfull : v.capacity = v.size
      · exact hgrown ⟨hfull, trivial⟩
      · exact hkept hfull
  | set index item | get index => exact hlt
  | delete index =>
      unfold capacityAfter
      dsimp only
      split <;> omega
  | insert index item =>
      unfold capacityAfter
      dsimp only
      by_cases hin : 0 ≤ index ∧ index < v.size
      · rw [if_pos hin]
        by_cases hfull : v.capacity = v.size
        · exact hgrown ⟨hfull, hin⟩
        · exact hkept hfull
      · rw [if_neg hin]
        exact hlt
  | clear =>
      unfold capacityAfter
      dsimp only
      split <;> omega

/-- **One call.** -/
theorem survives_iff (h : v.Sized) (c : VecCall α) : v.Survives c ↔ ¬ v.Overgrows c := by
  constructor
  · rintro ⟨out, v', hcall, -⟩ hover
    rw [call_overgrows h hover] at hcall
    cases hcall
  · intro hover
    have hlist := h.stores.size
    have hle := h.size_le
    have hlt := h.capacity_lt
    have hgranted : ¬ (v.Grows c.op ∧ c.realloc = none) :=
      fun hrefused => hover ⟨hrefused.1, .inl hrefused.2⟩
    obtain ⟨out, v', hcall, hv', hcap, hinit, -⟩ := call_stores h.stores (c := c) (by omega)
      (length_onList_lt h hover) (by
        intro hgrows
        have hgrant : c.realloc ≠ none := fun hnone => hover ⟨hgrows, .inl hnone⟩
        exact ⟨Option.isSome_iff_ne_none.mpr hgrant,
          by by_contra hlarge; exact hover ⟨hgrows, .inr (by omega)⟩⟩)
    refine ⟨out, v', hcall, hv'.sized ?_ ?_, fun hrefused => absurd hrefused hgranted,
      fun _ => hv'.list_eq⟩
    · rw [hcap]
      exact capacityAfter_lt h hover
    · rw [hinit]
      exact h.initial_lt

/-- **Every run.**  A vector survives the calls of a run exactly if none of them overgrows:
from every vector whose size is within its capacity, whatever the allocator does. -/
theorem run_survives_iff (h : v.Sized) (calls : List (VecCall α)) :
    Machine.Each Vec.call Survives v calls ↔
      Machine.Each Vec.call (fun v c => ¬ v.Overgrows c) v calls := by
  refine Machine.each_iff_each (I := Sized) ?_ (fun v c hv => survives_iff hv c) calls v h
  rintro v c out v' - ⟨out₁, v₁, hcall₁, hv₁, -⟩ hcall
  rw [hcall₁] at hcall
  cases hcall
  exact hv₁

end

/-- A vector of one slot that gets two items, and the larger block that it asks for. -/
theorem run_survives_grown :
    Machine.Each Vec.call Survives (⟨[none], 1, 1, 0⟩ : Vec ℕ)
      [⟨.add (some 7), none⟩, ⟨.add (some 8), some fun _ => none⟩] := by
  refine (run_survives_iff ⟨by decide, by decide, by decide, by decide, by decide⟩ _).mpr ?_
  have hfirst : (⟨[none], 1, 1, 0⟩ : Vec ℕ).call ⟨.add (some 7), none⟩
      = some (.count 1, ⟨[some 7], 1, 1, 1⟩) := by decide
  refine ⟨fun hover => absurd hover.1.1 (by decide), fun out v' hcall => ?_⟩
  rw [hfirst] at hcall
  cases hcall
  refine ⟨fun hover => ?_, fun _ _ _ => trivial⟩
  rcases hover.2 with hrefused | hlarge
  · cases hrefused
  · exact absurd hlarge (by decide)

/-- An item added to a full vector whose block is not enlarged. -/
theorem refused_growth :
    (⟨[some 7], 1, 1, 1⟩ : Vec ℕ).Sized ∧
      (⟨[some 7], 1, 1, 1⟩ : Vec ℕ).call ⟨.add (some 8), none⟩ = none ∧
      ¬ (⟨[some 7], 1, 1, 1⟩ : Vec ℕ).Survives ⟨.add (some 8), none⟩ := by
  have hcall : (⟨[some 7], 1, 1, 1⟩ : Vec ℕ).call ⟨.add (some 8), none⟩ = none := by decide
  refine ⟨⟨by decide, by decide, by decide, by decide, by decide⟩, hcall, ?_⟩
  rintro ⟨out, v', hdefined, -⟩
  rw [hcall] at hdefined
  cases hdefined

end Vec

end Csnip
