/-
The dynamic array is a list.

`Vec.Holds` says which list a vector holds: the list stands at the front of the block,
`size` is its length, and the block has `capacity` slots, one at least.
`vector_refines_list` carries what each call does over a run of calls.
-/
import Csnip.Vector.Calls
import Csnip.Lib.Machine

namespace Csnip

open Loop

/-- The runs of calls on a list. -/
abbrev ListRun {α : Type*} (initialCapacity : ℤ) :
    List (Option α) → List (VecCall α) → List (VecOut α) → List (Option α) → Prop :=
  Machine.Run fun l c out l' => c.op.onList initialCapacity l = (out, l')

namespace Vec

variable {α : Type*}

/-- The vector holds the list `l`. -/
structure Holds (v : Vec α) (l : List (Option α)) : Prop where
  front : l <+: v.items
  size : v.size = l.length
  block : (v.items.length : ℤ) = v.capacity
  capacity_pos : 1 ≤ v.capacity
  initial_pos : 1 ≤ v.initialCapacity

section

variable {v : Vec α} {l : List (Option α)}

theorem Holds.stores (h : v.Holds l) : v.Stores l := ⟨h.front, h.size, h.block⟩

theorem Stores.holds (h : v.Stores l) (hcap : 1 ≤ v.capacity) (hinit : 1 ≤ v.initialCapacity) :
    v.Holds l := ⟨h.front, h.size, h.block, hcap, hinit⟩

/-- **One call.**  It is defined, answers as the list does, and the vector holds the list
afterwards. -/
theorem call_spec (h : v.Holds l) (hsize : l.length < 2 ^ 30) {c : VecCall α}
    (hgrant : c.realloc.isSome) :
    ∃ out v' l', v.call c = some (out, v') ∧ c.op.onList v.initialCapacity l = (out, l') ∧
      v'.Holds l' ∧ v'.initialCapacity = v.initialCapacity := by
  have hshort := length_onList_le (l := l) v.initialCapacity c.op
  have hlen := h.size
  obtain ⟨out, v', hcall, hv', hcap, hinit, hout⟩ := call_stores h.stores (by omega) (by omega)
    fun hgrow => ⟨hgrant, by have hfull := hgrow.1; omega⟩
  refine ⟨out, v', _, hcall, ?_, hv'.holds ?_ ?_, hinit⟩
  · rw [hout fun _ => ⟨hgrant, h.initial_pos⟩]
  · rw [hcap]
    exact capacityAfter_pos h.capacity_pos c
  · rw [hinit]
    exact h.initial_pos

/-- The capacity a vector is given and returns to. -/
def initialCapacityOf (capacity : ℤ) : ℤ :=
  if capacity ≤ 0 then vectorInitCapacity else capacity

/-- A new vector holds the empty list. -/
theorem init_spec (capacity : ℤ) (fresh : ℕ → Option α) :
    ∃ v, Vec.init capacity (some fresh) = (initialCapacityOf capacity, v) ∧ v.Holds [] ∧
      v.capacity = initialCapacityOf capacity ∧
      v.initialCapacity = initialCapacityOf capacity := by
  have hpos : 1 ≤ initialCapacityOf capacity := by
    unfold initialCapacityOf vectorInitCapacity
    split <;> omega
  refine ⟨_, rfl, ?_, rfl, rfl⟩
  exact {
    front := List.nil_prefix
    size := rfl
    block := by
      have hlen : ((List.range (initialCapacityOf capacity).toNat).map fresh).length
          = (initialCapacityOf capacity).toNat := by simp
      exact (congrArg Nat.cast hlen).trans (Int.toNat_of_nonneg (by omega))
    capacity_pos := hpos
    initial_pos := hpos }

end

/-- A list is not longer than the calls that made it. -/
theorem length_le_of_listRun {initialCapacity : ℤ} {calls : List (VecCall α)}
    {outs : List (VecOut α)} {l' : List (Option α)}
    (h : ListRun initialCapacity l calls outs l') : l'.length ≤ l.length + calls.length := by
  induction h with
  | nil => simp
  | @cons l l₁ l₂ c out calls outs hstep _ ih =>
      have hone := length_onList_le (l := l) initialCapacity c.op
      rw [hstep] at hone
      rw [List.length_cons]
      dsimp only at hone
      omega

/-- **The dynamic array refines a list.**  From a vector of any initial capacity, every run
of calls with granted blocks is defined and is a run on a list that starts empty, as long
as that list stays shorter than 2^30.  The vector reached holds the list reached, its size
is within its capacity, and its block has `capacity` slots, so that no call accessed a slot
at or beyond it; a call with an index outside the list would leave it as it is, and
`vector_clear` would bring the initial capacity back. -/
theorem vector_refines_list (capacity : ℤ) (fresh : ℕ → Option α) (calls : List (VecCall α))
    (hgrant : ∀ c ∈ calls, c.realloc.isSome)
    (hsize : ∀ pre outs l, pre <+: calls →
      ListRun (initialCapacityOf capacity) [] pre outs l → l.length < 2 ^ 30) :
    ∃ v₀ outs v l,
      Vec.init capacity (some fresh) = (initialCapacityOf capacity, v₀) ∧
      Machine.run Vec.call v₀ calls = some (outs, v) ∧
      ListRun (initialCapacityOf capacity) [] calls outs l ∧
      v.Holds l ∧ v.size ≤ v.capacity ∧ (v.items.length : ℤ) = v.capacity ∧
      (∀ c, c.op.Refused l → ∃ out, v.call c = some (out, v)) ∧
      (∀ c, c.op = .clear → c.realloc.isSome → ∃ v',
        v.call c = some (.count (initialCapacityOf capacity), v') ∧ v'.Holds [] ∧
          v'.capacity = initialCapacityOf capacity) := by
  obtain ⟨v₀, hnew, hv₀, -, hinit₀⟩ := init_spec capacity fresh
  have hsim : ∀ (v : Vec α) l (c : VecCall α), c.realloc.isSome → l.length < 2 ^ 30 →
      v.Holds l ∧ v.initialCapacity = initialCapacityOf capacity → ∃ out v' l',
        v.call c = some (out, v') ∧ c.op.onList (initialCapacityOf capacity) l = (out, l') ∧
          v'.Holds l' ∧ v'.initialCapacity = initialCapacityOf capacity := by
    rintro v l c hc hl ⟨hv, hinit⟩
    obtain ⟨out, v', l', hcall, hout, hv', hinit'⟩ := call_spec hv hl hc
    exact ⟨out, v', l', hcall, hinit ▸ hout, hv', hinit'.trans hinit⟩
  obtain ⟨outs, v, l, hrun, hlist, ⟨hv, hinit⟩, hbound⟩ :=
    Machine.run_refines_within (G := fun l : List (Option α) => l.length < 2 ^ 30) hsim
      calls v₀ [] hgrant hsize ⟨hv₀, hinit₀⟩
  refine ⟨v₀, outs, v, l, hnew, hrun, hlist, hv, hv.stores.size_le, hv.block, ?_, ?_⟩
  · intro c hc
    exact ⟨_, call_of_refused hv.stores (by omega) hc⟩
  · rintro ⟨op, realloc⟩ rfl hc
    obtain ⟨fresh, rfl⟩ := Option.isSome_iff_exists.mp hc
    obtain ⟨out, v', hcall, hv', hcap, hinit', hout⟩ :=
      clear_spec hv.stores (by omega) (some fresh)
    have hpos := hv.initial_pos
    have hinitial : max v.initialCapacity 1 = initialCapacityOf capacity := by
      rw [← hinit]
      omega
    rw [Option.isSome_some, if_pos rfl, hinitial] at hcap
    refine ⟨v', ?_, hv'.holds (by omega) (by omega), hcap⟩
    rw [call]
    dsimp only
    rw [hcall, Option.map_some, hout rfl, hinitial]

/-- Three items with one inserted, on a vector whose capacity is one. -/
theorem vector_refines_list_three :
    ∃ v₀ outs v l,
      Vec.init 1 (some fun _ => none) = (1, v₀) ∧
      Machine.run Vec.call v₀ [⟨.add (some 7), some fun _ => none⟩,
        ⟨.add (some 8), some fun _ => none⟩, ⟨.insert 1 (some 9), some fun _ => none⟩]
        = some (outs, v) ∧
      ListRun 1 [] [⟨.add (some 7), some fun _ => none⟩, ⟨.add (some 8), some fun _ => none⟩,
        ⟨.insert 1 (some 9), some fun _ => none⟩] outs l ∧
      v.Holds l ∧ v.size ≤ v.capacity ∧ (v.items.length : ℤ) = v.capacity ∧
      (∀ c : VecCall ℕ, c.op.Refused l → ∃ out, v.call c = some (out, v)) ∧
      (∀ c : VecCall ℕ, c.op = .clear → c.realloc.isSome → ∃ v',
        v.call c = some (.count 1, v') ∧ v'.Holds [] ∧ v'.capacity = 1) :=
  vector_refines_list 1 _ _ (by simp) (by
    intro pre outs l hpre hrun
    have hshort := hpre.length_le
    have hlen := length_le_of_listRun hrun
    simp only [List.length_cons, List.length_nil] at hshort hlen
    omega)

end Vec

end Csnip
