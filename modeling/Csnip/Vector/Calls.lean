/-
What each call on the vector does.

`Vec.Stores` says that a list stands at the front of the block: `size` is its length, and
the block has `capacity` slots.  Each function has one lemma, for any answer of the
allocator: the call is defined if it finds a free slot where it needs one, the list it
leaves is the one of `onList`, and the capacity is `capacityAfter`.  The two shifting loops
are followed with the block written as a front, the slot at the loop's counter and the rest,
so that a round moves one slot from one part to the other.
-/
import Csnip.Vector.Basic
import Mathlib.Data.List.Induction

namespace Csnip

open Loop

/-! ### The specification -/

/-- What a call does to a list, and what it answers. -/
def VecOp.onList {α : Type*} (initialCapacity : ℤ) (l : List (Option α)) :
    VecOp α → VecOut α × List (Option α)
  | .add item => (.count (l.length + 1), l ++ [item])
  | .set index item =>
      if 0 ≤ index ∧ index < l.length then (.count l.length, l.set index.toNat item)
      else (.count (-1), l)
  | .get index =>
      if 0 ≤ index ∧ index < l.length then (.item (l.getD index.toNat none), l)
      else (.item none, l)
  | .delete index =>
      if 0 ≤ index ∧ index < l.length then (.count (l.length - 1), l.eraseIdx index.toNat)
      else (.count (-1), l)
  | .insert index item =>
      if 0 ≤ index ∧ index < l.length then
        (.count (l.length + 1), l.insertIdx index.toNat item)
      else (.count (-1), l)
  | .clear => (.count initialCapacity, [])

/-- The size after a call. -/
def VecOp.sizeAfter {α : Type*} (size : ℤ) : VecOp α → ℤ
  | .add _ => size + 1
  | .insert index _ => if 0 ≤ index ∧ index < size then size + 1 else size
  | .delete index => if 0 ≤ index ∧ index < size then size - 1 else size
  | .clear => 0
  | .set _ _ | .get _ => size

/-- The calls that are answered with -1 or `NULL` because of their index. -/
def VecOp.Refused {α : Type*} (l : List (Option α)) : VecOp α → Prop
  | .add _ | .clear => False
  | .set index _ | .get index | .delete index | .insert index _ =>
      ¬ (0 ≤ index ∧ index < l.length)

namespace Vec

variable {α : Type*}

/-- The list `l` stands at the front of the vector's block. -/
structure Stores (v : Vec α) (l : List (Option α)) : Prop where
  front : l <+: v.items
  size : v.size = l.length
  block : (v.items.length : ℤ) = v.capacity

/-- The items of a vector. -/
def list (v : Vec α) : List (Option α) := v.items.take v.size.toNat

/-- The call asks for a larger block: an item is to be added, and no slot is free. -/
def Grows (v : Vec α) (op : VecOp α) : Prop :=
  v.capacity = v.size ∧
    match op with
    | .add _ => True
    | .insert index _ => 0 ≤ index ∧ index < v.size
    | .set _ _ | .get _ | .delete _ | .clear => False

/-- The capacity once there is a free slot. -/
def grownCapacity (v : Vec α) : ℤ :=
  if v.capacity = v.size then max (v.capacity * 2) 1 else v.capacity

/-- The capacity after a call whose block, if it asked for a larger one, was granted. -/
def capacityAfter (v : Vec α) (c : VecCall α) : ℤ :=
  match c.op with
  | .add _ => v.grownCapacity
  | .insert index _ => if 0 ≤ index ∧ index < v.size then v.grownCapacity else v.capacity
  | .delete index =>
      if (0 ≤ index ∧ index < v.size) ∧ c.realloc.isSome ∧
          v.size - 1 > 0 ∧ v.size - 1 = v.capacity / 4 then v.capacity / 2
      else v.capacity
  | .clear => if c.realloc.isSome then max v.initialCapacity 1 else v.capacity
  | .set _ _ | .get _ => v.capacity

section

variable {v : Vec α} {l : List (Option α)}

theorem Stores.size_le (h : v.Stores l) : v.size ≤ v.capacity := by
  have hle := h.front.length_le
  rw [h.size, ← h.block]
  omega

theorem Stores.list_eq (h : v.Stores l) : v.list = l := by
  have hlen : v.size.toNat = l.length := by
    rw [h.size]
    exact Int.toNat_natCast _
  rw [list, hlen]
  exact (List.prefix_iff_eq_take.mp h.front).symm

/-! ### Slots -/

theorem load_at {front back : List (Option α)} {item : Option α} {i : ℤ}
    (hitems : v.items = front ++ item :: back) (hblock : (v.items.length : ℤ) = v.capacity)
    (hi : i = front.length) : v.load i = some item := by
  have hlen : v.items.length = front.length + (back.length + 1) := by simp [hitems]
  have hin : 0 ≤ i ∧ i < v.capacity := by omega
  rw [load, if_pos hin, hitems, hi]
  simp

theorem store_at {front back : List (Option α)} {old item : Option α} {i : ℤ}
    (hitems : v.items = front ++ old :: back) (hblock : (v.items.length : ℤ) = v.capacity)
    (hi : i = front.length) :
    v.store i item = some { v with items := front ++ item :: back } := by
  have hlen : v.items.length = front.length + (back.length + 1) := by simp [hitems]
  have hin : 0 ≤ i ∧ i < v.capacity ∧ i.toNat < v.items.length := by omega
  rw [store, if_pos hin, hitems, hi]
  simp

/-! ### Resizing -/

theorem length_reallocSlots {fresh : ℕ → Option α} {items items' : List (Option α)} {n : ℕ}
    (h : reallocSlots (some fresh) items n = some items') : items'.length = n := by
  obtain rfl := Option.some.inj h
  simp
  omega

theorem front_reallocSlots {fresh : ℕ → Option α} {items items' : List (Option α)} {n : ℕ}
    (h : reallocSlots (some fresh) items n = some items') (hfront : l <+: items)
    (hn : l.length ≤ n) : l <+: items' := by
  obtain rfl := Option.some.inj h
  obtain ⟨rest, rfl⟩ := hfront
  refine ⟨rest.take (n - l.length) ++ ((List.range n).drop (l ++ rest).length).map fresh, ?_⟩
  dsimp only
  rw [List.take_append, List.take_of_length_le hn, List.append_assoc]

/-- A resize to a capacity the list fits in keeps the list, granted or not. -/
theorem resize_spec (h : v.Stores l) (capacity : ℤ) (grant : Grant α)
    (hfits : l.length ≤ max capacity 1) :
    ∃ out v', v.resize capacity grant = (out, v') ∧ v'.Stores l ∧
      v'.initialCapacity = v.initialCapacity ∧
      v'.capacity = (if grant.isSome then max capacity 1 else v.capacity) ∧
      (grant.isSome → out = max capacity 1) := by
  have hclamp : (if capacity < 1 then 1 else capacity) = max capacity 1 := by
    split <;> omega
  simp only [resize, hclamp]
  by_cases hsame : v.capacity = max capacity 1
  · rw [if_pos hsame]
    exact ⟨_, v, rfl, h, rfl, by rw [← hsame, ite_self], fun _ => hsame⟩
  · rw [if_neg hsame]
    cases grant with
    | none => exact ⟨_, v, rfl, h, rfl, rfl, fun hgrant => by cases hgrant⟩
    | some fresh =>
        cases hgrant : reallocSlots (some fresh) v.items (max capacity 1).toNat with
        | none => cases hgrant
        | some items =>
            have hlen := length_reallocSlots hgrant
            refine ⟨_, { v with items, capacity := max capacity 1 }, rfl, ?_, rfl, rfl,
              fun _ => rfl⟩
            exact {
              front := front_reallocSlots hgrant h.front (by omega)
              size := h.size
              block := by dsimp only; omega }

/-- What add and insert do first: afterwards a slot is free, if the block that is asked for
is granted and its capacity is an `int`. -/
theorem room_spec (h : v.Stores l) (grant : Grant α)
    (hgrow : v.capacity = v.size → grant.isSome ∧ v.capacity < 2 ^ 30) :
    ∃ v', (if v.capacity = v.size then (v.resize (i32 (v.capacity * 2)) grant).2 else v) = v' ∧
      v'.Stores l ∧ l.length < v'.capacity ∧ v'.capacity = v.grownCapacity ∧
      v'.initialCapacity = v.initialCapacity := by
  have hle := h.size_le
  have hlen := h.size
  by_cases hfull : v.capacity = v.size
  · obtain ⟨hgrant, hsmall⟩ := hgrow hfull
    have hdouble : i32 (v.capacity * 2) = v.capacity * 2 := i32_of_range (by omega) (by omega)
    obtain ⟨out, v', hres, hv', hinit, hcap, -⟩ :=
      resize_spec h (v.capacity * 2) grant (by omega)
    rw [if_pos hgrant] at hcap
    rw [if_pos hfull, hdouble, hres]
    exact ⟨v', rfl, hv', by omega, hcap.trans (if_pos hfull).symm, hinit⟩
  · rw [if_neg hfull]
    exact ⟨v, rfl, h, by omega, (if_neg hfull).symm, rfl⟩

/-- A slot is free: it follows the list in the block. -/
theorem Stores.free_slot (h : v.Stores l) (hroom : l.length < v.capacity) :
    ∃ old back, v.items = l ++ old :: back := by
  obtain ⟨rest, hrest⟩ := h.front
  cases rest with
  | nil =>
      have hlen : l.length = v.items.length := by rw [← hrest]; simp
      have hblock := h.block
      omega
  | cons old back => exact ⟨old, back, hrest.symm⟩

/-! ### Adding, setting and getting -/

theorem add_spec (h : v.Stores l) (hsize : l.length + 1 < 2 ^ 31) (item : Option α)
    (grant : Grant α) (hgrow : v.capacity = v.size → grant.isSome ∧ v.capacity < 2 ^ 30) :
    ∃ v' : Vec α, v.add item grant = some ((l.length : ℤ) + 1, v') ∧ v'.Stores (l ++ [item]) ∧
      v'.capacity = v.grownCapacity ∧ v'.initialCapacity = v.initialCapacity := by
  obtain ⟨v₁, hv₁, h₁, hroom, hcap, hinit⟩ := room_spec h grant hgrow
  obtain ⟨old, back, hitems⟩ := h₁.free_slot hroom
  have hcount : i32 (v₁.size + 1) = l.length + 1 := by
    rw [h₁.size]
    exact i32_of_range (by omega) (by omega)
  have hblock := h₁.block
  refine ⟨{ v₁ with items := l ++ item :: back, size := l.length + 1 }, ?_, ?_, hcap, hinit⟩
  · simp only [add, hv₁, store_at hitems hblock h₁.size, Option.bind_eq_bind, Option.bind_some,
      hcount]
  · exact {
      front := ⟨back, by simp⟩
      size := by simp
      block := by rw [← hblock, hitems]; simp }

/-- A list split at an index. -/
theorem split_at {index : ℤ} (hlo : 0 ≤ index) (hhi : index < l.length) :
    ∃ front item back, l = front ++ item :: back ∧ index = front.length := by
  have hn : index.toNat < l.length := by omega
  refine ⟨l.take index.toNat, l[index.toNat], l.drop (index.toNat + 1), ?_, ?_⟩
  · rw [List.getElem_cons_drop, List.take_append_drop]
  · rw [List.length_take]
    omega

theorem set_spec (h : v.Stores l) {index : ℤ} (hlo : 0 ≤ index) (hhi : index < l.length)
    (item : Option α) :
    ∃ v' : Vec α, v.set index item = some ((l.length : ℤ), v') ∧
      v'.Stores (l.set index.toNat item) ∧
      v'.capacity = v.capacity ∧ v'.initialCapacity = v.initialCapacity := by
  obtain ⟨front, old, back, rfl, hindex⟩ := split_at hlo hhi
  obtain ⟨rest, hrest⟩ := h.front
  have hitems : v.items = front ++ old :: (back ++ rest) := by rw [← hrest]; simp
  have hset : (front ++ old :: back).set index.toNat item = front ++ item :: back := by
    rw [hindex]
    simp
  have hin : index ≥ 0 ∧ index < v.size := ⟨hlo, by rw [h.size]; exact hhi⟩
  refine ⟨{ v with items := front ++ item :: (back ++ rest) }, ?_, ?_, rfl, rfl⟩
  · rw [set, if_pos hin, store_at hitems h.block hindex, Option.bind_eq_bind, Option.bind_some,
      h.size]
  · rw [hset]
    exact {
      front := ⟨rest, by simp⟩
      size := by rw [h.size]; simp
      block := by rw [← h.block, hitems]; simp }

theorem get_spec (h : v.Stores l) {index : ℤ} (hlo : 0 ≤ index) (hhi : index < l.length) :
    v.get index = some (l.getD index.toNat none) := by
  obtain ⟨front, item, back, rfl, hindex⟩ := split_at hlo hhi
  obtain ⟨rest, hrest⟩ := h.front
  have hitems : v.items = front ++ item :: (back ++ rest) := by rw [← hrest]; simp
  have hin : index ≥ 0 ∧ index < v.size := ⟨hlo, by rw [h.size]; exact hhi⟩
  rw [get, if_pos hin, load_at hitems h.block hindex, hindex]
  simp

/-! ### Deleting -/

/-- One round of the loop: the item after the hole moves into it. -/
theorem deleteRound_at {front back : List (Option α)} {item : Option α} {i : ℤ}
    (hitems : v.items = front ++ none :: item :: back)
    (hblock : (v.items.length : ℤ) = v.capacity) (hi : i = front.length) :
    deleteRound i v = some { v with items := front ++ item :: none :: back } := by
  have hahead : v.items = (front ++ [none]) ++ item :: back := by rw [hitems]; simp
  have hnext : i + 1 = ((front ++ [none]).length : ℤ) := by simp [hi]
  have hfilled : front ++ item :: item :: back = (front ++ [item]) ++ item :: back := by simp
  have hblock' : ((front ++ item :: item :: back).length : ℤ) = v.capacity := by
    rw [← hblock, hitems]
    simp
  rw [deleteRound, load_at hahead hblock hnext, Option.bind_eq_bind, Option.bind_some,
    store_at hitems hblock hi, Option.bind_eq_bind, Option.bind_some,
    store_at (v := { v with items := front ++ item :: item :: back }) hfilled hblock'
      (by simp [hi])]
  simp

/-- The loop of `vector_delete` carries the hole behind the list. -/
theorem delete_loop {front back rest : List (Option α)} {index last : ℤ}
    (hitems : v.items = front ++ none :: (back ++ rest))
    (hblock : (v.items.length : ℤ) = v.capacity) (hindex : index = front.length)
    (hlast : last = front.length + back.length) :
    forUp index last deleteRound v = some { v with items := front ++ back ++ none :: rest } := by
  let I (i : ℤ) (w : Vec α) : Prop := ∃ moved ahead, back = moved ++ ahead ∧
    i = front.length + moved.length ∧
    w = { v with items := front ++ moved ++ none :: (ahead ++ rest) }
  have h0 : I index v := ⟨[], back, rfl, by simp [hindex], by simp [← hitems]⟩
  have hround : ∀ i w, index ≤ i → i < last → I i w →
      ∃ w', deleteRound i w = some w' ∧ I (i + 1) w' := by
    rintro i w - hi ⟨moved, ahead, hback, hcount, rfl⟩
    cases ahead with
    | nil =>
        rw [hback, List.append_nil] at hlast
        omega
    | cons item ahead =>
        have hblock' : ((front ++ moved ++ none :: (item :: ahead ++ rest)).length : ℤ)
            = v.capacity := by
          rw [← hblock, hitems, hback]
          simp
          omega
        refine ⟨_, deleteRound_at rfl hblock' (by simp [hcount]),
          moved ++ [item], ahead, by simp [hback], ?_, by simp⟩
        simp [hcount]
        omega
  obtain ⟨w, hloop, moved, ahead, hback, hend, rfl⟩ := forUp_total deleteRound (I := I) h0 hround
  have hlen := congrArg List.length hback
  rw [List.length_append] at hlen
  have hnone : ahead = [] := List.length_eq_zero_iff.mp (by omega)
  rw [hnone, List.append_nil] at hback
  rw [hloop, Option.pure_def, hnone, hback, List.nil_append]

/-- The end of `vector_delete`: the block is halved if a quarter of it is in use. -/
theorem shrink_spec (h : v.Stores l) (grant : Grant α) :
    ∃ v' : Vec α, (if v.size > 0 ∧ v.size = v.capacity.tdiv 4 then
        (v.resize (v.capacity.tdiv 2) grant).2 else v) = v' ∧ v'.Stores l ∧
      v'.capacity = (if grant.isSome ∧ v.size > 0 ∧ v.size = v.capacity / 4 then v.capacity / 2
        else v.capacity) ∧
      v'.initialCapacity = v.initialCapacity := by
  have hlen := h.size
  have hle := h.size_le
  have hquarter : v.capacity.tdiv 4 = v.capacity / 4 := Int.tdiv_eq_ediv_of_nonneg (by omega)
  have hhalf : v.capacity.tdiv 2 = v.capacity / 2 := Int.tdiv_eq_ediv_of_nonneg (by omega)
  rw [hquarter, hhalf]
  by_cases hshrink : v.size > 0 ∧ v.size = v.capacity / 4
  · obtain ⟨out, v', hres, hv', hinit, hcap, -⟩ :=
      resize_spec h (v.capacity / 2) grant (by omega)
    refine ⟨v', by rw [if_pos hshrink, hres], hv', ?_, hinit⟩
    rw [hcap]
    by_cases hgrant : grant.isSome = true
    · rw [if_pos hgrant, if_pos ⟨hgrant, hshrink⟩]
      omega
    · rw [if_neg hgrant, if_neg fun hall => hgrant hall.1]
  · exact ⟨v, if_neg hshrink, h, (if_neg fun hall => hshrink hall.2).symm, rfl⟩

theorem delete_spec (h : v.Stores l) (hsize : l.length < 2 ^ 31) {index : ℤ} (hlo : 0 ≤ index)
    (hhi : index < l.length) (grant : Grant α) :
    ∃ v' : Vec α, v.delete index grant = some ((l.length : ℤ) - 1, v') ∧
      v'.Stores (l.eraseIdx index.toNat) ∧
      v'.capacity = v.capacityAfter ⟨.delete index, grant⟩ ∧
      v'.initialCapacity = v.initialCapacity := by
  obtain ⟨front, old, back, rfl, hindex⟩ := split_at hlo hhi
  obtain ⟨rest, hrest⟩ := h.front
  have hitems : v.items = front ++ old :: (back ++ rest) := by rw [← hrest]; simp
  have herase : (front ++ old :: back).eraseIdx index.toNat = front ++ back := by
    rw [hindex]
    simp [List.eraseIdx_append_of_length_le]
  have hlength : ((front ++ old :: back).length : ℤ) = front.length + back.length + 1 := by
    simp
    omega
  have hlen := h.size
  have hlast : i32 (v.size - 1) = v.size - 1 := i32_of_range (by omega) (by omega)
  have hin : 0 ≤ index ∧ index < v.size := by omega
  have hout : ¬ (index < 0 ∨ index > i32 (v.size - 1)) := by omega
  -- the vector after the loop and the new size, before the block may shrink
  have hshort : ({ v with
      items := front ++ back ++ none :: rest
      size := v.size - 1 } : Vec α).Stores (front ++ back) := {
    front := ⟨none :: rest, rfl⟩
    size := by simp; omega
    block := by rw [← h.block, hitems]; simp; omega }
  have hrun := delete_loop (v := { v with items := front ++ none :: (back ++ rest) })
    rfl (by rw [← h.block, hitems]; simp) hindex (show v.size - 1 = _ by omega)
  obtain ⟨v', hshrink, hv', hcap, hinit⟩ := shrink_spec hshort grant
  rw [herase]
  refine ⟨v', ?_, hv', ?_, hinit⟩
  · rw [delete, if_neg hout, store_at hitems h.block hindex, Option.bind_eq_bind,
      Option.bind_some]
    dsimp only
    rw [hlast, hrun, Option.bind_some]
    dsimp only at hshrink ⊢
    rw [hlast, hshrink, hv'.size, hlength, List.length_append]
    simp
  · rw [hcap, capacityAfter]
    simp only [hin, and_self, true_and]

/-! ### Inserting -/

/-- One round of the loop: the item before the open slot is copied into it. -/
theorem insertRound_at {front back : List (Option α)} {item left : Option α} {i : ℤ}
    (hitems : v.items = front ++ item :: left :: back)
    (hblock : (v.items.length : ℤ) = v.capacity) (hi : i = front.length + 1) :
    insertRound i v = some { v with items := front ++ item :: item :: back } := by
  have hopen : v.items = (front ++ [item]) ++ left :: back := by rw [hitems]; simp
  rw [insertRound, load_at hitems hblock (by omega), Option.bind_eq_bind, Option.bind_some,
    store_at hopen hblock (by simp [hi])]
  simp

/-- The loop of `vector_insert` opens a slot in front of the element at the index; what is
left in it does not matter. -/
theorem insert_loop {front back rest : List (Option α)} {old : Option α} {size index : ℤ}
    (hitems : v.items = front ++ back ++ old :: rest)
    (hblock : (v.items.length : ℤ) = v.capacity) (hindex : index = front.length)
    (hsize : size = front.length + back.length) :
    ∃ left, forDown size index insertRound v
      = some { v with items := front ++ left :: (back ++ rest) } := by
  let I (i : ℤ) (w : Vec α) : Prop := ∃ ahead moved left, back = ahead ++ moved ∧
    i = front.length + ahead.length ∧
    w = { v with items := front ++ ahead ++ left :: (moved ++ rest) }
  have h0 : I size v := ⟨back, [], old, by simp, hsize, by
    rw [List.nil_append, ← hitems]⟩
  have hround : ∀ i w, i ≤ size → index < i → I i w →
      ∃ w', insertRound i w = some w' ∧ I (i - 1) w' := by
    rintro i w - hi ⟨ahead, moved, left, hback, hcount, rfl⟩
    have hblock' : ((front ++ ahead ++ left :: (moved ++ rest)).length : ℤ) = v.capacity := by
      rw [← hblock, hitems, hback]
      simp
      omega
    -- the item before the open slot is the last of those still ahead
    induction ahead using List.reverseRecOn with
    | nil =>
        simp only [List.length_nil] at hcount
        omega
    | append_singleton ahead item =>
        simp only [List.length_append, List.length_singleton] at hcount
        have hitems' : front ++ (ahead ++ [item]) ++ left :: (moved ++ rest)
            = (front ++ ahead) ++ item :: left :: (moved ++ rest) := by simp
        refine ⟨_, insertRound_at hitems' hblock' (by simp; omega),
          ahead, item :: moved, item, by simp [hback], by omega, by simp⟩
  obtain ⟨w, hloop, ahead, moved, left, hback, hend, rfl⟩ :=
    forDown_total insertRound (I := I) h0 hround
  have hnone : ahead = [] := List.length_eq_zero_iff.mp (by omega)
  rw [hnone, List.nil_append] at hback
  exact ⟨left, by rw [hloop, Option.pure_def, hnone, hback, List.append_nil]⟩

/-- Inserting behind a front. -/
theorem insertIdx_front (front back : List (Option α)) (item : Option α) :
    (front ++ back).insertIdx front.length item = front ++ item :: back := by
  induction front with
  | nil => rfl
  | cons first front ih =>
      rw [List.cons_append, List.length_cons, List.insertIdx_succ_cons, ih, List.cons_append]

theorem insert_spec (h : v.Stores l) (hsize : l.length + 1 < 2 ^ 31) {index : ℤ}
    (hlo : 0 ≤ index) (hhi : index < l.length) (item : Option α) (grant : Grant α)
    (hgrow : v.capacity = v.size → grant.isSome ∧ v.capacity < 2 ^ 30) :
    ∃ v' : Vec α, v.insert index item grant = some ((l.length : ℤ) + 1, v') ∧
      v'.Stores (l.insertIdx index.toNat item) ∧ v'.capacity = v.grownCapacity ∧
      v'.initialCapacity = v.initialCapacity := by
  have hlast : i32 (v.size - 1) = l.length - 1 := by
    rw [h.size]
    exact i32_of_range (by omega) (by omega)
  have hin : ¬ (index < 0 ∨ index > i32 (v.size - 1)) := by omega
  obtain ⟨v₁, hv₁, h₁, hroom, hcap, hinit⟩ := room_spec h grant hgrow
  obtain ⟨old, rest, hitems⟩ := h₁.free_slot hroom
  have hcount : i32 (v₁.size + 1) = l.length + 1 := by
    rw [h₁.size]
    exact i32_of_range (by omega) (by omega)
  have hsize₁ := h₁.size
  obtain ⟨front, next, back, rfl, hindex⟩ := split_at hlo hhi
  have hinsert : (front ++ next :: back).insertIdx index.toNat item
      = front ++ item :: next :: back := by
    rw [hindex, Int.toNat_natCast, insertIdx_front]
  have hlength : v₁.size = front.length + (next :: back).length := by rw [hsize₁]; simp
  obtain ⟨left, hrun⟩ := insert_loop hitems h₁.block hindex hlength
  have hblock : ((front ++ left :: (next :: back ++ rest)).length : ℤ) = v₁.capacity := by
    rw [← h₁.block, hitems]
    simp
    omega
  refine ⟨{ v₁ with
    items := front ++ item :: (next :: back ++ rest)
    size := (front ++ next :: back).length + 1 }, ?_, ?_, hcap, hinit⟩
  · rw [insert, if_neg hin, hv₁]
    dsimp only
    rw [hrun, Option.bind_eq_bind, Option.bind_some, store_at rfl hblock hindex,
      Option.bind_some]
    dsimp only
    rw [hcount]
  · rw [hinsert]
    exact {
      front := ⟨rest, by simp⟩
      size := by simp; omega
      block := by rw [← hblock]; simp }

/-! ### Clearing -/

theorem clear_spec (h : v.Stores l) (hsize : l.length < 2 ^ 31) (grant : Grant α) :
    ∃ out v', v.clear grant = some (out, v') ∧ v'.Stores [] ∧
      v'.capacity = (if grant.isSome then max v.initialCapacity 1 else v.capacity) ∧
      v'.initialCapacity = v.initialCapacity ∧
      (grant.isSome → out = max v.initialCapacity 1) := by
  have hle := h.size_le
  have hsize' := h.size
  have hlast : i32 (v.size - 1) = v.size - 1 := i32_of_range (by omega) (by omega)
  -- the loop only overwrites slots of the block
  obtain ⟨w, hloop, items, hlen, hw⟩ := forUp_total (fun i (v : Vec α) => v.store i none)
    (I := fun _ (w : Vec α) => ∃ items, items.length = v.items.length ∧ w = { v with items })
    (a := 0) (b := i32 (v.size - 1)) (s := v) ⟨v.items, rfl, rfl⟩ (by
      rintro i w hlo hhi ⟨items, hlen, rfl⟩
      have hblock := h.block
      have hin : 0 ≤ i ∧ i < v.capacity ∧ i.toNat < items.length := by omega
      exact ⟨_, if_pos hin, items.set i.toNat none, by simp [hlen], rfl⟩)
  have hempty : ({ v with items, size := 0 } : Vec α).Stores [] := {
    front := List.nil_prefix
    size := rfl
    block := by dsimp only; rw [hlen]; exact h.block }
  obtain ⟨out, v', hres, hv', hinit, hcap, hout⟩ :=
    resize_spec hempty v.initialCapacity grant (by simp)
  refine ⟨out, v', ?_, hv', hcap, hinit, hout⟩
  rw [clear, hloop, Option.pure_def, hw, Option.bind_eq_bind, Option.bind_some]
  dsimp only
  rw [hres]

/-! ### Calls -/

/-- What a refused call answers. -/
theorem onList_of_refused {op : VecOp α} (initialCapacity : ℤ) (h : op.Refused l) :
    (op.onList initialCapacity l).2 = l := by
  cases op with
  | add item => exact h.elim
  | clear => exact h.elim
  | get index => simp only [VecOp.onList, if_neg h]
  | set index item | delete index | insert index item => simp only [VecOp.onList, if_neg h]

/-- A refused call answers as the list does, and leaves the vector as it is. -/
theorem call_of_refused (h : v.Stores l) (hsize : l.length < 2 ^ 31) {c : VecCall α}
    (hrefused : c.op.Refused l) :
    v.call c = some ((c.op.onList v.initialCapacity l).1, v) := by
  have hlen := h.size
  obtain ⟨op, realloc⟩ := c
  have hlast : i32 (v.size - 1) = l.length - 1 := by
    rw [hlen]
    exact i32_of_range (by omega) (by omega)
  cases op with
  | add item => exact hrefused.elim
  | clear => exact hrefused.elim
  | set index item =>
      have hout : ¬ (index ≥ 0 ∧ index < v.size) := by rw [hlen]; exact hrefused
      simp only [call, set, if_neg hout, VecOp.onList, if_neg hrefused, Option.map_some]
  | get index =>
      have hout : ¬ (index ≥ 0 ∧ index < v.size) := by rw [hlen]; exact hrefused
      simp only [call, get, if_neg hout, VecOp.onList, if_neg hrefused, Option.map_some]
  | delete index =>
      have hout : index < 0 ∨ index > i32 (v.size - 1) := by
        simp only [VecOp.Refused] at hrefused
        omega
      simp only [call, delete, if_pos hout, VecOp.onList, if_neg hrefused, Option.map_some]
  | insert index item =>
      have hout : index < 0 ∨ index > i32 (v.size - 1) := by
        simp only [VecOp.Refused] at hrefused
        omega
      simp only [call, insert, if_pos hout, VecOp.onList, if_neg hrefused, Option.map_some]

/-- A refused call does not ask for a block. -/
theorem capacityAfter_of_refused {c : VecCall α} (h : v.Stores l) (hrefused : c.op.Refused l) :
    v.capacityAfter c = v.capacity := by
  have hlen := h.size
  obtain ⟨op, realloc⟩ := c
  cases op with
  | add item => exact hrefused.elim
  | clear => exact hrefused.elim
  | set index item | get index => rfl
  | delete index =>
      simp only [VecOp.Refused] at hrefused
      exact if_neg fun hall => hrefused (by rw [← hlen]; exact hall.1)
  | insert index item =>
      simp only [VecOp.Refused] at hrefused
      exact if_neg fun hin => hrefused (by rw [← hlen]; exact hin)

/-- **One call.**  If a larger block is granted when it is asked for and an `int` can count
its slots, the call is defined and leaves the list it should. -/
theorem call_stores (h : v.Stores l) {c : VecCall α} (hsize : l.length < 2 ^ 31)
    (hnext : (c.op.onList v.initialCapacity l).2.length < 2 ^ 31)
    (hgrow : v.Grows c.op → c.realloc.isSome ∧ v.capacity < 2 ^ 30) :
    ∃ out v', v.call c = some (out, v') ∧
      v'.Stores (c.op.onList v.initialCapacity l).2 ∧ v'.capacity = v.capacityAfter c ∧
      v'.initialCapacity = v.initialCapacity ∧
      ((c.op = .clear → c.realloc.isSome ∧ 1 ≤ v.initialCapacity) →
        out = (c.op.onList v.initialCapacity l).1) := by
  by_cases hrefused : c.op.Refused l
  · refine ⟨_, v, call_of_refused h hsize hrefused, ?_, ?_, rfl, fun _ => rfl⟩
    · rw [onList_of_refused _ hrefused]
      exact h
    · exact (capacityAfter_of_refused h hrefused).symm
  have hlen := h.size
  obtain ⟨op, realloc⟩ := c
  cases op with
  | add item =>
      simp only [VecOp.onList, List.length_append, List.length_singleton] at hnext
      obtain ⟨v', hcall, hv', hcap, hinit⟩ :=
        add_spec h hnext item realloc fun hfull => hgrow ⟨hfull, trivial⟩
      exact ⟨.count (l.length + 1), v', by rw [call]; dsimp only; rw [hcall, Option.map_some], hv',
        hcap, hinit, fun _ => rfl⟩
  | set index item =>
      have hin : 0 ≤ index ∧ index < l.length := not_not.mp hrefused
      obtain ⟨v', hcall, hv', hcap, hinit⟩ := set_spec h hin.1 hin.2 item
      refine ⟨_, v', by rw [call]; dsimp only; rw [hcall, Option.map_some], ?_, hcap, hinit, ?_⟩
      · simp only [VecOp.onList, if_pos hin]
        exact hv'
      · simp only [VecOp.onList, if_pos hin, implies_true]
  | get index =>
      have hin : 0 ≤ index ∧ index < l.length := not_not.mp hrefused
      refine ⟨_, v, by rw [call]; dsimp only; rw [get_spec h hin.1 hin.2, Option.map_some], ?_, rfl,
        rfl, ?_⟩
      · simp only [VecOp.onList, if_pos hin]
        exact h
      · simp only [VecOp.onList, if_pos hin, implies_true]
  | delete index =>
      have hin : 0 ≤ index ∧ index < l.length := not_not.mp hrefused
      obtain ⟨v', hcall, hv', hcap, hinit⟩ := delete_spec h hsize hin.1 hin.2 realloc
      refine ⟨_, v', by rw [call]; dsimp only; rw [hcall, Option.map_some], ?_, hcap, hinit, ?_⟩
      · simp only [VecOp.onList, if_pos hin]
        exact hv'
      · simp only [VecOp.onList, if_pos hin, implies_true]
  | insert index item =>
      have hin : 0 ≤ index ∧ index < l.length := not_not.mp hrefused
      simp only [VecOp.onList, if_pos hin] at hnext
      rw [List.length_insertIdx_of_le_length (by omega)] at hnext
      obtain ⟨v', hcall, hv', hcap, hinit⟩ := insert_spec h hnext hin.1 hin.2 item realloc
        fun hfull => hgrow ⟨hfull, by rw [hlen]; exact hin⟩
      refine ⟨_, v', by rw [call]; dsimp only; rw [hcall, Option.map_some], ?_, ?_, hinit, ?_⟩
      · simp only [VecOp.onList, if_pos hin]
        exact hv'
      · rw [hcap, capacityAfter]
        dsimp only
        rw [if_pos (by rw [hlen]; exact hin)]
      · simp only [VecOp.onList, if_pos hin, implies_true]
  | clear =>
      obtain ⟨out, v', hcall, hv', hcap, hinit, hout⟩ := clear_spec h hsize realloc
      refine ⟨_, v', by rw [call]; dsimp only; rw [hcall, Option.map_some], hv', hcap, hinit, ?_⟩
      intro hclear
      obtain ⟨hgrant, hpos⟩ := hclear rfl
      rw [hout hgrant, VecOp.onList]
      congr 1
      omega

/-- The capacity stays positive. -/
theorem capacityAfter_pos (hpos : 1 ≤ v.capacity) (c : VecCall α) :
    1 ≤ v.capacityAfter c := by
  have hgrown : 1 ≤ v.grownCapacity := by
    unfold grownCapacity
    split <;> omega
  obtain ⟨op, realloc⟩ := c
  cases op with
  | add item => exact hgrown
  | set index item | get index => exact hpos
  | delete index =>
      unfold capacityAfter
      dsimp only
      split <;> omega
  | insert index item =>
      unfold capacityAfter
      dsimp only
      split
      · exact hgrown
      · exact hpos
  | clear =>
      unfold capacityAfter
      dsimp only
      split <;> omega

theorem length_onList (initialCapacity : ℤ) (op : VecOp α) :
    ((op.onList initialCapacity l).2.length : ℤ) = op.sizeAfter l.length := by
  cases op with
  | add item => simp [VecOp.onList, VecOp.sizeAfter]
  | clear => rfl
  | set index item | get index =>
      by_cases h : 0 ≤ index ∧ index < l.length
      · simp only [VecOp.onList, VecOp.sizeAfter, if_pos h, List.length_set]
      · simp only [VecOp.onList, VecOp.sizeAfter, if_neg h]
  | delete index =>
      by_cases h : 0 ≤ index ∧ index < l.length
      · simp only [VecOp.onList, VecOp.sizeAfter, if_pos h]
        rw [List.length_eraseIdx_of_lt (by omega)]
        omega
      · simp only [VecOp.onList, VecOp.sizeAfter, if_neg h]
  | insert index item =>
      by_cases h : 0 ≤ index ∧ index < l.length
      · simp only [VecOp.onList, VecOp.sizeAfter, if_pos h]
        rw [List.length_insertIdx_of_le_length (by omega)]
        omega
      · simp only [VecOp.onList, VecOp.sizeAfter, if_neg h]

theorem length_onList_le (initialCapacity : ℤ) (op : VecOp α) :
    (op.onList initialCapacity l).2.length ≤ l.length + 1 := by
  have hlen := length_onList (l := l) initialCapacity op
  cases op with
  | add item | set index item | get index | delete index | insert index item | clear =>
      simp only [VecOp.sizeAfter] at hlen
      grind

/-- On a full vector, a call that does not grow it leaves a list that is not longer. -/
theorem length_onList_of_not_grows (h : v.Stores l) (hfull : v.capacity = v.size) {op : VecOp α}
    (hop : ¬ v.Grows op) (initialCapacity : ℤ) :
    (op.onList initialCapacity l).2.length ≤ l.length := by
  have hsize := h.size
  have hlen := length_onList (l := l) initialCapacity op
  cases op with
  | add item => exact absurd ⟨hfull, trivial⟩ hop
  | insert index item =>
      have hout : ¬ (0 ≤ index ∧ index < l.length) := fun hin => hop ⟨hfull, by rwa [hsize]⟩
      rw [VecOp.sizeAfter, if_neg hout] at hlen
      omega
  | set index item | get index | delete index | clear =>
      simp only [VecOp.sizeAfter] at hlen
      grind

end

end Vec

end Csnip
