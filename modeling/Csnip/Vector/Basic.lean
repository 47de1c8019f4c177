/-
The dynamic array of vector.c.

`Vec` is `vector_t`; a slot is a `void *`, that is `none` for `NULL` or some item.  The
functions are those of vector.c, statement by statement.  An `int` is an integer, and a
sum or product the code forms is brought back to 32 bits.  Every access to a slot goes
through `load` and `store`, which have no result for a slot that is not below the
capacity or not in the block.

The allocator is outside the program.  What one call of it does is an argument of the
function that makes the call: it refuses, or it grants a block whose new slots hold
whatever they held before.
-/
import Csnip.Lib.Loop
import Mathlib.Data.List.Basic
import Mathlib.Tactic.Ring

namespace Csnip

open Loop

/-- A 32-bit `int` in two's complement. -/
def i32 (n : ℤ) : ℤ := n.bmod (2 ^ 32)

theorem i32_of_range {n : ℤ} (hlo : -2 ^ 31 ≤ n) (hhi : n < 2 ^ 31) : i32 n = n := by
  unfold i32
  rw [Int.bmod_eq_emod]
  split <;> omega

/-! ### The data structure -/

/-- `vector_t`. -/
structure Vec (α : Type*) where
  items : List (Option α)
  initialCapacity : ℤ
  capacity : ℤ
  size : ℤ
deriving Repr, DecidableEq

/-- What one call of the allocator does: `none` refuses, `some fresh` grants the block,
whose slot `i` holds `fresh i` where it is new. -/
abbrev Grant (α : Type*) := Option (ℕ → Option α)

/-- `malloc` for `n` slots. -/
def mallocSlots {α : Type*} (grant : Grant α) (n : ℕ) : Option (List (Option α)) :=
  grant.map fun fresh => (List.range n).map fresh

/-- `realloc` to `n` slots: those that remain keep what they hold. -/
def reallocSlots {α : Type*} (grant : Grant α) (items : List (Option α)) (n : ℕ) :
    Option (List (Option α)) :=
  grant.map fun fresh =>
    items.take n ++ ((List.range n).drop items.length).map fresh

/-- `VECTOR_INIT_CAPACITY` -/
def vectorInitCapacity : ℤ := 4

namespace Vec

variable {α : Type*}

/-- The slot `items[i]`. -/
def load (v : Vec α) (i : ℤ) : Option (Option α) :=
  if 0 ≤ i ∧ i < v.capacity then v.items[i.toNat]? else none

/-- `items[i] = item` -/
def store (v : Vec α) (i : ℤ) (item : Option α) : Option (Vec α) :=
  if 0 ≤ i ∧ i < v.capacity ∧ i.toNat < v.items.length then
    some { v with items := v.items.set i.toNat item }
  else none

/-! ### The functions -/

/-- `vector_init`: the capacity and the vector, or -1 when the block is refused. -/
def init (capacity : ℤ) (malloc : Grant α) : ℤ × Vec α :=
  let initialCapacity := if capacity ≤ 0 then vectorInitCapacity else capacity
  match mallocSlots malloc initialCapacity.toNat with
  | none => (-1, { items := [], initialCapacity, capacity := initialCapacity, size := 0 })
  | some items =>
      (initialCapacity, { items, initialCapacity, capacity := initialCapacity, size := 0 })

/-- `vector_resize`: the new capacity, or -1 when the block is refused. -/
def resize (v : Vec α) (capacity : ℤ) (realloc : Grant α) : ℤ × Vec α :=
  let capacity := if capacity < 1 then 1 else capacity
  if v.capacity = capacity then (v.capacity, v)
  else
    match reallocSlots realloc v.items capacity.toNat with
    | some items => (capacity, { v with items, capacity })
    | none => (-1, v)

/-- `vector_add`: the new size. -/
def add (v : Vec α) (item : Option α) (realloc : Grant α) : Option (ℤ × Vec α) := do
  -- the answer of `vector_resize` is not looked at
  let v := if v.capacity = v.size then (v.resize (i32 (v.capacity * 2)) realloc).2 else v
  let v ← v.store v.size item
  let v := { v with size := i32 (v.size + 1) }
  some (v.size, v)

/-- `vector_set`: the size, or -1. -/
def set (v : Vec α) (index : ℤ) (item : Option α) : Option (ℤ × Vec α) :=
  if index ≥ 0 ∧ index < v.size then do
    let v ← v.store index item
    some (v.size, v)
  else some (-1, v)

/-- `vector_get`: the item, or `NULL`. -/
def get (v : Vec α) (index : ℤ) : Option (Option α) :=
  if index ≥ 0 ∧ index < v.size then v.load index else some none

/-- One round of the loop of `vector_delete`. -/
def deleteRound (i : ℤ) (v : Vec α) : Option (Vec α) := do
  let item ← v.load (i + 1)
  let v ← v.store i item
  v.store (i + 1) none

/-- `vector_delete`: the new size, or -1. -/
def delete (v : Vec α) (index : ℤ) (realloc : Grant α) : Option (ℤ × Vec α) :=
  if index < 0 ∨ index > i32 (v.size - 1) then some (-1, v)
  else do
    let v ← v.store index none
    let v ← forUp index (i32 (v.size - 1)) deleteRound v
    let v := { v with size := i32 (v.size - 1) }
    let v :=
      if v.size > 0 ∧ v.size = v.capacity.tdiv 4 then
        (v.resize (v.capacity.tdiv 2) realloc).2
      else v
    some (v.size, v)

/-- One round of the loop of `vector_insert`. -/
def insertRound (i : ℤ) (v : Vec α) : Option (Vec α) := do
  let item ← v.load (i - 1)
  v.store i item

/-- `vector_insert`: the new size, or -1. -/
def insert (v : Vec α) (index : ℤ) (item : Option α) (realloc : Grant α) :
    Option (ℤ × Vec α) :=
  if index < 0 ∨ index > i32 (v.size - 1) then some (-1, v)
  else do
    let v := if v.capacity = v.size then (v.resize (i32 (v.capacity * 2)) realloc).2 else v
    let v ← forDown v.size index insertRound v
    let v ← v.store index item
    let v := { v with size := i32 (v.size + 1) }
    some (v.size, v)

/-- `vector_clear`: the initial capacity, or -1 when the block is refused. -/
def clear (v : Vec α) (realloc : Grant α) : Option (ℤ × Vec α) := do
  let v ← forUp 0 (i32 (v.size - 1)) (fun i v => v.store i none) v
  let v := { v with size := 0 }
  some (v.resize v.initialCapacity realloc)

end Vec

/-! ### Calls -/

/-- The calls on a vector. -/
inductive VecOp (α : Type*) where
  | add (item : Option α)
  | set (index : ℤ) (item : Option α)
  | get (index : ℤ)
  | delete (index : ℤ)
  | insert (index : ℤ) (item : Option α)
  | clear
deriving Repr, DecidableEq

/-- What a call answers. -/
inductive VecOut (α : Type*) where
  | count (n : ℤ)
  | item (p : Option α)
deriving Repr, DecidableEq

/-- A call, and what the allocator does when the call asks it for a block.  No call asks
twice. -/
structure VecCall (α : Type*) where
  op : VecOp α
  realloc : Grant α

/-- Carry out a call. -/
def Vec.call {α : Type*} (v : Vec α) (c : VecCall α) : Option (VecOut α × Vec α) :=
  match c.op with
  | .add item => (v.add item c.realloc).map fun r => (.count r.1, r.2)
  | .set index item => (v.set index item).map fun r => (.count r.1, r.2)
  | .get index => (v.get index).map fun p => (.item p, v)
  | .delete index => (v.delete index c.realloc).map fun r => (.count r.1, r.2)
  | .insert index item => (v.insert index item c.realloc).map fun r => (.count r.1, r.2)
  | .clear => (v.clear c.realloc).map fun r => (.count r.1, r.2)

end Csnip
