/-
Records without padding.

The fields of a packed record stand one behind the other, so the place of each is the
sum of the widths before it.  A load at the place of a field gives the field, and a
store of the same width changes that field and no other.
-/
import Csnip.Lib.Memory

namespace Packed

open Memory

variable {α : Type*}

/-- Where field `k` begins. -/
def offset (widths : List ℕ) (k : ℕ) : ℕ := (widths.take k).sum

variable {fields : List (List α)} {field : List α} {k : ℕ}

theorem offset_lengths (fields : List (List α)) (k : ℕ) :
    offset (fields.map List.length) k = (fields.take k).flatten.length := by
  rw [offset, ← List.map_take, List.length_flatten]

/-- The record, cut at one of its fields. -/
theorem flatten_split (hk : fields[k]? = some field) :
    fields.flatten = (fields.take k).flatten ++ (field ++ (fields.drop (k + 1)).flatten) := by
  obtain ⟨hlt, hget⟩ := List.getElem?_eq_some_iff.mp hk
  conv_lhs => rw [← List.take_append_drop k fields, List.drop_eq_getElem_cons hlt, hget]
  rw [List.flatten_append, List.flatten_cons]

theorem load_field (hk : fields[k]? = some field) :
    load fields.flatten (offset (fields.map List.length) k) field.length = some field := by
  rw [flatten_split hk, offset_lengths, load_of_le (by simp), List.drop_left, List.take_left]

theorem store_field {new : List α} (hk : fields[k]? = some field)
    (hlen : new.length = field.length) :
    store fields.flatten (offset (fields.map List.length) k) new
      = some (fields.set k new).flatten := by
  have hlt : k < fields.length := (List.getElem?_eq_some_iff.mp hk).1
  have hset : (fields.set k new)[k]? = some new := by
    rw [List.getElem?_set_self hlt]
  rw [flatten_split hk, offset_lengths, store_of_le (by simp; omega), flatten_split hset, overwrite,
    List.take_left, ← List.drop_drop, List.drop_left, hlen, List.drop_left,
    List.take_set_of_le (Nat.le_refl k), List.drop_set_of_lt (Nat.lt_succ_self k),
    List.append_assoc]

end Packed
