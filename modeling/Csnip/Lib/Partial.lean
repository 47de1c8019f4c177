/-
Blocks with cells that were never stored to.

An automatic array holds whatever the stack held, so a program that compares it before
every cell has been stored to may see anything there.  A partly known block is a list of
optional cells; `fill` is the block it stands for once the unknown cells are given.  What
can be said of the contents in every case is what the known cells say:
`fill_eq_iff` and `fill_ne_iff`.
-/
import Csnip.Lib.Memory

namespace Partial

open Memory

variable {α : Type*}

/-- The block, its unknown cells being those of `rest`. -/
def fill (known : List (Option α)) (rest : List α) : List α :=
  List.zipWith (fun cell c => cell.getD c) known rest

/-- `bs` stored from the start of the block on. -/
def stored (known : List (Option α)) (bs : List α) : List (Option α) :=
  bs.map some ++ known.drop bs.length

/-- A known cell differs from the one of `l`. -/
def Refutes (known : List (Option α)) (l : List α) : Prop :=
  ∃ (q : ℕ) (c : α), known[q]? = some (some c) ∧ l[q]? ≠ some c

theorem length_fill {known : List (Option α)} {rest : List α}
    (h : rest.length = known.length) : (fill known rest).length = known.length := by
  rw [fill, List.length_zipWith, h, Nat.min_self]

theorem length_stored {known : List (Option α)} {bs : List α} (h : bs.length ≤ known.length) :
    (stored known bs).length = known.length := by
  rw [stored, List.length_append, List.length_map, List.length_drop]
  omega

theorem getElem?_fill {known : List (Option α)} {rest : List α}
    (h : rest.length = known.length) (q : ℕ) :
    (fill known rest)[q]? = known[q]?.bind fun cell =>
      match cell with
      | some c => some c
      | none => rest[q]? := by
  rw [fill, List.getElem?_zipWith]
  by_cases hq : q < known.length
  · rw [List.getElem?_eq_getElem hq, List.getElem?_eq_getElem (by omega : q < rest.length)]
    cases known[q] <;> rfl
  · rw [List.getElem?_eq_none (by omega), List.getElem?_eq_none (by omega : rest.length ≤ q)]
    rfl

/-- Storing in the block is storing in what is known of it. -/
theorem overwrite_fill {known : List (Option α)} {rest bs : List α}
    (h : rest.length = known.length) (hb : bs.length ≤ known.length) :
    overwrite (fill known rest) 0 bs = fill (stored known bs) rest := by
  have hlen : bs.length ≤ (fill known rest).length := by rw [length_fill h]; exact hb
  apply List.ext_getElem?
  intro q
  rw [getElem?_overwrite (by omega), getElem?_fill h, getElem?_fill (by rw [length_stored hb, h]),
    stored]
  by_cases hq : q < bs.length
  · rw [if_pos (by omega), List.getElem?_append_left (by simpa using hq), List.getElem?_map,
      List.getElem?_eq_getElem (by omega : q - 0 < bs.length), List.getElem?_eq_getElem hq]
    rfl
  · rw [if_neg (by omega), List.getElem?_append_right (by simpa using hq), List.length_map,
      List.getElem?_drop]
    congr 2
    omega

theorem fill_map_some {l rest : List α} (h : rest.length = l.length) :
    fill (l.map some) rest = l := by
  apply List.ext_getElem?
  intro q
  rw [getElem?_fill (by rw [List.length_map, h]), List.getElem?_map]
  cases l[q]? <;> rfl

/-- A block of which nothing is known. -/
theorem fill_unknown (rest : List α) : fill (List.replicate rest.length none) rest = rest := by
  apply List.ext_getElem?
  intro q
  rw [getElem?_fill (by rw [List.length_replicate]), List.getElem?_replicate]
  by_cases hq : q < rest.length
  · rw [if_pos hq]
    rfl
  · rw [if_neg hq, List.getElem?_eq_none (by omega)]
    rfl

/-- A block whose unknown cells are taken from `l` is `l` unless a known one differs. -/
theorem fill_self {known : List (Option α)} {l : List α} (h : l.length = known.length)
    (hno : ¬ Refutes known l) : fill known l = l := by
  apply List.ext_getElem?
  intro q
  rw [getElem?_fill h]
  cases hq : known[q]? with
  | none =>
      rw [List.getElem?_eq_none_iff] at hq
      rw [List.getElem?_eq_none (by omega)]
      rfl
  | some cell =>
      cases cell with
      | none => rfl
      | some c =>
          by_contra hne
          exact hno ⟨q, c, hq, fun heq => hne heq.symm⟩

/-- **A partly known block is `l` whatever the unknown cells hold** only if it is known. -/
theorem fill_eq_iff [Nontrivial α] {known : List (Option α)} {l : List α}
    (h : l.length = known.length) :
    (∀ rest : List α, rest.length = known.length → fill known rest = l) ↔
      known = l.map some := by
  constructor
  · intro hall
    -- cells that all differ from those of `l`
    have hother : ∀ c : α, ∃ c', c' ≠ c := fun c => exists_ne c
    choose other hne using hother
    have hfill := hall (l.map other) (by rw [List.length_map, h])
    apply List.ext_getElem?
    intro q
    have hcell := congrArg (fun m => m[q]?) hfill
    rw [getElem?_fill (by rw [List.length_map, h]), List.getElem?_map] at hcell
    rw [List.getElem?_map]
    cases hq : known[q]? with
    | none =>
        rw [hq] at hcell
        rw [← hcell]
        rfl
    | some cell =>
        have hlt : q < l.length := by
          rw [h]
          exact (List.getElem?_eq_some_iff.mp hq).1
        rw [hq, List.getElem?_eq_getElem hlt] at hcell
        rw [List.getElem?_eq_getElem hlt]
        cases cell with
        | none => exact absurd (Option.some.inj hcell) (hne _)
        | some c =>
            obtain rfl : c = l[q] := Option.some.inj hcell
            rfl
  · rintro rfl rest hrest
    exact fill_map_some (by rw [hrest, List.length_map])

/-- **It differs from `l` whatever they hold** only if a known cell does. -/
theorem fill_ne_iff {known : List (Option α)} {l : List α} (h : l.length = known.length) :
    (∀ rest : List α, rest.length = known.length → fill known rest ≠ l) ↔ Refutes known l := by
  constructor
  · intro hall
    by_contra hno
    exact hall l h (fill_self h hno)
  · rintro ⟨q, c, hq, hne⟩ rest hrest heq
    apply hne
    rw [← heq, getElem?_fill hrest, hq]
    rfl

end Partial
