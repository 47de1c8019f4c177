/-
Blocks of memory and the machine words that address them.

A block is a list of its cells.  `load` and `store` are the two ways a program moves a
straight piece, and both are undefined when the piece does not lie inside the block:
`none` is what the language leaves without meaning.  Unsigned words are natural numbers
with the reduction written out, so that a sum that wraps is visible where it is formed
and disappears (`u64_of_lt`, `subU64_of_le`) where it is known not to.
-/
import Mathlib.Data.List.Basic
import Mathlib.Tactic.Ring

namespace Memory

/-! ### Unsigned 64-bit words -/

/-- Reduction to 64 bits. -/
def u64 (n : ℕ) : ℕ := n % 2 ^ 64

/-- The 64-bit difference of two 64-bit words. -/
def subU64 (a b : ℕ) : ℕ := (a + 2 ^ 64 - b) % 2 ^ 64

theorem u64_of_lt {n : ℕ} (h : n < 2 ^ 64) : u64 n = n := Nat.mod_eq_of_lt h

theorem u64_eq_self_iff {n : ℕ} : u64 n = n ↔ n < 2 ^ 64 := Nat.mod_eq_iff_lt (by decide)

theorem u64_lt (n : ℕ) : u64 n < 2 ^ 64 := Nat.mod_lt _ (by decide)

theorem subU64_of_le {a b : ℕ} (ha : a < 2 ^ 64) (h : b ≤ a) : subU64 a b = a - b := by
  unfold subU64
  omega

/-- A difference that wraps is at the top of the range. -/
theorem lt_subU64 {a b c : ℕ} (h : a < b) (hc : b + c < 2 ^ 64) : c < subU64 a b := by
  unfold subU64
  omega

/-- The sum of two words, undefined when it does not fit into 64 bits. -/
def addExact (a b : ℕ) : Option ℕ := if a + b < 2 ^ 64 then some (a + b) else none

/-- The difference of two words, undefined when it is negative. -/
def subExact (a b : ℕ) : Option ℕ := if b ≤ a then some (a - b) else none

theorem addExact_of_lt {a b : ℕ} (h : a + b < 2 ^ 64) : addExact a b = some (a + b) := if_pos h

theorem subExact_of_le {a b : ℕ} (h : b ≤ a) : subExact a b = some (a - b) := if_pos h

/-- The remainder, undefined for the divisor zero. -/
def umod (a b : ℕ) : Option ℕ := if b = 0 then none else some (a % b)

theorem umod_of_pos {a b : ℕ} (h : 0 < b) : umod a b = some (a % b) := if_neg h.ne'

/-! ### Straight pieces of a block -/

variable {α : Type*}

/-- The `n` cells from position `p`, undefined unless all of them exist. -/
def load (l : List α) (p n : ℕ) : Option (List α) :=
  if p + n ≤ l.length then some ((l.drop p).take n) else none

/-- `l` with `bs` stored from position `p` on. -/
def overwrite (l : List α) (p : ℕ) (bs : List α) : List α :=
  l.take p ++ bs ++ l.drop (p + bs.length)

@[simp] theorem length_overwrite {l bs : List α} {p : ℕ} (h : p + bs.length ≤ l.length) :
    (overwrite l p bs).length = l.length := by
  simp only [overwrite, List.length_append, List.length_take, List.length_drop]
  omega

@[simp] theorem overwrite_nil (l : List α) (p : ℕ) : overwrite l p [] = l := by
  simp [overwrite]

theorem getElem?_overwrite {l bs : List α} {p i : ℕ} (h : p + bs.length ≤ l.length) :
    (overwrite l p bs)[i]? =
      if p ≤ i ∧ i < p + bs.length then bs[i - p]? else l[i]? := by
  have hp : (l.take p).length = p := by simp; omega
  unfold overwrite
  by_cases hlo : p ≤ i
  · by_cases hhi : i < p + bs.length
    · rw [if_pos ⟨hlo, hhi⟩, List.getElem?_append_left (by simp; omega),
        List.getElem?_append_right (by omega), hp]
    · rw [if_neg (by omega), List.getElem?_append_right (by simp; omega),
        List.getElem?_drop]
      congr 1
      simp
      omega
  · rw [if_neg (by omega), List.getElem?_append_left (by simp; omega),
      List.getElem?_append_left (by omega), List.getElem?_take_of_lt (by omega)]

/-- What was stored is there. -/
theorem take_drop_overwrite {l bs : List α} {p : ℕ} (h : p + bs.length ≤ l.length) :
    ((overwrite l p bs).drop p).take bs.length = bs := by
  have hp : (l.take p).length = p := by
    rw [List.length_take]
    omega
  rw [overwrite, List.append_assoc, List.drop_left' hp, List.take_left]

/-- Storing in two adjoining pieces is storing once. -/
theorem overwrite_overwrite {l bs cs : List α} {p : ℕ}
    (h : p + bs.length + cs.length ≤ l.length) :
    overwrite (overwrite l p bs) (p + bs.length) cs = overwrite l p (bs ++ cs) := by
  apply List.ext_getElem?
  intro i
  rw [getElem?_overwrite (by rw [length_overwrite (by omega)]; exact h),
    getElem?_overwrite (by omega), getElem?_overwrite (by simp; omega), List.length_append]
  by_cases hcs : p + bs.length ≤ i ∧ i < p + bs.length + cs.length
  · rw [if_pos hcs, if_pos (by omega), List.getElem?_append_right (by omega)]
    congr 1
    omega
  · rw [if_neg hcs]
    by_cases hbs : p ≤ i ∧ i < p + bs.length
    · rw [if_pos hbs, if_pos (by omega), List.getElem?_append_left (by omega)]
    · rw [if_neg hbs, if_neg (by omega)]

/-- And so it is when the front piece comes last. -/
theorem overwrite_overwrite_front {l bs cs : List α} {p : ℕ}
    (h : p + bs.length + cs.length ≤ l.length) :
    overwrite (overwrite l (p + bs.length) cs) p bs = overwrite l p (bs ++ cs) := by
  apply List.ext_getElem?
  intro i
  rw [getElem?_overwrite (by rw [length_overwrite (by omega)]; omega),
    getElem?_overwrite (by omega), getElem?_overwrite (by simp; omega), List.length_append]
  by_cases hbs : p ≤ i ∧ i < p + bs.length
  · rw [if_pos hbs, if_pos (by omega), List.getElem?_append_left (by omega)]
  · rw [if_neg hbs]
    by_cases hcs : p + bs.length ≤ i ∧ i < p + bs.length + cs.length
    · rw [if_pos hcs, if_pos (by omega), List.getElem?_append_right (by omega)]
      congr 1
      omega
    · rw [if_neg hcs, if_neg (by omega)]

/-- `bs` stored from position `p`, undefined unless all the cells exist. -/
def store (l : List α) (p : ℕ) (bs : List α) : Option (List α) :=
  if p + bs.length ≤ l.length then some (overwrite l p bs) else none

theorem load_of_le {l : List α} {p n : ℕ} (h : p + n ≤ l.length) :
    load l p n = some ((l.drop p).take n) := if_pos h

/-- A load that is defined stayed inside the block and delivered what was asked for. -/
theorem load_eq_some {l bs : List α} {p n : ℕ} (h : load l p n = some bs) :
    p + n ≤ l.length ∧ bs.length = n := by
  unfold load at h
  split at h
  · next hle =>
      cases h
      refine ⟨hle, ?_⟩
      simp
      omega
  · cases h

/-- What is loaded does not depend on what stands behind the block. -/
theorem load_append {l bs : List α} {p n : ℕ} (h : load l p n = some bs) (rest : List α) :
    load (l ++ rest) p n = some bs := by
  have hle := (load_eq_some h).1
  rw [load_of_le hle] at h
  rw [load_of_le (by rw [List.length_append]; omega), List.drop_append_of_le_length (by omega),
    List.take_append_of_le_length (by rw [List.length_drop]; omega)]
  exact h

theorem store_of_le {l bs : List α} {p : ℕ} (h : p + bs.length ≤ l.length) :
    store l p bs = some (overwrite l p bs) := if_pos h

/-- Storing in the cell behind a front. -/
theorem store_front (front back : List α) (old c : α) :
    store (front ++ old :: back) front.length [c] = some (front ++ c :: back) := by
  rw [store_of_le (by simp), overwrite, List.take_left, ← List.drop_drop, List.drop_left]
  simp

/-- A store leaves the cells outside its piece alone. -/
theorem getElem?_store {l l' bs : List α} {p i : ℕ} (h : store l p bs = some l')
    (hi : i < p ∨ p + bs.length ≤ i) : l'[i]? = l[i]? := by
  unfold store at h
  split at h
  · next hle =>
      cases h
      rw [getElem?_overwrite hle, if_neg (by omega)]
  · cases h

/-! ### Storing several pieces -/

/-- A run of copies into one block, each given by its place and its bytes.  An empty one is
not carried out. -/
def storeAll (l : List α) : List (ℕ × List α) → Option (List α)
  | [] => some l
  | (p, bs) :: pieces =>
      if bs.length = 0 then storeAll l pieces
      else (store l p bs).bind fun l => storeAll l pieces

theorem storeAll_append (l : List α) (pieces pieces' : List (ℕ × List α)) :
    storeAll l (pieces ++ pieces') = (storeAll l pieces).bind fun l => storeAll l pieces' := by
  induction pieces generalizing l with
  | nil => rfl
  | cons piece pieces ih =>
      rw [List.cons_append, storeAll, storeAll]
      by_cases hnil : piece.2.length = 0
      · rw [if_pos hnil, if_pos hnil, ih]
      · rw [if_neg hnil, if_neg hnil, Option.bind_assoc]
        congr 1
        funext l'
        exact ih l'

/-- Empty copies change nothing. -/
theorem storeAll_empty (l : List α) {pieces : List (ℕ × List α)}
    (h : ∀ piece ∈ pieces, piece.2 = []) : storeAll l pieces = some l := by
  induction pieces with
  | nil => rfl
  | cons piece pieces ih =>
      have hnil := h piece List.mem_cons_self
      rw [storeAll, if_pos (by rw [hnil]; rfl)]
      exact ih fun piece' hmem => h piece' (List.mem_cons_of_mem _ hmem)

/-- A copy that is carried out lies inside the block. -/
theorem le_of_storeAll {l l' : List α} {pieces : List (ℕ × List α)}
    (h : storeAll l pieces = some l') :
    ∀ piece ∈ pieces, piece.2 ≠ [] → piece.1 + piece.2.length ≤ l.length := by
  induction pieces generalizing l with
  | nil =>
      intro piece hmem
      cases hmem
  | cons piece pieces ih =>
      intro piece' hmem hne
      rw [storeAll] at h
      by_cases hnil : piece.2.length = 0
      · rw [if_pos hnil] at h
        rcases List.mem_cons.mp hmem with rfl | htail
        · exact absurd (List.length_eq_zero_iff.mp hnil) hne
        · exact ih h piece' htail hne
      · rw [if_neg hnil] at h
        by_cases hfits : piece.1 + piece.2.length ≤ l.length
        · rw [store_of_le hfits, Option.bind_some] at h
          rcases List.mem_cons.mp hmem with rfl | htail
          · exact hfits
          · rw [← length_overwrite hfits]
            exact ih h piece' htail hne
        · rw [store, if_neg hfits] at h
          cases h

/-- Cells that no copy touches are left alone. -/
theorem getElem?_storeAll {l l' : List α} {pieces : List (ℕ × List α)} {i : ℕ}
    (h : storeAll l pieces = some l')
    (hi : ∀ piece ∈ pieces, i < piece.1 ∨ piece.1 + piece.2.length ≤ i) : l'[i]? = l[i]? := by
  induction pieces generalizing l with
  | nil =>
      cases h
      rfl
  | cons piece pieces ih =>
      have htail := fun piece' hmem => hi piece' (List.mem_cons_of_mem _ hmem)
      rw [storeAll] at h
      by_cases hnil : piece.2.length = 0
      · rw [if_pos hnil] at h
        exact ih h htail
      · rw [if_neg hnil] at h
        obtain ⟨l₁, hstore, hrest⟩ := Option.bind_eq_some_iff.mp h
        rw [ih hrest htail]
        exact getElem?_store hstore (hi piece List.mem_cons_self)

/-- Pieces that follow each other from the start of the block, stored one by one. -/
theorem storeAll_consecutive (l : List α) (part : ℕ → List α) (n : ℕ) :
    ∀ m, (∀ k < m, (part k).length = n) → m * n ≤ l.length →
      storeAll l ((List.range m).map fun k => (k * n, part k))
        = some (overwrite l 0 ((List.range m).flatMap part)) := by
  intro m
  induction m with
  | zero =>
      intro _ _
      exact congrArg some (overwrite_nil l 0).symm
  | succ m ih =>
      intro hpart hle
      have hlen : ((List.range m).flatMap part).length = m * n := by
        rw [List.length_flatMap, List.map_congr_left fun k hk => hpart k
          (Nat.lt_succ_of_lt (List.mem_range.mp hk)), List.map_const', List.sum_replicate_nat,
          List.length_range]
      have hnext : (part m).length = n := hpart m (Nat.lt_succ_self m)
      have hroom : m * n + n ≤ l.length := by rw [← Nat.succ_mul]; exact hle
      rw [List.range_succ, List.map_append, storeAll_append,
        ih (fun k hk => hpart k (Nat.lt_succ_of_lt hk)) (by omega), List.flatMap_append,
        Option.bind_some, List.map_singleton, List.flatMap_singleton, storeAll]
      by_cases hnil : (part m).length = 0
      · rw [if_pos hnil, List.length_eq_zero_iff.mp hnil, List.append_nil]
        rfl
      · have hbehind : overwrite (overwrite l 0 ((List.range m).flatMap part)) (m * n) (part m)
            = overwrite l 0 ((List.range m).flatMap part ++ part m) := by
          rw [← overwrite_overwrite (by omega), Nat.zero_add, hlen]
        rw [if_neg hnil, store_of_le (by rw [length_overwrite (by omega)]; omega), hbehind]
        rfl

/-! ### Searching -/

/-- The needle stands at the place. -/
def OccursAt (needle haystack : List α) (p : ℕ) : Prop := needle <+: haystack.drop p

/-- The least place where the needle stands. -/
def FirstAt (needle haystack : List α) (p : ℕ) : Prop :=
  OccursAt needle haystack p ∧ ∀ q < p, ¬ OccursAt needle haystack q

theorem OccursAt.le {needle haystack : List α} {p : ℕ} (h : OccursAt needle haystack p)
    (hn : needle ≠ []) : p + needle.length ≤ haystack.length := by
  have hle := List.IsPrefix.length_le h
  have hpos := List.length_pos_iff.mpr hn
  rw [List.length_drop] at hle
  omega

section Find

variable [DecidableEq α] {needle haystack : List α}

instance (needle haystack : List α) (p : ℕ) : Decidable (OccursAt needle haystack p) :=
  inferInstanceAs (Decidable (_ <+: _))

/-- `memmem`: the first place of the needle. -/
def memmem (haystack needle : List α) : Option ℕ :=
  (List.range (haystack.length + 1)).find? fun p => OccursAt needle haystack p

theorem memmem_eq_some_iff (hn : needle ≠ []) {p : ℕ} :
    memmem haystack needle = some p ↔ FirstAt needle haystack p := by
  rw [memmem, List.find?_range_eq_some]
  simp only [decide_eq_true_eq, Bool.not_eq_true', decide_eq_false_iff_not, List.mem_range]
  constructor
  · rintro ⟨hat, -, hfirst⟩
    exact ⟨hat, hfirst⟩
  · rintro ⟨hat, hfirst⟩
    have hle := hat.le hn
    exact ⟨hat, by omega, hfirst⟩

theorem memmem_eq_none_iff (hn : needle ≠ []) :
    memmem haystack needle = none ↔ ∀ p, ¬ OccursAt needle haystack p := by
  rw [memmem, List.find?_range_eq_none]
  simp only [Bool.not_eq_true', decide_eq_false_iff_not]
  constructor
  · intro hnone p hat
    have hle := hat.le hn
    exact hnone p (by omega) hat
  · intro hnone p _
    exact hnone p

end Find
end Memory
