/-
Hashing a message block by block.

A state is folded over the blocks of a message that was filled up to whole blocks, its length at
the end.  `collide_of_foldl_eq` is why this is done so: two folds that come to one state, over
block lists of which neither ends in the other, put different inputs with one result into the
compression function somewhere on the way.  `eq_of_suffix` says that filled up messages never
end in each other as long as their lengths are told apart, and `collide_of_pad` puts the two
together.  Nothing is assumed of the compression function.
-/
import Mathlib.Data.List.Basic
import Mathlib.Data.List.Induction
import Mathlib.Tactic.Ring

namespace MerkleDamgard

/-! ### What goes into the compression function -/

section Inputs

variable {σ β : Type*} (f : σ → β → σ)

/-- The state and the block of every call, in order. -/
def inputs : σ → List β → List (σ × β)
  | _, [] => []
  | s, b :: bs => (s, b) :: inputs (f s b) bs

/-- Different inputs with one result. -/
def Collide (p q : σ × β) : Prop := p ≠ q ∧ f p.1 p.2 = f q.1 q.2

theorem inputs_append (s : σ) (bs cs : List β) :
    inputs f s (bs ++ cs) = inputs f s bs ++ inputs f (bs.foldl f s) cs := by
  induction bs generalizing s with
  | nil => rfl
  | cons b bs ih => rw [List.cons_append, inputs, inputs, ih, List.foldl_cons, List.cons_append]

/-- **Two folds that come to one state** have met a collision, unless one list ends in the
other. -/
theorem collide_of_foldl_eq (s : σ) (bs : List β) :
    ∀ cs : List β, bs.foldl f s = cs.foldl f s → ¬ bs <:+ cs → ¬ cs <:+ bs →
      ∃ p ∈ inputs f s bs, ∃ q ∈ inputs f s cs, Collide f p q := by
  induction bs using List.reverseRecOn with
  | nil =>
      intro cs _ hno _
      exact absurd List.nil_suffix hno
  | append_singleton bs b ih =>
      intro cs heq hbc hcb
      rcases List.eq_nil_or_concat' cs with rfl | ⟨cs, c, rfl⟩
      · exact absurd List.nil_suffix hcb
      · rw [List.foldl_append, List.foldl_append, List.foldl_cons, List.foldl_cons, List.foldl_nil,
          List.foldl_nil] at heq
        rw [inputs_append, inputs_append]
        by_cases hlast : (bs.foldl f s, b) = (cs.foldl f s, c)
        · -- the last calls are one and the same: the collision lies before
          obtain ⟨hstate, rfl⟩ := Prod.mk.inj hlast
          have hbc' : ¬ bs <:+ cs := fun h => hbc (List.suffix_append_self_iff.mpr h)
          have hcb' : ¬ cs <:+ bs := fun h => hcb (List.suffix_append_self_iff.mpr h)
          obtain ⟨p, hp, q, hq, hpq⟩ := ih cs hstate hbc' hcb'
          exact ⟨p, List.mem_append_left _ hp, q, List.mem_append_left _ hq, hpq⟩
        · exact ⟨_, List.mem_append_right _ List.mem_cons_self, _,
            List.mem_append_right _ List.mem_cons_self, hlast, heq⟩

end Inputs

/-! ### Blocks -/

section Blocks

variable {α : Type*}

/-- The whole blocks of `n` cells. -/
def blocks (n : ℕ) (l : List α) : List (List α) :=
  (List.range (l.length / n)).map fun k => (l.drop (k * n)).take n

/-- A piece is one block. -/
theorem blocks_self {n : ℕ} (hn : 0 < n) {l : List α} (h : l.length = n) : blocks n l = [l] := by
  rw [blocks, h, Nat.div_self hn, List.range_one, List.map_singleton, Nat.zero_mul,
    List.drop_zero, List.take_of_length_le h.le]

theorem blocks_nil (n : ℕ) : blocks n ([] : List α) = [] := by
  rw [blocks, List.length_nil, Nat.zero_div]
  rfl

/-- Behind whole blocks the blocks begin anew. -/
theorem blocks_append {n : ℕ} (hn : 0 < n) {l : List α} (h : n ∣ l.length) (m : List α) :
    blocks n (l ++ m) = blocks n l ++ blocks n m := by
  obtain ⟨k, hk⟩ := h
  have hfirst : l.length / n = k := by rw [hk, Nat.mul_div_cancel_left _ hn]
  have hboth : (l ++ m).length / n = k + m.length / n := by
    rw [List.length_append, hk, Nat.mul_add_div hn]
  rw [blocks, hboth, List.range_add, List.map_append, List.map_map, blocks, hfirst, blocks]
  congr 1
  · refine List.map_congr_left fun i hi => ?_
    have hi' : (i + 1) * n ≤ k * n := Nat.mul_le_mul_right n (List.mem_range.mp hi)
    rw [Nat.succ_mul] at hi'
    have hroom : i * n + n ≤ l.length := by rw [hk, Nat.mul_comm n k]; exact hi'
    rw [List.drop_append_of_le_length (by omega), List.take_append_of_le_length (by
      rw [List.length_drop]; omega)]
  · refine List.map_congr_left fun i _ => ?_
    have hplace : (k + i) * n = l.length + i * n := by rw [hk]; ring
    rw [Function.comp_apply, hplace, List.drop_length_add_append]

/-- The blocks in a row are the list. -/
theorem flatten_blocks {n : ℕ} (hn : 0 < n) (k : ℕ) :
    ∀ l : List α, l.length = k * n → (blocks n l).flatten = l := by
  induction k with
  | zero =>
      intro l h
      rw [Nat.zero_mul] at h
      rw [List.length_eq_zero_iff.mp h, blocks_nil]
      rfl
  | succ k ih =>
      intro l h
      rw [Nat.succ_mul] at h
      have hlen : (l.take n).length = n := by rw [List.length_take]; omega
      have hrest : (l.drop n).length = k * n := by rw [List.length_drop]; omega
      have hsplit : blocks n l = [l.take n] ++ blocks n (l.drop n) := by
        conv_lhs => rw [← List.take_append_drop n l]
        rw [blocks_append hn (dvd_of_eq hlen.symm), blocks_self hn hlen]
      rw [hsplit, List.flatten_append, ih _ hrest, List.flatten_singleton, List.take_append_drop]

end Blocks

/-! ### Filling up -/

/-- How messages are filled up to whole blocks: a mark, zeros, and the length. -/
structure Padding (α : Type*) where
  mark : α
  zero : α
  blockLen : ℕ
  lengthSize : ℕ
  lengthField : ℕ → List α
  room : lengthSize < blockLen
  length_lengthField : ∀ n, (lengthField n).length = lengthSize

namespace Padding

variable {α : Type*} (P : Padding α)

/-- The zeros that are missing. -/
def zeros (len : ℕ) : ℕ := (P.blockLen - (len + 1 + P.lengthSize) % P.blockLen) % P.blockLen

/-- The message filled up. -/
def pad (message : List α) : List α :=
  message ++ P.mark :: (List.replicate (P.zeros message.length) P.zero
    ++ P.lengthField message.length)

/-- The hash of a message: the function folded over the blocks of the message filled up. -/
def fold {σ : Type*} (f : σ → List α → σ) (s : σ) (message : List α) : σ :=
  (blocks P.blockLen (P.pad message)).foldl f s

theorem pos : 0 < P.blockLen := Nat.zero_lt_of_lt P.room

theorem length_pad (message : List α) : (P.pad message).length
    = message.length + 1 + P.lengthSize + P.zeros message.length := by
  rw [pad, List.length_append, List.length_cons, List.length_append, List.length_replicate,
    P.length_lengthField]
  omega

/-- A filled up message is made of whole blocks. -/
theorem dvd_length_pad (message : List α) : P.blockLen ∣ (P.pad message).length := by
  rw [length_pad, zeros]
  set need := message.length + 1 + P.lengthSize
  have hlt : need % P.blockLen < P.blockLen := Nat.mod_lt _ P.pos
  apply Nat.dvd_of_mod_eq_zero
  rw [Nat.add_mod_mod, ← Nat.mod_add_mod, Nat.add_sub_cancel' hlt.le, Nat.mod_self]

/-- The zeros behind `rem` cells in a last block that has room for the length, ... -/
theorem zeros_of_le {len rem k : ℕ} (hlen : len = k * P.blockLen + rem)
    (h : rem + 1 + P.lengthSize ≤ P.blockLen) :
    P.zeros len = P.blockLen - (rem + 1 + P.lengthSize) := by
  have hmod : (len + 1 + P.lengthSize) % P.blockLen = (rem + 1 + P.lengthSize) % P.blockLen := by
    rw [hlen, show k * P.blockLen + rem + 1 + P.lengthSize
      = rem + 1 + P.lengthSize + k * P.blockLen by ring, Nat.add_mul_mod_self_right]
  rw [zeros, hmod]
  rcases h.lt_or_eq with hlt | heq
  · rw [Nat.mod_eq_of_lt hlt, Nat.mod_eq_of_lt (by omega)]
  · rw [heq, Nat.mod_self, Nat.sub_zero, Nat.mod_self, Nat.sub_self]

/-- ... and in one that has not. -/
theorem zeros_of_lt {len rem k : ℕ} (hlen : len = k * P.blockLen + rem) (hrem : rem < P.blockLen)
    (h : P.blockLen < rem + 1 + P.lengthSize) :
    P.zeros len = P.blockLen - (rem + 1) + (P.blockLen - P.lengthSize) := by
  have hroom := P.room
  have hmod : (len + 1 + P.lengthSize) % P.blockLen = rem + 1 + P.lengthSize - P.blockLen := by
    rw [hlen, show k * P.blockLen + rem + 1 + P.lengthSize
      = rem + 1 + P.lengthSize + k * P.blockLen by ring, Nat.add_mul_mod_self_right,
      Nat.mod_eq_sub_mod h.le, Nat.mod_eq_of_lt (by omega)]
  rw [zeros, hmod, Nat.mod_eq_of_lt (by omega)]
  omega

/-- A message that is the end of another one, both filled up, is that message. -/
theorem eq_of_suffix {m m' : List α}
    (hlen : P.lengthField m.length = P.lengthField m'.length → m.length = m'.length)
    (h : P.pad m <:+ P.pad m') : m = m' := by
  obtain ⟨front, hfront⟩ := h
  have hfield : P.lengthField m.length = P.lengthField m'.length := by
    have hend := congrArg List.reverse hfront
    rw [pad, pad] at hend
    simp only [List.reverse_append, List.reverse_cons, List.append_assoc] at hend
    have hrev := List.append_inj_left hend (by simp [P.length_lengthField])
    exact List.reverse_inj.mp hrev
  have hwhole : P.pad m = P.pad m' := by
    refine List.IsSuffix.eq_of_length ⟨front, hfront⟩ ?_
    rw [length_pad, length_pad, hlen hfield]
  exact List.append_inj_left hwhole (hlen hfield)

theorem flatten_blocks_pad (message : List α) :
    (blocks P.blockLen (P.pad message)).flatten = P.pad message := by
  obtain ⟨k, hk⟩ := P.dvd_length_pad message
  exact flatten_blocks P.pos k _ (by rw [hk, Nat.mul_comm])

/-- **Messages that come to one state** are one message, or their calls of the compression
function have met a collision. -/
theorem collide_of_pad {σ : Type*} (f : σ → List α → σ) (s : σ) {m m' : List α} (hne : m ≠ m')
    (hlen : P.lengthField m.length = P.lengthField m'.length → m.length = m'.length)
    (heq : (blocks P.blockLen (P.pad m)).foldl f s = (blocks P.blockLen (P.pad m')).foldl f s) :
    ∃ p ∈ inputs f s (blocks P.blockLen (P.pad m)),
      ∃ q ∈ inputs f s (blocks P.blockLen (P.pad m')), Collide f p q := by
  have hno : ∀ {l l' : List α}, l ≠ l' →
      (P.lengthField l.length = P.lengthField l'.length → l.length = l'.length) →
      ¬ blocks P.blockLen (P.pad l) <:+ blocks P.blockLen (P.pad l') := by
    intro l l' hll hfield hsuffix
    obtain ⟨front, hfront⟩ := hsuffix
    apply hll
    apply P.eq_of_suffix hfield
    refine ⟨front.flatten, ?_⟩
    rw [← P.flatten_blocks_pad l, ← P.flatten_blocks_pad l', ← hfront, List.flatten_append]
  exact collide_of_foldl_eq f s _ _ heq (hno hne hlen)
    (hno hne.symm fun h => (hlen h.symm).symm)

end Padding

end MerkleDamgard
