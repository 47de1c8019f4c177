/-
Deinterleaving delivers the items.

`itemsOf` is what a call is for: item `k` are the bytes of the content from
`(initial_item_offset + k * item_block_size) * item_size` on.  The copies of the loop, each
stored into its own slot of the destination, are these items exactly when the rounds behind
the last item find nothing any more, and no item goes across the physical end, where the
peek would tear it (`deinterleaves_iff`).
-/
import Csnip.Rb.Deinterleave

namespace Csnip

open Memory Cyclic

namespace Rb

/-! ### What a call is for -/

/-- The byte position of item `k`. -/
def itemPosition (itemSize initialItemOffset itemBlockSize k : ℕ) : ℕ :=
  (initialItemOffset + k * itemBlockSize) * itemSize

/-- The items, one after the other. -/
def itemsOf (content : List UInt8) (itemCount itemSize initialItemOffset itemBlockSize : ℕ) :
    List UInt8 :=
  (List.range itemCount).flatMap fun k =>
    (content.drop (itemPosition itemSize initialItemOffset itemBlockSize k)).take itemSize

/-- How many bytes the content must have, as a number that does not wrap. -/
def bytesNeeded (itemCount itemSize initialItemOffset itemBlockSize : ℕ) : ℕ :=
  initialItemOffset * itemSize + (itemCount - 1) * itemSize * itemBlockSize + itemSize

/-- The call ends with the ring as it was.  If there is enough content it returns the size of
the items and stores them, and nothing else, into any destination that has room for them;
otherwise it returns 0 and stores nothing. -/
def Deinterleaves (rb : Rb) (itemCount itemSize initialItemOffset itemBlockSize : ℕ) : Prop :=
  ∃ fuel ret copies rb',
    rb.deinterleaveItems fuel itemCount itemSize initialItemOffset itemBlockSize
      = some (ret, copies, rb') ∧ SameRing rb rb' ∧
    if bytesNeeded itemCount itemSize initialItemOffset itemBlockSize ≤ rb.queue.length then
      ret = itemCount * itemSize ∧
        ∀ destination : List UInt8, itemCount * itemSize ≤ destination.length →
          storeAll destination copies = some (overwrite destination 0
            (itemsOf rb.queue itemCount itemSize initialItemOffset itemBlockSize))
    else ret = 0 ∧ copies = []

/-- With enough content: as many steps as there are items come to the bound, or at least
behind the content, and no item goes across the physical end at a positive offset.
Otherwise: the number of bytes is one of 64 bits, or else the product that is returned
happens to be zero in 64 bits. -/
def TakesItems (rb : Rb) (itemCount itemSize initialItemOffset itemBlockSize : ℕ) : Prop :=
  if bytesNeeded itemCount itemSize initialItemOffset itemBlockSize ≤ rb.queue.length then
    (bytesNeeded itemCount itemSize initialItemOffset itemBlockSize
        ≤ itemCount * blockStep itemSize itemBlockSize ∨
      rb.queue.length
        ≤ initialItemOffset * itemSize + itemCount * blockStep itemSize itemBlockSize) ∧
      ∀ k < itemCount, ¬ rb.CrossesEnd itemSize
        (itemPosition itemSize initialItemOffset itemBlockSize k)
  else bytesNeeded itemCount itemSize initialItemOffset itemBlockSize < 2 ^ 64 ∨
    u64 (itemCount * itemSize) = 0

instance (rb : Rb) (itemCount itemSize initialItemOffset itemBlockSize : ℕ) :
    Decidable (rb.TakesItems itemCount itemSize initialItemOffset itemBlockSize) := by
  unfold TakesItems; infer_instance

/-! ### The words are the numbers -/

section Words

variable {itemCount itemSize initialItemOffset itemBlockSize : ℕ}

theorem bytesConcerned_eq (hcount : 1 ≤ itemCount) :
    bytesConcerned itemCount itemSize initialItemOffset itemBlockSize
      = u64 (bytesNeeded itemCount itemSize initialItemOffset itemBlockSize) := by
  have hlast : subU64 itemCount 1 = u64 (itemCount - 1) := by
    unfold subU64 u64
    omega
  rw [bytesConcerned, bytesNeeded, hlast, initialBytepos]
  simp only [u64, Nat.add_assoc, Nat.add_mod, Nat.mul_mod, Nat.mod_mod]

/-- Every item ends inside the bytes that are needed. -/
theorem itemPosition_le {k : ℕ} (hk : k < itemCount) :
    itemPosition itemSize initialItemOffset itemBlockSize k + itemSize
      ≤ bytesNeeded itemCount itemSize initialItemOffset itemBlockSize := by
  have hle : k * itemBlockSize * itemSize ≤ (itemCount - 1) * itemSize * itemBlockSize := by
    rw [Nat.mul_right_comm]
    exact Nat.mul_le_mul_right _ (Nat.mul_le_mul_right _ (by omega))
  rw [itemPosition, bytesNeeded, Nat.add_mul]
  omega

variable (hneeded : bytesNeeded itemCount itemSize initialItemOffset itemBlockSize ≤ 2 ^ 64)
  (hitem : 1 ≤ itemSize)

include hneeded hitem

theorem initialBytepos_eq : initialBytepos itemSize initialItemOffset
    = initialItemOffset * itemSize := by
  unfold bytesNeeded at hneeded
  exact u64_of_lt (by omega)

/-- Up to the last item the steps are those of the items. -/
theorem bytepos_eq {k : ℕ} (hk : k < itemCount) :
    initialBytepos itemSize initialItemOffset + k * blockStep itemSize itemBlockSize
      = itemPosition itemSize initialItemOffset itemBlockSize k := by
  have hstep : k * blockStep itemSize itemBlockSize = k * (itemSize * itemBlockSize) := by
    cases k with
    | zero => rw [Nat.zero_mul, Nat.zero_mul]
    | succ k =>
        have hone : itemSize * itemBlockSize ≤ (itemCount - 1) * itemSize * itemBlockSize := by
          rw [Nat.mul_assoc]
          exact Nat.le_mul_of_pos_left _ (by omega)
        unfold bytesNeeded at hneeded
        rw [blockStep, u64_of_lt (by omega)]
  rw [initialBytepos_eq hneeded hitem, hstep, itemPosition]
  ring

theorem before_bytesNeeded {k : ℕ} (hk : k < itemCount) :
    k * blockStep itemSize itemBlockSize
      < bytesNeeded itemCount itemSize initialItemOffset itemBlockSize := by
  have hpos := bytepos_eq hneeded hitem hk
  have hle : itemPosition itemSize initialItemOffset itemBlockSize k + itemSize
      ≤ bytesNeeded itemCount itemSize initialItemOffset itemBlockSize := itemPosition_le hk
  omega

end Words

/-! ### Items and copies -/

section Copies

variable {rb : Rb} {itemCount itemSize initialItemOffset itemBlockSize : ℕ}

/-- A whole item that stays on one side of the physical end is copied as it is. -/
theorem copied_eq (h : WF rb) {pos : ℕ} (hitem : 1 ≤ itemSize)
    (hle : pos + itemSize ≤ rb.canRead) (hx : ¬ rb.CrossesEnd itemSize pos) :
    rb.copied itemSize pos = (rb.queue.drop pos).take itemSize := by
  rw [copied, if_neg (by omega), storedCount, if_neg hx, peekCount, Nat.min_eq_left (by omega),
    take_drop_queue h hle]

/-- One that goes across the end is not copied whole. -/
theorem length_copied_lt (h : WF rb) {pos : ℕ} (hitem : 1 ≤ itemSize)
    (hx : rb.CrossesEnd itemSize pos) : (rb.copied itemSize pos).length < itemSize := by
  have ho : ¬ rb.canRead ≤ pos := fun hno => not_crossesEnd hno hx
  have hpos : 0 < pos := hx.1
  rw [copied, if_neg ho, length_window (by rw [h.length_buf]; exact storedCount_le_size h _ _),
    storedCount, if_pos hx, peekCount]
  omega

/-- In front of the end of the content something is copied. -/
theorem copied_ne_nil (h : WF rb) {pos : ℕ} (hitem : 1 ≤ itemSize) (ho : pos < rb.canRead)
    (hl : ¬ rb.LeavesBuffer itemSize pos) : rb.copied itemSize pos ≠ [] := by
  rw [← List.length_pos_iff, copied, if_neg (Nat.not_le.mpr ho),
    length_window (by rw [h.length_buf]; exact storedCount_le_size h _ _), storedCount]
  by_cases hx : rb.CrossesEnd itemSize pos
  · -- the first piece alone has a length
    have hin : ¬ rb.readIndex + rb.peekCount itemSize pos < rb.size := fun hlt => hl ⟨hx, hlt⟩
    have hbefore := hx.2.1
    rw [if_pos hx]
    omega
  · rw [if_neg hx, peekCount]
    omega

theorem length_itemsOf (h : WF rb)
    (henough : bytesNeeded itemCount itemSize initialItemOffset itemBlockSize ≤ rb.canRead) :
    (itemsOf rb.queue itemCount itemSize initialItemOffset itemBlockSize).length
      = itemCount * itemSize := by
  have hlen : ∀ k ∈ List.range itemCount, ((rb.queue.drop
      (itemPosition itemSize initialItemOffset itemBlockSize k)).take itemSize).length
      = itemSize := by
    intro k hk
    have hle := Nat.le_trans (itemPosition_le (List.mem_range.mp hk)) henough
    rw [List.length_take, List.length_drop, length_queue h]
    omega
  rw [itemsOf, List.length_flatMap, List.map_congr_left hlen, List.map_const',
    List.sum_replicate_nat, List.length_range]

theorem copiesFrom_split (rb : Rb) (itemSize init step : ℕ) {n m : ℕ} (hle : n ≤ m) :
    rb.copiesFrom itemSize init step 0 m
      = rb.copiesFrom itemSize init step 0 n ++ rb.copiesFrom itemSize init step n (m - n) := by
  have hrange : List.range' 0 n ++ List.range' n (m - n) = List.range' 0 m := by
    have happend := List.range'_append_1 (s := 0) (m := n) (n := m - n)
    rw [Nat.zero_add, Nat.add_sub_cancel' hle] at happend
    exact happend
  rw [copiesFrom, ← hrange, List.map_append, copiesFrom, copiesFrom]

end Copies

section Call

variable {rb : Rb} {itemCount itemSize initialItemOffset itemBlockSize : ℕ} (h : WF rb)
  (hcount : 1 ≤ itemCount) (hitem : 1 ≤ itemSize)
  (henough : bytesNeeded itemCount itemSize initialItemOffset itemBlockSize ≤ rb.canRead)

include h henough

theorem bytesNeeded_lt :
    bytesNeeded itemCount itemSize initialItemOffset itemBlockSize < 2 ^ 63 := by
  have hcr := canRead_le h
  have hs := h.size_lt
  omega

include hcount

theorem bytesConcerned_enough : bytesConcerned itemCount itemSize initialItemOffset itemBlockSize
    = bytesNeeded itemCount itemSize initialItemOffset itemBlockSize := by
  have hlt := bytesNeeded_lt h henough
  rw [bytesConcerned_eq hcount, u64_of_lt (by omega)]

/-- What a call that ended has done, where the content suffices. -/
theorem deinterleaveItems_enough {fuel ret : ℕ} {copies : List (ℕ × List UInt8)} {rb' : Rb}
    (hrun : rb.deinterleaveItems fuel itemCount itemSize initialItemOffset itemBlockSize
      = some (ret, copies, rb')) :
    ∃ m, copies = rb.copiesFrom itemSize (initialBytepos itemSize initialItemOffset)
        (blockStep itemSize itemBlockSize) 0 m ∧
      ret = u64 (itemCount * itemSize) ∧ SameRing rb rb' ∧
      bytesNeeded itemCount itemSize initialItemOffset itemBlockSize
        ≤ m * blockStep itemSize itemBlockSize ∧
      ∀ i < m, i * blockStep itemSize itemBlockSize
          < bytesNeeded itemCount itemSize initialItemOffset itemBlockSize ∧
        ¬ rb.LeavesBuffer itemSize (u64 (initialBytepos itemSize initialItemOffset
          + i * blockStep itemSize itemBlockSize)) := by
  have hconcerned := bytesConcerned_enough h hcount henough
  rw [← hconcerned]
  exact deinterleaveItems_some h (by rw [hconcerned]; exact henough) hrun

omit hcount

include hitem

/-- The word that is peeked at is the position of the item. -/
theorem peek_position {k : ℕ} (hk : k < itemCount) :
    u64 (initialBytepos itemSize initialItemOffset + k * blockStep itemSize itemBlockSize)
      = itemPosition itemSize initialItemOffset itemBlockSize k := by
  have hlt := bytesNeeded_lt h henough
  have hle : itemPosition itemSize initialItemOffset itemBlockSize k + itemSize
      ≤ bytesNeeded itemCount itemSize initialItemOffset itemBlockSize := itemPosition_le hk
  rw [bytepos_eq (by omega) hitem hk, u64_of_lt (by omega)]

/-- Behind the last item the position is still the sum. -/
theorem peek_position_behind {j : ℕ} (hj : j * blockStep itemSize itemBlockSize
      < bytesNeeded itemCount itemSize initialItemOffset itemBlockSize) :
    u64 (initialBytepos itemSize initialItemOffset + j * blockStep itemSize itemBlockSize)
      = initialItemOffset * itemSize + j * blockStep itemSize itemBlockSize := by
  have hlt := bytesNeeded_lt h henough
  have hinit : initialItemOffset * itemSize
      ≤ bytesNeeded itemCount itemSize initialItemOffset itemBlockSize := by
    rw [bytesNeeded, Nat.add_assoc]
    exact Nat.le_add_right _ _
  rw [initialBytepos_eq (Nat.le_of_lt (Nat.lt_trans hlt (by decide))) hitem, u64_of_lt (by omega)]

theorem itemCount_le_rounds {m : ℕ}
    (hcome : bytesNeeded itemCount itemSize initialItemOffset itemBlockSize
      ≤ m * blockStep itemSize itemBlockSize) : itemCount ≤ m := by
  have hlt := bytesNeeded_lt h henough
  by_contra hno
  exact absurd hcome
    (Nat.not_le.mpr (before_bytesNeeded (by omega) hitem (Nat.not_le.mp hno)))

/-- The copies of the items, stored one by one. -/
theorem storeAll_items
    (hx : ∀ k < itemCount, ¬ rb.CrossesEnd itemSize
      (itemPosition itemSize initialItemOffset itemBlockSize k))
    {destination : List UInt8} (hroom : itemCount * itemSize ≤ destination.length) :
    storeAll destination (rb.copiesFrom itemSize (initialBytepos itemSize initialItemOffset)
        (blockStep itemSize itemBlockSize) 0 itemCount)
      = some (overwrite destination 0
        (itemsOf rb.queue itemCount itemSize initialItemOffset itemBlockSize)) := by
  have hcopies : rb.copiesFrom itemSize (initialBytepos itemSize initialItemOffset)
      (blockStep itemSize itemBlockSize) 0 itemCount
      = (List.range itemCount).map fun k => (k * itemSize,
        (rb.queue.drop (itemPosition itemSize initialItemOffset itemBlockSize k)).take
          itemSize) := by
    rw [copiesFrom, ← List.range_eq_range']
    apply List.map_congr_left
    intro k hk
    have hlt := List.mem_range.mp hk
    rw [peek_position h hitem henough hlt,
      copied_eq h hitem (Nat.le_trans (itemPosition_le hlt) henough) (hx k hlt)]
  rw [hcopies, itemsOf]
  apply storeAll_consecutive
  · intro k hk
    have hle := Nat.le_trans (itemPosition_le hk) henough
    rw [List.length_take, List.length_drop, length_queue h]
    omega
  · exact hroom

include hcount

section Stores

variable
  (hbound : bytesNeeded itemCount itemSize initialItemOffset itemBlockSize
      ≤ itemCount * blockStep itemSize itemBlockSize ∨
    rb.canRead ≤ initialItemOffset * itemSize + itemCount * blockStep itemSize itemBlockSize)

include hbound

omit hcount in
/-- A round behind the last item finds nothing. -/
theorem nothing_behind {j : ℕ} (hle : itemCount ≤ j) (hj : j * blockStep itemSize itemBlockSize
      < bytesNeeded itemCount itemSize initialItemOffset itemBlockSize) :
    rb.canRead ≤ u64 (initialBytepos itemSize initialItemOffset
      + j * blockStep itemSize itemBlockSize) := by
  have hsteps : itemCount * blockStep itemSize itemBlockSize
      ≤ j * blockStep itemSize itemBlockSize := Nat.mul_le_mul_right _ hle
  rw [peek_position_behind h hitem henough hj]
  omega

variable (hx : ∀ k < itemCount, ¬ rb.CrossesEnd itemSize
  (itemPosition itemSize initialItemOffset itemBlockSize k))

include hx

/-- Every round stays in the buffer. -/
theorem rounds_stay {j : ℕ} (hj : j * blockStep itemSize itemBlockSize
      < bytesConcerned itemCount itemSize initialItemOffset itemBlockSize) :
    ¬ rb.LeavesBuffer itemSize (u64 (initialBytepos itemSize initialItemOffset
      + j * blockStep itemSize itemBlockSize)) := by
  rw [bytesConcerned_enough h hcount henough] at hj
  intro hl
  by_cases hlt : j < itemCount
  · rw [peek_position h hitem henough hlt] at hl
    exact hx j hlt hl.1
  · exact not_crossesEnd (nothing_behind h hitem henough hbound (Nat.not_lt.mp hlt) hj) hl.1

/-- With enough content and the condition, the call stores the items. -/
theorem stores_items :
    ∃ fuel copies rb',
      rb.deinterleaveItems fuel itemCount itemSize initialItemOffset itemBlockSize
        = some (u64 (itemCount * itemSize), copies, rb') ∧ SameRing rb rb' ∧
      ∀ destination : List UInt8, itemCount * itemSize ≤ destination.length →
        storeAll destination copies = some (overwrite destination 0
          (itemsOf rb.queue itemCount itemSize initialItemOffset itemBlockSize)) := by
  have hconcerned := bytesConcerned_enough h hcount henough
  have hstep : 1 ≤ blockStep itemSize itemBlockSize := by
    by_contra hzero
    have hnone : blockStep itemSize itemBlockSize = 0 := by omega
    unfold bytesNeeded at hbound henough
    rw [hnone, Nat.mul_zero] at hbound
    omega
  have hcome : bytesConcerned itemCount itemSize initialItemOffset itemBlockSize
      ≤ bytesConcerned itemCount itemSize initialItemOffset itemBlockSize
        * blockStep itemSize itemBlockSize := Nat.le_mul_of_pos_right _ hstep
  obtain ⟨ret, copies, rb', hrun⟩ :=
    deinterleaveItems_ends h (by rw [hconcerned]; exact henough) hcome
      (fun _ hj => rounds_stay h hcount hitem henough hbound hx hj)
  obtain ⟨m, rfl, rfl, hring, hm, hrounds⟩ := deinterleaveItems_enough h hcount henough hrun
  refine ⟨_, _, rb', hrun, hring, ?_⟩
  intro destination hroom
  have hnothing : ∀ piece ∈ rb.copiesFrom itemSize (initialBytepos itemSize initialItemOffset)
      (blockStep itemSize itemBlockSize) itemCount (m - itemCount), piece.2 = [] := by
    intro piece hmem
    obtain ⟨j, hj, rfl⟩ := List.mem_map.mp hmem
    obtain ⟨hle, hlt⟩ := List.mem_range'_1.mp hj
    exact if_pos (nothing_behind h hitem henough hbound hle (hrounds j (by omega)).1)
  rw [copiesFrom_split rb _ _ _ (itemCount_le_rounds h hitem henough hm), storeAll_append,
    storeAll_items h hitem henough hx hroom, Option.bind_some]
  exact storeAll_empty _ hnothing

end Stores

/-- A call that stored the items has made no further copy that found anything. -/
theorem bound_of_stores {fuel ret : ℕ} {copies : List (ℕ × List UInt8)} {rb' : Rb}
    (hrun : rb.deinterleaveItems fuel itemCount itemSize initialItemOffset itemBlockSize
      = some (ret, copies, rb'))
    {destination stored : List UInt8} (hroom : destination.length = itemCount * itemSize)
    (hstores : storeAll destination copies = some stored) :
    bytesNeeded itemCount itemSize initialItemOffset itemBlockSize
        ≤ itemCount * blockStep itemSize itemBlockSize ∨
      rb.canRead
        ≤ initialItemOffset * itemSize + itemCount * blockStep itemSize itemBlockSize := by
  obtain ⟨m, rfl, -, -, hm, hrounds⟩ := deinterleaveItems_enough h hcount henough hrun
  by_contra hno
  obtain ⟨hmore, hfound⟩ := not_or.mp hno
  have hlast : itemCount < m := by
    by_contra hle
    exact hmore (Nat.le_trans hm (Nat.mul_le_mul_right _ (Nat.not_lt.mp hle)))
  obtain ⟨hbefore, hl⟩ := hrounds itemCount hlast
  rw [peek_position_behind h hitem henough hbefore] at hl
  have hmem : (itemCount * itemSize, rb.copied itemSize
      (initialItemOffset * itemSize + itemCount * blockStep itemSize itemBlockSize))
      ∈ rb.copiesFrom itemSize (initialBytepos itemSize initialItemOffset)
        (blockStep itemSize itemBlockSize) 0 m := by
    rw [← peek_position_behind h hitem henough hbefore]
    exact List.mem_map.mpr ⟨itemCount, List.mem_range'_1.mpr ⟨Nat.zero_le _, by omega⟩, rfl⟩
  have hne := copied_ne_nil h hitem (Nat.not_le.mp hfound) hl
  have hinside := le_of_storeAll hstores _ hmem hne
  have hpos := List.length_pos_iff.mpr hne
  simp only [hroom] at hinside
  omega

/-- A call that stored the items has torn none of them. -/
theorem whole_of_stores {fuel ret : ℕ} {copies : List (ℕ × List UInt8)} {rb' : Rb}
    (hrun : rb.deinterleaveItems fuel itemCount itemSize initialItemOffset itemBlockSize
      = some (ret, copies, rb'))
    (hstores : ∀ destination : List UInt8, itemCount * itemSize ≤ destination.length →
      storeAll destination copies = some (overwrite destination 0
        (itemsOf rb.queue itemCount itemSize initialItemOffset itemBlockSize))) :
    ∀ k < itemCount, ¬ rb.CrossesEnd itemSize
      (itemPosition itemSize initialItemOffset itemBlockSize k) := by
  obtain ⟨m, rfl, -, -, hm, hrounds⟩ := deinterleaveItems_enough h hcount henough hrun
  intro k hk hx
  set items := itemsOf rb.queue itemCount itemSize initialItemOffset itemBlockSize with hitems
  have hlen : items.length = itemCount * itemSize := length_itemsOf h henough
  -- a destination that differs from the items in every byte
  have hall := hstores (items.map fun b => b + 1) (by rw [List.length_map, hlen])
  have hwhole : overwrite (items.map fun b => b + 1) 0 items = items := by
    rw [overwrite, List.take_zero, List.nil_append, Nat.zero_add,
      List.drop_of_length_le (by rw [List.length_map]), List.append_nil]
  rw [hwhole] at hall
  -- the first byte of its slot that the torn item leaves
  have hshort := length_copied_lt h hitem hx
  set i := k * itemSize + (rb.copied itemSize
    (itemPosition itemSize initialItemOffset itemBlockSize k)).length with hi
  have hslots : (k + 1) * itemSize ≤ itemCount * itemSize := Nat.mul_le_mul_right _ hk
  rw [Nat.succ_mul] at hslots
  have hleft : items[i]? = (items.map fun b => b + 1)[i]? := by
    refine getElem?_storeAll hall (copiesFrom_slot h ?_ (show i < k * itemSize + itemSize by omega))
    rw [peek_position h hitem henough hk]
  have hin : i < items.length := by omega
  rw [List.getElem?_map, List.getElem?_eq_getElem hin, Option.map_some, Option.some.injEq] at hleft
  simp at hleft

end Call

section Iff

variable {rb : Rb} {itemCount itemSize initialItemOffset itemBlockSize : ℕ}

/-- The size of the items is at most what is needed. -/
theorem items_le_bytesNeeded (hcount : 1 ≤ itemCount) (hblock : 1 ≤ itemBlockSize) :
    itemCount * itemSize ≤ bytesNeeded itemCount itemSize initialItemOffset itemBlockSize := by
  have hle : (itemCount - 1) * itemSize ≤ (itemCount - 1) * itemSize * itemBlockSize :=
    Nat.le_mul_of_pos_right _ hblock
  have hlast : itemCount * itemSize = (itemCount - 1) * itemSize + itemSize := by
    rw [← Nat.succ_mul, Nat.succ_eq_add_one, Nat.sub_add_cancel hcount]
  rw [hlast, bytesNeeded]
  omega

theorem deinterleaves_iff (h : WF rb) (hcount : 1 ≤ itemCount) (hitem : 1 ≤ itemSize)
    (hblock : 1 ≤ itemBlockSize)
    (hneeded : bytesNeeded itemCount itemSize initialItemOffset itemBlockSize ≤ 2 ^ 64) :
    rb.Deinterleaves itemCount itemSize initialItemOffset itemBlockSize ↔
      rb.TakesItems itemCount itemSize initialItemOffset itemBlockSize := by
  have hcr := canRead_le h
  have hs := h.size_lt
  unfold Deinterleaves TakesItems
  rw [length_queue h]
  by_cases henough : bytesNeeded itemCount itemSize initialItemOffset itemBlockSize ≤ rb.canRead
  · simp only [if_pos henough]
    constructor
    · rintro ⟨fuel, ret, copies, rb', hrun, -, -, hstores⟩
      have hroom : (List.replicate (itemCount * itemSize) (0 : UInt8)).length
          = itemCount * itemSize := List.length_replicate
      exact ⟨bound_of_stores h hcount hitem henough hrun hroom (hstores _ hroom.ge),
        whole_of_stores h hcount hitem henough hrun hstores⟩
    · rintro ⟨hbound, hx⟩
      obtain ⟨fuel, copies, rb', hrun, hring, hstores⟩ :=
        stores_items h hcount hitem henough hbound hx
      have hsize : itemCount * itemSize
          ≤ bytesNeeded itemCount itemSize initialItemOffset itemBlockSize :=
        items_le_bytesNeeded hcount hblock
      exact ⟨fuel, _, copies, rb', hrun, hring, u64_of_lt (by omega), hstores⟩
  · simp only [if_neg henough]
    have hconcerned : bytesConcerned itemCount itemSize initialItemOffset itemBlockSize = _ :=
      bytesConcerned_eq hcount
    by_cases hword : bytesNeeded itemCount itemSize initialItemOffset itemBlockSize < 2 ^ 64
    · refine iff_of_true ⟨0, 0, [], rb, ?_, SameRing.refl rb, rfl, rfl⟩ (Or.inl hword)
      apply deinterleaveItems_short
      rw [hconcerned, u64_of_lt hword]
      omega
    · -- the sum is 0 in 64 bits, and no round is made
      have hzero : bytesConcerned itemCount itemSize initialItemOffset itemBlockSize = 0 := by
        rw [hconcerned, u64]
        omega
      have hnone : bytesConcerned itemCount itemSize initialItemOffset itemBlockSize
          ≤ rb.canRead := by omega
      constructor
      · rintro ⟨fuel, ret, copies, rb', hrun, -, hret, -⟩
        obtain ⟨m, -, hret', -⟩ := deinterleaveItems_some h hnone hrun
        exact Or.inr (hret'.symm.trans hret)
      · rintro (hno | hret)
        · exact absurd hno hword
        · refine ⟨1, 0, [], rb, ?_, SameRing.refl rb, rfl, rfl⟩
          rw [deinterleaveItems_enter hnone, hzero, hret]
          rfl

end Iff

/-- **When deinterleaving delivers the items.**

In every ring that calls can make out of one that `rb_new_audio()` built, and for items and
blocks of at least one byte whose positions are 64-bit words: the call returns and stores
what it is for exactly when the rounds behind the last item find nothing and no item goes
across the physical end at a positive offset. -/
theorem deinterleaves_exactly {size : ℕ} {rb : Rb} (hsize : size < 2 ^ 64)
    (hrb : ReachableAudio size rb) {itemCount itemSize initialItemOffset itemBlockSize : ℕ}
    (hcount : 1 ≤ itemCount) (hitem : 1 ≤ itemSize) (hblock : 1 ≤ itemBlockSize)
    (hneeded : bytesNeeded itemCount itemSize initialItemOffset itemBlockSize ≤ 2 ^ 64) :
    rb.Deinterleaves itemCount itemSize initialItemOffset itemBlockSize ↔
      rb.TakesItems itemCount itemSize initialItemOffset itemBlockSize :=
  deinterleaves_iff (hrb.wf (hrb.size_lt hsize)).1 hcount hitem hblock hneeded

theorem deinterleaves_exactly_three :
    filledRing.Deinterleaves 2 1 0 2 ↔ filledRing.TakesItems 2 1 0 2 :=
  deinterleaves_exactly (by decide) reachable_filledRing.audio (by decide) (by decide) (by decide)
    (by decide)

/-- One item of one byte at offset 1 of the content 1, 2, 3: the call returns 1 and stores two
bytes. -/
theorem deinterleaves_one_too_many :
    Reachable 3 filledRing ∧
      (filledRing.deinterleaveItems 3 1 1 1 1).map (fun r => (r.1, r.2.1))
        = some (1, [(0, [2]), (1, [3])]) ∧
      ¬ filledRing.Deinterleaves 1 1 1 1 := by
  have hwf := (reachable_filledRing.wf (by decide)).1
  refine ⟨reachable_filledRing, by decide +kernel, ?_⟩
  rw [deinterleaves_iff hwf (by decide) (by decide) (by decide) (by decide)]
  decide +kernel

end Rb

end Csnip
