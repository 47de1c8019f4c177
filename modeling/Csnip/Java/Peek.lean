/-
Peeking in RB.java.

`peek_at()` computes its two lengths as rb.h does, the second one with the offset
subtracted, but in signed numbers: where the difference turns negative the second copy
is left out.  Either way a window that crosses the physical end at a positive offset is
not stored to its last byte, and every other one is.
-/
import Csnip.Java.Agree
import Csnip.Rb.PeekAgree

namespace Csnip

open Memory LittleEndian Cyclic

namespace JavaRB

variable {rb : Rb} {dst dst' : List UInt8}

/-- The peek returns and stores what skipping and reading with the other two methods
would, and moves nothing; behind the content it returns 0 and stores nothing.  The array
has room for what is to be delivered. -/
def PeekAgrees (rb : Rb) (count offset : ℕ) : Prop :=
  ∀ dst : List UInt8, rb.peekCount count offset ≤ dst.length →
    if offset < rb.canRead then
      ∃ skipped mbb₁ dst' mbb₂ rb',
        genericAdvanceReadIndex rb.image offset 0 = some (skipped, mbb₁) ∧
        genericRead mbb₁ dst count 0 = some ((rb.peekCount count offset : ℤ), dst', mbb₂) ∧
        peekAt rb.image dst count offset
          = some ((rb.peekCount count offset : ℤ), dst', Rb.image rb') ∧ Rb.SameRing rb rb'
    else ∃ rb', peekAt rb.image dst count offset = some (0, dst, Rb.image rb') ∧ Rb.SameRing rb rb'

/-! ### The call up to its copy -/

/-- The totals, counted on the block. -/
theorem countPeek_image (hl : Rb.Laid rb) (n count : ℕ) :
    ((addTotal rb.image boffTotalBytesPeek n).bind fun mbb =>
      (if (n : ℤ) < count then addTotal mbb boffTotalUnderflows 1 else some mbb))
      = some (rb.afterPeek n count).image := by
  have hl₁ : Rb.Laid { rb with totalBytesPeek := u64 (rb.totalBytesPeek + n) } := hl.moved ..
  rw [addTotalBytesPeek_image hl, Option.bind_some, Rb.afterPeek]
  by_cases hlt : n < count
  · rw [if_pos (show (n : ℤ) < count by omega), addTotalUnderflows_image hl₁, if_pos hlt]
  · rw [if_neg (show ¬ (n : ℤ) < count by omega), if_neg hlt]

/-- Inside the content a peek is its copy and then some counting. -/
theorem peekAt_image (hm : Mapped rb) {count offset : ℕ} (hc : 1 ≤ count)
    (ho : offset < rb.canRead) :
    peekAt rb.image dst count offset =
      (peekPieces rb.size (rb.readIndex + offset : ℕ) (rb.peekCount count offset) offset).bind
        fun pieces => (copy rb.image dst pieces.1 pieces.2.1 pieces.2.2).map fun dst' =>
          ((rb.peekCount count offset : ℤ), dst',
            (rb.afterPeek (rb.peekCount count offset) count).image) := by
  have hfits := hm.fits
  have hr := hm.wf.read_lt
  have hcr := Rb.canRead_le hm.wf
  have hcount0 : ¬ (count : ℤ) = 0 := by omega
  have hinside : ¬ (rb.canRead : ℤ) ≤ offset := by omega
  have hdiff : long (rb.canRead - offset) = ((rb.canRead - offset : ℕ) : ℤ) := by
    rw [long_eq (by omega) (by omega)]
    omega
  have hcount : (if (count : ℤ) > long (rb.canRead - offset) then long (rb.canRead - offset)
      else count) = (rb.peekCount count offset : ℤ) := by
    rw [hdiff, Rb.peekCount]
    by_cases hlt : rb.canRead - offset < count
    · rw [if_pos (by omega), Nat.min_eq_right hlt.le]
    · rw [if_neg (by omega), Nat.min_eq_left (by omega)]
  have hindex : long (rb.readIndex + offset) = ((rb.readIndex + offset : ℕ) : ℤ) := by
    rw [long_eq (by omega) (by omega), Nat.cast_add]
  rw [peekAt, if_neg hcount0, canRead_image hm]
  simp only [Option.bind_eq_bind, Option.bind_some]
  rw [if_neg hinside, hcount, readIndex_image hm,
    Option.bind_some, size_image hm, Option.bind_some, hindex]
  generalize rb.peekCount count offset = n
  have htotals := countPeek_image hm.laid n count
  cases peekPieces rb.size (rb.readIndex + offset : ℕ) n offset with
  | none => rw [Option.bind_none, Option.bind_none]
  | some pieces =>
      rw [Option.bind_some, Option.bind_some]
      cases copy rb.image dst pieces.1 pieces.2.1 pieces.2.2 with
      | none => rw [Option.bind_none, Option.map_none]
      | some dst' =>
          rw [Option.bind_some, Option.map_some, ← Option.bind_assoc, htotals, Option.bind_some,
            Option.pure_def]

/-! ### Windows that are delivered -/

/-- A place up to one round behind the read index is not cut to 64 bits. -/
theorem long_place (hm : Mapped rb) {offset n : ℕ} (hle : offset + n ≤ rb.size) :
    long ((rb.readIndex + offset : ℕ) + n) = ((rb.readIndex + offset + n : ℕ) : ℤ) := by
  have hfits := hm.fits
  have hr := hm.wf.read_lt
  rw [long_eq (by omega) (by omega)]
  push_cast
  ring

theorem copy_peek (hm : Mapped rb) {offset n : ℕ} (hpos : 0 < n) (hle : offset + n ≤ rb.size)
    (hdst : n ≤ dst.length)
    (hx : ¬ (0 < offset ∧ rb.readIndex + offset < rb.size ∧ rb.size < rb.readIndex + offset + n)) :
    ∃ pieces, peekPieces rb.size (rb.readIndex + offset : ℕ) n offset = some pieces ∧
      copy rb.image dst pieces.1 pieces.2.1 pieces.2.2
        = some (overwrite dst 0 (window rb.buf (rb.readIndex + offset) n)) := by
  have hfits := hm.fits
  have hr := hm.wf.read_lt
  simp only [peekPieces, long_place hm hle]
  by_cases hend : rb.size < rb.readIndex + offset + n
  · rw [if_pos (show ((rb.readIndex + offset + n : ℕ) : ℤ) > rb.size by omega)]
    by_cases hover : rb.size ≤ rb.readIndex + offset
    · -- all in rolled over
      have hmod : (rb.readIndex + offset) % rb.size = rb.readIndex + offset - rb.size := by
        rw [Nat.mod_eq_sub_mod hover, Nat.mod_eq_of_lt (by omega)]
      rw [if_pos (show ((rb.readIndex + offset : ℕ) : ℤ) ≥ rb.size by omega),
        rem_eq hm.wf.size_pos, hmod, ← window_mod, hm.wf.length_buf, hmod]
      exact ⟨_, rfl, copy_straight hm (by omega) hdst⟩
    · -- segmented, at the offset zero
      have hzero : offset = 0 := by omega
      subst hzero
      have hc1 : long (rb.size - (rb.readIndex + 0 : ℕ)) = ((rb.size - rb.readIndex : ℕ) : ℤ) := by
        rw [long_eq (by omega) (by omega)]
        omega
      have hc2 : long (long ((rb.readIndex + 0 + n : ℕ) - rb.size) - (0 : ℕ))
          = ((rb.readIndex + n - rb.size : ℕ) : ℤ) := by
        rw [long_eq (z := (rb.readIndex + 0 + n : ℕ) - rb.size) (by omega) (by omega),
          long_eq (by omega) (by omega)]
        omega
      rw [if_neg (show ¬ ((rb.readIndex + 0 : ℕ) : ℤ) ≥ rb.size by omega), hc1, hc2]
      exact ⟨_, rfl, copy_split hm hr (by omega) (by omega) hdst⟩
  · rw [if_neg (show ¬ ((rb.readIndex + offset + n : ℕ) : ℤ) > rb.size by omega)]
    exact ⟨_, rfl, copy_straight hm (by omega) hdst⟩

/-! ### Windows that are torn -/

/-- A get stores to its own part of the array only. -/
theorem getElem?_get {mbb : Mbb} {p o n : ℤ} {i : ℕ} (h : get mbb p dst o n = some dst')
    (hi : o + n ≤ i) : dst'[i]? = dst[i]? := by
  unfold get at h
  split at h
  · cases h
  · next hneg =>
      obtain ⟨bytes, hload, hstore⟩ := Option.bind_eq_some_iff.mp h
      obtain ⟨-, hlen⟩ := load_eq_some hload
      exact getElem?_store hstore (Or.inr (by omega))

/-- A copy leaves alone what lies behind both of its pieces. -/
theorem getElem?_copy {index c1 c2 : ℤ} {i : ℕ} (h : copy rb.image dst index c1 c2 = some dst')
    (h1 : int c1 = c1) (h2 : int c2 = c2) (hi1 : c1 ≤ i) (hi2 : c1 + c2 ≤ i) :
    dst'[i]? = dst[i]? := by
  simp only [copy, Option.bind_eq_bind, Option.bind_eq_some_iff, h1, h2] at h
  obtain ⟨mid, hfirst, hsecond⟩ := h
  have hmid : mid[i]? = dst[i]? := getElem?_get hfirst (by omega)
  split at hsecond
  · rw [getElem?_get hsecond hi2, hmid]
  · cases hsecond
    exact hmid

/-- Of a window that crosses the end the last byte is not stored. -/
theorem peekAt_torn (hm : Mapped rb) {count offset : ℕ} (hc : 1 ≤ count)
    (ho : offset < rb.canRead) (hx : rb.CrossesEnd count offset) {n : ℤ} {mbb : Mbb}
    (hpeek : peekAt rb.image dst count offset = some (n, dst', mbb)) :
    dst'[rb.peekCount count offset - 1]? = dst[rb.peekCount count offset - 1]? := by
  have hfits := hm.fits
  have hr := hm.wf.read_lt
  have hcr := Rb.canRead_le hm.wf
  have hle : offset + rb.peekCount count offset ≤ rb.canRead := by unfold Rb.peekCount; omega
  obtain ⟨hpos, hbefore, hbehind⟩ := hx
  rw [peekAt_image hm hc ho] at hpeek
  generalize rb.peekCount count offset = n at hpeek hle hbehind ⊢
  have hsum := long_place hm (Nat.le_trans hle hcr)
  have hc1 : long (rb.size - (rb.readIndex + offset : ℕ))
      = ((rb.size - (rb.readIndex + offset) : ℕ) : ℤ) := by
    rw [long_eq (by omega) (by omega)]
    omega
  have hc2 : long (long ((rb.readIndex + offset + n : ℕ) - rb.size) - offset)
      = (rb.readIndex + n : ℕ) - (rb.size : ℤ) := by
    rw [long_eq (z := (rb.readIndex + offset + n : ℕ) - rb.size) (by omega) (by omega),
      long_eq (by omega) (by omega)]
    omega
  simp only [peekPieces, hsum] at hpeek
  rw [if_pos (show ((rb.readIndex + offset + n : ℕ) : ℤ) > rb.size by omega),
    if_neg (show ¬ ((rb.readIndex + offset : ℕ) : ℤ) ≥ rb.size by omega), Option.bind_some, hc1,
    hc2, Option.map_eq_some_iff] at hpeek
  obtain ⟨stored, hcopy, heq⟩ := hpeek
  cases heq
  simp only at hcopy
  exact getElem?_copy hcopy (int_eq (by omega) (by omega)) (int_eq (by omega) (by omega))
    (by omega) (by omega)

/-! ### The condition -/

/-- What skipping and reading in Java store is the window at the offset. -/
theorem skip_then_read (hm : Mapped rb) {count offset : ℕ} (ho : offset < rb.canRead)
    (hdst : rb.peekCount count offset ≤ dst.length) : ∃ mbb₁ mbb₂,
    genericAdvanceReadIndex rb.image offset 0 = some ((offset : ℤ), mbb₁) ∧
      genericRead mbb₁ dst count 0 = some ((rb.peekCount count offset : ℤ),
        overwrite dst 0 (window rb.buf (rb.readIndex + offset) (rb.peekCount count offset)),
        mbb₂) := by
  obtain ⟨rb₁, rb₂, hskip, hcons, hread⟩ := Rb.skip_then_read hm.wf ho
  obtain ⟨n, rb₁', hskip', hjava⟩ := genericAdvanceReadIndex_image hm
    (Or.inl rfl)
  obtain ⟨rfl, rfl⟩ : n = offset ∧ rb₁' = rb₁ := by
    rw [Rb.skip, Rb.advanceReadIndex, hskip'] at hskip
    simpa using hskip
  obtain ⟨hwf₁, hkept⟩ := Rb.genericAdvanceReadIndex_wf hm.wf hskip'
  have hm₁ : Mapped rb₁' := by
    refine ⟨hwf₁, ⟨?_, hwf₁.length_buf⟩, ?_⟩
    · rw [hkept.arrays]
      exact hm.laid.arrays
    · rw [hkept.size]
      exact hm.fits
  have hcount : rb₁'.readCount count 0 = rb.peekCount count n := by
    rw [Rb.readCount_zero, ← Rb.length_queue hwf₁, hcons.queue, List.length_drop,
      Rb.length_queue hm.wf, Rb.peekCount]
  obtain ⟨k, bytes, rb₂', hread', hjava'⟩ := genericRead_image hm₁
    (Or.inl rfl) (by rw [hcount]; exact hdst)
  obtain ⟨rfl, rfl, rfl⟩ : k = rb.peekCount count n ∧
      bytes = window rb.buf (rb.readIndex + n) (rb.peekCount count n) ∧ rb₂' = rb₂ := by
    rw [Rb.read, hread'] at hread
    simpa using hread
  exact ⟨rb₁'.image, rb₂'.image, hjava, hjava'⟩

/-- **The Java peek agrees with skipping and reading under the same condition.** -/
theorem peekAgrees_iff (hm : Mapped rb) {count offset : ℕ} (hc : 1 ≤ count) :
    PeekAgrees rb count offset ↔ ¬ rb.CrossesEnd count offset := by
  have hcr := Rb.canRead_le hm.wf
  have hb := hm.wf.length_buf
  by_cases ho : offset < rb.canRead
  · have hpos : 0 < rb.peekCount count offset := by unfold Rb.peekCount; omega
    have hle : offset + rb.peekCount count offset ≤ rb.canRead := by unfold Rb.peekCount; omega
    constructor
    · intro hagree hx
      -- an array whose bytes all differ from the last one that is to be delivered
      set n := rb.peekCount count offset with hn
      have hlen : (window rb.buf (rb.readIndex + offset) n).length = n := length_window (by omega)
      obtain ⟨b, hb'⟩ : ∃ b, (window rb.buf (rb.readIndex + offset) n)[n - 1]? = some b :=
        ⟨_, List.getElem?_eq_getElem (by omega)⟩
      have hdst : n ≤ (List.replicate n (b + 1)).length := by rw [List.length_replicate]
      obtain ⟨mbb₁, mbb₂, hskip, hread⟩ := skip_then_read hm ho hdst
      have hcall := hagree (List.replicate n (b + 1)) hdst
      rw [if_pos ho] at hcall
      obtain ⟨skipped, mbb₁', dst', mbb₂', rb', hskip', hread', hpeek, -⟩ := hcall
      rw [hskip] at hskip'
      cases hskip'
      rw [hread] at hread'
      cases hread'
      have htorn := peekAt_torn hm hc ho hx hpeek
      rw [getElem?_overwrite (by rw [hlen]; omega), if_pos (by rw [hlen]; omega), Nat.sub_zero,
        ← hn, hb', List.getElem?_replicate, if_pos (by omega), Option.some.injEq] at htorn
      exact absurd htorn (by simp)
    · intro hx dst hdst
      rw [if_pos ho]
      obtain ⟨mbb₁, mbb₂, hskip, hread⟩ := skip_then_read hm ho hdst
      obtain ⟨pieces, hpieces, hcopy⟩ := copy_peek hm hpos (by omega) hdst hx
      refine ⟨_, mbb₁, _, mbb₂, rb.afterPeek (rb.peekCount count offset) count, hskip, hread, ?_,
        Rb.sameRing_afterPeek rb _ count⟩
      rw [peekAt_image hm hc ho, hpieces, Option.bind_some, hcopy, Option.map_some]
  · refine ⟨fun _ => Rb.not_crossesEnd (Nat.not_lt.mp ho), fun _ dst _ => ?_⟩
    rw [if_neg ho, peekAt, if_neg (show ¬ (count : ℤ) = 0 by omega), canRead_image hm]
    simp only [Option.bind_eq_bind, Option.bind_some]
    rw [if_pos (show (rb.canRead : ℤ) ≤ offset by omega), addTotalUnderflows_image hm.laid]
    exact ⟨_, rfl, Rb.sameRing_underflow rb⟩

end JavaRB

/-! ### Both implementations -/

namespace Rb

/-- **When a peek agrees with skipping and reading, in C and in Java.**

In every ring that calls can make out of a new one, of any size, and for every count and
offset: exactly when the bytes asked for do not begin before the physical end, at a
positive offset, and end behind it. -/
theorem peek_agrees_exactly {size : ℕ} {rb : Rb} (hsize : size < 2 ^ 64)
    (hrb : Reachable size rb) {count offset : ℕ} (hc : 1 ≤ count) :
    (rb.PeekAgrees count offset ↔ ¬ rb.CrossesEnd count offset) ∧
    (sizeofRb + size < 2 ^ 31 →
      (JavaRB.PeekAgrees rb count offset ↔ ¬ rb.CrossesEnd count offset)) := by
  have hwf := (hrb.wf (hrb.size_lt hsize)).1
  exact ⟨peekAgrees_iff hwf hc,
    fun hfits => JavaRB.peekAgrees_iff (JavaRB.mapped_of_reachable hrb hfits) hc⟩

/-- Fill a ring of four bytes, skip two and write two more. -/
def tornCalls : List Call :=
  [.write [1, 2, 3, 4] 4 (by decide), .advanceReadIndex 2, .write [5, 6] 2 (by decide)]

/-- What they leave: the content is 3, 4, 5, 6, and goes round after the second byte. -/
def tornRing : Rb :=
  { cleared 4 with
    readIndex := 2, writeIndex := 2, lastWasWrite := 1
    totalBytesRead := 2, totalBytesWrite := 6
    buf := [5, 6, 3, 4] }

theorem reachable_tornRing : Reachable 4 tornRing :=
  ⟨.cleared, cleared 4, tornCalls, [{ ret := 4 }, { ret := 2 }, { ret := 2 }],
    rbNew_cleared (by decide) (by decide), by decide +kernel⟩

/-- At the offset 0 the peeks go round the end and agree. -/
theorem tornRing_peek_whole : tornRing.PeekAgrees 4 0 ∧ JavaRB.PeekAgrees tornRing 4 0 := by
  have hx : ¬ tornRing.CrossesEnd 4 0 := by decide
  have hagree : (tornRing.PeekAgrees 4 0 ↔ ¬ tornRing.CrossesEnd 4 0) ∧ _ :=
    peek_agrees_exactly (by decide) reachable_tornRing (by decide)
  exact ⟨hagree.1.mpr hx, (hagree.2 (by decide)).mpr hx⟩

/-- Three bytes at offset 1 are 4, 5, 6.  Both peeks return 3 and store 4, 5. -/
theorem tornRing_peek :
    Reachable 4 tornRing ∧
    ((tornRing.skip 1).bind fun r => (r.2.read 3).map fun r => (r.1, r.2.1)) = some (3, [4, 5, 6]) ∧
    (tornRing.peekAt 3 1).map (fun r => (r.1, r.2.1)) = some (3, [4, 5]) ∧
    (JavaRB.peekAt tornRing.image [0, 0, 0] 3 1).map (fun r => (r.1, r.2.1)) = some (3, [4, 5, 0]) ∧
    ¬ tornRing.PeekAgrees 3 1 ∧ ¬ JavaRB.PeekAgrees tornRing 3 1 := by
  have hm : JavaRB.Mapped tornRing := JavaRB.mapped_of_reachable reachable_tornRing (by decide)
  have hx : tornRing.CrossesEnd 3 1 := by decide
  refine ⟨reachable_tornRing, by decide +kernel, by decide +kernel, by decide +kernel, ?_, ?_⟩
  · rw [peekAgrees_iff hm.wf (by decide)]
    exact not_not_intro hx
  · rw [JavaRB.peekAgrees_iff hm (by decide)]
    exact not_not_intro hx

end Rb

end Csnip
