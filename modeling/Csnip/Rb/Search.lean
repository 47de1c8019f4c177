/-
Searching for a sequence of bytes.

`rb_find_byte_sequence()` goes through the content byte by byte and, where the first byte
of the pattern stands, peeks as many bytes as the pattern has into its compare buffer.
With the right bytes in the buffer it finds the first match.  But the peek is the one of
`Peek.lean`: where the window crosses the physical end at a positive offset it leaves the
buffer of the ring, or it stores too few bytes, and the comparison sees what an earlier
candidate, or nobody, has left behind them.

So the search is exact as long as no candidate it comes to has such a window, and with a
pattern shorter than what is left of the buffer behind the read index it is exact in no other
case: `search_exact_unless_crossing`.  A longer pattern may come out right by what the compare
buffer happens to hold.  To follow that, `held` is what is known of it in front of each round
and `Sound` says of one candidate that the comparison cannot go wrong; the search is exact,
whatever the stack held, when every candidate it comes to is sound and only then
(`findsExactly_iff`).
-/
import Csnip.Lib.Partial
import Csnip.Rb.Fifo

namespace Csnip

open Memory Cyclic

namespace Rb

/-! ### What a search is for -/

/-- The pattern stands at the offset. -/
def MatchesAt (content pattern : List UInt8) (offset : ℕ) : Prop :=
  (content.drop offset).take pattern.length = pattern

instance (content pattern : List UInt8) (offset : ℕ) :
    Decidable (MatchesAt content pattern offset) :=
  inferInstanceAs (Decidable (_ = _))

/-- The answer of a search: 1 and the first match, or 0 and the offset 0. -/
def FirstMatch (content pattern : List UInt8) (found offset : ℕ) : Prop :=
  found = 1 ∧ MatchesAt content pattern offset ∧
      (∀ j < offset, ¬ MatchesAt content pattern j) ∨
    found = 0 ∧ offset = 0 ∧ ∀ j, ¬ MatchesAt content pattern j

/-- Whatever the compare buffer holds at first, the search ends with the right answer and
the ring as it was. -/
def FindsExactly (rb : Rb) (pattern : List UInt8) (patternOffset count : ℕ) : Prop :=
  ∀ compareBuffer : List UInt8, compareBuffer.length = count → ∃ found offset rb',
    rb.findByteSequence pattern patternOffset count compareBuffer = some (found, offset, rb') ∧
      FirstMatch rb.queue ((pattern.drop patternOffset).take count) found offset ∧
      SameRing rb rb'

/-! ### The compare buffer -/

/-- The first byte of the pattern stands at the offset. -/
def Candidate (rb : Rb) (p : List UInt8) (offset : ℕ) : Prop :=
  offset < rb.canRead ∧ window rb.buf (rb.readIndex + offset) 1 = p.take 1

instance (rb : Rb) (p : List UInt8) (offset : ℕ) : Decidable (rb.Candidate p offset) :=
  inferInstanceAs (Decidable (_ ∧ _))

/-- What a peek for the pattern stores. -/
def stored (rb : Rb) (p : List UInt8) (offset : ℕ) : List UInt8 :=
  window rb.buf (rb.readIndex + offset) (rb.storedCount p.length offset)

/-- What is known of the compare buffer in front of the round for the offset: the bytes the
candidates so far have stored there. -/
def held (rb : Rb) (p : List UInt8) : ℕ → List (Option UInt8)
  | 0 => List.replicate p.length none
  | offset + 1 =>
      if rb.Candidate p offset then Partial.stored (rb.held p offset) (rb.stored p offset)
      else rb.held p offset

/-- The comparison after the peek for the offset tells what stands there, whatever the
bytes that nobody stored. -/
def ComparesRight (rb : Rb) (p : List UInt8) (offset : ℕ) : Prop :=
  if MatchesAt rb.queue p offset then rb.held p (offset + 1) = p.map some
  else Partial.Refutes (rb.held p (offset + 1)) p

/-- The search comes to the offset: nothing was found in front of it, and no candidate had
too little content behind it. -/
def ComesTo (rb : Rb) (p : List UInt8) (offset : ℕ) : Prop :=
  ∀ j < offset, ¬ MatchesAt rb.queue p j ∧
    (rb.Candidate p j → j + p.length ≤ rb.canRead)

/-- The peek for the candidate stays in the buffer, and if there is enough content its
comparison is right. -/
def Sound (rb : Rb) (p : List UInt8) (offset : ℕ) : Prop :=
  ¬ rb.LeavesBuffer p.length offset ∧
    (offset + p.length ≤ rb.canRead → rb.ComparesRight p offset)

section Rounds

variable {rb : Rb} {p : List UInt8}

theorem MatchesAt.le {content pattern : List UInt8} {offset : ℕ} (hp : pattern ≠ [])
    (h : MatchesAt content pattern offset) : offset + pattern.length ≤ content.length := by
  have hlen := congrArg List.length h
  have hpos := List.length_pos_iff.mpr hp
  rw [List.length_take, List.length_drop] at hlen
  omega

theorem length_stored_le (h : WF rb) (p : List UInt8) (offset : ℕ) :
    (rb.stored p offset).length ≤ p.length := by
  rw [stored, length_window (by rw [h.length_buf]; exact storedCount_le_size h _ _)]
  exact storedCount_le rb _ _

theorem length_held (h : WF rb) (p : List UInt8) :
    ∀ offset, (rb.held p offset).length = p.length := by
  intro offset
  induction offset with
  | zero => rw [held, List.length_replicate]
  | succ offset ih =>
      rw [held]
      by_cases hc : rb.Candidate p offset
      · rw [if_pos hc, Partial.length_stored (by rw [ih]; exact length_stored_le h p offset), ih]
      · rw [if_neg hc, ih]

/-- A match is a candidate. -/
theorem MatchesAt.candidate (h : WF rb) (hp : p ≠ []) {offset : ℕ}
    (hm : MatchesAt rb.queue p offset) : rb.Candidate p offset := by
  have hle := hm.le hp
  have hpos := List.length_pos_iff.mpr hp
  rw [length_queue h] at hle
  refine ⟨by omega, ?_⟩
  rw [← take_drop_queue h (by omega), ← hm, List.take_take, Nat.min_eq_left (by omega)]

/-- A window that does not cross the end is known as a whole, so its comparison is right. -/
theorem sound_of_not_crossesEnd (h : WF rb) {offset : ℕ} (hc : rb.Candidate p offset)
    (hx : ¬ rb.CrossesEnd p.length offset) : rb.Sound p offset := by
  refine ⟨fun hl => hx hl.1, ?_⟩
  intro hle
  have hstored : rb.stored p offset = (rb.queue.drop offset).take p.length := by
    rw [stored, storedCount, if_neg hx, take_drop_queue h hle, peekCount,
      Nat.min_eq_left (by omega)]
  have hlen : ((rb.queue.drop offset).take p.length).length = p.length := by
    rw [List.length_take, List.length_drop, length_queue h]
    omega
  have hnone : (rb.held p offset).drop p.length = [] :=
    List.drop_of_length_le (by rw [length_held h])
  have hheld : rb.held p (offset + 1) = ((rb.queue.drop offset).take p.length).map some := by
    rw [held, if_pos hc, hstored, Partial.stored, hlen, hnone, List.append_nil]
  unfold ComparesRight
  rw [hheld]
  by_cases hm : MatchesAt rb.queue p offset
  · rw [if_pos hm, hm]
  · rw [if_neg hm]
    -- the window differs from the pattern in some byte
    by_contra hno
    apply hm
    have hfill := Partial.fill_self (by rw [List.length_map, hlen]) hno
    rw [Partial.fill_map_some (by rw [hlen])] at hfill
    exact hfill

end Rounds

/-! ### One round -/

/-- The pattern is `count` bytes of its block. -/
structure Given (pattern : List UInt8) (patternOffset count : ℕ) (p : List UInt8) : Prop where
  inside : patternOffset + count ≤ pattern.length
  bytes : p = (pattern.drop patternOffset).take count
  count_pos : 1 ≤ count

section Round

variable {rb rb' : Rb} {pattern p compareBuffer : List UInt8} {patternOffset count off : ℕ}

theorem Given.length (h : Given pattern patternOffset count p) : p.length = count := by
  have hin := h.inside
  rw [h.bytes, List.length_take, List.length_drop]
  omega

theorem Given.ne_nil (h : Given pattern patternOffset count p) : p ≠ [] := by
  have hpos := h.count_pos
  apply List.length_pos_iff.mp
  rw [h.length]
  exact hpos

theorem Given.load_first (h : Given pattern patternOffset count p) :
    load pattern patternOffset 1 = some (p.take 1) := by
  have hin := h.inside
  have hpos := h.count_pos
  rw [load_of_le (by omega), h.bytes, List.take_take, Nat.min_eq_left hpos]

theorem Given.load_all (h : Given pattern patternOffset count p) :
    load pattern patternOffset count = some p := by
  rw [load_of_le h.inside, h.bytes]

/-- What the search looks at is the same in rings that agree up to their statistics. -/
theorem SameRing.candidate (hring : SameRing rb rb') (p : List UInt8) (off : ℕ) :
    rb'.Candidate p off ↔ rb.Candidate p off := by
  unfold Candidate
  rw [hring.canRead, hring.buf, hring.readIndex]

theorem SameRing.stored (hring : SameRing rb rb') (p : List UInt8) (off : ℕ) :
    rb'.stored p off = rb.stored p off := by
  rw [Rb.stored, Rb.stored, hring.storedCount, hring.buf, hring.readIndex]

/-- Behind the content the search gives up. -/
theorem round_end (pattern : List UInt8) (fuel : ℕ) (ho : rb.canRead ≤ off) : ∃ rb',
    findByteSequenceFrom pattern patternOffset count (fuel + 1) rb off compareBuffer
      = some (0, 0, rb') ∧ SameRing rb rb' := by
  refine ⟨_, ?_, sameRing_underflow rb⟩
  rw [findByteSequenceFrom, peekByteAt_none rb ho]
  rfl

/-- A byte that does not begin the pattern is passed over. -/
theorem round_skip (h : WF rb) (hg : Given pattern patternOffset count p) (fuel : ℕ)
    (compareBuffer : List UInt8) (ho : off < rb.canRead) (hno : ¬ rb.Candidate p off) : ∃ rb',
    findByteSequenceFrom pattern patternOffset count (fuel + 1) rb off compareBuffer
      = findByteSequenceFrom pattern patternOffset count fuel rb' (off + 1) compareBuffer ∧
      SameRing rb rb' := by
  have hs := h.size_lt
  have hcr := canRead_le h
  refine ⟨{ rb with totalBytesPeek := u64 (rb.totalBytesPeek + 1) }, ?_, SameRing.stats ..⟩
  rw [findByteSequenceFrom, peekByteAt_eq h ho]
  simp only [Option.bind_eq_bind, Option.bind_some, hg.load_first]
  rw [if_neg one_ne_zero, if_neg (fun heq => hno ⟨ho, heq⟩),
    u64_of_lt (show off + 1 < 2 ^ 64 by omega)]

section Candidate

variable (h : WF rb) (hg : Given pattern patternOffset count p) (hc : rb.Candidate p off)

include h hg hc

/-- A candidate is peeked for, and the bytes go to the compare buffer. -/
theorem round_candidate (fuel : ℕ) (compareBuffer : List UInt8) : ∃ rb₁, SameRing rb rb₁ ∧
    findByteSequenceFrom pattern patternOffset count (fuel + 1) rb off compareBuffer
      = (rb₁.peekAt count off).bind fun r => (store compareBuffer 0 r.2.1).bind fun compared =>
        if r.1 = count then (load compared 0 count).bind fun bytes =>
          if p = bytes then some (1, off, r.2.2)
          else findByteSequenceFrom pattern patternOffset count fuel r.2.2 (off + 1) compared
        else some (0, 0, r.2.2) := by
  have hs := h.size_lt
  have hcr := canRead_le h
  obtain ⟨ho, hfirst⟩ := hc
  refine ⟨{ rb with totalBytesPeek := u64 (rb.totalBytesPeek + 1) }, SameRing.stats .., ?_⟩
  rw [findByteSequenceFrom, peekByteAt_eq h ho]
  simp only [Option.bind_eq_bind, Option.bind_some, hg.load_first, hg.load_all]
  rw [if_neg one_ne_zero, if_pos hfirst, u64_of_lt (show off + 1 < 2 ^ 64 by omega)]
  rfl

theorem round_leaves (fuel : ℕ) (hl : rb.LeavesBuffer count off) :
    findByteSequenceFrom pattern patternOffset count (fuel + 1) rb off compareBuffer = none := by
  have hpos := hg.count_pos
  obtain ⟨rb₁, hring, hround⟩ := round_candidate h hg hc fuel compareBuffer
  rw [hround, peekAt_leaves (hring.wf h) (by omega) ((hring.leavesBuffer _ _).mpr hl)]
  rfl

/-- A copy that stays in the ring fits into the compare buffer. -/
theorem round_stores (fuel : ℕ) (hl : ¬ rb.LeavesBuffer count off)
    (hlen : compareBuffer.length = count) : ∃ rb₁, SameRing rb rb₁ ∧
    findByteSequenceFrom pattern patternOffset count (fuel + 1) rb off compareBuffer
      = if rb.peekCount count off = count then
          if p = overwrite compareBuffer 0 (rb.stored p off) then some (1, off, rb₁)
          else findByteSequenceFrom pattern patternOffset count fuel rb₁ (off + 1)
            (overwrite compareBuffer 0 (rb.stored p off))
        else some (0, 0, rb₁) := by
  have hpos := hg.count_pos
  obtain ⟨rb₁, hring, hround⟩ := round_candidate h hg hc fuel compareBuffer
  have ho : off < rb₁.canRead := by
    rw [hring.canRead]
    exact hc.1
  have hstored : window rb₁.buf (rb₁.readIndex + off) (rb₁.storedCount count off)
      = rb.stored p off := by
    rw [← hring.stored, Rb.stored, hg.length]
  have hfits : (rb.stored p off).length ≤ count := by
    have hle := length_stored_le h p off
    rw [hg.length] at hle
    exact hle
  have hcount : rb₁.peekCount count off = rb.peekCount count off := by
    unfold peekCount
    rw [hring.canRead]
  have hstay : ¬ rb₁.LeavesBuffer count off := fun hl' => hl ((hring.leavesBuffer _ _).mp hl')
  refine ⟨rb₁.afterPeek (rb.peekCount count off) count, hring.trans (sameRing_afterPeek rb₁ _ _),
    ?_⟩
  rw [hround, peekAt_stores (hring.wf h) (by omega) ho hstay, hstored, hcount]
  simp only [Option.bind_some]
  have hwhole : (overwrite compareBuffer 0 (rb.stored p off)).length = count := by
    rw [length_overwrite (by omega), hlen]
  rw [store_of_le (by omega), Option.bind_some, load_of_le (by omega), Option.bind_some,
    List.drop_zero, List.take_of_length_le (by omega)]

end Candidate

end Round

/-! ### Whole searches -/

section Search

variable {rb₀ rb : Rb} {pattern p rest : List UInt8} {patternOffset count off : ℕ}

theorem ComesTo.mono (h : rb₀.ComesTo p off) {j : ℕ} (hj : j ≤ off) : rb₀.ComesTo p j :=
  fun i hi => h i (Nat.lt_of_lt_of_le hi hj)

variable (h : WF rb₀) (hg : Given pattern patternOffset count p) (hring : SameRing rb₀ rb)
  (hrest : rest.length = count)

include h hg hring hrest

/-- The bytes of a candidate go to the compare buffer. -/
theorem round_compares (fuel : ℕ) (hc : rb₀.Candidate p off) (hl : ¬ rb₀.LeavesBuffer count off) :
    ∃ rb₁, SameRing rb₀ rb₁ ∧
      findByteSequenceFrom pattern patternOffset count (fuel + 1) rb off
        (Partial.fill (rb₀.held p off) rest)
        = if rb₀.peekCount count off = count then
            if p = Partial.fill (rb₀.held p (off + 1)) rest then some (1, off, rb₁)
            else findByteSequenceFrom pattern patternOffset count fuel rb₁ (off + 1)
              (Partial.fill (rb₀.held p (off + 1)) rest)
          else some (0, 0, rb₁) := by
  have hlen : rest.length = (rb₀.held p off).length := by rw [length_held h, hg.length, hrest]
  obtain ⟨rb₁, hring₁, hround⟩ := round_stores (hring.wf h) hg ((hring.candidate p off).mpr hc) fuel
    (fun hl' => hl ((hring.leavesBuffer _ _).mp hl'))
    (show (Partial.fill (rb₀.held p off) rest).length = count by
      rw [Partial.length_fill hlen, length_held h, hg.length])
  have hcount : rb.peekCount count off = rb₀.peekCount count off := by
    unfold peekCount
    rw [hring.canRead]
  have hnext : rb₀.held p (off + 1) = Partial.stored (rb₀.held p off) (rb₀.stored p off) :=
    if_pos hc
  refine ⟨rb₁, hring.trans hring₁, ?_⟩
  rw [hround, hring.stored, hcount, hnext,
    Partial.overwrite_fill hlen (by rw [length_held h]; exact length_stored_le h p off)]

/-- The search goes on behind an offset where there is nothing to find. -/
theorem round_again (fuel : ℕ) (ho : off < rb₀.canRead) (hcome : rb₀.ComesTo p (off + 1))
    (hsound : rb₀.Candidate p off → rb₀.Sound p off) : ∃ rb₁, SameRing rb₀ rb₁ ∧
    findByteSequenceFrom pattern patternOffset count (fuel + 1) rb off
      (Partial.fill (rb₀.held p off) rest)
      = findByteSequenceFrom pattern patternOffset count fuel rb₁ (off + 1)
        (Partial.fill (rb₀.held p (off + 1)) rest) := by
  obtain ⟨hno, henough⟩ := hcome off (Nat.lt_succ_self off)
  by_cases hc : rb₀.Candidate p off
  · obtain ⟨hl, hright⟩ := hsound hc
    have hle := henough hc
    rw [hg.length] at hl
    obtain ⟨rb₁, hring₁, hround⟩ := round_compares h hg hring hrest fuel hc hl
    have hrefuted : Partial.Refutes (rb₀.held p (off + 1)) p := by
      have hdecided := hright hle
      rw [ComparesRight, if_neg hno] at hdecided
      exact hdecided
    have hne : ¬ p = Partial.fill (rb₀.held p (off + 1)) rest := fun heq =>
      (Partial.fill_ne_iff (by rw [length_held h])).mpr hrefuted rest
        (by rw [length_held h, hg.length, hrest]) heq.symm
    rw [hg.length] at hle
    refine ⟨rb₁, hring₁, ?_⟩
    rw [hround, if_pos (by unfold peekCount; omega), if_neg hne]
  · have ho' : off < rb.canRead := by rw [hring.canRead]; exact ho
    obtain ⟨rb₁, hround, hring₁⟩ := round_skip (hring.wf h) hg
      fuel (Partial.fill (rb₀.held p off) rest) ho'
      (fun hc' => hc ((hring.candidate p off).mp hc'))
    refine ⟨rb₁, hring.trans hring₁, ?_⟩
    rw [hround, held, if_neg hc]

/-- At a match the comparison succeeds. -/
theorem round_match (fuel : ℕ) (hm : MatchesAt rb₀.queue p off) (hsound : rb₀.Sound p off) :
    ∃ rb₁, SameRing rb₀ rb₁ ∧
      findByteSequenceFrom pattern patternOffset count (fuel + 1) rb off
        (Partial.fill (rb₀.held p off) rest) = some (1, off, rb₁) := by
  have hle := hm.le hg.ne_nil
  rw [length_queue h] at hle
  obtain ⟨hl, hright⟩ := hsound
  have hknown := hright hle
  rw [ComparesRight, if_pos hm] at hknown
  rw [hg.length] at hle hl
  obtain ⟨rb₁, hring₁, hround⟩ :=
    round_compares h hg hring hrest fuel (hm.candidate h hg.ne_nil) hl
  refine ⟨rb₁, hring₁, ?_⟩
  rw [hround, if_pos (by unfold peekCount; omega), hknown,
    Partial.fill_map_some (by rw [hg.length, hrest]), if_pos rfl]

omit hring hrest in
/-- Too little content behind the offset for a match there or further on. -/
theorem noMatch_of_short (hcome : rb₀.ComesTo p off) (hshort : rb₀.canRead < off + count) :
    ∀ j, ¬ MatchesAt rb₀.queue p j := by
  intro j hm
  have hle := hm.le hg.ne_nil
  rw [length_queue h, hg.length] at hle
  exact (hcome j (by omega)).1 hm

omit hring in
/-- **A search whose candidates are sound** ends with the right answer. -/
theorem search_sound (hsound : ∀ i, rb₀.Candidate p i → rb₀.ComesTo p i → rb₀.Sound p i) :
    ∀ (fuel : ℕ) {rb : Rb} {off : ℕ}, SameRing rb₀ rb → off ≤ rb₀.canRead →
      rb₀.canRead < off + fuel → rb₀.ComesTo p off → ∃ found offset rb',
        findByteSequenceFrom pattern patternOffset count fuel rb off
          (Partial.fill (rb₀.held p off) rest) = some (found, offset, rb') ∧
        FirstMatch rb₀.queue p found offset ∧ SameRing rb₀ rb' := by
  have hpos := hg.count_pos
  intro fuel
  induction fuel with
  | zero => intro rb off hring hle hfuel hcome; omega
  | succ fuel ih =>
      intro rb off hring hle hfuel hcome
      by_cases ho : off < rb₀.canRead
      · by_cases hm : MatchesAt rb₀.queue p off
        · obtain ⟨rb₁, hring₁, hround⟩ := round_match h hg hring hrest fuel hm
            (hsound off (hm.candidate h hg.ne_nil) hcome)
          exact ⟨1, off, rb₁, hround, Or.inl ⟨rfl, hm, fun j hj => (hcome j hj).1⟩, hring₁⟩
        · by_cases hshort : rb₀.Candidate p off ∧ rb₀.canRead < off + count
          · obtain ⟨hc, hshort⟩ := hshort
            have hl := (hsound off hc hcome).1
            rw [hg.length] at hl
            obtain ⟨rb₁, hring₁, hround⟩ := round_compares h hg hring hrest fuel hc hl
            rw [if_neg (by unfold peekCount; omega)] at hround
            exact ⟨0, 0, rb₁, hround, Or.inr ⟨rfl, rfl, noMatch_of_short h hg hcome hshort⟩, hring₁⟩
          · have hnext : rb₀.ComesTo p (off + 1) := by
              intro j hj
              rcases Nat.lt_succ_iff_lt_or_eq.mp hj with hlt | rfl
              · exact hcome j hlt
              · refine ⟨hm, fun hc => ?_⟩
                rw [hg.length]
                by_contra hlt
                exact hshort ⟨hc, Nat.not_le.mp hlt⟩
            obtain ⟨rb₁, hring₁, hround⟩ := round_again h hg hring hrest fuel ho hnext
              (fun hc => hsound off hc hcome)
            rw [hround]
            exact ih hring₁ ho (by omega) hnext
      · have hend : rb.canRead ≤ off := by rw [hring.canRead]; exact Nat.not_lt.mp ho
        obtain ⟨rb₁, hround, hring₁⟩ := round_end pattern fuel hend
        exact ⟨0, 0, rb₁, hround,
          Or.inr ⟨rfl, rfl, noMatch_of_short h hg hcome (by omega)⟩, hring.trans hring₁⟩

omit hring in
/-- As long as the candidates are sound, the search comes to every offset it should. -/
theorem search_reaches : ∀ {off : ℕ}, (∀ j < off, rb₀.Candidate p j → rb₀.Sound p j) →
    rb₀.ComesTo p off → off ≤ rb₀.canRead → ∃ rb₁, SameRing rb₀ rb₁ ∧
      rb₀.findByteSequence pattern patternOffset count rest
        = findByteSequenceFrom pattern patternOffset count (rb₀.canRead - off + 1) rb₁ off
          (Partial.fill (rb₀.held p off) rest) := by
  intro off
  induction off with
  | zero =>
      intro _ _ _
      have hnone : Partial.fill (rb₀.held p 0) rest = rest := by
        rw [held, hg.length, ← hrest]
        exact Partial.fill_unknown rest
      refine ⟨rb₀, SameRing.refl rb₀, ?_⟩
      rw [hnone, findByteSequence, Nat.sub_zero]
  | succ off ih =>
      intro hsound hcome hle
      obtain ⟨rb₁, hring₁, hreach⟩ :=
        ih (fun j hj => hsound j (by omega)) (hcome.mono (Nat.le_succ off)) (by omega)
      have hfuel : rb₀.canRead - off + 1 = (rb₀.canRead - (off + 1) + 1) + 1 := by omega
      obtain ⟨rb₂, hring₂, hround⟩ := round_again h hg hring₁ hrest (rb₀.canRead - (off + 1) + 1)
        hle hcome (hsound off (Nat.lt_succ_self off))
      refine ⟨rb₂, hring₂, ?_⟩
      rw [hreach, hfuel, hround]

omit h hg hring hrest in
/-- What is found is not in front of where the search is. -/
theorem le_of_found (hg : Given pattern patternOffset count p) :
    ∀ (fuel : ℕ) {rb rb' : Rb} {off offset : ℕ} {compareBuffer : List UInt8}, WF rb →
      compareBuffer.length = count →
      findByteSequenceFrom pattern patternOffset count fuel rb off compareBuffer
        = some (1, offset, rb') → off ≤ offset := by
  intro fuel
  induction fuel with
  | zero =>
      intro rb rb' off offset compareBuffer _ _ hrun
      cases hrun
  | succ fuel ih =>
      intro rb rb' off offset compareBuffer h hlen hrun
      by_cases ho : off < rb.canRead
      · by_cases hc : rb.Candidate p off
        · by_cases hl : rb.LeavesBuffer count off
          · rw [round_leaves h hg hc fuel hl] at hrun
            cases hrun
          · obtain ⟨rb₁, hring₁, hround⟩ := round_stores h hg hc fuel hl hlen
            have hfits := length_stored_le h p off
            rw [hg.length] at hfits
            rw [hround] at hrun
            split at hrun
            · split at hrun
              · cases hrun
                exact Nat.le_refl off
              · exact Nat.le_of_succ_le (ih (hring₁.wf h)
                  (by rw [length_overwrite (by omega)]; exact hlen) hrun)
            · cases hrun
        · obtain ⟨rb₁, hround, hring₁⟩ := round_skip h hg fuel _ ho hc
          rw [hround] at hrun
          exact Nat.le_of_succ_le (ih (hring₁.wf h) hlen hrun)
      · obtain ⟨rb₁, hround, -⟩ := round_end _ fuel (Nat.not_lt.mp ho)
        rw [hround] at hrun
        cases hrun

/-- From the offset on, the search answers rightly whatever the compare buffer held at first. -/
def AnswersFrom (rb₀ : Rb) (pattern p : List UInt8) (patternOffset count off : ℕ) : Prop :=
  ∀ rest : List UInt8, rest.length = count → ∃ rb₁ found offset rb', SameRing rb₀ rb₁ ∧
    findByteSequenceFrom pattern patternOffset count (rb₀.canRead - off + 1) rb₁ off
      (Partial.fill (rb₀.held p off) rest) = some (found, offset, rb') ∧
    FirstMatch rb₀.queue p found offset

section Answers

omit hring hrest

variable (hanswers : AnswersFrom rb₀ pattern p patternOffset count off)
  (hc : rb₀.Candidate p off)

include hanswers hc

/-- An answer takes a copy that stays in the buffer. -/
theorem stays_of_answers : ¬ rb₀.LeavesBuffer count off := by
  intro hl
  obtain ⟨rb₁, found, offset, rb', hring₁, hrun, -⟩ :=
    hanswers (List.replicate count 0) List.length_replicate
  rw [round_leaves (hring₁.wf h) hg ((hring₁.candidate p off).mpr hc) _
    ((hring₁.leavesBuffer _ _).mpr hl)] at hrun
  cases hrun

variable (hcount : rb₀.peekCount count off = count)

include hcount

/-- At a match the compare buffer is known, or some bytes in it would miss the match. -/
theorem held_of_answers (hm : MatchesAt rb₀.queue p off) :
    rb₀.held p (off + 1) = p.map some := by
  have hbytes : Nontrivial UInt8 := ⟨0, 1, by decide⟩
  apply (Partial.fill_eq_iff (length_held h p _).symm).mp
  intro rest hrest
  rw [length_held h, hg.length] at hrest
  by_contra hmiss
  obtain ⟨rb₁, found, offset, rb', hring₁, hrun, hfirst⟩ := hanswers rest hrest
  obtain ⟨rb₂, hring₂, hround⟩ := round_compares h hg hring₁ hrest (rb₀.canRead - off) hc
    (stays_of_answers h hg hanswers hc)
  rw [hround, if_pos hcount, if_neg (fun heq => hmiss heq.symm)] at hrun
  rcases hfirst with ⟨rfl, hm', hnone⟩ | ⟨-, -, hnone⟩
  · have hlen : (Partial.fill (rb₀.held p (off + 1)) rest).length = count := by
      rw [Partial.length_fill (by rw [length_held h, hg.length, hrest]), length_held h, hg.length]
    exact hnone off (le_of_found hg _ (hring₂.wf h) hlen hrun) hm
  · exact hnone off hm

/-- Where there is no match, what is known refutes it, or the pattern itself in the compare
buffer would be taken for one. -/
theorem refutes_of_answers (hm : ¬ MatchesAt rb₀.queue p off) :
    Partial.Refutes (rb₀.held p (off + 1)) p := by
  by_contra hno
  obtain ⟨rb₁, found, offset, rb', hring₁, hrun, hfirst⟩ := hanswers p hg.length
  obtain ⟨rb₂, hring₂, hround⟩ := round_compares h hg hring₁ hg.length (rb₀.canRead - off) hc
    (stays_of_answers h hg hanswers hc)
  rw [hround, if_pos hcount, Partial.fill_self (length_held h p _).symm hno, if_pos rfl] at hrun
  cases hrun
  rcases hfirst with ⟨-, hm', -⟩ | ⟨hzero, -⟩
  · exact hm hm'
  · cases hzero

end Answers

omit hring hrest in
/-- **An exact search has only sound candidates.**  Otherwise there is a compare buffer
with which the first unsound one is missed or taken for a match. -/
theorem sound_of_findsExactly (hexact : rb₀.FindsExactly pattern patternOffset count) :
    ∀ off, rb₀.Candidate p off → rb₀.ComesTo p off → rb₀.Sound p off := by
  intro off
  induction off using Nat.strong_induction_on with
  | h off ih =>
      intro hc hcome
      have hearlier : ∀ j < off, rb₀.Candidate p j → rb₀.Sound p j :=
        fun j hj hcj => ih j hj hcj (hcome.mono hj.le)
      have hanswers : AnswersFrom rb₀ pattern p patternOffset count off := by
        intro rest hrest
        obtain ⟨rb₁, hring₁, hreach⟩ := search_reaches h hg hrest hearlier hcome hc.1.le
        obtain ⟨found, offset, rb', hrun, hfirst, -⟩ := hexact rest hrest
        rw [← hg.bytes] at hfirst
        exact ⟨rb₁, found, offset, rb', hring₁, by rw [← hreach, hrun], hfirst⟩
      refine ⟨by rw [hg.length]; exact stays_of_answers h hg hanswers hc, fun hle => ?_⟩
      have hcount : rb₀.peekCount count off = count := by
        rw [hg.length] at hle
        unfold peekCount
        omega
      unfold ComparesRight
      by_cases hm : MatchesAt rb₀.queue p off
      · rw [if_pos hm]
        exact held_of_answers h hg hanswers hc hcount hm
      · rw [if_neg hm]
        exact refutes_of_answers h hg hanswers hc hcount hm

omit hring hrest in
theorem findsExactly_iff : rb₀.FindsExactly pattern patternOffset count ↔
    ∀ off, rb₀.Candidate p off → rb₀.ComesTo p off → rb₀.CrossesEnd count off →
      rb₀.Sound p off := by
  constructor
  · intro hexact off hc hcome _
    exact sound_of_findsExactly h hg hexact off hc hcome
  · intro hcrossing rest hrest
    have hsound : ∀ off, rb₀.Candidate p off → rb₀.ComesTo p off → rb₀.Sound p off := by
      intro off hc hcome
      by_cases hx : rb₀.CrossesEnd count off
      · exact hcrossing off hc hcome hx
      · exact sound_of_not_crossesEnd h hc (by rw [hg.length]; exact hx)
    have hunknown : Partial.fill (rb₀.held p 0) rest = rest := by
      rw [held, hg.length, ← hrest]
      exact Partial.fill_unknown rest
    obtain ⟨found, offset, rb', hrun, hfirst, hring⟩ :=
      search_sound h hg hrest hsound (rb₀.canRead + 1) (SameRing.refl rb₀) (Nat.zero_le _)
        (by omega) (fun j hj => absurd hj (Nat.not_lt_zero j))
    rw [hunknown] at hrun
    exact ⟨found, offset, rb', hrun, by rw [← hg.bytes]; exact hfirst, hring⟩

end Search

/-- **When the search for a sequence is exact.**

In every ring that calls can make out of a new one, and for every pattern of at least one
byte: unless a candidate it comes to has a window that crosses the physical end at a positive
offset, the search ends, stays inside the ring and the compare buffer, leaves the ring as it
was and answers with the first match or with none, whatever the compare buffer held at first.
With a pattern shorter than what is left of the buffer behind the read index, such a candidate
always makes it go wrong. -/
theorem search_exact_unless_crossing {size : ℕ} {rb : Rb} (hsize : size < 2 ^ 64)
    (hrb : Reachable size rb) {pattern p : List UInt8} {patternOffset count : ℕ} (hc : 1 ≤ count)
    (hpattern : patternOffset + count ≤ pattern.length)
    (hp : p = (pattern.drop patternOffset).take count) :
    ((∀ off, rb.Candidate p off → rb.ComesTo p off → ¬ rb.CrossesEnd count off) →
      rb.FindsExactly pattern patternOffset count) ∧
    (rb.readIndex + count < rb.size → rb.FindsExactly pattern patternOffset count →
      ∀ off, rb.Candidate p off → rb.ComesTo p off → ¬ rb.CrossesEnd count off) := by
  have hwf := (hrb.wf (hrb.size_lt hsize)).1
  have hg : Given pattern patternOffset count p := ⟨hpattern, hp, hc⟩
  constructor
  · intro hwithin
    apply (findsExactly_iff hwf hg).mpr
    intro off hcand hcome hx
    exact absurd hx (hwithin off hcand hcome)
  · intro hshort hexact off hcand hcome hx
    -- the second length wraps, and the copy would leave the buffer
    have hstay := (sound_of_findsExactly hwf hg hexact off hcand hcome).1
    rw [hg.length] at hstay
    refine hstay ⟨hx, ?_⟩
    unfold peekCount
    omega

/-- A full ring of four bytes with the content 2, 3, 4, 5, which goes round after the third
byte. -/
def wrappedRing : Rb :=
  { cleared 4 with
    readIndex := 1, writeIndex := 1, lastWasWrite := 1
    totalBytesRead := 1, totalBytesWrite := 5
    buf := [5, 2, 3, 4] }

theorem reachable_wrappedRing : Reachable 4 wrappedRing :=
  ⟨.cleared, cleared 4,
    [.write [1, 2, 3, 4] 4 (by decide), .advanceReadIndex 1, .write [5] 1 (by decide)],
    [{ ret := 4 }, { ret := 1 }, { ret := 1 }],
    rbNew_cleared (by decide) (by decide), by decide +kernel⟩

/-- In it the search for 3, 4 stops in front of the physical end. -/
theorem search_finds_wrappedRing : wrappedRing.FindsExactly [7, 3, 4] 1 2 := by
  refine (search_exact_unless_crossing (p := [3, 4]) (by decide) reachable_wrappedRing (by decide)
    (by decide) rfl).1 ?_
  have hinside : ∀ off < 4, wrappedRing.Candidate [3, 4] off → ¬ wrappedRing.CrossesEnd 2 off := by
    decide +kernel
  intro off hcand _
  exact hinside off hcand.1 hcand

/-- The content ends with 4, 5, but the search for it copies from behind the buffer. -/
theorem search_leaves_wrappedRing :
    Reachable 4 wrappedRing ∧ MatchesAt wrappedRing.queue [4, 5] 2 ∧
      wrappedRing.findByteSequence [4, 5] 0 2 [0, 0] = none ∧
      ¬ wrappedRing.FindsExactly [4, 5] 0 2 := by
  have hnone : wrappedRing.findByteSequence [4, 5] 0 2 [0, 0] = none := by decide +kernel
  refine ⟨reachable_wrappedRing, by decide +kernel, hnone, ?_⟩
  intro hexact
  obtain ⟨found, offset, rb', hrun, -⟩ := hexact [0, 0] rfl
  rw [hnone] at hrun
  cases hrun

end Rb

end Csnip
