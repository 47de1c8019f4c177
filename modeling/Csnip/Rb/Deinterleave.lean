/-
Taking interleaved items out of the ring.

`rb_deinterleave_items()` peeks one item after the other: the byte position starts at zero,
moves on by a block of items each round and is compared with the number of bytes that have
to be there, which counts the initial offset although the position does not.  So the number
of rounds is not the number of items: `deinterleaveFrom_some` says what a loop that ended
has done, and `deinterleaveFrom_ends` when it ends at all.

Every copy is a peek, with what `Peek.lean` says of windows across the physical end.
-/
import Csnip.Lib.Loop
import Csnip.Rb.Over

namespace Csnip

open Memory Cyclic Loop

namespace Rb

/-! ### The words the loop works with -/

/-- Where the first item starts. -/
def initialBytepos (itemSize initialItemOffset : ℕ) : ℕ := u64 (initialItemOffset * itemSize)

/-- The value the byte position is compared with. -/
def bytesConcerned (itemCount itemSize initialItemOffset itemBlockSize : ℕ) : ℕ :=
  u64 (initialBytepos itemSize initialItemOffset
    + u64 (u64 (u64 (subU64 itemCount 1 * itemSize) * itemBlockSize) + itemSize))

/-- How far the byte position moves in one round. -/
def blockStep (itemSize itemBlockSize : ℕ) : ℕ := u64 (itemSize * itemBlockSize)

theorem blockStep_lt (itemSize itemBlockSize : ℕ) : blockStep itemSize itemBlockSize < 2 ^ 64 :=
  u64_lt _

/-- Round `j` comes before the bound, and there is content at its byte position. -/
def FindsContent (rb : Rb) (itemSize initialBytepos bound step j : ℕ) : Prop :=
  itemSize ≠ 0 ∧ j * step < bound ∧ u64 (initialBytepos + j * step) < rb.canRead

instance (rb : Rb) (itemSize initialBytepos bound step : ℕ) :
    DecidablePred (rb.FindsContent itemSize initialBytepos bound step) :=
  fun _ => inferInstanceAs (Decidable (_ ∧ _))

/-- The loop comes to its bound, it stays inside the ring, and no two rounds that are as far
apart as there are items both find content; or there is not enough content and it is not
entered. -/
def KeepsWithin (rb : Rb) (itemCount itemSize initialItemOffset itemBlockSize : ℕ) : Prop :=
  let init := initialBytepos itemSize initialItemOffset
  let bound := bytesConcerned itemCount itemSize initialItemOffset itemBlockSize
  let step := blockStep itemSize itemBlockSize
  rb.canRead < bound ∨
    (bound = 0 ∨ 0 < step) ∧
    (∀ j, j * step < bound → ¬ rb.LeavesBuffer itemSize (u64 (init + j * step))) ∧
    ∀ j, rb.FindsContent itemSize init bound step j →
      ¬ rb.FindsContent itemSize init bound step (j + itemCount)

/-- Some number of rounds is enough for the run to end, and it copies something at most as
often as there are items, no more bytes altogether than the items have.  A round that finds
nothing copies nothing. -/
def StaysBounded (run : ℕ → Option (ℕ × List (ℕ × List UInt8) × Rb))
    (itemCount itemSize : ℕ) : Prop :=
  ∃ fuel ret copies rb', run fuel = some (ret, copies, rb') ∧
    (copies.filter fun copy => copy.2 ≠ []).length ≤ itemCount ∧
    (copies.map fun copy => copy.2.length).sum ≤ itemCount * itemSize

/-! ### What the loop copies -/

/-- What the peek of one item stores. -/
def copied (rb : Rb) (itemSize pos : ℕ) : List UInt8 :=
  if rb.canRead ≤ pos then [] else window rb.buf (rb.readIndex + pos) (rb.storedCount itemSize pos)

/-- The copies of `m` rounds from round `j` on. -/
def copiesFrom (rb : Rb) (itemSize initialBytepos step j m : ℕ) : List (ℕ × List UInt8) :=
  (List.range' j m).map fun i =>
    (i * itemSize, rb.copied itemSize (u64 (initialBytepos + i * step)))

section Loop

variable {rb rb' : Rb} {itemSize initialBytepos bound step : ℕ}

theorem length_copied_le (h : WF rb) (itemSize pos : ℕ) :
    (rb.copied itemSize pos).length ≤ itemSize := by
  unfold copied
  by_cases ho : rb.canRead ≤ pos
  · rw [if_pos ho]
    exact Nat.zero_le _
  · rw [if_neg ho, length_window (by rw [h.length_buf]; exact storedCount_le_size h _ _)]
    exact storedCount_le rb _ _

/-- A peek inside a ring stores what `copied` says and moves nothing. -/
theorem peekAt_copied (h : WF rb) {pos : ℕ} (hl : ¬ rb.LeavesBuffer itemSize pos) : ∃ n rb₁,
    rb.peekAt itemSize pos = some (n, rb.copied itemSize pos, rb₁) ∧ SameRing rb rb₁ := by
  by_cases hz : itemSize = 0
  · have hnil : rb.copied itemSize pos = [] := by
      rw [← List.length_eq_zero_iff]
      have hle := length_copied_le h itemSize pos
      omega
    refine ⟨0, rb, ?_, SameRing.refl rb⟩
    rw [hnil, peekAt, if_pos hz]
  · by_cases ho : rb.canRead ≤ pos
    · refine ⟨0, _, ?_, sameRing_underflow rb⟩
      rw [copied, if_pos ho, peekAt_none rb hz ho]
    · refine ⟨rb.peekCount itemSize pos, rb.afterPeek (rb.peekCount itemSize pos) itemSize, ?_,
        sameRing_afterPeek rb _ itemSize⟩
      rw [copied, if_neg ho, peekAt_stores h hz (Nat.not_le.mp ho) hl]

theorem peekAt_leaves_none (h : WF rb) {pos : ℕ} (hl : rb.LeavesBuffer itemSize pos) :
    rb.peekAt itemSize pos = none := by
  refine peekAt_leaves h ?_ hl
  rintro rfl
  obtain ⟨⟨-, hbefore, hbehind⟩, -⟩ := hl
  unfold peekCount at hbehind
  omega

theorem SameRing.copied (hring : SameRing rb rb') (itemSize pos : ℕ) :
    rb'.copied itemSize pos = rb.copied itemSize pos := by
  rw [Rb.copied, Rb.copied, hring.storedCount, hring.canRead, hring.readIndex, hring.buf]

/-- The byte position does not wrap as long as it is inside the bound. -/
theorem next_bytepos {j : ℕ} (hstep : step < 2 ^ 64) (hbound : bound < 2 ^ 63)
    (hj : j * step < bound) : u64 (j * step + step) = (j + 1) * step := by
  rw [← Nat.succ_mul]
  apply u64_of_lt
  cases j with
  | zero => omega
  | succ j =>
      have hle : step ≤ (j + 1) * step := Nat.le_mul_of_pos_left step (Nat.succ_pos j)
      rw [Nat.succ_mul]
      omega

variable (h : WF rb) (hstep : step < 2 ^ 64) (hbound : bound < 2 ^ 63)

include h hstep hbound

/-- **What a loop that ended has done**: it has made the copies of as many rounds as it
takes to come to the bound, all of them inside the ring. -/
theorem deinterleaveFrom_some : ∀ {fuel j : ℕ} {rb' rb'' : Rb} {copies : List (ℕ × List UInt8)},
    SameRing rb rb' →
    deinterleaveFrom itemSize initialBytepos bound step fuel rb' (j * step) (j * itemSize)
      = some (copies, rb'') →
    ∃ m, copies = rb.copiesFrom itemSize initialBytepos step j m ∧ SameRing rb rb'' ∧
      bound ≤ (j + m) * step ∧ ∀ i, j ≤ i → i < j + m → i * step < bound ∧
        ¬ rb.LeavesBuffer itemSize (u64 (initialBytepos + i * step)) := by
  intro fuel
  induction fuel with
  | zero =>
      intro j rb' rb'' copies _ hrun
      cases hrun
  | succ fuel ih =>
      intro j rb' rb'' copies hring hrun
      rw [deinterleaveFrom] at hrun
      by_cases hj : j * step < bound
      · rw [if_pos hj] at hrun
        by_cases hl : rb.LeavesBuffer itemSize (u64 (initialBytepos + j * step))
        · rw [peekAt_leaves_none (hring.wf h) ((hring.leavesBuffer _ _).mpr hl)] at hrun
          cases hrun
        · obtain ⟨n, rb₁, hpeek, hring₁⟩ :=
            peekAt_copied (hring.wf h) (fun hl' => hl ((hring.leavesBuffer _ _).mp hl'))
          rw [hpeek, next_bytepos hstep hbound hj, ← Nat.succ_mul, hring.copied] at hrun
          simp only [Option.bind_eq_bind, Option.bind_some, Option.bind_eq_some_iff,
            Option.pure_def, Option.some.injEq, Prod.mk.injEq, Prod.exists] at hrun
          obtain ⟨rest, rb₂, hrest, rfl, rfl⟩ := hrun
          obtain ⟨m, rfl, hring₂, hcome, hrounds⟩ := ih (hring.trans hring₁) hrest
          refine ⟨m + 1, rfl, hring₂, by rw [Nat.add_right_comm] at hcome; exact hcome, ?_⟩
          intro i hji him
          by_cases hi : i = j
          · rw [hi]
            exact ⟨hj, hl⟩
          · exact hrounds i (by omega) (by omega)
      · rw [if_neg hj] at hrun
        cases hrun
        refine ⟨0, rfl, hring, Nat.not_lt.mp hj, ?_⟩
        intro i hji him
        omega

/-- **The loop ends** when some number of rounds comes to the bound and all of them stay in
the ring. -/
theorem deinterleaveFrom_ends : ∀ {m j : ℕ} {rb' : Rb}, SameRing rb rb' →
    bound ≤ (j + m) * step →
    (∀ i, j ≤ i → i * step < bound →
      ¬ rb.LeavesBuffer itemSize (u64 (initialBytepos + i * step))) →
    ∃ copies rb'', deinterleaveFrom itemSize initialBytepos bound step (m + 1) rb' (j * step)
      (j * itemSize) = some (copies, rb'') := by
  intro m
  induction m with
  | zero =>
      intro j rb' _ hcome _
      rw [deinterleaveFrom, if_neg (show ¬ j * step < bound from Nat.not_lt.mpr hcome)]
      exact ⟨[], rb', rfl⟩
  | succ m ih =>
      intro j rb' hring hcome hstay
      rw [deinterleaveFrom]
      by_cases hj : j * step < bound
      · have hl : ¬ rb'.LeavesBuffer itemSize (u64 (initialBytepos + j * step)) :=
          fun hl => hstay j (Nat.le_refl j) hj ((hring.leavesBuffer _ _).mp hl)
        obtain ⟨n, rb₁, hpeek, hring₁⟩ := peekAt_copied (hring.wf h) hl
        obtain ⟨copies, rb₂, hrest⟩ := ih (j := j + 1) (hring.trans hring₁)
          (by rw [Nat.add_right_comm]; exact hcome) (fun i hi => hstay i (by omega))
        rw [if_pos hj, hpeek, next_bytepos hstep hbound hj, ← Nat.succ_mul]
        simp only [Option.bind_eq_bind, Option.bind_some, hrest]
        exact ⟨_, _, rfl⟩
      · rw [if_neg hj]
        exact ⟨[], rb', rfl⟩

end Loop

/-! ### The whole call -/

section Call

variable {rb : Rb} {itemCount itemSize initialItemOffset itemBlockSize : ℕ}

/-- With too little content the loop is not entered. -/
theorem deinterleaveItems_short (fuel : ℕ)
    (hshort : rb.canRead < bytesConcerned itemCount itemSize initialItemOffset itemBlockSize) :
    rb.deinterleaveItems fuel itemCount itemSize initialItemOffset itemBlockSize
      = some (0, [], rb) := if_pos hshort

section Enough

variable (h : WF rb)
  (henough : bytesConcerned itemCount itemSize initialItemOffset itemBlockSize ≤ rb.canRead)

include henough

theorem deinterleaveItems_enter (fuel : ℕ) :
    rb.deinterleaveItems fuel itemCount itemSize initialItemOffset itemBlockSize
      = (deinterleaveFrom itemSize (initialBytepos itemSize initialItemOffset)
          (bytesConcerned itemCount itemSize initialItemOffset itemBlockSize)
          (blockStep itemSize itemBlockSize) fuel rb (0 * blockStep itemSize itemBlockSize)
          (0 * itemSize)).bind fun r => some (u64 (itemCount * itemSize), r.1, r.2) := by
  rw [Nat.zero_mul, Nat.zero_mul]
  exact if_neg (Nat.not_lt.mpr henough)

include h

/-- What a call that entered its loop and ended has done. -/
theorem deinterleaveItems_some {fuel ret : ℕ} {copies : List (ℕ × List UInt8)} {rb' : Rb}
    (hrun : rb.deinterleaveItems fuel itemCount itemSize initialItemOffset itemBlockSize
      = some (ret, copies, rb')) :
    ∃ m, copies = rb.copiesFrom itemSize (initialBytepos itemSize initialItemOffset)
        (blockStep itemSize itemBlockSize) 0 m ∧
      ret = u64 (itemCount * itemSize) ∧ SameRing rb rb' ∧
      bytesConcerned itemCount itemSize initialItemOffset itemBlockSize
        ≤ m * blockStep itemSize itemBlockSize ∧
      ∀ i < m, i * blockStep itemSize itemBlockSize
          < bytesConcerned itemCount itemSize initialItemOffset itemBlockSize ∧
        ¬ rb.LeavesBuffer itemSize (u64 (initialBytepos itemSize initialItemOffset
          + i * blockStep itemSize itemBlockSize)) := by
  have hcr := canRead_le h
  have hs := h.size_lt
  rw [deinterleaveItems_enter henough] at hrun
  obtain ⟨⟨copies₁, rb₁⟩, hloop, hout⟩ := Option.bind_eq_some_iff.mp hrun
  cases hout
  have hconcerned : bytesConcerned itemCount itemSize initialItemOffset itemBlockSize < 2 ^ 63 := by
    omega
  obtain ⟨m, rfl, hring, hcome, hrounds⟩ := deinterleaveFrom_some h
    (blockStep_lt _ _) hconcerned (SameRing.refl rb) hloop
  rw [Nat.zero_add] at hcome hrounds
  exact ⟨m, rfl, rfl, hring, hcome, fun i hi => hrounds i (Nat.zero_le i) hi⟩

/-- When a call that enters its loop ends. -/
theorem deinterleaveItems_ends {m : ℕ}
    (hcome : bytesConcerned itemCount itemSize initialItemOffset itemBlockSize
      ≤ m * blockStep itemSize itemBlockSize)
    (hstay : ∀ j, j * blockStep itemSize itemBlockSize
        < bytesConcerned itemCount itemSize initialItemOffset itemBlockSize →
      ¬ rb.LeavesBuffer itemSize (u64 (initialBytepos itemSize initialItemOffset
        + j * blockStep itemSize itemBlockSize))) :
    ∃ ret copies rb', rb.deinterleaveItems (m + 1) itemCount itemSize initialItemOffset
      itemBlockSize = some (ret, copies, rb') := by
  have hcr := canRead_le h
  have hs := h.size_lt
  obtain ⟨copies, rb', hloop⟩ := deinterleaveFrom_ends (m := m) (j := 0) h (blockStep_lt _ _)
    (show bytesConcerned itemCount itemSize initialItemOffset itemBlockSize < 2 ^ 63 by omega)
    (SameRing.refl rb) (by rw [Nat.zero_add]; exact hcome) (fun i _ hi => hstay i hi)
  rw [deinterleaveItems_enter henough, hloop]
  exact ⟨_, _, _, rfl⟩

end Enough

/-- Copies of at most `itemSize` bytes are of no more bytes altogether than those of them
that copy something could be. -/
theorem sum_length_le {copies : List (ℕ × List UInt8)}
    (hle : ∀ copy ∈ copies, copy.2.length ≤ itemSize) :
    (copies.map fun copy => copy.2.length).sum
      ≤ (copies.filter fun copy => copy.2 ≠ []).length * itemSize := by
  induction copies with
  | nil => exact Nat.zero_le _
  | cons copy copies ih =>
      have hfirst := hle copy List.mem_cons_self
      have hrest := ih fun c hc => hle c (List.mem_cons_of_mem copy hc)
      rw [List.map_cons, List.sum_cons]
      by_cases hnil : copy.2 = []
      · rw [List.filter_cons_of_neg (by simp [hnil]), hnil, List.length_nil, Nat.zero_add]
        exact hrest
      · rw [List.filter_cons_of_pos (by simp [hnil]), List.length_cons, Nat.succ_mul]
        omega

theorem length_le_of_mem_copiesFrom (h : WF rb) {init step j m : ℕ} :
    ∀ copy ∈ rb.copiesFrom itemSize init step j m, copy.2.length ≤ itemSize := by
  intro copy hmem
  obtain ⟨i, -, rfl⟩ := List.mem_map.mp hmem
  exact length_copied_le h itemSize _

/-- A cell of slot `k` behind what its copy stored is touched by no copy. -/
theorem copiesFrom_slot (h : WF rb) {init step j m k i : ℕ}
    (hlow : k * itemSize + (rb.copied itemSize (u64 (init + k * step))).length ≤ i)
    (hhigh : i < k * itemSize + itemSize) :
    ∀ piece ∈ rb.copiesFrom itemSize init step j m,
      i < piece.1 ∨ piece.1 + piece.2.length ≤ i := by
  intro piece hmem
  obtain ⟨n, -, rfl⟩ := List.mem_map.mp hmem
  show i < n * itemSize ∨
    n * itemSize + (rb.copied itemSize (u64 (init + n * step))).length ≤ i
  rcases Nat.lt_trichotomy n k with hlt | rfl | hgt
  · have hslot : (n + 1) * itemSize ≤ k * itemSize := Nat.mul_le_mul_right _ hlt
    have hfits := length_copied_le h itemSize (u64 (init + n * step))
    rw [Nat.succ_mul] at hslot
    omega
  · exact Or.inr hlow
  · have hslot : (k + 1) * itemSize ≤ n * itemSize := Nat.mul_le_mul_right _ hgt
    rw [Nat.succ_mul] at hslot
    omega

/-- Inside the ring a round copies something exactly when it finds content. -/
theorem copied_ne_nil_iff (h : WF rb) {pos : ℕ} (hl : ¬ rb.LeavesBuffer itemSize pos) :
    rb.copied itemSize pos ≠ [] ↔ itemSize ≠ 0 ∧ pos < rb.canRead := by
  have hcr := canRead_le h
  constructor
  · intro hne
    have hpos := List.length_pos_iff.mpr hne
    have hle := length_copied_le h itemSize pos
    refine ⟨by omega, ?_⟩
    by_contra hbehind
    exact hne (if_pos (Nat.not_lt.mp hbehind))
  · rintro ⟨hz, hpos⟩ hnil
    have hlen := congrArg List.length hnil
    rw [copied, if_neg (Nat.not_le.mpr hpos),
      length_window (by rw [h.length_buf]; exact storedCount_le_size h _ _),
      List.length_nil] at hlen
    have hcount : 0 < rb.peekCount itemSize pos := by
      unfold peekCount
      omega
    unfold storedCount at hlen
    by_cases hx : rb.CrossesEnd itemSize pos
    · -- the first piece goes up to the physical end
      rw [if_pos hx] at hlen
      have hstay : ¬ rb.readIndex + rb.peekCount itemSize pos < rb.size := fun hlt => hl ⟨hx, hlt⟩
      obtain ⟨-, hbefore, -⟩ := hx
      omega
    · rw [if_neg hx] at hlen
      omega

/-- The rounds that find content lie together: they are the first ones or, where the byte
position goes round 2^64 on the way, the last ones. -/
theorem FindsContent.convex {init bound step : ℕ} (hcr : rb.canRead < 2 ^ 63)
    (hbound : bound < 2 ^ 63) {i j k : ℕ} (hij : i ≤ j) (hjk : j ≤ k)
    (hi : rb.FindsContent itemSize init bound step i)
    (hk : rb.FindsContent itemSize init bound step k) :
    rb.FindsContent itemSize init bound step j := by
  obtain ⟨hz, -, hfound⟩ := hi
  obtain ⟨-, hbefore, hfound'⟩ := hk
  have hle : i * step ≤ j * step := Nat.mul_le_mul_right step hij
  have hle' : j * step ≤ k * step := Nat.mul_le_mul_right step hjk
  refine ⟨hz, by omega, ?_⟩
  unfold u64 at *
  omega

/-- How often a loop inside the ring copies something. -/
theorem filter_copiesFrom_le_iff (h : WF rb) {init bound step m n : ℕ}
    (hbound : bound < 2 ^ 63) (hcome : bound ≤ m * step)
    (hrounds : ∀ i < m, i * step < bound ∧ ¬ rb.LeavesBuffer itemSize (u64 (init + i * step))) :
    ((rb.copiesFrom itemSize init step 0 m).filter fun copy => copy.2 ≠ []).length ≤ n ↔
      ∀ j, rb.FindsContent itemSize init bound step j →
        ¬ rb.FindsContent itemSize init bound step (j + n) := by
  have hcr := canRead_le h
  have hs := h.size_lt
  have hcopied : ((rb.copiesFrom itemSize init step 0 m).filter fun copy => copy.2 ≠ []).length
      = ((List.range m).filter (rb.FindsContent itemSize init bound step)).length := by
    rw [copiesFrom, ← List.range_eq_range', List.filter_map, List.length_map]
    congr 1
    apply List.filter_congr
    intro i hi
    obtain ⟨hbefore, hl⟩ := hrounds i (List.mem_range.mp hi)
    apply decide_eq_decide.mpr
    rw [copied_ne_nil_iff h hl, FindsContent, and_iff_right hbefore]
  rw [hcopied]
  refine length_filter_range_le_iff
    (fun i j k hij hjk => FindsContent.convex (by omega) hbound hij hjk) ?_ n
  rintro j ⟨-, hbefore, -⟩
  by_contra hbehind
  exact absurd (Nat.le_trans hcome (Nat.mul_le_mul_right step (Nat.not_lt.mp hbehind)))
    (Nat.not_le.mpr hbefore)

theorem staysBounded_iff (h : WF rb) :
    StaysBounded (fun fuel =>
        rb.deinterleaveItems fuel itemCount itemSize initialItemOffset itemBlockSize)
      itemCount itemSize ↔
      rb.KeepsWithin itemCount itemSize initialItemOffset itemBlockSize := by
  have hcr := canRead_le h
  have hs := h.size_lt
  by_cases hshort : rb.canRead < bytesConcerned itemCount itemSize initialItemOffset itemBlockSize
  · exact iff_of_true
      ⟨0, 0, [], rb, deinterleaveItems_short 0 hshort, Nat.zero_le _, Nat.zero_le _⟩ (Or.inl hshort)
  · have henough := Nat.not_lt.mp hshort
    constructor
    · rintro ⟨fuel, ret, copies, rb', hrun, hle, -⟩
      obtain ⟨m, rfl, -, -, hcome, hrounds⟩ := deinterleaveItems_some h henough hrun
      refine Or.inr ⟨?_, ?_, (filter_copiesFrom_le_iff h (by omega) hcome hrounds).mp hle⟩
      · by_contra hno
        have hzero : blockStep itemSize itemBlockSize = 0 := by omega
        rw [hzero, Nat.mul_zero] at hcome
        omega
      · intro j hj
        have hjm : j < m := by
          by_contra hno
          exact absurd (Nat.le_trans hcome (Nat.mul_le_mul_right _ (Nat.not_lt.mp hno)))
            (Nat.not_le.mpr hj)
        exact (hrounds j hjm).2
    · rintro (hno | ⟨hmoves, hstay, hapart⟩)
      · exact absurd hno hshort
      · have hcome : bytesConcerned itemCount itemSize initialItemOffset itemBlockSize
            ≤ bytesConcerned itemCount itemSize initialItemOffset itemBlockSize
              * blockStep itemSize itemBlockSize := by
          rcases hmoves with hzero | hpos
          · rw [hzero]
            exact Nat.zero_le _
          · exact Nat.le_mul_of_pos_right _ hpos
        obtain ⟨ret, copies, rb', hrun⟩ := deinterleaveItems_ends h henough hcome hstay
        obtain ⟨m, rfl, -, -, hcome', hrounds⟩ := deinterleaveItems_some h henough hrun
        have hfew := (filter_copiesFrom_le_iff h (by omega) hcome' hrounds).mpr hapart
        exact ⟨_, ret, _, rb', hrun, hfew,
          Nat.le_trans (sum_length_le (length_le_of_mem_copiesFrom h))
            (Nat.mul_le_mul_right _ hfew)⟩

end Call

/-- **When deinterleaving stays within what was asked for.**

In every ring that calls can make out of one that `rb_new_audio()` built, and for all four
words: the loop ends and copies something at most as often as there are items exactly when
there is not enough content, or when the byte position moves on, no round leaves the buffer
and no two rounds that are as far apart as there are items both find content.  For audio the
item is a sample and the block a frame. -/
theorem deinterleave_stays_within {size : ℕ} {rb : Rb} (hsize : size < 2 ^ 64)
    (hrb : ReachableAudio size rb) :
    (∀ itemCount itemSize initialItemOffset itemBlockSize,
      StaysBounded (fun fuel =>
          rb.deinterleaveItems fuel itemCount itemSize initialItemOffset itemBlockSize)
        itemCount itemSize ↔
        rb.KeepsWithin itemCount itemSize initialItemOffset itemBlockSize) ∧
    ∀ frameCount frameOffset,
      StaysBounded (fun fuel => rb.deinterleaveAudio fuel frameCount frameOffset) frameCount
          (rb.bytesPerSample % 2 ^ 64).toNat ↔
        rb.KeepsWithin frameCount (rb.bytesPerSample % 2 ^ 64).toNat frameOffset
          (rb.channelCount % 2 ^ 64).toNat := by
  have hwf := (hrb.wf (hrb.size_lt hsize)).1
  exact ⟨fun _ _ _ _ => staysBounded_iff hwf, fun _ _ => staysBounded_iff hwf⟩

/-- One item at offset 2 of 1, 2, 3 takes three rounds, but the last two find nothing; two
items from the front take two. -/
theorem deinterleave_stays_within_filled :
    StaysBounded (fun fuel => filledRing.deinterleaveItems fuel 1 1 2 1) 1 1 ∧
      StaysBounded (fun fuel => filledRing.deinterleaveItems fuel 2 1 0 1) 2 1 := by
  have hiff := (deinterleave_stays_within (by decide) reachable_filledRing.audio).1
  have hinside : ∀ init ≤ 2, ∀ j < 3, ¬ filledRing.LeavesBuffer 1 (u64 (init + j * 1)) := by
    decide +kernel
  refine ⟨(hiff 1 1 2 1).mpr (Or.inr ⟨by decide, ?_, ?_⟩),
    (hiff 2 1 0 1).mpr (Or.inr ⟨by decide, ?_, ?_⟩)⟩
  · intro j hj
    have hbefore : j * 1 < 3 := hj
    exact hinside 2 (by decide) j (by omega)
  · have hapart : ∀ j < 3, ¬ filledRing.FindsContent 1 2 3 1 (j + 1) := by decide +kernel
    rintro j ⟨-, hj, -⟩
    have hbefore : j * 1 < 3 := hj
    exact hapart j (by omega)
  · intro j hj
    have hbefore : j * 1 < 2 := hj
    exact hinside 0 (by decide) j (by omega)
  · rintro j - ⟨-, hj, -⟩
    have hbefore : (j + 2) * 1 < 2 := hj
    omega

/-- Two calls that break off from what was asked for, on a ring of 1, 2, 3: one item of one
byte at offset 1 makes two copies, and with blocks of no item the loop never ends. -/
theorem deinterleave_runs_over :
    Reachable 3 filledRing ∧
      (filledRing.deinterleaveItems 3 1 1 1 1).map (fun r => r.2.1)
        = some [(0, [2]), (1, [3])] ∧
      ¬ StaysBounded (fun fuel => filledRing.deinterleaveItems fuel 1 1 1 1) 1 1 ∧
      ¬ StaysBounded (fun fuel => filledRing.deinterleaveItems fuel 1 1 0 0) 1 1 := by
  have hwf := (reachable_filledRing.wf (by decide)).1
  refine ⟨reachable_filledRing, by decide +kernel, ?_, ?_⟩
  · rw [staysBounded_iff hwf]
    rintro (hshort | ⟨-, -, hapart⟩)
    · exact absurd hshort (by decide +kernel)
    · exact hapart 0 (by decide +kernel) (by decide +kernel)
  · rw [staysBounded_iff hwf]
    rintro (hshort | ⟨hmoves, -, -⟩)
    · exact absurd hshort (by decide +kernel)
    · exact absurd hmoves (by decide +kernel)

end Rb

end Csnip
