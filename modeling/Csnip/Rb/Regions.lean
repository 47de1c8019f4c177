/-
The zero-copy path.

Instead of having the ring copy, a caller can ask for the regions of the buffer it may
use, move the bytes itself and advance the index.  `fill` and `gather` are that caller:
they go through the first region and then the second.  The regions, the copying
functions and the advancing ones all find the place to wrap on their own; here they are
shown to find the same one.

The two pairs together are the whole buffer, without an overlap (`regions_partition`).
-/
import Csnip.Rb.Fifo

namespace Csnip

open Memory Cyclic

/-- The position lies in the region. -/
def RbRegion.Covers (region : RbRegion) (p : ℕ) : Prop :=
  region.buffer ≤ p ∧ p < region.buffer + region.size

instance (region : RbRegion) (p : ℕ) : Decidable (region.Covers p) :=
  inferInstanceAs (Decidable (_ ∧ _))

namespace Rb

/-! ### The caller's side -/

/-- Store `bytes` to the first region and, as far as they do not fit, to the second. -/
def fill (buf : List UInt8) (regions : RbRegion × RbRegion) (bytes : List UInt8) :
    Option (List UInt8) := do
  let buf ← store buf regions.1.buffer (bytes.take regions.1.size)
  store buf regions.2.buffer ((bytes.drop regions.1.size).take regions.2.size)

/-- The bytes of the first region and then those of the second. -/
def gather (buf : List UInt8) (regions : RbRegion × RbRegion) : Option (List UInt8) := do
  let bytes ← load buf regions.1.buffer regions.1.size
  pure (bytes ++ (← load buf regions.2.buffer regions.2.size))

/-- Write through the regions: fill them as far as the ring has room, then advance. -/
def writeRegions (rb : Rb) (source : List UInt8) (count : ℕ) : Option (ℕ × Rb) := do
  let buf ← fill rb.buf rb.getWriteRegions (source.take (min count rb.canWrite))
  { rb with buf := buf }.advanceWriteIndex count

/-- Read through the regions: take what was asked for, then advance. -/
def readRegions (rb : Rb) (count : ℕ) : Option (ℕ × List UInt8 × Rb) := do
  let bytes ← gather rb.buf rb.getReadRegions
  let (n, rb') ← rb.advanceReadIndex count
  pure (n, bytes.take (min count rb.canRead), rb')

variable {rb : Rb}

/-! ### The regions are the two pieces of a window -/

theorem regionsFrom_eq (h : WF rb) {index n : ℕ} (hi : index < rb.size) (hn : n ≤ rb.size) :
    rb.regionsFrom index n =
      if rb.size < index + n then (⟨index, rb.size - index⟩, ⟨0, index + n - rb.size⟩)
      else (⟨index, n⟩, ⟨0, 0⟩) := by
  have hs := h.size_lt
  simp only [regionsFrom]
  rw [u64_of_lt (by omega)]
  split
  · rw [subU64_of_le (by omega) (by omega), subU64_of_le (by omega) (by omega)]
  · rfl

theorem nextRegionFrom_eq (rb : Rb) (index n : ℕ) :
    rb.nextRegionFrom index n = (rb.regionsFrom index n).1 := by
  simp only [nextRegionFrom, regionsFrom]
  split <;> rfl

theorem gather_regionsFrom (h : WF rb) {index n : ℕ} (hi : index < rb.size) (hn : n ≤ rb.size) :
    gather rb.buf (rb.regionsFrom index n) = some (window rb.buf index n) := by
  have hb := h.length_buf
  rw [regionsFrom_eq h hi hn]
  split
  · next hend =>
      have htake : (rb.buf.drop index).take (rb.size - index) = rb.buf.drop index :=
        List.take_of_length_le (by simp; omega)
      simp only [gather]
      rw [load_of_le (by omega), load_of_le (by omega), htake,
        window_split (by omega) (by omega) (by omega), hb]
      rfl
  · next hend =>
      simp only [gather]
      rw [load_of_le (by omega), load_of_le (by omega), window_straight (by omega)]
      simp

/-- Filling the regions of `n` bytes with at most `n` bytes writes them going round. -/
theorem fill_regionsFrom (h : WF rb) {index n : ℕ} {bytes : List UInt8} (hi : index < rb.size)
    (hn : n ≤ rb.size) (hb : bytes.length ≤ n) :
    fill rb.buf (rb.regionsFrom index n) bytes = some (Cyclic.write rb.buf index bytes) := by
  have hbuf := h.length_buf
  rw [regionsFrom_eq h hi hn]
  split
  · next hend =>
      have hmid : (overwrite rb.buf index (bytes.take (rb.size - index))).length = rb.size := by
        rw [length_overwrite (by rw [List.length_take]; omega), hbuf]
      have hrest : (bytes.drop (rb.size - index)).take (index + n - rb.size)
          = bytes.drop (rb.size - index) := List.take_of_length_le (by simp; omega)
      simp only [fill]
      rw [store_of_le (by rw [List.length_take]; omega), hrest]
      simp only [Option.bind_eq_bind, Option.bind_some]
      rw [store_of_le (by rw [hmid, List.length_drop]; omega), Cyclic.write, hbuf]
      split
      · -- everything fitted into the first region
        rw [List.drop_of_length_le (by omega), overwrite_nil, List.take_of_length_le (by omega)]
      · rfl
  · next hend =>
      simp only [fill]
      rw [List.take_of_length_le hb, List.drop_of_length_le hb, store_of_le (by omega),
        Cyclic.write, if_pos (by omega)]
      simp only [List.take_nil, Option.bind_eq_bind, Option.bind_some]
      rw [store_of_le (by simp), overwrite_nil]

/-! ### Both paths agree -/

/-- Two results with the same value and the same storage, indices and flag. -/
def SameResult (r r' : ℕ × Rb) : Prop := r.1 = r'.1 ∧ SameRing r.2 r'.2

theorem writeRegions_same (h : WF rb) {source : List UInt8} {count : ℕ}
    (hsrc : min count rb.canWrite ≤ source.length) : ∃ r r',
    rb.writeRegions source count = some r ∧ rb.write source count = some r' ∧
      SameResult r r' := by
  have hlevel := canRead_add_canWrite h
  have hbs : (source.take (min count rb.canWrite)).length = min count rb.canWrite := by
    simp; omega
  have hfill : fill rb.buf rb.getWriteRegions (source.take (min count rb.canWrite))
      = some (Cyclic.write rb.buf rb.writeIndex (source.take (min count rb.canWrite))) :=
    fill_regionsFrom h h.write_lt (by omega) (by omega)
  set buf := Cyclic.write rb.buf rb.writeIndex (source.take (min count rb.canWrite)) with hbuf
  have hlen : buf.length = rb.size := by
    have hfits : (source.take (min count rb.canWrite)).length ≤ rb.buf.length := by
      rw [h.length_buf]
      omega
    rw [hbuf, length_write (by rw [h.length_buf]; exact h.write_lt.le) hfits, h.length_buf]
  -- the advance works on the filled ring, which has the indices and the flag of the old one
  have hfilled : WF { rb with buf := buf } :=
    ⟨h.size_pos, h.size_lt, h.read_lt, h.write_lt, h.flag, hlen⟩
  have hcount : ({ rb with buf := buf } : Rb).writeCount count = min count rb.canWrite := rfl
  have hkeep : min count rb.canWrite = 0 → buf = rb.buf := by
    intro hz
    rw [hbuf, hz, List.take_zero, Cyclic.write, if_pos, overwrite_nil]
    rw [List.length_nil, h.length_buf]
    exact h.write_lt.le
  simp only [writeRegions, hfill, Option.bind_eq_bind, Option.bind_some]
  rw [advanceWriteIndex_eq hfilled, write_eq h hsrc, hcount]
  refine ⟨_, _, rfl, rfl, ?_⟩
  have hzero := writeCount_eq_zero rb count
  unfold writeCount at hzero ⊢
  by_cases hc : count = 0
  · rw [if_pos hc, if_pos (hzero.mpr (Or.inl hc))]
    exact ⟨rfl, rfl, rfl, rfl, rfl, rfl, (hkeep (hzero.mpr (Or.inl hc))).symm⟩
  · rw [if_neg hc]
    by_cases hz : min count rb.canWrite = 0
    · rw [if_pos hz, if_pos hz]
      exact ⟨rfl, rfl, rfl, rfl, rfl, rfl, (hkeep hz).symm⟩
    · rw [if_neg hz, if_neg hz]
      exact ⟨rfl, rfl, rfl, rfl, rfl, rfl, rfl⟩

theorem readRegions_same (h : WF rb) (count : ℕ) : ∃ n bytes rb₁ rb₂,
    rb.readRegions count = some (n, bytes, rb₁) ∧ rb.read count = some (n, bytes, rb₂) ∧
      SameRing rb₁ rb₂ := by
  have hgather : gather rb.buf rb.getReadRegions = some rb.queue :=
    gather_regionsFrom h h.read_lt (canRead_le h)
  simp only [readRegions, hgather, Option.bind_eq_bind, Option.bind_some]
  rw [advanceReadIndex, genericAdvanceReadIndex_eq h, read, genericRead_eq h, readCount_zero,
    ← take_queue (Nat.min_le_right _ _)]
  by_cases hc : count = 0
  · subst hc
    rw [if_pos rfl, Nat.zero_min, if_pos rfl]
    exact ⟨0, [], rb, rb, by simp, rfl, SameRing.refl rb⟩
  · rw [if_neg hc]
    by_cases hz : min count rb.canRead = 0
    · rw [if_pos hz, if_pos hz, hz]
      refine ⟨0, [], { rb with totalUnderflows := u64 (rb.totalUnderflows + 1) }, rb, ?_, rfl, ?_⟩
      · rw [List.take_zero]
        rfl
      · exact (sameRing_underflow rb).symm
    · rw [if_neg hz, if_neg hz]
      exact ⟨_, _, _, _, rfl, rfl, SameRing.refl _⟩

/-- **The zero-copy path equals the copying path.**

Filling the write regions and advancing leaves the storage, the indices and the flag
that `rb_write()` leaves and returns the same value; the read regions hold the content,
and taking from them and advancing delivers and leaves what `rb_read()` does.  The next
regions are the first ones of their pairs. -/
theorem regions_equal_copies {size : ℕ} {rb : Rb} (hlt : size < 2 ^ 63) (hrb : Reachable size rb)
    (count : ℕ) :
    (∀ source : List UInt8, min count rb.canWrite ≤ source.length → ∃ r r',
      rb.writeRegions source count = some r ∧ rb.write source count = some r' ∧
        SameResult r r') ∧
    gather rb.buf rb.getReadRegions = some rb.queue ∧
    (∃ n bytes rb₁ rb₂, rb.readRegions count = some (n, bytes, rb₁) ∧
      rb.read count = some (n, bytes, rb₂) ∧ SameRing rb₁ rb₂) ∧
    rb.getNextReadRegion = rb.getReadRegions.1 ∧
    rb.getNextWriteRegion = rb.getWriteRegions.1 := by
  obtain ⟨h, -⟩ := hrb.wf hlt
  exact ⟨fun source hsrc => writeRegions_same h hsrc,
    gather_regionsFrom h h.read_lt (canRead_le h), readRegions_same h count,
    nextRegionFrom_eq rb _ _, nextRegionFrom_eq rb _ _⟩

/-- Seven bytes are written to `turnedRing`, which takes two of them, and seven are read. -/
theorem turnedRing_regions_equal_copies :
    (∀ source : List UInt8, 2 ≤ source.length → ∃ r r',
      turnedRing.writeRegions source 7 = some r ∧ turnedRing.write source 7 = some r' ∧
        SameResult r r') ∧
    gather turnedRing.buf turnedRing.getReadRegions = some [4, 5, 6] ∧
    (∃ n bytes rb₁ rb₂, turnedRing.readRegions 7 = some (n, bytes, rb₁) ∧
      turnedRing.read 7 = some (n, bytes, rb₂) ∧ SameRing rb₁ rb₂) ∧
    turnedRing.getNextReadRegion = turnedRing.getReadRegions.1 ∧
    turnedRing.getNextWriteRegion = turnedRing.getWriteRegions.1 :=
  regions_equal_copies (by decide) reachable_turnedRing 7

/-! ### The four regions are the whole buffer -/

/-- The regions of the reader and then those of the writer. -/
def regions (rb : Rb) : List RbRegion :=
  [rb.getReadRegions.1, rb.getReadRegions.2, rb.getWriteRegions.1, rb.getWriteRegions.2]

theorem regionsFrom_inside (h : WF rb) {index n : ℕ} (hi : index < rb.size) (hn : n ≤ rb.size) :
    (rb.regionsFrom index n).1.buffer + (rb.regionsFrom index n).1.size ≤ rb.size ∧
      (rb.regionsFrom index n).2.buffer + (rb.regionsFrom index n).2.size ≤ rb.size ∧
      (rb.regionsFrom index n).1.size + (rb.regionsFrom index n).2.size = n := by
  rw [regionsFrom_eq h hi hn]
  by_cases hend : rb.size < index + n
  · rw [if_pos hend]
    dsimp only
    omega
  · rw [if_neg hend]
    dsimp only
    omega

/-- The first region covers what lies ahead of the index, the second what lies round the
end. -/
theorem regionsFrom_covers (h : WF rb) {index n p : ℕ} (hi : index < rb.size)
    (hn : n ≤ rb.size) (hp : p < rb.size) :
    ((rb.regionsFrom index n).1.Covers p ↔ index ≤ p ∧ p < index + n) ∧
      ((rb.regionsFrom index n).2.Covers p ↔ p + rb.size < index + n) := by
  rw [regionsFrom_eq h hi hn]
  unfold RbRegion.Covers
  by_cases hend : rb.size < index + n
  · rw [if_pos hend]
    dsimp only
    omega
  · rw [if_neg hend]
    dsimp only
    omega

/-- Every position lies in one region and in no other. -/
theorem covered_once (h : WF rb) {p : ℕ} (hp : p < rb.size) :
    rb.regions.countP (fun region => decide (region.Covers p)) = 1 := by
  have hcr := canRead_le h
  have hlevel := canRead_add_canWrite h
  have hr := h.read_lt
  have hw := writeIndex_eq h
  rw [add_mod_of_lt hr hcr] at hw
  obtain ⟨hread₁, hread₂⟩ := regionsFrom_covers h h.read_lt hcr hp
  obtain ⟨hwrite₁, hwrite₂⟩ := regionsFrom_covers h h.write_lt (n := rb.canWrite) (by omega) hp
  simp only [regions, List.countP_cons, List.countP_nil, decide_eq_true_eq, getReadRegions,
    getWriteRegions, hread₁, hread₂, hwrite₁, hwrite₂]
  -- the writer's regions begin where the reader's end, in this round or in the next
  by_cases hround : rb.readIndex + rb.canRead < rb.size
  · rw [if_pos hround] at hw
    split_ifs <;> omega
  · rw [if_neg hround] at hw
    split_ifs <;> omega

/-- What a writer stores to its regions, the reader's regions do not see. -/
theorem gather_of_fill (h : WF rb) {bytes buf : List UInt8} (hb : bytes.length ≤ rb.canWrite)
    (hfill : fill rb.buf rb.getWriteRegions bytes = some buf) :
    gather buf rb.getReadRegions = some rb.queue := by
  have hlevel := canRead_add_canWrite h
  have hwritten : fill rb.buf rb.getWriteRegions bytes
      = some (Cyclic.write rb.buf rb.writeIndex bytes) :=
    fill_regionsFrom h h.write_lt (by omega) hb
  obtain rfl : Cyclic.write rb.buf rb.writeIndex bytes = buf := by
    rw [hwritten, Option.some.injEq] at hfill
    exact hfill
  have hlen : (Cyclic.write rb.buf rb.writeIndex bytes).length = rb.size := by
    rw [length_write (by rw [h.length_buf]; exact h.write_lt.le) (by rw [h.length_buf]; omega),
      h.length_buf]
  have hfilled : WF { rb with buf := Cyclic.write rb.buf rb.writeIndex bytes } :=
    ⟨h.size_pos, h.size_lt, h.read_lt, h.write_lt, h.flag, hlen⟩
  have hgather := gather_regionsFrom hfilled h.read_lt (canRead_le hfilled)
  rw [← window_write_queue h hb]
  exact hgather

/-- **The regions of the reader and of the writer partition the buffer.**

They lie inside it, their sizes are the two fill levels, every position belongs to
exactly one of them, and a writer that fills its own does not touch the content. -/
theorem regions_partition {size : ℕ} {rb : Rb} (hlt : size < 2 ^ 63) (hrb : Reachable size rb) :
    (∀ region ∈ rb.regions, region.buffer + region.size ≤ size) ∧
    rb.getReadRegions.1.size + rb.getReadRegions.2.size = rb.canRead ∧
    rb.getWriteRegions.1.size + rb.getWriteRegions.2.size = rb.canWrite ∧
    (∀ p < size, rb.regions.countP (fun region => decide (region.Covers p)) = 1) ∧
    (∀ bytes buf : List UInt8, bytes.length ≤ rb.canWrite →
      fill rb.buf rb.getWriteRegions bytes = some buf →
      gather buf rb.getReadRegions = some rb.queue) := by
  obtain ⟨h, rfl⟩ := hrb.wf hlt
  have hlevel := canRead_add_canWrite h
  obtain ⟨hread₁, hread₂, hread⟩ := regionsFrom_inside h h.read_lt (canRead_le h)
  obtain ⟨hwrite₁, hwrite₂, hwrite⟩ :=
    regionsFrom_inside h h.write_lt (n := rb.canWrite) (by omega)
  refine ⟨?_, hread, hwrite, fun p hp => covered_once h hp, fun bytes buf hb hfill =>
    gather_of_fill h hb hfill⟩
  intro region hregion
  simp only [regions, List.mem_cons, List.not_mem_nil, or_false] at hregion
  rcases hregion with rfl | rfl | rfl | rfl
  · exact hread₁
  · exact hread₂
  · exact hwrite₁
  · exact hwrite₂

/-- The reader has two bytes at the end of `turnedRing` and one at its start, and the writer
the two between them. -/
theorem turnedRing_regions_partition :
    (∀ region ∈ [⟨3, 2⟩, ⟨0, 1⟩, ⟨1, 2⟩, (⟨0, 0⟩ : RbRegion)], region.buffer + region.size ≤ 5) ∧
    turnedRing.getReadRegions.1.size + turnedRing.getReadRegions.2.size = 3 ∧
    turnedRing.getWriteRegions.1.size + turnedRing.getWriteRegions.2.size = 2 ∧
    (∀ p < 5, [⟨3, 2⟩, ⟨0, 1⟩, ⟨1, 2⟩, (⟨0, 0⟩ : RbRegion)].countP
      (fun region => decide (region.Covers p)) = 1) ∧
    (∀ bytes buf : List UInt8, bytes.length ≤ 2 →
      fill turnedRing.buf turnedRing.getWriteRegions bytes = some buf →
      gather buf turnedRing.getReadRegions = some [4, 5, 6]) :=
  regions_partition (by decide) reachable_turnedRing

end Rb

end Csnip
