/-
The statistics determine the indices.

`total_bytes_read` and `total_bytes_write` count what the calls moved since the last
reset, and a call that moves `n` bytes moves an index by `n` round the buffer.  So the
indices are the totals reduced by the size, and the fill level is their difference.

The two counters of the ring are 64-bit words.  `tally` counts the same bytes without
a bound, from the answers of the calls alone; the indices follow it in every run, and
the words of the ring agree with it until they wrap.
-/
import Csnip.Rb.Fifo

namespace Csnip

open Memory Cyclic

namespace Rb

/-- The bytes consumed and the bytes produced since the last reset. -/
structure Totals where
  consumed : ℕ
  produced : ℕ
deriving Repr, DecidableEq

/-- What one answered call adds to the totals. -/
def Totals.count (t : Totals) : Call → Out → Totals
  | .write .., out => { t with produced := t.produced + out.ret }
  | .advanceWriteIndex _, out => { t with produced := t.produced + out.ret }
  | .read _, out => { t with consumed := t.consumed + out.ret }
  | .advanceReadIndex _, out => { t with consumed := t.consumed + out.ret }
  | .drop, out => { t with consumed := t.consumed + out.ret }
  | .reset, _ => ⟨0, 0⟩
  | _, _ => t

/-- The totals after a run, given the answers of its calls. -/
def Totals.tally (t : Totals) : List Call → List Out → Totals
  | call :: calls, out :: outs => (t.count call out).tally calls outs
  | _, _ => t

/-- The calls that neither read past the write index nor clear the counters alone. -/
def Call.Counted : Call → Prop
  | .overread _ | .overadvanceReadIndex _ | .resetStats | .peekAt .. => False
  | _ => True

/-- The ring is where its totals say it is. -/
structure At (rb : Rb) (t : Totals) : Prop where
  wf : WF rb
  readIndex : rb.readIndex = t.consumed % rb.size
  writeIndex : rb.writeIndex = t.produced % rb.size
  level : t.produced = t.consumed + rb.canRead
  totalBytesRead : rb.totalBytesRead = u64 t.consumed
  totalBytesWrite : rb.totalBytesWrite = u64 t.produced

section At

variable {rb rb' : Rb} {t : Totals}

theorem u64_add (a n : ℕ) : u64 (u64 a + n) = u64 (a + n) := by
  unfold u64
  omega

/-- A call that touched neither the ring nor the two totals. -/
theorem At.same (h : At rb t) (hring : SameRing rb rb')
    (hread : rb'.totalBytesRead = rb.totalBytesRead)
    (hwrite : rb'.totalBytesWrite = rb.totalBytesWrite) : At rb' t where
  wf := hring.wf h.wf
  readIndex := by rw [hring.readIndex, hring.size, h.readIndex]
  writeIndex := by rw [hring.writeIndex, hring.size, h.writeIndex]
  level := by rw [hring.canRead, h.level]
  totalBytesRead := by rw [hread, h.totalBytesRead]
  totalBytesWrite := by rw [hwrite, h.totalBytesWrite]

theorem At.afterRead {n : ℕ} (count : ℕ) (h : At rb t) (hn : 0 < n) (hle : n ≤ rb.canRead) :
    At (rb.afterRead n count) { t with consumed := t.consumed + n } where
  wf := afterRead_wf h.wf
  readIndex := by
    show (rb.readIndex + n) % rb.size = (t.consumed + n) % rb.size
    rw [h.readIndex, Nat.mod_add_mod]
  writeIndex := by
    show (if rb.canRead < n then (rb.readIndex + n) % rb.size else rb.writeIndex) = _
    rw [if_neg (by omega), h.writeIndex]
    rfl
  level := by
    have hlevel := h.level
    rw [canRead_afterRead h.wf hn]
    show t.produced = t.consumed + n + (rb.canRead - n)
    omega
  totalBytesRead := by
    show u64 (rb.totalBytesRead + n) = u64 (t.consumed + n)
    rw [h.totalBytesRead, u64_add]
  totalBytesWrite := h.totalBytesWrite

theorem At.afterWrite {n : ℕ} {buf : List UInt8} (count : ℕ) (h : At rb t)
    (hb : buf.length = rb.size) (hn : 0 < n) (hle : n ≤ rb.canWrite) :
    At (rb.afterWrite n count buf) { t with produced := t.produced + n } where
  wf := afterWrite_wf h.wf hb
  readIndex := h.readIndex
  writeIndex := by
    show (rb.writeIndex + n) % rb.size = (t.produced + n) % rb.size
    rw [h.writeIndex, Nat.mod_add_mod]
  level := by
    have hlevel := h.level
    rw [canRead_afterWrite h.wf hb hn hle]
    show t.produced + n = t.consumed + (rb.canRead + n)
    omega
  totalBytesRead := h.totalBytesRead
  totalBytesWrite := by
    show u64 (rb.totalBytesWrite + n) = u64 (t.produced + n)
    rw [h.totalBytesWrite, u64_add]

theorem At.reset (h : At rb t) : At rb.reset ⟨0, 0⟩ :=
  ⟨reset_wf h.wf, (Nat.zero_mod _).symm, (Nat.zero_mod _).symm, rfl, rfl, rfl⟩

/-! ### One call -/

theorem At.read (h : At rb t) (count : ℕ) : ∃ n bytes rb',
    rb.read count = some (n, bytes, rb') ∧ At rb' { t with consumed := t.consumed + n } := by
  rw [Rb.read, genericRead_eq h.wf, readCount_zero]
  by_cases hz : min count rb.canRead = 0
  · rw [if_pos hz]
    exact ⟨0, [], rb, rfl, h⟩
  · rw [if_neg hz]
    exact ⟨_, _, _, rfl, h.afterRead count (by omega) (Nat.min_le_right _ _)⟩

theorem At.advanceReadIndex (h : At rb t) (count : ℕ) : ∃ n rb',
    rb.advanceReadIndex count = some (n, rb') ∧
      At rb' { t with consumed := t.consumed + n } := by
  rw [Rb.advanceReadIndex, genericAdvanceReadIndex_eq h.wf, readCount_zero]
  by_cases hc : count = 0
  · rw [if_pos hc]
    exact ⟨0, rb, rfl, h⟩
  · rw [if_neg hc]
    by_cases hz : min count rb.canRead = 0
    · rw [if_pos hz]
      exact ⟨0, _, rfl, h.same (sameRing_underflow rb) rfl rfl⟩
    · rw [if_neg hz]
      exact ⟨_, _, rfl, h.afterRead count (by omega) (Nat.min_le_right _ _)⟩

theorem At.write (h : At rb t) {source : List UInt8} {count : ℕ} (avail : count ≤ source.length) :
    ∃ n rb', rb.write source count = some (n, rb') ∧
      At rb' { t with produced := t.produced + n } := by
  have hsrc : rb.writeCount count ≤ source.length := Nat.le_trans (Nat.min_le_left _ _) avail
  have hn := writeCount_le_size h.wf count
  have hlen : (Cyclic.write rb.buf rb.writeIndex
      (source.take (rb.writeCount count))).length = rb.size := by
    rw [length_write (by rw [h.wf.length_buf]; exact h.wf.write_lt.le)
      (by rw [h.wf.length_buf, List.length_take]; omega), h.wf.length_buf]
  rw [write_eq h.wf hsrc]
  by_cases hz : rb.writeCount count = 0
  · rw [if_pos hz]
    exact ⟨0, rb, rfl, h⟩
  · rw [if_neg hz]
    exact ⟨_, _, rfl, h.afterWrite count hlen (by omega) (Nat.min_le_right _ _)⟩

theorem At.advanceWriteIndex (h : At rb t) (count : ℕ) : ∃ n rb',
    rb.advanceWriteIndex count = some (n, rb') ∧
      At rb' { t with produced := t.produced + n } := by
  rw [advanceWriteIndex_eq h.wf]
  by_cases hc : count = 0
  · rw [if_pos hc]
    exact ⟨0, rb, rfl, h⟩
  · rw [if_neg hc]
    by_cases hz : rb.writeCount count = 0
    · rw [if_pos hz]
      exact ⟨0, _, rfl, h.same (SameRing.stats ..) rfl rfl⟩
    · rw [if_neg hz]
      exact ⟨_, _, rfl, h.afterWrite count h.wf.length_buf (by omega) (Nat.min_le_right _ _)⟩

theorem At.peek (h : At rb t) (count : ℕ) : ∃ n bytes rb',
    rb.peek count = some (n, bytes, rb') ∧ At rb' t := by
  rw [Rb.peek]
  by_cases hc : count = 0
  · exact ⟨0, [], rb, by simp only [peekAt]; rw [if_pos hc], h⟩
  · by_cases ho : 0 < rb.canRead
    · rw [peekAt_eq h.wf hc ho (fun hx => Nat.lt_irrefl 0 hx.1)]
      exact ⟨_, _, _, rfl, h.same (sameRing_afterPeek rb _ _) rfl rfl⟩
    · rw [peekAt_none rb hc (by omega)]
      exact ⟨_, _, _, rfl, h.same (sameRing_underflow rb) rfl rfl⟩

theorem At.peekByteAt (h : At rb t) (offset : ℕ) : ∃ n bytes rb',
    rb.peekByteAt offset = some (n, bytes, rb') ∧ At rb' t := by
  by_cases ho : offset < rb.canRead
  · rw [peekByteAt_eq h.wf ho]
    exact ⟨_, _, _, rfl, h.same (SameRing.stats ..) rfl rfl⟩
  · rw [peekByteAt_none rb (by omega)]
    exact ⟨_, _, _, rfl, h.same (sameRing_underflow rb) rfl rfl⟩

/-- **Every counted call is defined and keeps the ring where its totals say it is.** -/
theorem At.exec (h : At rb t) {call : Call} (hcall : call.Counted) : ∃ out rb',
    rb.exec call = some (out, rb') ∧ At rb' (t.count call out) := by
  cases call with
  | write source count avail =>
      obtain ⟨n, rb', hrun, hat⟩ := h.write avail
      exact ⟨{ ret := n }, rb', by rw [Rb.exec, hrun]; rfl, hat⟩
  | read count =>
      obtain ⟨n, bytes, rb', hrun, hat⟩ := h.read count
      exact ⟨{ ret := n, bytes := bytes }, rb', by rw [Rb.exec, hrun]; rfl, hat⟩
  | advanceReadIndex count =>
      obtain ⟨n, rb', hrun, hat⟩ := h.advanceReadIndex count
      exact ⟨{ ret := n }, rb', by rw [Rb.exec, hrun]; rfl, hat⟩
  | drop =>
      obtain ⟨n, rb', hrun, hat⟩ := h.advanceReadIndex rb.canRead
      exact ⟨{ ret := n }, rb', by rw [Rb.exec, Rb.drop, hrun]; rfl, hat⟩
  | advanceWriteIndex count =>
      obtain ⟨n, rb', hrun, hat⟩ := h.advanceWriteIndex count
      exact ⟨{ ret := n }, rb', by rw [Rb.exec, hrun]; rfl, hat⟩
  | reset => exact ⟨{}, rb.reset, rfl, h.reset⟩
  | peek count =>
      obtain ⟨n, bytes, rb', hrun, hat⟩ := h.peek count
      exact ⟨{ ret := n, bytes := bytes }, rb', by rw [Rb.exec, hrun]; rfl, hat⟩
  | peekByteAt offset =>
      obtain ⟨n, bytes, rb', hrun, hat⟩ := h.peekByteAt offset
      exact ⟨{ ret := n, bytes := bytes }, rb', by rw [Rb.exec, hrun]; rfl, hat⟩
  | findByte byte =>
      obtain ⟨found, pos, rb', hrun, hring, hread, hwrite⟩ := findByte_total h.wf byte
      exact ⟨{ ret := found, offset := pos }, rb', by rw [Rb.exec, hrun]; rfl,
        h.same hring hread hwrite⟩
  | getReadRegions => exact ⟨_, rb, rfl, h⟩
  | getWriteRegions => exact ⟨_, rb, rfl, h⟩
  | _ => exact absurd hcall id

end At

/-! ### Every run -/

theorem rbNew_at {malloc : Malloc} {size : ℕ} {rb : Rb} (hlt : size < 2 ^ 63)
    (hnew : rbNew malloc size = some (some rb)) : At rb ⟨0, 0⟩ := by
  obtain ⟨hwf, -, hempty⟩ := rbNew_wf hlt hnew
  obtain ⟨block, -, -, -, rfl⟩ := rbNew_eq_some hnew
  exact ⟨hwf, (Nat.zero_mod _).symm, (Nat.zero_mod _).symm, hempty.symm ▸ rfl, rfl, rfl⟩

/-- **A run leaves the ring where the bytes its calls moved say it is.** -/
theorem run_at : ∀ (calls : List Call) (rb : Rb) (t : Totals), At rb t →
    (∀ call ∈ calls, call.Counted) → ∃ outs rb', Machine.run exec rb calls = some (outs, rb') ∧
      At rb' (t.tally calls outs) ∧ rb'.size = rb.size := by
  intro calls
  induction calls with
  | nil => intro rb t h _; exact ⟨[], rb, rfl, h, rfl⟩
  | cons call calls ih =>
      intro rb t h hcalls
      obtain ⟨out, rb', hstep, hat⟩ := h.exec (hcalls call (by simp))
      obtain ⟨outs, rb'', hrun, hat', hsize⟩ :=
        ih rb' _ hat (fun c hc => hcalls c (by simp [hc]))
      refine ⟨out :: outs, rb'', ?_, hat', hsize.trans (exec_wf h.wf hstep).2.size⟩
      rw [Machine.run_cons calls hstep, hrun]
      rfl

/-- The words of the ring are the totals until these reach the word size. -/
theorem At.words {rb : Rb} {t : Totals} (h : At rb t) (hlt : t.produced < 2 ^ 64) :
    rb.totalBytesRead = t.consumed ∧ rb.totalBytesWrite = t.produced := by
  have hlevel := h.level
  rw [h.totalBytesRead, h.totalBytesWrite]
  exact ⟨u64_of_lt (by omega), u64_of_lt hlt⟩

/-- **The statistics determine the indices.**

Every run of counted calls is defined, and as long as fewer than `2 ^ 64` bytes were
produced since the last reset the two totals of the ring give its indices and its fill
level.  Two runs that moved the same bytes end with the same indices, whatever pieces
they moved them in. -/
theorem totals_determine_indices {size : ℕ} (hlt : size < 2 ^ 63) :
    (∀ malloc rb₀ calls, rbNew malloc size = some (some rb₀) →
      (∀ call ∈ calls, call.Counted) →
      ∃ outs rb, Machine.run exec rb₀ calls = some (outs, rb) ∧
        ((Totals.tally ⟨0, 0⟩ calls outs).produced < 2 ^ 64 →
          rb.readIndex = rb.totalBytesRead % size ∧
          rb.writeIndex = rb.totalBytesWrite % size ∧
          rb.totalBytesRead ≤ rb.totalBytesWrite ∧
          rb.totalBytesWrite - rb.totalBytesRead = rb.canRead ∧ rb.canRead ≤ size)) ∧
    (∀ malloc malloc' rb₀ rb₀' calls calls' outs outs' rb rb',
      rbNew malloc size = some (some rb₀) → rbNew malloc' size = some (some rb₀') →
      (∀ call ∈ calls, call.Counted) → (∀ call ∈ calls', call.Counted) →
      Machine.run exec rb₀ calls = some (outs, rb) →
      Machine.run exec rb₀' calls' = some (outs', rb') →
      Totals.tally ⟨0, 0⟩ calls outs = Totals.tally ⟨0, 0⟩ calls' outs' →
      rb.readIndex = rb'.readIndex ∧ rb.writeIndex = rb'.writeIndex) := by
  have hrunAt : ∀ malloc rb₀ calls, rbNew malloc size = some (some rb₀) →
      (∀ call ∈ calls, call.Counted) → ∃ outs rb, Machine.run exec rb₀ calls = some (outs, rb) ∧
        At rb (Totals.tally ⟨0, 0⟩ calls outs) ∧ rb.size = size := by
    intro malloc rb₀ calls hnew hcalls
    obtain ⟨outs, rb, hrun, hat, hsize⟩ := run_at calls rb₀ ⟨0, 0⟩ (rbNew_at hlt hnew) hcalls
    exact ⟨outs, rb, hrun, hat, hsize.trans (rbNew_wf hlt hnew).2.1⟩
  constructor
  · intro malloc rb₀ calls hnew hcalls
    obtain ⟨outs, rb, hrun, hat, hsize⟩ := hrunAt malloc rb₀ calls hnew hcalls
    refine ⟨outs, rb, hrun, fun hfew => ?_⟩
    obtain ⟨hread, hwrite⟩ := hat.words hfew
    have hlevel := hat.level
    refine ⟨?_, ?_, by omega, by omega, hsize ▸ canRead_le hat.wf⟩
    · rw [hread, ← hsize]
      exact hat.readIndex
    · rw [hwrite, ← hsize]
      exact hat.writeIndex
  · intro malloc malloc' rb₀ rb₀' calls calls' outs outs' rb rb' hnew hnew' hcalls hcalls'
      hrun hrun' htally
    obtain ⟨o, r, hr, hat, hsize⟩ := hrunAt malloc rb₀ calls hnew hcalls
    obtain ⟨o', r', hr', hat', hsize'⟩ := hrunAt malloc' rb₀' calls' hnew' hcalls'
    rw [hrun] at hr
    rw [hrun'] at hr'
    cases hr
    cases hr'
    rw [hat.readIndex, hat.writeIndex, hat'.readIndex, hat'.writeIndex, htally, hsize, hsize']
    exact ⟨rfl, rfl⟩

theorem totals_determine_indices_five :
    ∃ outs rb, Machine.run exec (cleared 5)
        [.write [1, 2, 3, 4] 4 (by decide), .read 3, .findByte 4, .write [5, 6, 7] 3 (by decide)]
        = some (outs, rb) ∧
      ((Totals.tally ⟨0, 0⟩ [.write [1, 2, 3, 4] 4 (by decide), .read 3, .findByte 4,
          .write [5, 6, 7] 3 (by decide)] outs).produced < 2 ^ 64 →
        rb.readIndex = rb.totalBytesRead % 5 ∧ rb.writeIndex = rb.totalBytesWrite % 5 ∧
        rb.totalBytesRead ≤ rb.totalBytesWrite ∧
        rb.totalBytesWrite - rb.totalBytesRead = rb.canRead ∧ rb.canRead ≤ 5) :=
  (totals_determine_indices (by decide)).1 .cleared (cleared 5) _
    (rbNew_cleared (by decide) (by decide)) (by simp [Call.Counted])

end Rb

end Csnip
