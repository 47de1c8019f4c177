/-
MIDI messages in any content.

The search of `rb_find_next_midi_message()` goes to the first status byte and looks how many
bytes are behind it, but not which ones.  So what it hands out is a message if no other
status byte follows too soon (`Uncut`), and it hands out nothing, and nothing is discarded,
if the content ends too soon.  The first makes messages that are not well formed; the second
makes a full ring that nobody can read from, nor write to (`wedged_of_full`).

Both are settled on the content as a list: `scan_eq_some_iff` says what the search finds in
any list of bytes.
-/
import Csnip.Rb.Midi

namespace Csnip

open Memory

namespace Rb

/-! ### The first status byte -/

/-- The content is some data bytes, a status byte, and what is behind it. -/
structure FirstStatus (content strays : List UInt8) (status : UInt8) (rest : List UInt8) :
    Prop where
  content : content = strays ++ status :: rest
  isStray : ∀ c ∈ strays, c < 0x80
  isStatus : 0x80 ≤ status

/-- The message of the first status byte is in the content up to its end. -/
def HasMessage (content : List UInt8) : Prop :=
  ∃ strays status rest, FirstStatus content strays status rest ∧ dataLength status ≤ rest.length

/-- No status byte stands where the message of the first one has its data. -/
def Uncut (content : List UInt8) : Prop :=
  ∀ strays status rest, FirstStatus content strays status rest →
    dataLength status ≤ rest.length → ∀ c ∈ rest.take (dataLength status), c < 0x80

theorem midiLength_of_status {c : UInt8} (hc : 0x80 ≤ c) : midiLength c = dataLength c + 1 := by
  rw [midiLength_eq, if_neg (UInt8.not_lt.mpr hc)]

/-- A data byte in front is one more stray. -/
theorem firstStatus_stray_iff {c status : UInt8} {cs strays rest : List UInt8} (hc : c < 0x80) :
    FirstStatus (c :: cs) strays status rest ↔
      ∃ strays', strays = c :: strays' ∧ FirstStatus cs strays' status rest := by
  constructor
  · rintro ⟨hcontent, hstray, hstatus⟩
    cases strays with
    | nil =>
        -- the first byte is no status byte
        rw [List.nil_append, List.cons.injEq] at hcontent
        rw [← hcontent.1] at hstatus
        exact absurd hc (UInt8.not_lt.mpr hstatus)
    | cons s strays' =>
        rw [List.cons_append, List.cons.injEq] at hcontent
        refine ⟨strays', by rw [hcontent.1], hcontent.2, fun d hd => ?_, hstatus⟩
        exact hstray d (List.mem_cons_of_mem s hd)
  · rintro ⟨strays', rfl, hcontent, hstray, hstatus⟩
    refine ⟨by rw [hcontent, List.cons_append], fun d hd => ?_, hstatus⟩
    rcases List.mem_cons.mp hd with rfl | hd
    · exact hc
    · exact hstray d hd

/-- A status byte in front is the first one. -/
theorem firstStatus_status_iff {c status : UInt8} {cs strays rest : List UInt8}
    (hc : 0x80 ≤ c) :
    FirstStatus (c :: cs) strays status rest ↔ strays = [] ∧ status = c ∧ rest = cs := by
  constructor
  · rintro ⟨hcontent, hstray, -⟩
    cases strays with
    | nil =>
        rw [List.nil_append, List.cons.injEq] at hcontent
        exact ⟨rfl, hcontent.1.symm, hcontent.2.symm⟩
    | cons s strays' =>
        rw [List.cons_append, List.cons.injEq] at hcontent
        have hs := hstray s List.mem_cons_self
        rw [← hcontent.1] at hs
        exact absurd hs (UInt8.not_lt.mpr hc)
  · rintro ⟨rfl, rfl, rfl⟩
    exact ⟨rfl, by simp, hc⟩

/-- **What the search finds** in any content. -/
theorem scan_eq_some_iff : ∀ {q : List UInt8} {offset count : ℕ},
    scan q = some (offset, count) ↔ ∃ strays status rest, FirstStatus q strays status rest ∧
      dataLength status ≤ rest.length ∧ offset = strays.length ∧
      count = dataLength status + 1 := by
  intro q
  induction q with
  | nil =>
      intro offset count
      refine iff_of_false (by rw [scan]; exact Option.some_ne_none _ ∘ Eq.symm) ?_
      rintro ⟨strays, status, rest, ⟨hnil, -, -⟩, -⟩
      simp at hnil
  | cons c cs ih =>
      intro offset count
      rw [scan]
      by_cases hc : c < 0x80
      · rw [if_pos (midiLength_stray hc), Option.map_eq_some_iff]
        constructor
        · rintro ⟨⟨offset', count'⟩, hcs, heq⟩
          cases heq
          obtain ⟨strays, status, rest, hfirst, hwhole, rfl, rfl⟩ := ih.mp hcs
          exact ⟨c :: strays, status, rest, (firstStatus_stray_iff hc).mpr ⟨strays, rfl, hfirst⟩,
            hwhole, rfl, rfl⟩
        · rintro ⟨strays, status, rest, hfirst, hwhole, rfl, rfl⟩
          obtain ⟨strays', rfl, hbehind⟩ := (firstStatus_stray_iff hc).mp hfirst
          exact ⟨_, ih.mpr ⟨strays', status, rest, hbehind, hwhole, rfl, rfl⟩, rfl⟩
      · have hstatus : 0x80 ≤ c := UInt8.not_lt.mp hc
        have hlen := midiLength_of_status hstatus
        rw [if_neg (by omega), hlen]
        simp only [firstStatus_status_iff hstatus]
        constructor
        · intro h
          by_cases hwhole : dataLength c + 1 ≤ cs.length + 1
          · rw [if_pos hwhole] at h
            cases h
            exact ⟨[], c, cs, ⟨rfl, rfl, rfl⟩, by omega, rfl, rfl⟩
          · rw [if_neg hwhole] at h
            cases h
        · rintro ⟨strays, status, rest, ⟨rfl, rfl, rfl⟩, hwhole, rfl, rfl⟩
          rw [if_pos (by omega)]
          rfl

theorem hasMessage_iff {content : List UInt8} :
    HasMessage content ↔ ∃ found, scan content = some found := by
  constructor
  · rintro ⟨strays, status, rest, hfirst, hwhole⟩
    exact ⟨_, scan_eq_some_iff.mpr ⟨strays, status, rest, hfirst, hwhole, rfl, rfl⟩⟩
  · rintro ⟨⟨offset, count⟩, h⟩
    obtain ⟨strays, status, rest, hfirst, hwhole, -⟩ := scan_eq_some_iff.mp h
    exact ⟨strays, status, rest, hfirst, hwhole⟩

instance (content : List UInt8) : Decidable (HasMessage content) :=
  decidable_of_iff ((scan content).isSome = true)
    (Option.isSome_iff_exists.trans hasMessage_iff.symm)

/-! ### What is handed out -/

variable {rb : Rb}

/-- The search and the read end, and what they hand out is a message in the content. -/
def HandsOutMessages (rb : Rb) : Prop :=
  (∃ found offset count rb', rb.findNextMidiMessage = some (found, offset, count, rb') ∧
    (found ≠ 0 → offset + count ≤ rb.canRead ∧
      ∃ m : MidiMessage, (rb.queue.drop offset).take count = m.bytes)) ∧
  ∃ n bytes rb', rb.readNextMidiMessage = some (n, bytes, rb') ∧
    (n ≠ 0 → ∃ m : MidiMessage, bytes = m.bytes)

/-- What the search has found in the content: the first status byte, and as many bytes behind
it as its messages have. -/
theorem take_of_firstStatus {content strays rest : List UInt8} {status : UInt8}
    (h : FirstStatus content strays status rest) :
    (content.drop strays.length).take (dataLength status + 1)
      = status :: rest.take (dataLength status) := by
  rw [h.content, List.drop_left, List.take_succ_cons]

/-- The first status byte makes a message with data bytes only. -/
theorem message_of_uncut {content strays rest : List UInt8} {status : UInt8}
    (h : FirstStatus content strays status rest) (hwhole : dataLength status ≤ rest.length)
    (huncut : Uncut content) :
    ∃ m : MidiMessage, status :: rest.take (dataLength status) = m.bytes :=
  ⟨{ status
     data := rest.take (dataLength status)
     isStatus := h.isStatus
     isData := huncut strays status rest h hwhole
     length_data := by rw [List.length_take, Nat.min_eq_left hwhole] }, rfl⟩

theorem handsOut_of_uncut (h : WF rb) (huncut : Uncut rb.queue) : rb.HandsOutMessages := by
  have hlen := length_queue h
  obtain ⟨rb₁, hfind, -⟩ := findNextMidiMessage_eq h
  cases hscan : scan rb.queue with
  | none =>
      rw [hscan] at hfind
      obtain ⟨rb₂, hread, -⟩ := readNextMidiMessage_none h hscan
      exact ⟨⟨_, _, _, rb₁, hfind, fun hno => absurd rfl hno⟩, _, _, rb₂, hread,
        fun hno => absurd rfl hno⟩
  | some r =>
      obtain ⟨strays, status, rest, hfirst, hwhole, hoffset, hcount⟩ := scan_eq_some_iff.mp hscan
      obtain ⟨offset, count⟩ := r
      dsimp only at hoffset hcount
      subst hoffset hcount
      have hle := scan_le hscan
      have hmessage := message_of_uncut hfirst hwhole huncut
      obtain ⟨rb₂, hread, -⟩ := readNextMidiMessage_some h hscan
      rw [hscan] at hfind
      rw [take_of_firstStatus hfirst] at hread
      refine ⟨⟨_, _, _, rb₁, hfind, fun _ => ⟨by simp only [found, Nat.zero_add]; omega, ?_⟩⟩,
        _, _, rb₂, hread, fun _ => hmessage⟩
      simp only [found, Nat.zero_add]
      rw [take_of_firstStatus hfirst]
      exact hmessage

theorem uncut_of_handsOut (h : WF rb) (hout : rb.HandsOutMessages) : Uncut rb.queue := by
  intro strays status rest hfirst hwhole
  obtain ⟨-, n, bytes, rb', hread, hmessage⟩ := hout
  have hscan : scan rb.queue = some (strays.length, dataLength status + 1) :=
    scan_eq_some_iff.mpr ⟨strays, status, rest, hfirst, hwhole, rfl, rfl⟩
  obtain ⟨rb₂, hread₂, -⟩ := readNextMidiMessage_some h hscan
  rw [take_of_firstStatus hfirst] at hread₂
  rw [hread₂] at hread
  cases hread
  obtain ⟨m, hm⟩ := hmessage (Nat.succ_ne_zero _)
  rw [MidiMessage.bytes, List.cons.injEq] at hm
  intro c hc
  exact m.isData c (hm.2 ▸ hc)

/-- **What is handed out is a MIDI message**, in every ring that calls can make out of a new
one and with any content, exactly when no status byte stands where the message of the first
status byte has its data. -/
theorem messages_formed_iff {size : ℕ} (hsize : size < 2 ^ 64) (hrb : Reachable size rb) :
    rb.HandsOutMessages ↔ Uncut rb.queue :=
  have hwf := (hrb.wf (hrb.size_lt hsize)).1
  ⟨uncut_of_handsOut hwf, handsOut_of_uncut hwf⟩

/-- A stray byte, and a note-on that goes round the end. -/
def noteRing : Rb :=
  { cleared 5 with
    readIndex := 2, writeIndex := 1, lastWasWrite := 1
    totalBytesRead := 2, totalBytesWrite := 6
    buf := [0x7F, 2, 0x40, 0x90, 0x3C] }

theorem reachable_noteRing : Reachable 5 noteRing :=
  ⟨.cleared, cleared 5,
    [.write [1, 2, 0x40, 0x90, 0x3C] 5 (by decide), .advanceReadIndex 2,
      .write [0x7F] 1 (by decide)],
    [{ ret := 5 }, { ret := 2 }, { ret := 1 }],
    rbNew_cleared (by decide) (by decide), by decide +kernel⟩

/-- Behind the first status byte of `noteRing` are data bytes, and so it hands out a message. -/
theorem noteRing_messages_formed : noteRing.HandsOutMessages := by
  refine (messages_formed_iff (by decide) reachable_noteRing).mpr ?_
  intro strays status rest hfirst _
  have hqueue : noteRing.queue = [0x40, 0x90, 0x3C, 0x7F] := by decide +kernel
  rw [hqueue, firstStatus_stray_iff (by decide)] at hfirst
  obtain ⟨strays', -, hbehind⟩ := hfirst
  obtain ⟨-, rfl, rfl⟩ := (firstStatus_status_iff (by decide)).mp hbehind
  decide +kernel

/-- A note-on that was cut off by another status byte. -/
def cutRing : Rb :=
  { cleared 4 with
    writeIndex := 3, lastWasWrite := 1
    totalBytesWrite := 3
    buf := [0x90, 0xF8, 0x40, 0] }

/-- **A status byte is handed out as a parameter.** -/
theorem status_handed_out :
    Reachable 4 cutRing ∧
      (cutRing.readNextMidiMessage.map fun r => (r.1, r.2.1)) = some (3, [0x90, 0xF8, 0x40]) ∧
      ¬ cutRing.HandsOutMessages := by
  have hwrite : Machine.run exec (cleared 4) [.write [0x90, 0xF8, 0x40] 3 (by decide)]
      = some ([{ ret := 3 }], cutRing) := by decide +kernel
  have hreach : Reachable 4 cutRing :=
    ⟨.cleared, cleared 4, _, _, rbNew_cleared (by decide) (by decide), hwrite⟩
  have hread : (cutRing.readNextMidiMessage.map fun r => (r.1, r.2.1))
      = some (3, [0x90, 0xF8, 0x40]) := by decide +kernel
  refine ⟨hreach, hread, ?_⟩
  rintro ⟨-, n, bytes, rb', hrun, hmessage⟩
  rw [hrun] at hread
  cases hread
  obtain ⟨m, hm⟩ := hmessage (by decide)
  have hdata : (0xF8 : UInt8) ∈ m.data := by
    rw [MidiMessage.bytes, List.cons.injEq] at hm
    rw [← hm.2]
    decide
  exact absurd (m.isData _ hdata) (by decide)

/-! ### A full ring -/

/-- The calls of a writer of any bytes, and of a reader of messages. -/
inductive MidiIo
  | write (source : List UInt8) (count : ℕ) (avail : count ≤ source.length)
  | readNext

def execMidiIo (rb : Rb) : MidiIo → Option (Out × Rb)
  | .write source count _ => (rb.write source count).map fun r => ({ ret := r.1 }, r.2)
  | .readNext => rb.readNextMidiMessage.map fun r => ({ ret := r.1, bytes := r.2.1 }, r.2.2)

/-- The writer can never write again, and the reader never read again. -/
def Wedged (rb : Rb) : Prop :=
  ∀ calls outs rb', Machine.run execMidiIo rb calls = some (outs, rb') →
    ∀ out ∈ outs, out.ret = 0

/-- If the ring is full, the next read frees some of it, and the ring is not wedged. -/
def NeverStuck (rb : Rb) : Prop :=
  (rb.canWrite = 0 → ∃ n bytes rb', rb.readNextMidiMessage = some (n, bytes, rb') ∧
    rb'.canRead < rb.canRead) ∧
  ¬ Wedged rb

/-- A write that fills the ring leaves a whole message behind the first data bytes. -/
def LeavesMessage (rb : Rb) : MidiIo → Prop
  | .write source count _ => rb.size ≤ rb.queue.length + count →
      HasMessage (rb.queue ++ source.take (rb.size - rb.queue.length))
  | .readNext => True

instance (rb : Rb) (call : MidiIo) : Decidable (rb.LeavesMessage call) := by
  cases call <;> unfold LeavesMessage <;> infer_instance

theorem execMidiIo_wf (h : WF rb) (call : MidiIo) :
    ∃ out rb', execMidiIo rb call = some (out, rb') ∧ WF rb' := by
  cases call with
  | write source count avail =>
      obtain ⟨rb', hrun, hp⟩ := write_produces h (Nat.le_trans (Nat.min_le_left _ _) avail)
      exact ⟨_, rb', by rw [execMidiIo, hrun]; rfl, hp.wf⟩
  | readNext =>
      cases hscan : scan rb.queue with
      | none =>
          obtain ⟨rb', hrun, hring⟩ := readNextMidiMessage_none h hscan
          exact ⟨_, rb', by rw [execMidiIo, hrun]; rfl, hring.wf h⟩
      | some r =>
          obtain ⟨rb', hrun, hwf', -⟩ := readNextMidiMessage_some h hscan
          exact ⟨_, rb', by rw [execMidiIo, hrun]; rfl, hwf'⟩

theorem canWrite_eq_zero_iff (h : WF rb) : rb.canWrite = 0 ↔ rb.size ≤ rb.queue.length := by
  have hlevel := canRead_add_canWrite h
  rw [length_queue h]
  omega

/-- **A full ring without a message is wedged.** -/
theorem wedged_of_full (h : WF rb) (hfull : rb.canWrite = 0) (hno : ¬ HasMessage rb.queue) :
    Wedged rb := by
  intro calls
  induction calls generalizing rb with
  | nil =>
      intro outs rb' hrun
      obtain ⟨rfl, -⟩ := by simpa using hrun
      simp
  | cons call calls ih =>
      intro outs rb'' hrun
      obtain ⟨out, rb', outs', hstep, hrest, rfl⟩ := Machine.run_cons_eq_some hrun
      have hsame : out.ret = 0 ∧ SameRing rb rb' := by
        cases call with
        | write source count avail =>
            rw [execMidiIo, write_eq h (Nat.le_trans (Nat.min_le_left _ _) avail), writeCount,
              hfull, Nat.min_zero, if_pos rfl] at hstep
            cases hstep
            exact ⟨rfl, SameRing.refl rb⟩
        | readNext =>
            have hscan : scan rb.queue = none := by
              cases hscan : scan rb.queue with
              | none => rfl
              | some r => exact absurd (hasMessage_iff.mpr ⟨r, hscan⟩) hno
            obtain ⟨rb₁, hread, hring⟩ := readNextMidiMessage_none h hscan
            rw [execMidiIo, hread] at hstep
            cases hstep
            exact ⟨rfl, hring⟩
      obtain ⟨hret, hring⟩ := hsame
      have hno' : ¬ HasMessage rb'.queue := by
        rw [hring.queue]
        exact hno
      have hrest' := ih (hring.wf h) (hring.canWrite.trans hfull) hno' outs' rb'' hrest
      intro o ho
      rcases List.mem_cons.mp ho with rfl | ho
      · exact hret
      · exact hrest' o ho

/-- One call that is answered with something else than 0. -/
theorem not_wedged {call : MidiIo} {out : Out} {rb' : Rb}
    (hstep : execMidiIo rb call = some (out, rb')) (hret : out.ret ≠ 0) : ¬ Wedged rb := by
  intro hwedged
  have hrun : Machine.run execMidiIo rb [call] = some ([out], rb') := by
    rw [Machine.run_cons [] hstep]
    rfl
  exact hret (hwedged [call] [out] rb' hrun out List.mem_cons_self)

/-- **A ring is stuck exactly when it is full and there is no message.** -/
theorem neverStuck_iff (h : WF rb) :
    rb.NeverStuck ↔ (rb.canWrite = 0 → HasMessage rb.queue) := by
  constructor
  · rintro ⟨-, hfree⟩ hfull
    by_contra hno
    exact hfree (wedged_of_full h hfull hno)
  · intro hmessage
    by_cases hfull : rb.canWrite = 0
    · obtain ⟨⟨offset, count⟩, hscan⟩ := hasMessage_iff.mp (hmessage hfull)
      obtain ⟨strays, status, rest, -, -, -, hcount⟩ := scan_eq_some_iff.mp hscan
      obtain ⟨rb', hread, hwf', -, hq'⟩ := readNextMidiMessage_some h hscan
      have hle := scan_le hscan
      have hlen := length_queue h
      have hlen' := length_queue hwf'
      rw [hq', List.length_drop] at hlen'
      refine ⟨fun _ => ⟨_, _, rb', hread, by omega⟩,
        @not_wedged rb .readNext _ rb' (by rw [execMidiIo, hread]; rfl) ?_⟩
      show count ≠ 0
      omega
    · obtain ⟨rb', hrun, -⟩ := write_produces h
        (show min 1 rb.canWrite ≤ ([0] : List UInt8).length from Nat.min_le_left _ _)
      refine ⟨fun hno => absurd hno hfull,
        @not_wedged rb (.write [0] 1 (Nat.le_refl 1)) _ rb' (by rw [execMidiIo, hrun]; rfl) ?_⟩
      show min 1 rb.canWrite ≠ 0
      omega

/-- What brings a ring that is not stuck to another one. -/
theorem neverStuck_step {rb' : Rb} {call : MidiIo} {out : Out} (h : WF rb) (hP : rb.NeverStuck)
    (hstep : execMidiIo rb call = some (out, rb')) : rb'.NeverStuck ↔ rb.LeavesMessage call := by
  have hlen := length_queue h
  have hlevel := canRead_add_canWrite h
  have hmessage := (neverStuck_iff h).mp hP
  cases call with
  | write source count avail =>
      obtain ⟨rb₁, hrun, hp⟩ := write_produces h (Nat.le_trans (Nat.min_le_left _ _) avail)
      rw [execMidiIo, hrun] at hstep
      cases hstep
      have htaken : (source.take (min count rb.canWrite)).length = min count rb.canWrite := by
        rw [List.length_take]
        omega
      rw [neverStuck_iff hp.wf, canWrite_eq_zero_iff hp.wf, hp.size, hp.queue, LeavesMessage,
        List.length_append, htaken]
      have hroom : rb.size - rb.queue.length = rb.canWrite := by omega
      constructor
      · intro hleft hfills
        have hall : min count rb.canWrite = rb.canWrite := by omega
        rw [hall] at hleft
        rw [hroom]
        exact hleft (by omega)
      · intro hleft hfills
        have hall : min count rb.canWrite = rb.canWrite := by omega
        rw [hall, ← hroom]
        exact hleft (by omega)
  | readNext =>
      rw [LeavesMessage, iff_true]
      cases hscan : scan rb.queue with
      | none =>
          obtain ⟨rb₁, hread, hring⟩ := readNextMidiMessage_none h hscan
          rw [execMidiIo, hread] at hstep
          cases hstep
          rw [neverStuck_iff (hring.wf h), hring.canWrite, hring.queue]
          exact hmessage
      | some r =>
          obtain ⟨strays, status, rest, -, -, -, hcount⟩ := scan_eq_some_iff.mp hscan
          obtain ⟨rb₁, hread, hwf₁, hsize₁, hq₁⟩ := readNextMidiMessage_some h hscan
          have hle := scan_le hscan
          rw [execMidiIo, hread] at hstep
          cases hstep
          -- something was taken out, so the ring is not full
          rw [neverStuck_iff hwf₁, canWrite_eq_zero_iff hwf₁, hsize₁, hq₁, List.length_drop]
          intro hfull
          omega

/-- **A MIDI ring never wedges** in exactly the runs in which every write that fills the ring
leaves a whole message in it, behind nothing but data bytes: from a new ring of any size,
for any bytes written and any order of writes and reads. -/
theorem midi_never_wedges_iff {malloc : Malloc} {size : ℕ} {name : List UInt8}
    {sampleRate channelCount bytesPerSample : ℤ} (hsize : size < 2 ^ 64)
    (hnew : rbNewAudio malloc size name sampleRate channelCount bytesPerSample
      = some (some rb)) (calls : List MidiIo) :
    (∃ outs rb', Machine.run execMidiIo rb calls = some (outs, rb')) ∧
      (Machine.Throughout execMidiIo NeverStuck rb calls ↔
        Machine.Each execMidiIo LeavesMessage rb calls) := by
  obtain ⟨hwf, hrsize, hempty⟩ := rbNewAudio_wf (rbNewAudio_size_lt hsize hnew) hnew
  obtain ⟨outs, rb', hrun, -⟩ := Machine.run_total (P := fun _ => True)
    (fun rb call _ h => execMidiIo_wf h call) calls rb (fun _ _ => trivial) hwf
  have hstart : rb.NeverStuck := by
    have hpos := hwf.size_pos
    have hlen := length_queue hwf
    rw [neverStuck_iff hwf, canWrite_eq_zero_iff hwf]
    intro hfull
    omega
  refine ⟨⟨outs, rb', hrun⟩, Machine.throughout_iff_each (I := WF) ?_ ?_ calls rb hwf hstart
    (by rw [hrun]; rfl)⟩
  · intro rb call out rb' h hstep
    obtain ⟨out₁, rb₁, hstep₁, hwf₁⟩ := execMidiIo_wf h call
    rw [hstep] at hstep₁
    cases hstep₁
    exact hwf₁
  · intro rb call out rb' h hP hstep
    exact neverStuck_step h hP hstep

/-- A note-on that fills a ring of three bytes, and is read. -/
theorem midi_never_wedges_three :
    (∃ outs rb', Machine.run execMidiIo (cleared 3)
      [.write [0x90, 60, 100, 1] 4 (by decide), .readNext] = some (outs, rb')) ∧
      (Machine.Throughout execMidiIo NeverStuck (cleared 3)
          [.write [0x90, 60, 100, 1] 4 (by decide), .readNext] ↔
        Machine.Each execMidiIo LeavesMessage (cleared 3)
          [.write [0x90, 60, 100, 1] 4 (by decide), .readNext]) :=
  midi_never_wedges_iff (by decide) (rbNew_cleared (by decide) (by decide)) _

/-- **Three data bytes wedge a ring of three bytes** for good. -/
theorem strays_wedge : ∃ outs rb,
    Machine.run execMidiIo (cleared 3) [.write [1, 2, 3] 3 (by decide), .readNext]
      = some (outs, rb) ∧ rb.canWrite = 0 ∧ rb.canRead = 3 ∧ Wedged rb := by
  have hrun : ((Machine.run execMidiIo (cleared 3)
      [.write [1, 2, 3] 3 (by decide), .readNext]).map fun r =>
        (r.2.canWrite, r.2.canRead, r.2.queue)) = some (0, 3, [1, 2, 3]) := by decide +kernel
  obtain ⟨⟨outs, rb⟩, h, heq⟩ := Option.map_eq_some_iff.mp hrun
  simp only [Prod.mk.injEq] at heq
  obtain ⟨hfull, hread, hq⟩ := heq
  have hwf : WF rb := by
    obtain ⟨outs', rb', h', hwf'⟩ := Machine.run_total (P := fun _ => True) (I := WF)
      (fun rb call _ h => execMidiIo_wf h call)
      [.write [1, 2, 3] 3 (by decide), .readNext] (cleared 3) (fun _ _ => trivial)
      ((reachable_cleared (by decide) (by decide)).wf (by decide)).1
    rw [h] at h'
    cases h'
    exact hwf'
  exact ⟨outs, rb, h, hfull, hread,
    wedged_of_full hwf hfull (by rw [hq]; decide)⟩

end Rb

end Csnip
