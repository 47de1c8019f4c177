/-
MIDI messages over the ring (rb_midi.h).

`rb_find_next_midi_message()` looks through the content for a status byte and tells how
far behind the read index it is; `rb_read_next_midi_message()` then skips what is in
front of the message and reads it.  `scan` is the search on a list of bytes, and
`findNextMidiMessageFrom_eq` says that the loop over the ring is that search.

A writer feeds the ring from a stream of messages with stray data bytes between them, in
pieces that need not respect the messages.  Whatever the pieces are, the content always
begins where an `Item` of the stream begins (`Framed`): nothing is consumed unless a
whole message is there, and then exactly the strays in front of it and the message.
-/
import Csnip.Rb.Fifo

namespace Csnip

open Memory Cyclic

namespace Rb

/-! ### The functions -/

/-- The length of the message a status byte begins, 0 for a data byte. -/
def midiLength (c : UInt8) : ℕ :=
  let type := c &&& 0xF0
  if type = 0x80 ∨ type = 0x90 ∨ type = 0xA0 ∨ type = 0xB0 ∨ type = 0xE0 then 3
  else if type = 0xC0 ∨ type = 0xD0 then 2
  else if type = 0xF0 then 1
  else 0

/-- The loop of `rb_find_next_midi_message()`, for at most `fuel` rounds: the returned
value, `*offset`, `*count` and the ring. -/
def findNextMidiMessageFrom : ℕ → Rb → ℕ → Option (ℕ × ℕ × ℕ × Rb)
  | 0, _, _ => none
  | fuel + 1, rb, skipCounter =>
      if rb.canRead > skipCounter then
        match rb.peekByteAt skipCounter with
        | some (_, [c], rb) =>
            let msgLen := midiLength c
            if msgLen = 0 then
              -- this is not a size byte
              findNextMidiMessageFrom fuel rb (u64 (skipCounter + 1))
            else if rb.canRead ≥ u64 (skipCounter + msgLen) then
              some (1, skipCounter, msgLen, rb)
            else some (0, 0, 0, rb)
        | _ => none
      else some (0, 0, 0, rb)

/-- `rb_find_next_midi_message()`, called with both variables set to 0.  Each round but
the last goes one byte further into the content. -/
def findNextMidiMessage (rb : Rb) : Option (ℕ × ℕ × ℕ × Rb) :=
  findNextMidiMessageFrom (rb.canRead + 1) rb 0

/-- `rb_read_next_midi_message()`. -/
def readNextMidiMessage (rb : Rb) : Option (ℕ × List UInt8 × Rb) :=
  match rb.findNextMidiMessage with
  | none => none
  | some (found, mOffset, mCount, rb) =>
      if found ≠ 0 then
        (if mOffset > 0 then (rb.skip mOffset).map Prod.snd else some rb).bind fun rb =>
          rb.read mCount
      else some (0, [], { rb with totalUnderflows := u64 (rb.totalUnderflows + 1) })

/-! ### The search, on a list -/

/-- How many bytes stand in front of the first status byte, and the length of its
message, if the message is there to its end. -/
def scan : List UInt8 → Option (ℕ × ℕ)
  | [] => none
  | c :: cs =>
      if midiLength c = 0 then (scan cs).map fun r => (r.1 + 1, r.2)
      else if midiLength c ≤ cs.length + 1 then some (0, midiLength c)
      else none

theorem midiLength_le (c : UInt8) : midiLength c ≤ 3 := by
  simp only [midiLength]
  repeat' split
  all_goals omega

/-- What the search returns when it starts `off` bytes into the content. -/
def found (off : ℕ) : Option (ℕ × ℕ) → ℕ × ℕ × ℕ
  | none => (0, 0, 0)
  | some (skipCounter, msgLen) => (1, off + skipCounter, msgLen)

variable {rb : Rb}

/-- The byte a peek inside the content delivers. -/
theorem peekByteAt_queue (h : WF rb) {off : ℕ} {c : UInt8} {cs : List UInt8}
    (hq : rb.queue.drop off = c :: cs) :
    rb.peekByteAt off =
      some (1, [c], { rb with totalBytesPeek := u64 (rb.totalBytesPeek + 1) }) := by
  have ho : off < rb.canRead := by
    rw [← length_queue h]
    by_contra hge
    rw [List.drop_of_length_le (by omega)] at hq
    cases hq
  rw [peekByteAt_eq h ho, ← take_drop_queue h ho, hq]
  rfl

/-- **The loop over the ring is the search on its content.** -/
theorem findNextMidiMessageFrom_eq :
    ∀ (fuel : ℕ) (rb : Rb) (off : ℕ), WF rb → rb.canRead < off + fuel → off ≤ rb.canRead →
      ∃ rb', findNextMidiMessageFrom fuel rb off =
          some ((found off (scan (rb.queue.drop off))).1,
            (found off (scan (rb.queue.drop off))).2.1,
            (found off (scan (rb.queue.drop off))).2.2, rb') ∧
        SameRing rb rb' := by
  intro fuel
  induction fuel with
  | zero => intro rb off _ hlt hle; omega
  | succ fuel ih =>
      intro rb off h hlt hle
      have hcr := canRead_le h
      have hs := h.size_lt
      have hlen := length_queue h
      cases hq : rb.queue.drop off with
      | nil =>
          have hend : rb.queue.length ≤ off := List.drop_eq_nil_iff.mp hq
          rw [findNextMidiMessageFrom, if_neg (by omega)]
          exact ⟨rb, rfl, SameRing.refl rb⟩
      | cons c cs =>
          have hcs : cs.length + 1 = rb.canRead - off := by
            rw [← hlen, ← List.length_drop, hq, List.length_cons]
          set rb₁ := { rb with totalBytesPeek := u64 (rb.totalBytesPeek + 1) } with hrb₁
          have hsame : SameRing rb rb₁ := SameRing.stats ..
          have h3 := midiLength_le c
          rw [findNextMidiMessageFrom, if_pos (by omega), peekByteAt_queue h hq]
          simp only [scan]
          by_cases hstray : midiLength c = 0
          · rw [if_pos hstray, if_pos hstray, u64_of_lt (by omega : off + 1 < 2 ^ 64)]
            have hrest : rb₁.queue.drop (off + 1) = cs := by
              rw [hsame.queue, ← List.drop_drop, hq, List.drop_succ_cons, List.drop_zero]
            obtain ⟨rb', hrun, hring⟩ := ih rb₁ (off + 1) (hsame.wf h)
              (by rw [hsame.canRead]; omega) (by rw [hsame.canRead]; omega)
            rw [hrest] at hrun
            refine ⟨rb', ?_, hsame.trans hring⟩
            rw [hrun]
            cases scan cs with
            | none => rfl
            | some r => simp only [found, Option.map_some]; congr 3; omega
          · rw [if_neg hstray, if_neg hstray, u64_of_lt (by omega : off + midiLength c < 2 ^ 64),
              hsame.canRead]
            by_cases hwhole : midiLength c ≤ cs.length + 1
            · rw [if_pos hwhole, if_pos (by omega)]
              exact ⟨rb₁, rfl, hsame⟩
            · rw [if_neg hwhole, if_neg (by omega)]
              exact ⟨rb₁, rfl, hsame⟩

/-- `rb_find_next_midi_message()` is the search on the whole content. -/
theorem findNextMidiMessage_eq (h : WF rb) : ∃ rb',
    rb.findNextMidiMessage = some ((found 0 (scan rb.queue)).1, (found 0 (scan rb.queue)).2.1,
      (found 0 (scan rb.queue)).2.2, rb') ∧ SameRing rb rb' := by
  have hfind := findNextMidiMessageFrom_eq (rb.canRead + 1) rb 0 h (by omega) (by omega)
  rwa [List.drop_zero] at hfind

/-! ### Reading what was found -/

/-- `strays` bytes are skipped, and the message behind them is read. -/
theorem skip_read (h : WF rb) {strays count : ℕ} (hle : strays + count ≤ rb.queue.length) :
    ∃ rb', ((if strays > 0 then (rb.skip strays).map Prod.snd else some rb).bind
      fun rb => rb.read count) = some (count, (rb.queue.drop strays).take count, rb') ∧
      WF rb' ∧ rb'.size = rb.size ∧ rb'.queue = rb.queue.drop (strays + count) := by
  have hlen := length_queue h
  have hskip : ∃ rb₁, (if strays > 0 then (rb.skip strays).map Prod.snd else some rb)
      = some rb₁ ∧ WF rb₁ ∧ rb₁.size = rb.size ∧ rb₁.queue = rb.queue.drop strays := by
    by_cases hpos : strays > 0
    · obtain ⟨rb₁, hrun, hc⟩ := advanceReadIndex_consumes h strays
      have hmin : min strays rb.canRead = strays := by omega
      rw [hmin] at hrun hc
      refine ⟨rb₁, ?_, hc.wf, hc.size, hc.queue⟩
      rw [if_pos hpos, skip, hrun]
      rfl
    · have hzero : strays = 0 := by omega
      rw [if_neg hpos]
      exact ⟨rb, rfl, h, rfl, by rw [hzero, List.drop_zero]⟩
  obtain ⟨rb₁, hrun₁, hwf₁, hsize₁, hq₁⟩ := hskip
  have hlen₁ := length_queue hwf₁
  rw [hq₁, List.length_drop] at hlen₁
  obtain ⟨rb', hrun, hc⟩ := read_consumes hwf₁ count
  have hmin : min count rb₁.canRead = count := by omega
  rw [hmin, hq₁] at hrun
  rw [hmin] at hc
  refine ⟨rb', ?_, hc.wf, hc.size.trans hsize₁, ?_⟩
  · rw [hrun₁]
    exact hrun
  · rw [hc.queue, hq₁, List.drop_drop]

/-- Nothing was found: nothing is read. -/
theorem readNextMidiMessage_none (h : WF rb) (hscan : scan rb.queue = none) : ∃ rb',
    rb.readNextMidiMessage = some (0, [], rb') ∧ SameRing rb rb' := by
  obtain ⟨rb₁, hfind, hring⟩ := findNextMidiMessage_eq h
  rw [hscan] at hfind
  refine ⟨_, ?_, hring.trans (sameRing_underflow rb₁)⟩
  rw [readNextMidiMessage, hfind]
  rfl

/-- What was found lies in the content. -/
theorem scan_le : ∀ {q : List UInt8} {strays count : ℕ}, scan q = some (strays, count) →
    strays + count ≤ q.length := by
  intro q
  induction q with
  | nil => intro strays count h; cases h
  | cons c cs ih =>
      intro strays count h
      rw [scan] at h
      by_cases hstray : midiLength c = 0
      · rw [if_pos hstray] at h
        obtain ⟨r, hr, heq⟩ := Option.map_eq_some_iff.mp h
        cases heq
        have hle := ih hr
        rw [List.length_cons]
        omega
      · rw [if_neg hstray] at h
        by_cases hwhole : midiLength c ≤ cs.length + 1
        · rw [if_pos hwhole] at h
          cases h
          rw [List.length_cons]
          omega
        · rw [if_neg hwhole] at h
          cases h

theorem readNextMidiMessage_some (h : WF rb) {strays count : ℕ}
    (hscan : scan rb.queue = some (strays, count)) : ∃ rb',
    rb.readNextMidiMessage = some (count, (rb.queue.drop strays).take count, rb') ∧
      WF rb' ∧ rb'.size = rb.size ∧ rb'.queue = rb.queue.drop (strays + count) := by
  obtain ⟨rb₁, hfind, hring⟩ := findNextMidiMessage_eq h
  rw [hscan] at hfind
  obtain ⟨rb', hrun, hwf', hsize', hq'⟩ := skip_read (hring.wf h)
    (by rw [hring.queue]; exact scan_le hscan)
  rw [hring.queue] at hrun hq'
  refine ⟨rb', ?_, hwf', hsize'.trans hring.size, hq'⟩
  rw [readNextMidiMessage, hfind]
  simp only [found, Nat.zero_add]
  rw [if_pos one_ne_zero, hrun]

/-! ### Streams of messages -/

/-- How many data bytes a message with this status byte has. -/
def dataLength (status : UInt8) : ℕ :=
  if status < 0xC0 then 2 else if status < 0xE0 then 1 else if status < 0xF0 then 2 else 0

/-- A complete message. -/
structure MidiMessage where
  status : UInt8
  data : List UInt8
  isStatus : 0x80 ≤ status
  isData : ∀ c ∈ data, c < 0x80
  length_data : data.length = dataLength status

def MidiMessage.bytes (m : MidiMessage) : List UInt8 := m.status :: m.data

/-- A message, and the stray data bytes in front of it. -/
structure Item where
  strays : List UInt8
  isStray : ∀ c ∈ strays, c < 0x80
  message : MidiMessage

def Item.bytes (item : Item) : List UInt8 := item.strays ++ item.message.bytes

/-- The bytes of a stream. -/
def midiStream (items : List Item) : List UInt8 := items.flatMap Item.bytes

theorem midiStream_cons (item : Item) (items : List Item) :
    midiStream (item :: items) = item.bytes ++ midiStream items := rfl

/-- The code's table by the high four bits is the one of the message format. -/
theorem midiLength_table : ∀ n < 256, midiLength (UInt8.ofNat n) =
    if UInt8.ofNat n < 0x80 then 0 else dataLength (UInt8.ofNat n) + 1 := by
  decide +kernel

theorem midiLength_eq (c : UInt8) :
    midiLength c = if c < 0x80 then 0 else dataLength c + 1 := by
  have := midiLength_table c.toNat c.toNat_lt
  rwa [UInt8.ofNat_toNat] at this

theorem midiLength_stray {c : UInt8} (hc : c < 0x80) : midiLength c = 0 := by
  rw [midiLength_eq, if_pos hc]

theorem midiLength_status (m : MidiMessage) : midiLength m.status = m.bytes.length := by
  rw [midiLength_eq, if_neg (UInt8.not_lt.mpr m.isStatus), MidiMessage.bytes, List.length_cons,
    m.length_data]

/-- A search in a part of the stream that begins with an item finds the item's message
if the part reaches to its end, and nothing otherwise. -/
theorem scan_item (m : MidiMessage) : ∀ (strays q rest more : List UInt8),
    (∀ c ∈ strays, c < 0x80) → q ++ rest = strays ++ m.bytes ++ more →
    scan q = if strays.length + m.bytes.length ≤ q.length
      then some (strays.length, m.bytes.length) else none := by
  intro strays
  induction strays with
  | nil =>
      intro q rest more _ hq
      rw [List.length_nil, Nat.zero_add]
      cases q with
      | nil => rw [scan, if_neg (by simp [MidiMessage.bytes])]
      | cons c cs =>
          have hc : c = m.status := by
            rw [MidiMessage.bytes] at hq
            simpa using congrArg List.head? hq
          have hlen := midiLength_status m
          have hpos : m.bytes.length ≠ 0 := by simp [MidiMessage.bytes]
          rw [scan, hc, hlen, if_neg hpos, List.length_cons]
  | cons s strays ih =>
      intro q rest more hstrays hq
      cases q with
      | nil => rw [scan, if_neg (by simp)]
      | cons c cs =>
          simp only [List.cons_append, List.cons.injEq] at hq
          obtain ⟨rfl, hcs⟩ := hq
          have hstray := midiLength_stray (hstrays c (by simp))
          rw [scan, if_pos hstray, ih cs rest more (fun d hd => hstrays d (by simp [hd])) hcs]
          by_cases hwhole : strays.length + m.bytes.length ≤ cs.length
          · rw [if_pos hwhole, if_pos (by simp only [List.length_cons]; omega)]
            rfl
          · rw [if_neg hwhole, if_neg (by simp only [List.length_cons]; omega)]
            rfl

/-! ### Feeding and reading -/

/-- A ring, and what is left of the stream to write to it. -/
structure Session where
  rb : Rb
  unfed : List UInt8

inductive MidiCall
  /-- `rb_write()` of the next `k` bytes of the stream. -/
  | feed (k : ℕ)
  | readNext

/-- A short write is continued: the next piece begins behind the bytes that were taken. -/
def execMidi (s : Session) : MidiCall → Option (Out × Session)
  | .feed k =>
      (s.rb.write (s.unfed.take k) (s.unfed.take k).length).map fun r =>
        ({ ret := r.1 }, ⟨r.2, s.unfed.drop r.1⟩)
  | .readNext =>
      s.rb.readNextMidiMessage.map fun r => ({ ret := r.1, bytes := r.2.1 }, ⟨r.2.2, s.unfed⟩)

/-- What a call may do, next to the messages read so far. -/
inductive MidiStep : Session × List MidiMessage → MidiCall → Out → Session × List MidiMessage → Prop
  | feed {s s' : Session} {read : List MidiMessage} {k n : ℕ} (hn : n ≤ k)
      (hqueue : s'.rb.queue = s.rb.queue ++ s.unfed.take n) (hunfed : s'.unfed = s.unfed.drop n) :
      MidiStep (s, read) (.feed k) { ret := n } (s', read)
  | message {s s' : Session} {read : List MidiMessage} {m : MidiMessage}
      (hunfed : s'.unfed = s.unfed) :
      MidiStep (s, read) .readNext { ret := m.bytes.length, bytes := m.bytes } (s', read ++ [m])
  | nothing {s s' : Session} {read : List MidiMessage} (hring : SameRing s.rb s'.rb)
      (hunfed : s'.unfed = s.unfed) :
      MidiStep (s, read) .readNext { ret := 0 } (s', read)

/-- The messages read are those of the first items, and the content of the ring and the
unfed bytes are the items behind them. -/
structure Framed (items : List Item) (s : Session) (read : List MidiMessage)
    (ahead : List Item) : Prop where
  wf : WF s.rb
  messages : items.map Item.message = read ++ ahead.map Item.message
  bytes : s.rb.queue ++ s.unfed = midiStream ahead

variable {items : List Item} {s : Session} {read : List MidiMessage} {ahead : List Item}

theorem feed_step (h : Framed items s read ahead) (k : ℕ) : ∃ out s',
    execMidi s (.feed k) = some (out, s') ∧ MidiStep (s, read) (.feed k) out (s', read) ∧
      Framed items s' read ahead := by
  obtain ⟨rb', hrun, hp⟩ := write_produces h.wf
    (Nat.min_le_left _ _)
  generalize hn : min (s.unfed.take k).length s.rb.canWrite = n at hrun hp
  have hk : n ≤ k := by
    have := List.length_take_le k s.unfed
    omega
  have hqueue : rb'.queue = s.rb.queue ++ s.unfed.take n := by
    rw [hp.queue, List.take_take, Nat.min_eq_left hk]
  refine ⟨{ ret := n }, ⟨rb', s.unfed.drop n⟩, ?_, .feed hk hqueue rfl, hp.wf, h.messages, ?_⟩
  · rw [execMidi, hrun]
    rfl
  · rw [hqueue, List.append_assoc, List.take_append_drop, h.bytes]

theorem readNext_nothing (h : Framed items s read ahead) (hscan : scan s.rb.queue = none) :
    ∃ out s', execMidi s .readNext = some (out, s') ∧
      MidiStep (s, read) .readNext out (s', read) ∧ Framed items s' read ahead := by
  obtain ⟨rb', hrun, hsame⟩ := readNextMidiMessage_none h.wf hscan
  refine ⟨{ ret := 0 }, ⟨rb', s.unfed⟩, ?_, .nothing hsame rfl, hsame.wf h.wf, h.messages, ?_⟩
  · rw [execMidi, hrun]
    rfl
  · rw [hsame.queue]
    exact h.bytes

theorem readNext_message {item : Item} (h : Framed items s read (item :: ahead))
    (hwhole : item.bytes.length ≤ s.rb.queue.length) :
    ∃ out s', execMidi s .readNext = some (out, s') ∧
      MidiStep (s, read) .readNext out (s', read ++ [item.message]) ∧
      Framed items s' (read ++ [item.message]) ahead := by
  have hbytes := h.bytes
  rw [midiStream_cons] at hbytes
  -- the content begins with the whole item
  obtain ⟨rest, hrest⟩ : ∃ rest, s.rb.queue = item.bytes ++ rest :=
    ⟨_, (List.prefix_iff_eq_append.mp
      (List.prefix_of_prefix_length_le ⟨_, hbytes.symm⟩ ⟨_, rfl⟩ hwhole)).symm⟩
  have hscan : scan s.rb.queue = some (item.strays.length, item.message.bytes.length) := by
    rw [scan_item item.message item.strays s.rb.queue s.unfed (midiStream ahead) item.isStray
      hbytes, if_pos (by rwa [Item.bytes, List.length_append] at hwhole)]
  obtain ⟨rb', hrun, hwf', -, hq'⟩ := readNextMidiMessage_some h.wf hscan
  have hread : (s.rb.queue.drop item.strays.length).take item.message.bytes.length
      = item.message.bytes := by
    rw [hrest, Item.bytes, List.append_assoc, List.drop_left, List.take_left]
  have hlen : item.strays.length + item.message.bytes.length = item.bytes.length := by
    rw [Item.bytes, List.length_append]
  rw [hread] at hrun
  rw [hlen, hrest, List.drop_left] at hq'
  refine ⟨{ ret := item.message.bytes.length, bytes := item.message.bytes }, ⟨rb', s.unfed⟩, ?_,
    .message rfl, hwf', ?_, ?_⟩
  · rw [execMidi, hrun]
    rfl
  · rw [h.messages, List.map_cons, List.append_assoc, List.singleton_append]
  · show rb'.queue ++ s.unfed = midiStream ahead
    rw [hrest, List.append_assoc] at hbytes
    rw [hq']
    exact List.append_cancel_left hbytes

theorem readNext_step (h : Framed items s read ahead) : ∃ out s' read' ahead',
    execMidi s .readNext = some (out, s') ∧ MidiStep (s, read) .readNext out (s', read') ∧
      Framed items s' read' ahead' := by
  cases ahead with
  | nil =>
      have hnil : s.rb.queue = [] := (List.append_eq_nil_iff.mp h.bytes).1
      obtain ⟨out, s', hrun, hstep, h'⟩ := readNext_nothing h (by rw [hnil, scan])
      exact ⟨out, s', read, [], hrun, hstep, h'⟩
  | cons item ahead =>
      by_cases hwhole : item.bytes.length ≤ s.rb.queue.length
      · obtain ⟨out, s', hrun, hstep, h'⟩ := readNext_message h hwhole
        exact ⟨out, s', _, ahead, hrun, hstep, h'⟩
      · have hscan := scan_item item.message item.strays s.rb.queue s.unfed (midiStream ahead)
          item.isStray (by rw [← Item.bytes, ← midiStream_cons]; exact h.bytes)
        rw [Item.bytes, List.length_append] at hwhole
        rw [if_neg hwhole] at hscan
        obtain ⟨out, s', hrun, hstep, h'⟩ := readNext_nothing h hscan
        exact ⟨out, s', read, item :: ahead, hrun, hstep, h'⟩

theorem execMidi_step (h : Framed items s read ahead) (call : MidiCall) :
    ∃ out s' read' ahead', execMidi s call = some (out, s') ∧
      MidiStep (s, read) call out (s', read') ∧ Framed items s' read' ahead' := by
  cases call with
  | feed k =>
      obtain ⟨out, s', hrun, hstep, h'⟩ := feed_step h k
      exact ⟨out, s', read, ahead, hrun, hstep, h'⟩
  | readNext => exact readNext_step h

/-- **Framing does not depend on how the stream is cut up.**

From an empty ring every sequence of writes that feed the stream piece by piece and of
reads is defined; each read returns one whole message, or 0 and leaves the ring as it
was, and the messages read are the first ones of the stream. -/
theorem midi_framing (hwf : WF rb) (hempty : rb.canRead = 0) (items : List Item)
    (calls : List MidiCall) : ∃ outs s read,
    Machine.run execMidi ⟨rb, midiStream items⟩ calls = some (outs, s) ∧
      Machine.Run MidiStep (⟨rb, midiStream items⟩, []) calls outs (s, read) ∧
      read <+: items.map Item.message := by
  have hsim : ∀ (s : Session) (q : Session × List MidiMessage) (call : MidiCall), True →
      (q.1 = s ∧ ∃ ahead, Framed items s q.2 ahead) → ∃ out s' q',
        execMidi s call = some (out, s') ∧ MidiStep q call out q' ∧
          (q'.1 = s' ∧ ∃ ahead, Framed items s' q'.2 ahead) := by
    rintro s ⟨_, read⟩ call - ⟨rfl, ahead, h⟩
    obtain ⟨out, s', read', ahead', hrun, hstep, h'⟩ := execMidi_step h call
    exact ⟨out, s', (s', read'), hrun, hstep, rfl, ahead', h'⟩
  have hstart : Framed items ⟨rb, midiStream items⟩ [] items :=
    ⟨hwf, rfl, by rw [queue, hempty]; rfl⟩
  obtain ⟨outs, s, ⟨_, read⟩, hrun, hRun, rfl, ahead, h⟩ :=
    Machine.run_refines hsim calls _ (_, []) (fun _ _ => trivial) ⟨rfl, items, hstart⟩
  exact ⟨outs, _, read, hrun, hRun, _, h.messages.symm⟩

/-- A stray byte and the message C0 05, fed in two pieces to a ring of three bytes. -/
theorem midi_framing_three : ∃ outs s read,
    Machine.run execMidi
      ⟨cleared 3, midiStream [⟨[7], by simp, ⟨0xC0, [5], by decide, by simp, by decide⟩⟩]⟩
      [.feed 2, .readNext, .feed 9, .readNext] = some (outs, s) ∧
    Machine.Run MidiStep
      (⟨cleared 3, midiStream [⟨[7], by simp, ⟨0xC0, [5], by decide, by simp, by decide⟩⟩]⟩, [])
      [.feed 2, .readNext, .feed 9, .readNext] outs (s, read) ∧
    read <+: [(⟨0xC0, [5], by decide, by simp, by decide⟩ : MidiMessage)] :=
  midi_framing ((reachable_cleared (by decide) (by decide)).wf (by decide)).1 rfl
    [⟨[7], by simp, ⟨0xC0, [5], by decide, by simp, by decide⟩⟩] _

end Rb

end Csnip
