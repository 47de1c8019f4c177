/-
Whether the loop over the chunks stays on their boundaries.

`Walks` says that every round starts at the first byte of a chunk, the one behind the last
chunk at the end of the file.  Three of the four branches go on by the size of the chunk.
The branch for a cue chunk goes on by the points that it reads, as many as 16 bits of their
number say, so that it leaves the boundaries when anything else is in the chunk; and on a
big-endian host the 16 bits are those of the stack, for a format chunk too.

A round is on its way if it `Lands`; from it follows, over the chunks one by one, which
files are `Walkable` whatever the stack holds.
-/
import Csnip.Wave.Scanned

namespace Csnip.Wave

open LittleEndian Stdio Loop Riff

/-! ### Walking along the chunks -/

/-- A file with any size in its header, and chunks up to the end. -/
def fileOf (size : List UInt8) (chunks : List Chunk) : List UInt8 :=
  Riff.riffID ++ size ++ waveID ++ encode chunks

/-- What the format asks of a chunk: a complete format chunk with audio that is not
compressed, and a cue chunk that has at least its points. -/
def WellFormed (c : Chunk) : Prop :=
  (c.id = fmtID → 16 ≤ c.body.length ∧ leNat (c.body.take 2) = 1) ∧
  (c.id = cueID → 4 + 24 * leNat (c.body.take 4) ≤ c.body.length)

/-- From the place `p` on, the rounds start at the first bytes of the chunks, and the last
one behind them. -/
inductive Walks (env : Env) : ℕ → Scan → List Chunk → Scan → Prop
  | last {p : ℕ} {s s' : Scan} (hpos : s.inputFile.ftell = p)
      (hround : scanRound env s = .ok (.done s')) : Walks env p s [] s'
  | chunk {p : ℕ} {s s₁ s' : Scan} {c : Chunk} {chunks : List Chunk}
      (hpos : s.inputFile.ftell = p) (hround : scanRound env s = .ok (.again s₁))
      (hwalks : Walks env (p + c.bytes.length) s₁ chunks s') : Walks env p s (c :: chunks) s'

/-- The loop walks along the chunks, and notes where the others are. -/
def OnBoundaries (env : Env) (size : List UInt8) (chunks : List Chunk) : Prop :=
  ∃ s', Walks env 12 (.start (.at (fileOf size chunks) 12)) chunks s' ∧
    loop (scanRound env) (scanFuel (.at (fileOf size chunks) 12))
      (.start (.at (fileOf size chunks) 12)) = .ok s' ∧
    s'.otherChunkLocations = ((places 12 chunks).filter fun pc => isOther pc.2).map locationOf

/-- What the loop finds by walking. -/
theorem Walks.loop_eq {env : Env} {p : ℕ} {s s' : Scan} {chunks : List Chunk}
    (h : Walks env p s chunks s') :
    ∀ {fuel : ℕ}, chunks.length < fuel → loop (scanRound env) fuel s = .ok s' := by
  induction h with
  | last hpos hround =>
      rintro (_ | fuel) hfuel
      · cases hfuel
      · exact loop_done fuel hround
  | chunk hpos hround hwalks ih =>
      rintro (_ | fuel) hfuel
      · cases hfuel
      · rw [loop_again fuel hround]
        exact ih (by simpa using hfuel)

/-- Every chunk has a byte at least. -/
theorem length_le_encode (chunks : List Chunk) : chunks.length ≤ (encode chunks).length := by
  induction chunks with
  | nil => exact Nat.le_refl _
  | cons c chunks ih =>
      have hbytes := c.length_bytes
      rw [encode_cons, List.length_append, List.length_cons]
      omega

/-! ### One round -/

/-- The round for the chunk `c` at the place `p` ends behind the chunk. -/
def Lands (env : Env) (bytes : List UInt8) (p : ℕ) (c : Chunk) : Prop :=
  (c.id = fmtID →
    littleEndianBytesToUInt16 env.toHost (env.stack (p + 24 : ℕ)) (c.body.take 2) = 1) ∧
  (c.id = cueID →
    min (p + 12 + 24 * littleEndianBytesToUInt16 env.toHost (env.stack (p + 12 : ℕ))
      (c.body.take 4)) bytes.length = p + c.bytes.length)

section Round

variable {env : Env} {s s' : Scan} {bytes : List UInt8} {p : ℕ} {c : Chunk}

/-- The file stands at the place `p`; the end was met only if it is there. -/
def StandsAt (s : Scan) (bytes : List UInt8) (p : ℕ) : Prop :=
  ∃ met, s.inputFile = { Stream.at bytes p with eof := met } ∧ (met = true → bytes.length ≤ p)

theorem StandsAt.ftell (h : StandsAt s bytes p) : s.inputFile.ftell = p := by
  obtain ⟨met, hfile, -⟩ := h
  rw [hfile]
  exact Stream.ftell_at bytes p

/-- Before the end of the file, it was not met. -/
theorem StandsAt.file (h : StandsAt s bytes p) (hp : p < bytes.length) :
    s.inputFile = .at bytes p := by
  obtain ⟨met, hfile, hmet⟩ := h
  cases met with
  | true => exact absurd (hmet rfl) (by omega)
  | false => exact hfile

/-- The round at the end of the file is the last one. -/
theorem StandsAt.done (h : StandsAt s bytes bytes.length) :
    ∃ s', scanRound env s = .ok (.done s') ∧
      s'.otherChunkLocations = s.otherChunkLocations := by
  obtain ⟨met, hfile, -⟩ := h
  rw [scanRound, hfile, Stream.fread_end (Nat.le_refl _) (by decide) met]
  exact ⟨_, rfl, rfl⟩

/-- A round that lands is a round, and notes the chunk if it is one of the others. -/
theorem scanRound_lands (h : At bytes p c) (hstands : StandsAt s bytes p) (hwell : WellFormed c)
    (hroom : isOther c = true → s.otherChunkLocations.length < 256)
    (hmalloc : ∀ n, env.malloc n = true) (hlands : Lands env bytes p c) :
    ∃ s', scanRound env s = .ok (.again s') ∧ StandsAt s' bytes (p + c.bytes.length) ∧
      s'.otherChunkLocations
        = s.otherChunkLocations ++ if isOther c then [locationOf (p, c)] else [] := by
  have hbytes := c.length_bytes
  have hle := h.le
  have hfile := hstands.file (by omega)
  by_cases hcue : c.id = cueID
  · have hcount := hwell.2 hcue
    obtain ⟨s', hbranch, hf, -, -, -, hothers⟩ :=
      scanCue_reads (s := { s with inputFile := .at bytes (p + 4) }) h rfl (by omega) hmalloc
    have hother : isOther c = false := by simp [isOther, hcue]
    have hland := hlands.2 hcue
    refine ⟨s', by rw [scanRound_cue h hfile hcue, hbranch]; rfl, ?_, by simp [hother, hothers]⟩
    refine ⟨_, by rw [hf, afterPoints, hland], fun hmet => ?_⟩
    rw [decide_eq_true_eq] at hmet
    omega
  · obtain ⟨s', hround, hnoted⟩ := scanRound_plain h hfile hcue (fun hfmt => (hwell.1 hfmt).1)
      hlands.1 hroom hmalloc
    exact ⟨s', hround, ⟨false, hnoted.file, fun hmet => by cases hmet⟩, hnoted.others⟩

/-- A round that ends behind the chunk lands. -/
theorem lands_of_round (h : At bytes p c) (hstands : StandsAt s bytes p) (hwell : WellFormed c)
    (hmalloc : ∀ n, env.malloc n = true) (hround : scanRound env s = .ok (.again s'))
    (hpos : s'.inputFile.ftell = ((p + c.bytes.length : ℕ) : ℤ)) : Lands env bytes p c := by
  have hbytes := c.length_bytes
  have hle := h.le
  have hfile := hstands.file (by omega)
  constructor
  · intro hfmt
    by_contra hone
    rw [scanRound_at h hfile, if_pos hfmt,
      scanFormat_compressed h rfl (hwell.1 hfmt).1 hmalloc hone] at hround
    cases hround
  · intro hcue
    have hcount := hwell.2 hcue
    obtain ⟨s₁, hbranch, hf, -⟩ :=
      scanCue_reads (s := { s with inputFile := .at bytes (p + 4) }) h rfl (by omega) hmalloc
    rw [scanRound_cue h hfile hcue, hbranch] at hround
    cases hround
    rw [hf] at hpos
    exact Int.ofNat_inj.mp ((Stream.ftell_at bytes _).symm.trans hpos)

end Round

/-! ### Every stack -/

/-- A run whose requests for memory are granted. -/
def envOf (host : Host) (stack : ℤ → UInt8 × UInt8) : Env :=
  { toHost := host, malloc := fun _ => true, stack }

/-- The chunks the loop gets over: on a little-endian host, with cue chunks that hold their
points and nothing else; on a big-endian one, without a format chunk, and with no cue chunk
but one without points at the end. -/
def Walkable (host : Host) : List Chunk → Prop
  | [] => True
  | c :: behind =>
      (c.id = fmtID → host.littleEndian = true) ∧
      (c.id = cueID → CueBody c.body ∧
        (host.littleEndian = true ∨ (c.body.length = 4 ∧ behind = []))) ∧
      Walkable host behind

section Stack

variable {host : Host} {bytes : List UInt8} {p : ℕ} {c : Chunk}

/-- Every number of 16 bits may be on the stack. -/
theorem bigEndian_any (hhost : host.littleEndian = false) {n : ℕ} (hn : n < 65536) :
    ∃ stack : UInt8 × UInt8, ∀ two : List UInt8, 2 ≤ two.length →
      littleEndianBytesToUInt16 host stack two = n := by
  refine ⟨(UInt8.ofNat (n / 256), UInt8.ofNat n), fun two htwo => ?_⟩
  rw [littleEndianBytesToUInt16_of_bigEndian hhost _ htwo]
  show leNat (leBytes 2 n) = n
  rw [leNat_leBytes]
  exact Nat.mod_eq_of_lt hn

/-- A cue chunk whose number of points is read lands if it holds them and nothing else. -/
theorem cueBody_iff (hcount : 4 + 24 * leNat (c.body.take 4) ≤ c.body.length)
    (hle : p + c.bytes.length ≤ bytes.length) :
    min (p + 12 + 24 * leNat (c.body.take 2)) bytes.length = p + c.bytes.length ↔
      CueBody c.body := by
  have hbytes := c.length_bytes
  have hlow : leNat (c.body.take 2) = leNat (c.body.take 4) % 65536 := by
    have htwo := leNat_take 2 (c.body.take 4)
    rw [List.take_take] at htwo
    exact htwo
  have hfour : (c.body.take 4).length = 4 := by
    rw [List.length_take]
    omega
  constructor
  · intro hland
    -- the points that are read are among those that are there
    refine ⟨leNat (c.body.take 4), by omega, ?_, by omega⟩
    have hheld := leBytes_leNat (c.body.take 4)
    rw [hfour] at hheld
    exact hheld.symm
  · rintro ⟨k, hk, htake, hlen⟩
    have hnumber : leNat (c.body.take 4) = k := by
      rw [htake, leNat_leBytes]
      exact Nat.mod_eq_of_lt (by omega)
    omega

theorem lands_envOf {stack : ℤ → UInt8 × UInt8} :
    Lands (envOf host stack) bytes p c ↔
      (c.id = fmtID →
        littleEndianBytesToUInt16 host (stack (p + 24 : ℕ)) (c.body.take 2) = 1) ∧
      (c.id = cueID →
        min (p + 12 + 24 * littleEndianBytesToUInt16 host (stack (p + 12 : ℕ)) (c.body.take 4))
          bytes.length = p + c.bytes.length) := Iff.rfl

/-- A little-endian host reads the numbers of the chunk. -/
theorem lands_littleEndian (hhost : host.littleEndian = true) (h : At bytes p c)
    (hwell : WellFormed c) (stack : ℤ → UInt8 × UInt8) :
    Lands (envOf host stack) bytes p c ↔ (c.id = cueID → CueBody c.body) := by
  have hcode : c.id = fmtID →
      littleEndianBytesToUInt16 host (stack (p + 24 : ℕ)) (c.body.take 2) = 1 := by
    intro hfmt
    obtain ⟨hlong, hone⟩ := hwell.1 hfmt
    rw [littleEndianBytesToUInt16_of_littleEndian hhost _ (by rw [List.length_take]; omega),
      List.take_take]
    exact hone
  have hland : c.id = cueID →
      (min (p + 12 + 24 * littleEndianBytesToUInt16 host (stack (p + 12 : ℕ)) (c.body.take 4))
        bytes.length = p + c.bytes.length ↔ CueBody c.body) := by
    intro hcue
    have hcount := hwell.2 hcue
    rw [littleEndianBytesToUInt16_of_littleEndian hhost _ (by rw [List.length_take]; omega),
      List.take_take]
    exact cueBody_iff hcount h.le
  rw [lands_envOf]
  constructor
  · rintro ⟨-, hlands⟩ hcue
    exact (hland hcue).mp (hlands hcue)
  · intro hbody
    exact ⟨hcode, fun hcue => (hland hcue).mpr (hbody hcue)⟩

/-- A big-endian host reads numbers of the stack, one that is not 1 and no number of points
and 1 among them. -/
theorem lands_bigEndian (hhost : host.littleEndian = false) (h : At bytes p c)
    (hwell : WellFormed c) :
    (∀ stack, Lands (envOf host stack) bytes p c) ↔
      c.id ≠ fmtID ∧
      (c.id = cueID → c.body.length = 4 ∧ p + c.bytes.length = bytes.length) := by
  have hbytes := c.length_bytes
  have hle := h.le
  constructor
  · intro hall
    obtain ⟨stack₀, hstack₀⟩ := bigEndian_any hhost (n := 0) (by decide)
    obtain ⟨stack₁, hstack₁⟩ := bigEndian_any hhost (n := 1) (by decide)
    obtain ⟨hcode, hnone⟩ := lands_envOf.mp (hall fun _ => stack₀)
    obtain ⟨-, hpoint⟩ := lands_envOf.mp (hall fun _ => stack₁)
    refine ⟨fun hfmt => ?_, fun hcue => ?_⟩
    · have hlong := (hwell.1 hfmt).1
      have hone := hcode hfmt
      rw [hstack₀ _ (by rw [List.length_take]; omega)] at hone
      cases hone
    · have hcount := hwell.2 hcue
      have hnone := hnone hcue
      have hpoint := hpoint hcue
      rw [hstack₀ _ (by rw [List.length_take]; omega)] at hnone
      rw [hstack₁ _ (by rw [List.length_take]; omega)] at hpoint
      omega
  · rintro ⟨hfmt, hbody⟩ stack
    rw [lands_envOf]
    refine ⟨fun hid => absurd hid hfmt, fun hcue => ?_⟩
    obtain ⟨hlen, hend⟩ := hbody hcue
    omega

/-- **Which chunks a round gets over**, whatever the stack holds. -/
theorem lands_all_iff (h : At bytes p c) (hwell : WellFormed c) :
    (∀ stack, Lands (envOf host stack) bytes p c) ↔
      (c.id = fmtID → host.littleEndian = true) ∧
      (c.id = cueID → CueBody c.body ∧
        (host.littleEndian = true ∨ (c.body.length = 4 ∧ p + c.bytes.length = bytes.length))) := by
  by_cases hhost : host.littleEndian = true
  · constructor
    · intro hall
      have hbody := (lands_littleEndian hhost h hwell _).mp (hall fun _ => (0, 0))
      exact ⟨fun _ => hhost, fun hcue => ⟨hbody hcue, .inl hhost⟩⟩
    · rintro ⟨-, hbody⟩ stack
      exact (lands_littleEndian hhost h hwell stack).mpr fun hcue => (hbody hcue).1
  · rw [lands_bigEndian (by simpa using hhost) h hwell]
    constructor
    · rintro ⟨hfmt, hlast⟩
      refine ⟨fun hid => absurd hid hfmt, fun hcue => ⟨?_, .inr (hlast hcue)⟩⟩
      -- in four bytes there is a number only, and it is zero
      have hcount := hwell.2 hcue
      have hlen := (hlast hcue).1
      have hzero : leNat (c.body.take 4) = 0 := by omega
      have hheld := leBytes_leNat (c.body.take 4)
      rw [hzero, List.length_take, hlen] at hheld
      exact ⟨0, by decide, hheld.symm, hlen⟩
    · rintro ⟨hfmt, hbody⟩
      exact ⟨fun hid => hhost (hfmt hid), fun hcue => (hbody hcue).2.resolve_left hhost⟩

end Stack

/-! ### Every file -/

section Files

variable {host : Host} {bytes : List UInt8}

/-- The first of the chunks at the end of the file, and those behind it. -/
theorem at_head {before : List UInt8} {c : Chunk} {chunks : List Chunk}
    (hbytes : bytes = before ++ encode (c :: chunks)) :
    At bytes before.length c ∧ bytes = (before ++ c.bytes) ++ encode chunks ∧
      (before ++ c.bytes).length = before.length + c.bytes.length := by
  refine ⟨⟨before, encode chunks, hbytes, rfl⟩, ?_, List.length_append⟩
  rw [hbytes, encode_cons, List.append_assoc]

/-- Behind a chunk is the end of the file if there is no other one. -/
theorem behind_nil_iff {before : List UInt8} {c : Chunk} {chunks : List Chunk}
    (hbytes : bytes = before ++ encode (c :: chunks)) :
    before.length + c.bytes.length = bytes.length ↔ chunks = [] := by
  rw [hbytes, encode_cons, List.length_append, List.length_append]
  cases chunks with
  | nil => simp
  | cons c' chunks =>
      have hpos := c'.length_bytes
      rw [encode_cons, List.length_append]
      constructor
      · intro hend
        omega
      · intro hnil
        cases hnil

/-- The round over the first of the chunks: it ends behind it, with room for the others. -/
theorem scanRound_head {before : List UInt8} {c : Chunk} {chunks : List Chunk} {env : Env}
    {s : Scan} (hat : At bytes before.length c) (hstands : StandsAt s bytes before.length)
    (hwell : WellFormed c)
    (hroom : s.otherChunkLocations.length + ((c :: chunks).filter isOther).length ≤ 256)
    (hmalloc : ∀ n, env.malloc n = true) (hlands : Lands env bytes before.length c) :
    ∃ s₁, scanRound env s = .ok (.again s₁) ∧
      StandsAt s₁ bytes (before.length + c.bytes.length) ∧
      s₁.otherChunkLocations = s.otherChunkLocations
        ++ (if isOther c then [locationOf (before.length, c)] else []) ∧
      s₁.otherChunkLocations.length + (chunks.filter isOther).length ≤ 256 := by
  rw [List.filter_cons] at hroom
  obtain ⟨s₁, hround, hstands₁, hothers₁⟩ := scanRound_lands hat hstands hwell
    (fun hother => by rw [if_pos hother, List.length_cons] at hroom; omega) hmalloc hlands
  refine ⟨s₁, hround, hstands₁, hothers₁, ?_⟩
  rw [hothers₁, List.length_append]
  by_cases hother : isOther c = true
  · rw [if_pos hother] at hroom ⊢
    simp only [List.length_cons, List.length_nil] at hroom ⊢
    omega
  · rw [if_neg hother] at hroom ⊢
    exact hroom

/-- Chunks that can be walked along are, and the others are noted. -/
theorem walks_of_walkable (stack : ℤ → UInt8 × UInt8) (chunks : List Chunk) :
    ∀ {before : List UInt8} {s : Scan}, bytes = before ++ encode chunks →
      StandsAt s bytes before.length → (∀ c ∈ chunks, WellFormed c) →
      s.otherChunkLocations.length + (chunks.filter isOther).length ≤ 256 →
      Walkable host chunks →
      ∃ s', Walks (envOf host stack) before.length s chunks s' ∧
        s'.otherChunkLocations = s.otherChunkLocations
          ++ ((places before.length chunks).filter fun pc => isOther pc.2).map locationOf := by
  induction chunks with
  | nil =>
      intro before s hbytes hstands _ _ _
      rw [encode_nil, List.append_nil] at hbytes
      subst hbytes
      obtain ⟨s', hround, hothers⟩ := @StandsAt.done (envOf host stack) s _ hstands
      exact ⟨s', .last hstands.ftell hround, by rw [hothers]; simp [places]⟩
  | cons c chunks ih =>
      rintro before s hbytes hstands hwell hroom ⟨hfmt, hcue, hbehind⟩
      obtain ⟨hat, hrest, hlen⟩ := at_head hbytes
      have hc : WellFormed c := hwell c List.mem_cons_self
      rw [← behind_nil_iff hbytes] at hcue
      have hlands := (lands_all_iff hat hc).mpr ⟨hfmt, hcue⟩ stack
      obtain ⟨s₁, hround, hstands₁, hothers₁, hroom₁⟩ :=
        scanRound_head hat hstands hc hroom (fun _ => rfl) hlands
      rw [← hlen] at hstands₁
      obtain ⟨s', hwalks, hothers⟩ := ih hrest hstands₁
        (fun c' hc' => hwell c' (List.mem_cons_of_mem c hc')) hroom₁ hbehind
      rw [hlen] at hwalks hothers
      refine ⟨s', .chunk hstands.ftell hround hwalks, ?_⟩
      rw [hothers, hothers₁, List.append_assoc, places, List.filter_cons]
      by_cases hother : isOther c = true
      · rw [if_pos hother, if_pos hother]
        rfl
      · rw [if_neg hother, if_neg hother, List.nil_append]

/-- Chunks that are walked along whatever the stack holds can be walked along. -/
theorem walkable_of_walks (chunks : List Chunk) :
    ∀ {before : List UInt8}, bytes = before ++ encode chunks →
      (∀ c ∈ chunks, WellFormed c) →
      (∀ stack, ∃ s s', StandsAt s bytes before.length ∧
        s.otherChunkLocations.length + (chunks.filter isOther).length ≤ 256 ∧
        Walks (envOf host stack) before.length s chunks s') →
      Walkable host chunks := by
  induction chunks with
  | nil => intro before _ _ _; trivial
  | cons c chunks ih =>
      intro before hbytes hwell hwalks
      obtain ⟨hat, hrest, hlen⟩ := at_head hbytes
      have hc : WellFormed c := hwell c List.mem_cons_self
      have hlands : ∀ stack, Lands (envOf host stack) bytes before.length c := by
        intro stack
        obtain ⟨s, s', hstands, -, hwalk⟩ := hwalks stack
        cases hwalk with
        | chunk hpos hround hnext =>
            refine lands_of_round hat hstands hc (fun _ => rfl) hround ?_
            cases hnext with
            | last hpos' _ => exact hpos'
            | chunk hpos' _ _ => exact hpos'
      obtain ⟨hfmt, hcue⟩ := (lands_all_iff hat hc).mp hlands
      rw [behind_nil_iff hbytes] at hcue
      refine ⟨hfmt, hcue, ih hrest (fun c' hc' => hwell c' (List.mem_cons_of_mem c hc')) ?_⟩
      intro stack
      obtain ⟨s, s', hstands, hroom, hwalk⟩ := hwalks stack
      obtain ⟨s₁, hround₁, hstands₁, -, hroom₁⟩ :=
        scanRound_head hat hstands hc hroom (fun _ => rfl) (hlands stack)
      cases hwalk with
      | chunk hpos hround hnext =>
          rw [hround] at hround₁
          cases hround₁
          rw [hlen]
          exact ⟨_, s', hstands₁, hroom₁, hnext⟩

end Files

/-- **The scan stays on chunk boundaries** exactly if the chunks are walkable: for every file
of well-formed chunks with at most 256 others, on every host. -/
theorem scan_on_boundaries_iff (host : Host) {size : List UInt8} {chunks : List Chunk}
    (hsize : size.length = 4) (hwell : ∀ c ∈ chunks, WellFormed c)
    (hothers : (chunks.filter isOther).length ≤ 256) :
    (∀ stack, OnBoundaries (envOf host stack) size chunks) ↔ Walkable host chunks := by
  have hhead : (Riff.riffID ++ size ++ waveID).length = 12 := by
    simp [hsize, Riff.riffID, waveID]
  have hfile : fileOf size chunks = (Riff.riffID ++ size ++ waveID) ++ encode chunks := rfl
  have hstart : StandsAt (.start (.at (fileOf size chunks) 12)) (fileOf size chunks)
      (Riff.riffID ++ size ++ waveID).length := by
    rw [hhead]
    exact ⟨false, rfl, fun hmet => by cases hmet⟩
  have hroom : (Scan.start (.at (fileOf size chunks) 12)).otherChunkLocations.length
      + (chunks.filter isOther).length ≤ 256 := by
    rw [Scan.start, List.length_nil, Nat.zero_add]
    exact hothers
  constructor
  · intro hall
    refine walkable_of_walks chunks hfile hwell fun stack => ?_
    obtain ⟨s', hwalks, -⟩ := hall stack
    refine ⟨_, s', hstart, hroom, ?_⟩
    rw [hhead]
    exact hwalks
  · intro hwalkable stack
    obtain ⟨s', hwalks, hnoted⟩ := walks_of_walkable stack chunks hfile hstart hwell hroom
      hwalkable
    rw [hhead] at hwalks hnoted
    refine ⟨s', hwalks, hwalks.loop_eq ?_, hnoted⟩
    have hmany := length_le_encode chunks
    rw [scanFuel, hfile, Stream.at, List.length_append, hhead]
    omega

/-- A format chunk, a cue chunk with one point, audio of one byte, and a list chunk. -/
def markedChunks : List Chunk :=
  [⟨fmtID, [1, 0, 1, 0, 64, 31, 0, 0, 64, 31, 0, 0, 1, 0, 8, 0], [], by decide, by decide,
      by decide⟩,
    ⟨cueID, [1, 0, 0, 0, 1, 0, 0, 0, 0, 0, 0, 0, 100, 97, 116, 97, 0, 0, 0, 0, 0, 0, 0, 0,
      0, 0, 0, 0], [], by decide, by decide, by decide⟩,
    ⟨dataID, [128], [0], by decide, by decide, by decide⟩,
    ⟨[76, 73, 83, 84], [97, 100, 116, 108], [], by decide, by decide, by decide⟩]

/-- The loop walks along them, and so it notes the last one. -/
theorem scan_on_boundaries_marked :
    Walkable ⟨true, true⟩ markedChunks ∧
      ∀ stack, OnBoundaries (envOf ⟨true, true⟩ stack) [0, 0, 0, 0] markedChunks := by
  have hwell : ∀ c ∈ markedChunks, WellFormed c := by
    simp only [markedChunks, List.forall_mem_cons, WellFormed]
    decide
  have hbody : CueBody ([1, 0, 0, 0, 1, 0, 0, 0, 0, 0, 0, 0, 100, 97, 116, 97, 0, 0, 0, 0, 0, 0, 0,
      0, 0, 0, 0, 0] : List UInt8) := ⟨1, by decide, by decide, by decide⟩
  have hwalkable : Walkable ⟨true, true⟩ markedChunks := by
    refine ⟨fun _ => rfl, fun hcue => absurd hcue (by decide), ?_⟩
    refine ⟨fun _ => rfl, fun _ => ⟨hbody, Or.inl rfl⟩, ?_⟩
    exact ⟨fun _ => rfl, fun hcue => absurd hcue (by decide), fun _ => rfl,
      fun hcue => absurd hcue (by decide), trivial⟩
  exact ⟨hwalkable, (scan_on_boundaries_iff ⟨true, true⟩ rfl hwell (by decide)).mpr hwalkable⟩

/-- A cue chunk without points, and something that looks like a chunk behind their number. -/
def stuffedCue : Chunk :=
  ⟨cueID, [0, 0, 0, 0, 97, 98, 99, 100, 0, 0, 0, 0], [], by decide, by decide, by decide⟩

/-- What is behind the points of a cue chunk is taken for a chunk. -/
theorem payload_taken_for_chunk :
    WellFormed stuffedCue ∧
      (∃ s, loop (scanRound (envOf ⟨true, true⟩ fun _ => (0, 0)))
          (scanFuel (.at (fileOf [0, 0, 0, 0] [stuffedCue]) 12))
          (.start (.at (fileOf [0, 0, 0, 0] [stuffedCue]) 12)) = .ok s ∧
        s.otherChunkLocations = [⟨24, 8⟩]) ∧
      ¬ ∀ stack, OnBoundaries (envOf ⟨true, true⟩ stack) [0, 0, 0, 0] [stuffedCue] := by
  have hloop : ∃ s, loop (scanRound (envOf ⟨true, true⟩ fun _ => (0, 0)))
      (scanFuel (.at (fileOf [0, 0, 0, 0] [stuffedCue]) 12))
      (.start (.at (fileOf [0, 0, 0, 0] [stuffedCue]) 12)) = .ok s ∧
      s.otherChunkLocations = [⟨24, 8⟩] := ⟨_, rfl, rfl⟩
  refine ⟨by unfold WellFormed; decide, hloop, fun hall => ?_⟩
  obtain ⟨s, hrun, hfound⟩ := hloop
  obtain ⟨s', -, hrun', hnoted⟩ := hall fun _ => (0, 0)
  rw [hrun] at hrun'
  cases hrun'
  rw [hnoted] at hfound
  exact absurd hfound (by decide)

end Csnip.Wave
