/-
What the loop over the chunks finds.

`At` says that a chunk stands at a place of the input file.  A round of the loop that
starts there ends behind the chunk, and what it notes is `Noted`; from it follows, over
the chunks one by one, what the whole loop has `Found`: where every chunk is that will be
copied.  All of it on a little-endian host; on a big-endian one the format chunk may be
refused.
-/
import Csnip.Wave.Format
import Csnip.Wave.Scan

namespace Csnip.Wave

open LittleEndian Stdio Loop Riff

/-! ### Chunks in a file -/

/-- The chunk `c` stands at the place `p` of the file. -/
def At (bytes : List UInt8) (p : ℕ) (c : Chunk) : Prop :=
  ∃ before after, bytes = before ++ (c.bytes ++ after) ∧ p = before.length

variable {bytes : List UInt8} {p : ℕ} {c : Chunk}

theorem At.le (h : At bytes p c) : p + c.bytes.length ≤ bytes.length := by
  obtain ⟨before, after, rfl, rfl⟩ := h
  simp

/-- Bytes of a chunk, taken from the file. -/
theorem At.piece (h : At bytes p c) {i n : ℕ} (hin : i + n ≤ c.bytes.length) :
    (bytes.drop (p + i)).take n = (c.bytes.drop i).take n := by
  obtain ⟨before, after, rfl, rfl⟩ := h
  rw [← List.drop_drop, List.drop_left, List.drop_append_of_le_length (by omega),
    List.take_append_of_le_length (by rw [List.length_drop]; omega)]

/-- Reading a piece of a chunk. -/
theorem At.fread (h : At bytes p c) {i n : ℕ} (hin : i + n ≤ c.bytes.length) :
    (Stream.at bytes (p + i)).fread n = ((c.bytes.drop i).take n, .at bytes (p + i + n)) := by
  have hle := h.le
  rw [Stream.fread_at (by omega), h.piece hin]

theorem At.freadOrExit (h : At bytes p c) {i n : ℕ} (hin : i + n ≤ c.bytes.length) :
    freadOrExit (Stream.at bytes (p + i)) n
      = .ok ((c.bytes.drop i).take n, .at bytes (p + i + n)) := by
  rw [Wave.freadOrExit, h.fread hin]
  rfl

/-! ### The fields of a chunk -/

theorem take_id (c : Chunk) : c.bytes.take 4 = c.id := by
  rw [Chunk.bytes, Chunk.content, List.append_assoc, List.append_assoc]
  exact List.take_left' c.length_id

theorem drop_id (c : Chunk) :
    c.bytes.drop 4 = leBytes 4 c.body.length ++ (c.body ++ c.padding) := by
  rw [Chunk.bytes, Chunk.content, List.append_assoc, List.append_assoc]
  exact List.drop_left' c.length_id

theorem take_length (c : Chunk) : (c.bytes.drop 4).take 4 = leBytes 4 c.body.length := by
  rw [drop_id]
  exact List.take_left' (length_leBytes 4 _)

theorem drop_length (c : Chunk) : c.bytes.drop 8 = c.body ++ c.padding := by
  rw [show 8 = 4 + 4 from rfl, ← List.drop_drop, drop_id]
  exact List.drop_left' (length_leBytes 4 _)

theorem take_body (c : Chunk) {n : ℕ} (hn : n ≤ c.body.length) :
    (c.bytes.drop 8).take n = c.body.take n := by
  rw [drop_length, List.take_append_of_le_length hn]

theorem leNat_length (c : Chunk) : leNat (leBytes 4 c.body.length) = c.body.length := by
  rw [leNat_leBytes]
  exact Nat.mod_eq_of_lt c.length_body

/-! ### Moving on -/

theorem skip_at (bytes : List UInt8) (p size : ℕ) :
    skip (.at bytes p) size = .at bytes (p + size + size % 2) := by
  rw [skip, Stream.fseekCur_at (q := p + size) (by push_cast; rfl)]
  dsimp only
  by_cases heven : size % 2 = 0
  · rw [if_neg (by simp [heven]), heven, Nat.add_zero]
  · have hodd : size % 2 = 1 := by omega
    rw [if_pos heven, Stream.fseekCur_at (q := p + size + 1) (by push_cast; rfl), hodd]

/-! ### The branches -/

/-- What the program relies on in a chunk: that a format chunk is complete and its audio is
not compressed, and that a cue chunk holds its points and nothing else. -/
def Readable (c : Chunk) : Prop :=
  (c.id = fmtID → 16 ≤ c.body.length ∧ leNat (c.body.take 2) = 1) ∧
  (c.id = cueID → CueBody c.body)

/-- What a round of the loop notes of the chunk `c` at the place `p`. -/
structure Noted (bytes : List UInt8) (s : Scan) (p : ℕ) (c : Chunk) (s' : Scan) : Prop where
  file : s'.inputFile = .at bytes (p + c.bytes.length)
  format : s'.formatChunk = if isFmt c then some (c.content.take 24) else s.formatChunk
  extra : s'.formatChunkExtraBytes =
    if isFmt c ∧ 16 < c.body.length then ⟨p + 24, c.body.length - 16⟩
    else s.formatChunkExtraBytes
  data : s'.dataChunkLocation =
    if isData c then ⟨p, 8 + c.body.length⟩ else s.dataChunkLocation
  others : s'.otherChunkLocations =
    s.otherChunkLocations ++ if isOther c then [⟨p, 8 + c.body.length⟩] else []

section Branches

variable {env : Env} {s : Scan}

/-- What the branch for a format chunk comes to, before it looks at the compression code. -/
theorem scanFormat_eq (h : At bytes p c) (hfile : s.inputFile = .at bytes (p + 4))
    (hlong : 16 ≤ c.body.length) (hmalloc : ∀ n, env.malloc n = true) :
    scanFormat env s = (do
      exitIf (littleEndianBytesToUInt16 env.toHost (env.stack (p + 24 : ℕ)) (c.body.take 2) ≠ 1)
      if c.body.length - 16 > 0 then
        pure { s with
          inputFile := skip (.at bytes (p + 24)) (c.body.length - 16)
          formatChunk := some (c.content.take 24)
          formatChunkExtraBytes := ⟨(p + 24 : ℕ), (c.body.length - 16 : ℕ)⟩ }
      else
        pure { s with
          inputFile := .at bytes (p + 24)
          formatChunk := some (c.content.take 24) }) := by
  have hbody := c.length_body
  have hbytes := c.length_bytes
  have hback : (Stream.at bytes (p + 4)).fseekCur (-4) = (0, .at bytes (p + 0)) :=
    Stream.fseekCur_at (by push_cast; omega)
  have hchunk : (c.bytes.drop 0).take 24 = c.content.take 24 := by
    rw [List.drop_zero, Chunk.bytes, List.take_append_of_le_length (by simp; omega)]
  have hlen : (c.content.take 24).length = 24 := by
    simp
    omega
  have hcodeField : field (c.content.take 24) 8 2 = c.body.take 2 := by
    have hdrop := take_body c (n := 2) (by omega)
    rw [field, ← hchunk, List.drop_zero, List.drop_take, List.take_take]
    exact hdrop
  have hsizeField : field (c.content.take 24) 4 4 = leBytes 4 c.body.length := by
    rw [field, ← hchunk, List.drop_zero, List.drop_take, List.take_take]
    exact take_length c
  have hextra : u32 (c.body.length + 2 ^ 32 - 16) = c.body.length - 16 := by
    unfold u32
    omega
  rw [scanFormat, exitIf_of_not (by rw [hmalloc]; decide), Outcome.ok_bind, hfile, hback]
  dsimp only
  rw [sizeofFormatChunk, h.freadOrExit (by omega), Outcome.ok_bind, hchunk]
  dsimp only
  rw [complete_of_length hlen, Outcome.ok_bind, hcodeField, hsizeField,
    littleEndianBytesToUInt32_eq, leNat_length, hextra, Nat.add_zero, Stream.ftell_at]

/-- A format chunk that is taken for an uncompressed one is noted. -/
theorem scanFormat_spec (h : At bytes p c) (hfile : s.inputFile = .at bytes (p + 4))
    (hid : c.id = fmtID) (hlong : 16 ≤ c.body.length) (hmalloc : ∀ n, env.malloc n = true)
    (hone : littleEndianBytesToUInt16 env.toHost (env.stack (p + 24 : ℕ)) (c.body.take 2) = 1) :
    ∃ s', scanFormat env s = .ok s' ∧ Noted bytes s p c s' := by
  have hbytes := c.length_bytes
  have hfmt : isFmt c = true := by simp [isFmt, hid]
  have hdata : isData c = false := by simp [isData, hid, ids_distinct.1]
  have hother : isOther c = false := by simp [isOther, hid]
  rw [scanFormat_eq h hfile hlong hmalloc, hone, exitIf_of_not (by decide), Outcome.ok_bind]
  by_cases hmore : c.body.length - 16 > 0
  · rw [if_pos hmore, skip_at]
    refine ⟨_, rfl, ?_, by simp [hfmt], ?_, by simp [hdata], by simp [hother]⟩
    · exact congrArg (Stream.at bytes) (by omega)
    · rw [if_pos ⟨hfmt, by omega⟩]
      simp only [ChunkLocation.mk.injEq]
      omega
  · rw [if_neg hmore]
    refine ⟨_, rfl, ?_, by simp [hfmt], ?_, by simp [hdata], by simp [hother]⟩
    · exact congrArg (Stream.at bytes) (by omega)
    · rw [if_neg fun hboth => hmore (by omega)]

/-- A format chunk that is taken for a compressed one is refused. -/
theorem scanFormat_compressed (h : At bytes p c) (hfile : s.inputFile = .at bytes (p + 4))
    (hlong : 16 ≤ c.body.length) (hmalloc : ∀ n, env.malloc n = true)
    (hone : littleEndianBytesToUInt16 env.toHost (env.stack (p + 24 : ℕ)) (c.body.take 2) ≠ 1) :
    scanFormat env s = .exit (-1) := by
  rw [scanFormat_eq h hfile hlong hmalloc, exitIf, if_pos hone, Outcome.exit_bind]

theorem scanData_spec (h : At bytes p c) (hfile : s.inputFile = .at bytes (p + 4))
    (hid : c.id = dataID) :
    ∃ s', scanData env s = .ok s' ∧ Noted bytes s p c s' := by
  have hbytes := c.length_bytes
  have hfmt : isFmt c = false := by simp [isFmt, hid, ids_distinct.1.symm]
  have hdata : isData c = true := by simp [isData, hid]
  have hother : isOther c = false := by simp [isOther, hid]
  rw [scanData, hfile, h.freadOrExit (by omega), Outcome.ok_bind, take_length]
  dsimp only
  rw [complete_of_length (length_leBytes 4 _), Outcome.ok_bind, littleEndianBytesToUInt32_eq,
    leNat_length, skip_at, Stream.ftell_at]
  refine ⟨_, rfl, ?_, by simp [hfmt], by simp [hfmt], ?_, by simp [hother]⟩
  · exact congrArg (Stream.at bytes) (by omega)
  · rw [if_pos hdata]
    simp only [ChunkLocation.mk.injEq]
    omega

/-- Where the file stands after `n` cue points from the place `q` on, or as many of them as
there are. -/
def afterPoints (bytes : List UInt8) (q n : ℕ) : Stream :=
  { Stream.at bytes (min (q + 24 * n) bytes.length) with
    eof := decide (bytes.length < q + 24 * n) }

/-- The loop over the cue points reads as many as it is told to, if they are there. -/
theorem readCuePoints_spec {q n : ℕ} (hq : q ≤ bytes.length) :
    ∃ cuePoints, forUp 0 (n : ℤ) readCuePoint ([], Stream.at bytes q)
      = Outcome.ok (cuePoints, afterPoints bytes q n) := by
  have hstart : Stream.at bytes q = afterPoints bytes q 0 := by
    rw [afterPoints, Nat.mul_zero, Nat.add_zero, Nat.min_eq_left hq,
      decide_eq_false (Nat.not_lt.mpr hq)]
    rfl
  obtain ⟨⟨cuePoints, f⟩, hloop, hf⟩ := forUp_total readCuePoint (a := 0) (b := (n : ℤ))
    (s := ([], Stream.at bytes q))
    (I := fun i r => r.2 = afterPoints bytes q i.toNat) hstart (by
      rintro i ⟨cuePoints, f⟩ hlo hhi rfl
      have hpos : min (min (q + 24 * i.toNat) bytes.length + 24)
          (max (min (q + 24 * i.toNat) bytes.length) bytes.length)
          = min (q + 24 * (i + 1).toNat) bytes.length := by omega
      have heof : (decide (bytes.length < q + 24 * i.toNat) ||
          decide (bytes.length - min (q + 24 * i.toNat) bytes.length < 24))
          = decide (bytes.length < q + 24 * (i + 1).toNat) := by
        rw [← Bool.decide_or, decide_eq_decide]
        omega
      refine ⟨(cuePoints ++ [(bytes.drop (min (q + 24 * i.toNat) bytes.length)).take 24],
        afterPoints bytes q (i + 1).toNat), ?_, rfl⟩
      rw [readCuePoint, freadOrExit, afterPoints, sizeofCuePoint]
      dsimp only
      rw [Stream.fread_met, hpos, heof]
      rfl)
  refine ⟨cuePoints, hloop.trans ?_⟩
  have hend : (max (0 : ℤ) n).toNat = n := by omega
  dsimp only at hf
  rw [hf, hend, Outcome.pure_eq]

/-- **What the branch for a cue chunk reads**: as many points as the sixteen bits tell it,
and nothing of what is behind them. -/
theorem scanCue_reads (h : At bytes p c) (hfile : s.inputFile = .at bytes (p + 4))
    (hcount : 4 ≤ c.body.length) (hmalloc : ∀ n, env.malloc n = true) :
    ∃ s', scanCue env s = .ok s' ∧
      s'.inputFile = afterPoints bytes (p + 12)
        (littleEndianBytesToUInt16 env.toHost (env.stack (p + 12 : ℕ)) (c.body.take 4)) ∧
      s'.formatChunk = s.formatChunk ∧ s'.formatChunkExtraBytes = s.formatChunkExtraBytes ∧
      s'.dataChunkLocation = s.dataChunkLocation ∧
      s'.otherChunkLocations = s.otherChunkLocations := by
  have hbytes := c.length_bytes
  have hle := h.le
  have hfour : (c.body.take 4).length = 4 := by
    rw [List.length_take]
    omega
  rw [scanCue, hfile, h.freadOrExit (by omega), Outcome.ok_bind, take_length]
  dsimp only
  rw [complete_of_length (length_leBytes 4 _), Outcome.ok_bind,
    h.freadOrExit (i := 8) (by omega), Outcome.ok_bind, take_body c hcount]
  dsimp only
  rw [complete_of_length hfour, Outcome.ok_bind, Stream.ftell_at]
  rw [show p + 8 + 4 = p + 12 from rfl]
  generalize littleEndianBytesToUInt16 env.toHost (env.stack (p + 12 : ℕ)) (c.body.take 4) = n
  have hgranted : ¬ (n > 0 ∧ env.malloc (sizeofCuePoint * n) = false) := by
    rw [hmalloc]
    simp
  obtain ⟨cuePoints, hloop⟩ := @readCuePoints_spec bytes (p + 12) n (by omega)
  rw [if_neg hgranted, hloop, Outcome.ok_bind]
  exact ⟨_, rfl, rfl, rfl, rfl, rfl, rfl⟩

/-- A cue chunk that holds its points and nothing else is behind them. -/
theorem scanCue_spec (h : At bytes p c) (hfile : s.inputFile = .at bytes (p + 4))
    (hid : c.id = cueID) (hbody : CueBody c.body) (hmalloc : ∀ n, env.malloc n = true)
    (hhost : env.littleEndian = true) :
    ∃ s', scanCue env s = .ok s' ∧ Noted bytes s p c s' := by
  obtain ⟨k, hk, htake, hlen⟩ := hbody
  have hbytes := c.length_bytes
  have hle := h.le
  have hfmt : isFmt c = false := by simp [isFmt, hid, ids_distinct.2.1.symm]
  have hdata : isData c = false := by simp [isData, hid, ids_distinct.2.2.symm]
  have hother : isOther c = false := by simp [isOther, hid]
  have hcount : littleEndianBytesToUInt16 env.toHost (env.stack (p + 12 : ℕ)) (c.body.take 4)
      = k := by
    have htwo : (leBytes 4 k).take 2 = leBytes 2 k := rfl
    rw [htake, littleEndianBytesToUInt16_of_littleEndian hhost _ (by simp), htwo, leNat_leBytes]
    exact Nat.mod_eq_of_lt (by omega)
  obtain ⟨s', hrun, hf, hformat, hextra, hdataLocation, hothers⟩ :=
    scanCue_reads h hfile (by omega) hmalloc
  refine ⟨s', hrun, ?_, by simp [hfmt, hformat], by simp [hfmt, hextra],
    by simp [hdata, hdataLocation], by simp [hother, hothers]⟩
  have hend : min (p + 12 + 24 * k) bytes.length = p + c.bytes.length := by omega
  rw [hf, hcount, afterPoints, hend, decide_eq_false (by omega)]
  rfl

theorem scanOther_spec (h : At bytes p c) (hfile : s.inputFile = .at bytes (p + 4))
    (hid : c.id ≠ fmtID ∧ c.id ≠ dataID ∧ c.id ≠ cueID)
    (hroom : s.otherChunkLocations.length < 256) :
    ∃ s', scanOther env s = .ok s' ∧ Noted bytes s p c s' := by
  have hbytes := c.length_bytes
  have hfmt : isFmt c = false := by simp [isFmt, hid.1]
  have hdata : isData c = false := by simp [isData, hid.2.1]
  have hother : isOther c = true := by simp [isOther, hid]
  have hzeros : leBytes 4 c.body.length
      ++ List.replicate (4 - (leBytes 4 c.body.length).length) 0 = leBytes 4 c.body.length := by
    simp
  rw [scanOther, exitIf_of_not (by unfold maxOtherChunks; omega), Outcome.ok_bind, hfile,
    h.freadOrExit (by omega), Outcome.ok_bind, take_length]
  dsimp only
  rw [hzeros, littleEndianBytesToUInt32_eq, leNat_length, skip_at, Stream.ftell_at]
  refine ⟨_, rfl, ?_, by simp [hfmt], by simp [hfmt], by simp [hdata], ?_⟩
  · exact congrArg (Stream.at bytes) (by omega)
  · rw [if_pos hother]
    have hlocation : (⟨((p + 4 : ℕ) : ℤ) - 4, 4 + 4 + c.body.length⟩ : ChunkLocation)
        = ⟨p, 8 + c.body.length⟩ := by
      simp only [ChunkLocation.mk.injEq]
      omega
    exact congrArg (s.otherChunkLocations ++ [·]) hlocation

/-- A round that starts at a chunk takes the branch for its id. -/
theorem scanRound_at (h : At bytes p c) (hfile : s.inputFile = .at bytes p) :
    scanRound env s = (do
      let s' ←
        (if c.id = fmtID then scanFormat env { s with inputFile := .at bytes (p + 4) }
        else if c.id = dataID then scanData env { s with inputFile := .at bytes (p + 4) }
        else if c.id = cueID then scanCue env { s with inputFile := .at bytes (p + 4) }
        else scanOther env { s with inputFile := .at bytes (p + 4) })
      pure (.again s')) := by
  have hbytes := c.length_bytes
  have hnext := h.fread (i := 0) (n := 4) (by omega)
  rw [List.drop_zero, take_id, Nat.add_zero] at hnext
  rw [scanRound, hfile, hnext]
  dsimp only
  rw [if_neg (by simp [Stream.at]), exitIf_of_not (by simp [Stream.at]), Outcome.ok_bind]

/-- A round that starts at a chunk without cue points notes it, if it does not take the audio
for compressed. -/
theorem scanRound_plain (h : At bytes p c) (hfile : s.inputFile = .at bytes p)
    (hcue : c.id ≠ cueID) (hlong : c.id = fmtID → 16 ≤ c.body.length)
    (hone : c.id = fmtID →
      littleEndianBytesToUInt16 env.toHost (env.stack (p + 24 : ℕ)) (c.body.take 2) = 1)
    (hroom : isOther c = true → s.otherChunkLocations.length < 256)
    (hmalloc : ∀ n, env.malloc n = true) :
    ∃ s', scanRound env s = .ok (.again s') ∧ Noted bytes s p c s' := by
  rw [scanRound_at h hfile]
  by_cases hfmt : c.id = fmtID
  · obtain ⟨s', hbranch, hnoted⟩ := scanFormat_spec (s := { s with inputFile := .at bytes (p + 4) })
      h rfl hfmt (hlong hfmt) hmalloc (hone hfmt)
    rw [if_pos hfmt, hbranch]
    exact ⟨s', rfl, hnoted.file, hnoted.format, hnoted.extra, hnoted.data, hnoted.others⟩
  · by_cases hdata : c.id = dataID
    · obtain ⟨s', hbranch, hnoted⟩ := scanData_spec (s := { s with inputFile := .at bytes (p + 4) })
        h rfl hdata
      rw [if_neg hfmt, if_pos hdata, hbranch]
      exact ⟨s', rfl, hnoted.file, hnoted.format, hnoted.extra, hnoted.data, hnoted.others⟩
    · obtain ⟨s', hbranch, hnoted⟩ := scanOther_spec
        (s := { s with inputFile := .at bytes (p + 4) })
        h rfl ⟨hfmt, hdata, hcue⟩ (hroom (by simp [isOther, hfmt, hdata, hcue]))
      rw [if_neg hfmt, if_neg hdata, if_neg hcue, hbranch]
      exact ⟨s', rfl, hnoted.file, hnoted.format, hnoted.extra, hnoted.data, hnoted.others⟩

/-- A round that starts at a cue chunk takes the branch for it. -/
theorem scanRound_cue (h : At bytes p c) (hfile : s.inputFile = .at bytes p) (hid : c.id = cueID) :
    scanRound env s = (do
      let s' ← scanCue env { s with inputFile := .at bytes (p + 4) }
      pure (.again s')) := by
  have hfmt : c.id ≠ fmtID := fun hf => ids_distinct.2.1 (hf.symm.trans hid)
  have hdata : c.id ≠ dataID := fun hd => ids_distinct.2.2 (hd.symm.trans hid)
  rw [scanRound_at h hfile, if_neg hfmt, if_neg hdata, if_pos hid]

/-- **One round** starts at a chunk, ends behind it and notes it. -/
theorem scanRound_spec (h : At bytes p c) (hfile : s.inputFile = .at bytes p)
    (hread : Readable c) (hroom : isOther c = true → s.otherChunkLocations.length < 256)
    (hmalloc : ∀ n, env.malloc n = true) (hhost : env.littleEndian = true) :
    ∃ s', scanRound env s = .ok (.again s') ∧ Noted bytes s p c s' := by
  by_cases hcue : c.id = cueID
  · obtain ⟨s', hbranch, hnoted⟩ := scanCue_spec (s := { s with inputFile := .at bytes (p + 4) })
      h rfl hcue (hread.2 hcue) hmalloc hhost
    rw [scanRound_cue h hfile hcue, hbranch]
    exact ⟨s', rfl, hnoted.file, hnoted.format, hnoted.extra, hnoted.data, hnoted.others⟩
  · refine scanRound_plain h hfile hcue (fun hfmt => (hread.1 hfmt).1) (fun hfmt => ?_) hroom
      hmalloc
    obtain ⟨hlong, hcode⟩ := hread.1 hfmt
    rw [littleEndianBytesToUInt16_of_littleEndian hhost _ (by simp; omega), List.take_take]
    exact hcode

end Branches

/-! ### The places of the chunks -/

/-- The chunks with the places they stand at, the first one at `p`. -/
def places : ℕ → List Chunk → List (ℕ × Chunk)
  | _, [] => []
  | p, c :: chunks => (p, c) :: places (p + c.bytes.length) chunks

/-- Where the chunk is, without its padding. -/
def locationOf (pc : ℕ × Chunk) : ChunkLocation := ⟨pc.1, 8 + pc.2.body.length⟩

theorem places_append (chunks₁ chunks₂ : List Chunk) :
    ∀ p, places p (chunks₁ ++ chunks₂)
      = places p chunks₁ ++ places (p + (encode chunks₁).length) chunks₂ := by
  induction chunks₁ with
  | nil => intro p; rfl
  | cons c chunks₁ ih =>
      intro p
      rw [List.cons_append, places, places, ih, encode_cons, List.length_append, List.cons_append,
        Nat.add_assoc]

/-- Choosing among the places is choosing among the chunks. -/
theorem map_filter_places (kind : Chunk → Bool) (chunks : List Chunk) :
    ∀ p, ((places p chunks).filter (fun pc => kind pc.2)).map Prod.snd
      = chunks.filter kind := by
  induction chunks with
  | nil => intro p; rfl
  | cons c chunks ih =>
      intro p
      rw [places, List.filter_cons, List.filter_cons]
      by_cases hkind : kind c = true
      · rw [if_pos hkind, if_pos hkind, List.map_cons, ih]
      · rw [if_neg hkind, if_neg hkind, ih]

theorem at_of_mem_places {chunks : List Chunk} :
    ∀ {before after : List UInt8}, (p, c) ∈ places before.length chunks →
      At (before ++ (encode chunks ++ after)) p c := by
  induction chunks with
  | nil => intro before after h; cases h
  | cons c' chunks ih =>
      intro before after h
      rw [encode_cons, List.append_assoc]
      rcases List.mem_cons.mp h with hhead | htail
      · cases hhead
        exact ⟨before, encode chunks ++ after, rfl, rfl⟩
      · have hlater : At (before ++ c'.bytes ++ (encode chunks ++ after)) p c :=
          ih (by rw [List.length_append]; exact htail)
        rwa [List.append_assoc] at hlater

/-- The header of a file. -/
def header (chunks : List Chunk) : List UInt8 :=
  Riff.riffID ++ leBytes 4 (waveID.length + (encode chunks).length) ++ waveID

theorem bytes_eq (w : WaveFile) : w.bytes = header w.chunks ++ (encode w.chunks ++ []) := by
  rw [List.append_nil]
  rfl

@[simp] theorem length_header (chunks : List Chunk) : (header chunks).length = 12 := by
  simp [header, Riff.riffID, waveID]

theorem length_bytes (w : WaveFile) : w.bytes.length = 12 + (encode w.chunks).length := by
  rw [bytes_eq]
  simp

/-! ### What the loop has found -/

/-- What is noted once the chunks `seen` are behind. -/
structure Found (seen : List Chunk) (s : Scan) : Prop where
  format : ∀ pc, (places 12 seen).filter (fun pc => isFmt pc.2) = [pc] →
    s.formatChunk = some (pc.2.content.take 24) ∧
      s.formatChunkExtraBytes = if 16 < pc.2.body.length
        then ⟨pc.1 + 24, pc.2.body.length - 16⟩ else ⟨0, 0⟩
  noFormat : (places 12 seen).filter (fun pc => isFmt pc.2) = [] →
    s.formatChunkExtraBytes = ⟨0, 0⟩
  data : ∀ pc, (places 12 seen).filter (fun pc => isData pc.2) = [pc] →
    s.dataChunkLocation = locationOf pc
  others : s.otherChunkLocations
    = ((places 12 seen).filter (fun pc => isOther pc.2)).map locationOf

theorem found_start (f : Stream) : Found [] (.start f) where
  format pc h := by cases h
  noFormat _ := rfl
  data pc h := by cases h
  others := rfl

/-- The chunks of one kind among one more. -/
theorem filter_places_snoc (kind : Chunk → Bool) (seen : List Chunk) (c : Chunk) :
    (places 12 (seen ++ [c])).filter (fun pc => kind pc.2)
      = (places 12 seen).filter (fun pc => kind pc.2) ++
        if kind c then [(12 + (encode seen).length, c)] else [] := by
  rw [places_append, List.filter_append, places, places, List.filter_singleton, cond_eq_ite]

/-- One more chunk is noted. -/
theorem Found.snoc {seen : List Chunk} {s s' : Scan} (h : Found seen s)
    (hnoted : Noted bytes s (12 + (encode seen).length) c s') : Found (seen ++ [c]) s' where
  format pc hpc := by
    rw [filter_places_snoc] at hpc
    rw [hnoted.format, hnoted.extra]
    by_cases hkind : isFmt c = true
    · rw [if_pos hkind] at hpc
      obtain ⟨hnone, hone⟩ := List.append_eq_singleton_iff.mp hpc |>.resolve_right (by simp)
      cases hone
      refine ⟨if_pos hkind, ?_⟩
      by_cases hmore : 16 < c.body.length
      · rw [if_pos ⟨hkind, hmore⟩, if_pos hmore]
      · rw [if_neg fun hboth => hmore hboth.2, if_neg hmore, h.noFormat hnone]
    · rw [if_neg hkind, List.append_nil] at hpc
      rw [if_neg hkind, if_neg fun hboth => hkind hboth.1]
      exact h.format pc hpc
  noFormat hnone := by
    rw [filter_places_snoc, List.append_eq_nil_iff] at hnone
    have hkind : ¬ isFmt c = true := by
      intro hkind
      rw [if_pos hkind] at hnone
      cases hnone.2
    rw [hnoted.extra, if_neg fun hboth => hkind hboth.1, h.noFormat hnone.1]
  data pc hpc := by
    rw [filter_places_snoc] at hpc
    rw [hnoted.data]
    by_cases hkind : isData c = true
    · rw [if_pos hkind] at hpc
      obtain ⟨hnone, hone⟩ := List.append_eq_singleton_iff.mp hpc |>.resolve_right (by simp)
      cases hone
      rw [if_pos hkind]
      rfl
    · rw [if_neg hkind, List.append_nil] at hpc
      rw [if_neg hkind]
      exact h.data pc hpc
  others := by
    rw [hnoted.others, h.others, filter_places_snoc, List.map_append]
    congr 1
    by_cases hkind : isOther c = true
    · rw [if_pos hkind, if_pos hkind]
      rfl
    · rw [if_neg hkind, if_neg hkind]
      rfl

theorem WaveFile.readable (w : WaveFile) (hc : c ∈ w.chunks) : Readable c := by
  refine ⟨fun hid => ?_, w.cue_body c hc⟩
  have hmem : c ∈ w.chunks.filter isFmt := List.mem_filter.mpr ⟨hc, by simp [isFmt, hid]⟩
  rw [w.fmt_only, List.mem_singleton] at hmem
  rw [hmem]
  exact ⟨w.fmt_length, w.fmt_code⟩

/-- **The loop over the chunks** finds all of them and ends at the end of the file. -/
theorem scan_spec (w : WaveFile) {env : Env} (hmalloc : ∀ n, env.malloc n = true)
    (hhost : env.littleEndian = true) :
    ∃ s, loop (scanRound env) (scanFuel (.at w.bytes 12)) (.start (.at w.bytes 12)) = .ok s ∧
      Found w.chunks s ∧ s.inputFile = { Stream.at w.bytes w.bytes.length with eof := true } := by
  refine loop_total (m := Outcome) _
    (I := fun s => ∃ seen ahead, w.chunks = seen ++ ahead ∧ Found seen s ∧
      s.inputFile = .at w.bytes (12 + (encode seen).length))
    (fun s => w.bytes.length - s.inputFile.pos) ?_ _ _
    ⟨[], w.chunks, rfl, found_start _, rfl⟩ (by
      simp only [scanFuel, Scan.start, Stream.at]
      omega)
  rintro s ⟨seen, ahead, hchunks, hfound, hfile⟩
  have hlen := length_bytes w
  cases ahead with
  | nil =>
      rw [List.append_nil] at hchunks
      rw [← hchunks, ← hlen] at hfile
      refine .inr ⟨{ s with inputFile := { Stream.at w.bytes w.bytes.length with eof := true } },
        ?_, hchunks ▸ ⟨hfound.format, hfound.noFormat, hfound.data, hfound.others⟩, rfl⟩
      have hend : (Stream.at w.bytes w.bytes.length).fread 4
          = ([], { Stream.at w.bytes w.bytes.length with eof := true }) :=
        Stream.fread_end (Nat.le_refl _) (by decide) false
      rw [scanRound, hfile, hend]
      rfl
  | cons c ahead =>
      have hmem : c ∈ w.chunks := by rw [hchunks]; simp
      have hplace : At w.bytes (12 + (encode seen).length) c := by
        rw [bytes_eq]
        refine at_of_mem_places ?_
        rw [length_header, hchunks, places_append]
        exact List.mem_append_right _ (by rw [places]; exact List.mem_cons_self)
      have hroom : isOther c = true → s.otherChunkLocations.length < 256 := by
        intro hother
        have hcount := congrArg List.length (map_filter_places isOther seen 12)
        have hmax := w.others_le
        rw [hchunks, List.filter_append, List.length_append, List.filter_cons, if_pos hother,
          List.length_cons] at hmax
        rw [List.length_map] at hcount
        rw [hfound.others, List.length_map, hcount]
        omega
      obtain ⟨s', hround, hnoted⟩ := scanRound_spec hplace hfile (w.readable hmem) hroom hmalloc
        hhost
      have hsnoc : 12 + (encode (seen ++ [c])).length
          = 12 + (encode seen).length + c.bytes.length := by
        simp
        omega
      refine .inl ⟨s', hround, ⟨seen ++ [c], ahead, by rw [hchunks]; simp, hfound.snoc hnoted,
        by rw [hnoted.file, hsnoc]⟩, ?_⟩
      have hle := hplace.le
      have hbytes := c.length_bytes
      rw [hnoted.file, hfile]
      simp only [Stream.at]
      omega

end Csnip.Wave
