/-
What the output file is written as.

`Piece` says that a location is that of a given row of bytes in the input file.  A piece is
copied exactly, block by block, and the new data size is the length of what is written
after it, as long as it is in the 32-bit range; `writeOutput_spec` puts the pieces
together to the marked file.
-/
import Csnip.Wave.Scanned
import Csnip.Wave.Output
import Mathlib.Data.List.Forall2

namespace Csnip.Wave

open LittleEndian Stdio Loop Riff

/-! ### Pieces of the input file -/

/-- The location is that of the row `piece` in the file. -/
def Piece (bytes : List UInt8) (location : ChunkLocation) (piece : List UInt8) : Prop :=
  location.size = piece.length ∧ ∃ before after, bytes = before ++ (piece ++ after) ∧
    location.startOffset = before.length

variable {bytes : List UInt8}

theorem piece_empty (bytes : List UInt8) : Piece bytes ⟨0, 0⟩ [] :=
  ⟨rfl, [], bytes, rfl, rfl⟩

theorem At.content {p : ℕ} {c : Chunk} (h : At bytes p c) :
    Piece bytes (locationOf (p, c)) c.content := by
  obtain ⟨before, after, rfl, rfl⟩ := h
  refine ⟨by simp [locationOf], before, c.padding ++ after, ?_, rfl⟩
  rw [Chunk.bytes, List.append_assoc]

/-- The bytes of a format chunk behind the part that is kept. -/
theorem At.extra {p : ℕ} {c : Chunk} (h : At bytes p c) (hlong : 16 ≤ c.body.length) :
    Piece bytes ⟨p + 24, c.body.length - 16⟩ (c.body.drop 16) := by
  obtain ⟨before, after, rfl, rfl⟩ := h
  refine ⟨by simp; omega, before ++ (c.id ++ leBytes 4 c.body.length ++ c.body.take 16),
    c.padding ++ after, ?_, ?_⟩
  · simp only [Chunk.bytes, Chunk.content, List.append_assoc]
    rw [← List.append_assoc (c.body.take 16), List.take_append_drop]
  · simp [c.length_id]
    omega

/-- What the loop found is where the chunks are. -/
theorem found_pieces {w : WaveFile} {s : Scan} (h : Found w.chunks s) :
    s.formatChunk = some (w.fmt.content.take 24) ∧
    Piece w.bytes s.formatChunkExtraBytes (w.fmt.body.drop 16) ∧
    Piece w.bytes s.dataChunkLocation w.data.content ∧
    List.Forall₂ (Piece w.bytes) s.otherChunkLocations (w.others.map Chunk.content) := by
  have hplaces : ∀ p c, (p, c) ∈ places 12 w.chunks → At w.bytes p c := by
    intro p c hmem
    rw [bytes_eq]
    exact at_of_mem_places (by rw [length_header]; exact hmem)
  have hone : ∀ (kind : Chunk → Bool) (c : Chunk), w.chunks.filter kind = [c] →
      ∃ p, (places 12 w.chunks).filter (fun pc => kind pc.2) = [(p, c)] := by
    intro kind c hkind
    rw [← map_filter_places kind w.chunks 12] at hkind
    obtain ⟨pc, hpc, rfl⟩ := List.map_eq_singleton_iff.mp hkind
    exact ⟨pc.1, hpc⟩
  have hin : ∀ {kind : Chunk → Bool} {pc : ℕ × Chunk},
      (places 12 w.chunks).filter (fun pc => kind pc.2) = [pc] →
      At w.bytes pc.1 pc.2 := by
    intro kind pc hpc
    have hmem : pc ∈ (places 12 w.chunks).filter (fun pc => kind pc.2) := by rw [hpc]; simp
    exact hplaces pc.1 pc.2 (List.mem_filter.mp hmem).1
  obtain ⟨p, hp⟩ := hone isFmt w.fmt w.fmt_only
  obtain ⟨q, hq⟩ := hone isData w.data w.data_only
  obtain ⟨hformat, hextra⟩ := h.format _ hp
  refine ⟨hformat, ?_, ?_, ?_⟩
  · rw [hextra]
    have hlong := w.fmt_length
    by_cases hmore : 16 < w.fmt.body.length
    · rw [if_pos hmore]
      exact (hin hp).extra hlong
    · have hnone : w.fmt.body.drop 16 = [] := List.drop_eq_nil_of_le (by omega)
      rw [if_neg hmore, hnone]
      exact piece_empty _
  · rw [h.data _ hq]
    exact (hin hq).content
  · have hothers := map_filter_places isOther w.chunks 12
    rw [h.others, WaveFile.others, ← hothers, List.map_map, List.forall₂_map_left_iff,
      List.forall₂_map_right_iff, List.forall₂_same]
    rintro ⟨r, c⟩ hmem
    exact (hplaces r c (List.mem_filter.mp hmem).1).content

/-! ### Copying a piece -/

theorem fwriteOrExit_of (written bytes : List UInt8) :
    fwriteOrExit (.of written) bytes = .ok (.of (written ++ bytes)) := by
  rw [fwriteOrExit, Sink.fwrite_of]
  dsimp only
  rw [exitIf_of_not (by omega)]
  rfl

/-- One block is copied. -/
theorem copyBlock_spec (written : List UInt8) (remaining : ℤ) {before block after : List UInt8}
    {n : ℕ} (hbytes : bytes = before ++ (block ++ after)) (hn : block.length = n) :
    copyBlock ⟨.at bytes before.length, .of written, remaining⟩ n
      = .ok ⟨.at bytes (before ++ block).length, .of (written ++ block), remaining - n⟩ := by
  have hread : (Stream.at bytes before.length).fread n
      = (block, .at bytes (before ++ block).length) := by
    subst hn
    rw [Stream.fread_at (by rw [hbytes]; simp), hbytes, List.drop_left, List.take_left,
      List.length_append]
  rw [copyBlock, freadOrExit]
  dsimp only
  rw [hread]
  dsimp only
  rw [exitIf_of_not (by simp [Stream.at]), Outcome.ok_bind, Outcome.pure_eq, Outcome.ok_bind]
  dsimp only
  rw [complete_of_length hn, Outcome.ok_bind, fwriteOrExit_of]
  rfl

/-- The loop over the blocks leaves less than one of them. -/
theorem copyLoop_spec {before piece after written : List UInt8}
    (hbytes : bytes = before ++ (piece ++ after)) :
    ∃ copied left, piece = copied ++ left ∧ left.length < 1024 ∧
      loop copyRound (((piece.length : ℤ) / 1024).toNat + 1)
          ⟨.at bytes before.length, .of written, piece.length⟩
        = .ok ⟨.at bytes (before ++ copied).length, .of (written ++ copied), left.length⟩ := by
  obtain ⟨c, hloop, copied, left, hpiece, hleft, rfl⟩ := loop_total copyRound
    (I := fun c => ∃ copied left, piece = copied ++ left ∧
      c = ⟨.at bytes (before ++ copied).length, .of (written ++ copied), left.length⟩)
    (Q := fun c => ∃ copied left, piece = copied ++ left ∧ left.length < 1024 ∧
      c = ⟨.at bytes (before ++ copied).length, .of (written ++ copied), left.length⟩)
    (fun c => (c.remainingBytesToWrite / 1024).toNat) (by
      rintro c ⟨copied, left, rfl, rfl⟩
      by_cases hmore : (left.length : ℤ) ≥ 1024
      · have hblock : (left.take 1024).length = 1024 := by simp; omega
        have hcut : bytes
            = (before ++ copied) ++ (left.take 1024 ++ (left.drop 1024 ++ after)) := by
          rw [hbytes, ← List.append_assoc (left.take 1024), List.take_append_drop]
          simp
        have hcopy := copyBlock_spec (written ++ copied) (left.length : ℤ) hcut hblock
        have hrest : (left.length : ℤ) - (1024 : ℕ) = (left.drop 1024).length := by
          rw [List.length_drop]
          omega
        refine .inl ⟨_, ?_, ⟨copied ++ left.take 1024, left.drop 1024, ?_, rfl⟩, ?_⟩
        · rw [copyRound, if_pos hmore, hcopy, hrest]
          simp only [Outcome.ok_bind, List.append_assoc]
        · rw [List.append_assoc, List.take_append_drop]
        · dsimp only
          rw [← hrest]
          omega
      · exact .inr ⟨_, by rw [copyRound, if_neg hmore], copied, left, rfl, by omega, rfl⟩)
    (((piece.length : ℤ) / 1024).toNat + 1) ⟨.at bytes before.length, .of written, piece.length⟩
    ⟨[], piece, rfl, by simp⟩ (by dsimp only; omega)
  exact ⟨copied, left, hpiece, hleft, hloop⟩

/-- **A piece is copied exactly**, whatever its length. -/
theorem copy_spec {f : Stream} {location : ChunkLocation} {piece : List UInt8}
    (written : List UInt8) (h : Piece bytes location piece) (hbytes : f.bytes = bytes)
    (herror : f.error = false) (hfaults : f.faults = []) :
    ∃ p, writeChunkLocationFromInputFileToOutputFile location f (.of written)
      = .ok (.at bytes p, .of (written ++ piece)) := by
  obtain ⟨hsize, before, after, hcut, hstart⟩ := h
  obtain ⟨copied, left, hpiece, hshort, hloop⟩ := copyLoop_spec hcut
  have hleft : bytes = (before ++ copied) ++ (left ++ after) := by rw [hcut, hpiece]; simp
  refine ⟨(before ++ copied ++ left).length, ?_⟩
  rw [writeChunkLocationFromInputFileToOutputFile, hstart,
    Stream.fseekSet_at f hbytes herror hfaults]
  dsimp only
  rw [exitIf_of_not (by omega), Outcome.ok_bind, hsize, hloop, Outcome.ok_bind]
  dsimp only
  by_cases hmore : (left.length : ℤ) > 0
  · rw [if_pos hmore, copyBlock_spec _ _ hleft (by simp), Outcome.ok_bind]
    dsimp only
    rw [hpiece]
    simp
  · have hnone : left = [] := List.length_eq_zero_iff.mp (by omega)
    rw [if_neg hmore, hpiece, hnone]
    simp

/-- The padding of a row of bytes. -/
def zeroPad (n : ℕ) : List UInt8 := List.replicate (n % 2) 0

theorem copyPadded_spec {f : Stream} {location : ChunkLocation} {piece : List UInt8}
    (written : List UInt8) (h : Piece bytes location piece) (hbytes : f.bytes = bytes)
    (herror : f.error = false) (hfaults : f.faults = []) :
    ∃ p, copyPadded (f, .of written) location
      = .ok (.at bytes p, .of (written ++ (piece ++ zeroPad piece.length))) := by
  obtain ⟨p, hcopy⟩ := copy_spec written h hbytes herror hfaults
  refine ⟨p, ?_⟩
  rw [copyPadded, hcopy, Outcome.ok_bind, h.1]
  dsimp only
  by_cases hodd : (piece.length : ℤ) % 2 ≠ 0
  · have hpad : zeroPad piece.length = [0] := by
      rw [zeroPad, show piece.length % 2 = 1 by omega]
      rfl
    rw [if_pos hodd, fwriteOrExit_of, hpad]
    simp
  · have hpad : zeroPad piece.length = [] := by
      rw [zeroPad, show piece.length % 2 = 0 by omega]
      rfl
    rw [if_neg hodd, hpad, List.append_nil]
    rfl

/-- Rows of bytes, each with its padding. -/
def padded (pieces : List (List UInt8)) : List UInt8 :=
  pieces.flatMap fun piece => piece ++ zeroPad piece.length

theorem copyAll_spec {locations : List ChunkLocation} {pieces : List (List UInt8)}
    (h : List.Forall₂ (Piece bytes) locations pieces) :
    ∀ (f : Stream) (written : List UInt8), f.bytes = bytes → f.error = false →
      f.faults = [] → ∃ g, copyAll (f, .of written) locations
        = .ok (g, .of (written ++ padded pieces)) ∧
        g.bytes = bytes ∧ g.error = false ∧ g.faults = [] := by
  induction h with
  | nil =>
      intro f written hbytes herror hfaults
      exact ⟨f, by simp [copyAll, padded], hbytes, herror, hfaults⟩
  | @cons location piece locations pieces hpiece _ ih =>
      intro f written hbytes herror hfaults
      obtain ⟨p, hcopy⟩ := copyPadded_spec written hpiece hbytes herror hfaults
      obtain ⟨g, hall, hg⟩ := ih (.at bytes p) (written ++ (piece ++ zeroPad piece.length)) rfl
        rfl rfl
      refine ⟨g, ?_, hg⟩
      rw [copyAll, List.foldlM_cons, hcopy, Outcome.ok_bind]
      rw [copyAll] at hall
      rw [hall, padded, padded, List.flatMap_cons, List.append_assoc]

theorem fwriteAll_of (pieces : List (List UInt8)) :
    ∀ written, fwriteAll (.of written) pieces = .ok (.of (written ++ pieces.flatten)) := by
  induction pieces with
  | nil => intro written; simp [fwriteAll]
  | cons piece pieces ih =>
      intro written
      rw [fwriteAll, List.foldlM_cons, fwriteOrExit_of, Outcome.ok_bind, ← fwriteAll, ih,
        List.flatten_cons, List.append_assoc]

/-! ### The size of the file -/

@[simp] theorem length_zeroPad (n : ℕ) : (zeroPad n).length = n % 2 := List.length_replicate

theorem addPadded_of_lt {n size : ℕ} (h : n + size + size % 2 < 2 ^ 32) :
    addPadded n size = n + size + size % 2 := by
  have hsum : (((n : ℤ) + size) % 2 ^ 32).toNat = n + size := by omega
  rw [addPadded, hsum]
  by_cases hodd : (size : ℤ) % 2 ≠ 0
  · rw [if_pos hodd, u32_of_lt (by omega)]
    omega
  · rw [if_neg hodd]
    omega

/-- The size of the padded pieces is added. -/
theorem foldl_addPadded {locations : List ChunkLocation} {pieces : List (List UInt8)}
    (h : List.Forall₂ (Piece bytes) locations pieces) :
    ∀ n : ℕ, n + (padded pieces).length < 2 ^ 32 →
      (locations.map ChunkLocation.size).foldl addPadded n = n + (padded pieces).length := by
  induction h with
  | nil => intro n _; rfl
  | @cons location piece locations pieces hpiece _ ih =>
      intro n hfits
      have hlen : (padded (piece :: pieces)).length
          = piece.length + piece.length % 2 + (padded pieces).length := by
        simp [padded]
        omega
      rw [List.map_cons, List.foldl_cons, hpiece.1, addPadded_of_lt (by omega), ih _ (by omega)]
      omega

/-- **The new data size** is the length of what follows it in the file. -/
theorem newFileDataSize_spec {s : Scan} {extra data : List UInt8}
    {others : List (List UInt8)} (count : ℕ)
    (hextra : Piece bytes s.formatChunkExtraBytes extra)
    (hdata : Piece bytes s.dataChunkLocation data)
    (hothers : List.Forall₂ (Piece bytes) s.otherChunkLocations others)
    (hfits : 40 + (extra.length + extra.length % 2) + (data.length + data.length % 2) +
      (padded others).length + 24 * count < 2 ^ 32) :
    newFileDataSize s count = 40 + (extra.length + extra.length % 2) +
      (data.length + data.length % 2) + (padded others).length + 24 * count := by
  have hstart : u32 (u32 (0 + 4) + sizeofFormatChunk) = 28 := rfl
  have hfold := foldl_addPadded hothers
    (28 + extra.length + extra.length % 2 + data.length + data.length % 2) (by omega)
  unfold newFileDataSize
  simp only [hstart]
  rw [hextra.1, addPadded_of_lt (by omega), hdata.1, addPadded_of_lt (by omega), hfold]
  unfold u32 sizeofCuePoint
  omega

/-! ### The new cue chunk -/

theorem cuePoint_eq (host : Host) : cuePoint host = point := by
  funext i n
  have hindex : leBytes 4 (u32 (i + 1)) = leBytes 4 (i + 1) := leBytes_mod 4 (i + 1)
  simp only [cuePoint, point, uint32ToLittleEndianBytes_eq, hindex]

theorem newCueChunk_eq (host : Host) (positions : List ℕ) :
    newCueChunk host positions = {
      chunkID := cueID
      chunkDataSize := leBytes 4 (4 + 24 * positions.length)
      cuePointsCount := leBytes 4 positions.length
      cuePoints := positions.mapIdx point } := by
  have hsize : leBytes 4 (u32 (4 + 24 * positions.length))
      = leBytes 4 (4 + 24 * positions.length) := leBytes_mod 4 _
  simp only [newCueChunk, uint32ToLittleEndianBytes_eq, cuePoint_eq, sizeofCuePoint, hsize]

/-! ### The chunks of the marked file -/

theorem bytes_repad (c : Chunk) : (repad c).bytes = c.content ++ zeroPad c.content.length := by
  have hparity : (8 + c.body.length) % 2 = c.body.length % 2 := by omega
  rw [Chunk.bytes, content_repad, zeroPad, Chunk.length_content, hparity]
  rfl

theorem encode_map_repad (chunks : List Chunk) :
    encode (chunks.map repad) = padded (chunks.map Chunk.content) := by
  simp only [encode, padded, List.flatMap_map, bytes_repad]

/-- A format chunk is written in two pieces. -/
theorem format_pieces {c : Chunk} (hlong : 16 ≤ c.body.length) :
    c.content.take 24 ++ (c.body.drop 16 ++ zeroPad (c.body.drop 16).length)
      = (repad c).bytes := by
  have hparity : (c.body.length - 16) % 2 = (8 + c.body.length) % 2 := by omega
  have htail : c.body.drop 16 = c.content.drop 24 := by
    have hhead : (c.id ++ leBytes 4 c.body.length).length = 8 := by simp [c.length_id]
    rw [Chunk.content, show 24 = 8 + 16 from rfl, ← List.drop_drop, List.drop_left' hhead]
  rw [bytes_repad, zeroPad, zeroPad, List.length_drop, hparity, Chunk.length_content, htail,
    ← List.append_assoc, List.take_append_drop]

theorem bytes_cueChunkOf {positions : List ℕ} (h : positions.length ≤ 1000) :
    (cueChunkOf positions h).bytes = cueID ++ leBytes 4 (4 + 24 * positions.length) ++
      leBytes 4 positions.length ++ points positions := by
  have hlen : (leBytes 4 positions.length ++ points positions).length
      = 4 + 24 * positions.length := by simp
  simp only [Chunk.bytes, Chunk.content, cueChunkOf, hlen, List.append_nil, List.append_assoc]

theorem encode_markedChunks (w : WaveFile) {positions : List ℕ} (h : positions.length ≤ 1000) :
    encode (w.markedChunks positions h) = (repad w.fmt).bytes ++
      (cueID ++ leBytes 4 (4 + 24 * positions.length) ++ leBytes 4 positions.length) ++
      (positions.mapIdx point).flatten ++ padded (w.others.map Chunk.content) ++
      (w.data.content ++ zeroPad w.data.content.length) := by
  simp only [WaveFile.markedChunks, encode_cons, encode_append, encode_map_repad, encode_nil,
    bytes_cueChunkOf, bytes_repad w.data, points, List.append_nil, List.append_assoc]

/-- The marked file, in the pieces in which it is written. -/
theorem file_markedChunks (w : WaveFile) {positions : List ℕ} (h : positions.length ≤ 1000) :
    Riff.file waveID (w.markedChunks positions h) = Riff.riffID ++
      leBytes 4 (waveID.length + (encode (w.markedChunks positions h)).length) ++ waveID ++
      (repad w.fmt).bytes ++
      (cueID ++ leBytes 4 (4 + 24 * positions.length) ++ leBytes 4 positions.length) ++
      (positions.mapIdx point).flatten ++ padded (w.others.map Chunk.content) ++
      (w.data.content ++ zeroPad w.data.content.length) := by
  have hchunks := congrArg (fun chunks => Riff.riffID ++
    leBytes 4 (waveID.length + (encode (w.markedChunks positions h)).length) ++ waveID ++ chunks)
    (encode_markedChunks w h)
  rw [Riff.file]
  simpa only [List.append_assoc] using hchunks

/-- The data size of the marked file, as the program adds it up. -/
theorem length_encode_markedChunks (w : WaveFile) {positions : List ℕ}
    (h : positions.length ≤ 1000) :
    waveID.length + (encode (w.markedChunks positions h)).length
      = 40 + ((w.fmt.body.drop 16).length + (w.fmt.body.drop 16).length % 2) +
        (w.data.content.length + w.data.content.length % 2) +
        (padded (w.others.map Chunk.content)).length + 24 * positions.length := by
  have hlong := w.fmt_length
  have hpoints : ((positions.mapIdx point).flatten).length = 24 * positions.length :=
    length_points positions
  have hwave : waveID.length = 4 := rfl
  have hcue : cueID.length = 4 := rfl
  rw [encode_markedChunks, ← format_pieces hlong]
  simp only [List.length_append, length_zeroPad, length_leBytes, hpoints, hwave, hcue,
    List.length_take, Chunk.length_content, List.length_drop]
  omega

/-! ### The output file -/

/-- Behind the header and the head of the format chunk, the rest of that chunk is copied. -/
theorem copyFormat_spec (w : WaveFile) {s : Scan} (written : List UInt8)
    (hextra : Piece w.bytes s.formatChunkExtraBytes (w.fmt.body.drop 16))
    (hfile : s.inputFile = { Stream.at w.bytes w.bytes.length with eof := true }) :
    ∃ f, (if s.formatChunkExtraBytes.size > 0 then
        copyPadded (s.inputFile, .of (written ++ w.fmt.content.take 24)) s.formatChunkExtraBytes
      else pure (s.inputFile, .of (written ++ w.fmt.content.take 24)))
      = Outcome.ok (f, Sink.of (written ++ (repad w.fmt).bytes)) ∧
      f.bytes = w.bytes ∧ f.error = false ∧ f.faults = [] := by
  rw [← format_pieces w.fmt_length, ← List.append_assoc written]
  by_cases hmore : s.formatChunkExtraBytes.size > 0
  · obtain ⟨p, hcopy⟩ := copyPadded_spec (f := s.inputFile) (written ++ w.fmt.content.take 24)
      hextra (by rw [hfile]; rfl) (by rw [hfile]; rfl) (by rw [hfile]; rfl)
    exact ⟨.at w.bytes p, by rw [if_pos hmore, hcopy], rfl, rfl, rfl⟩
  · have hlen := hextra.1
    have hnone : w.fmt.body.drop 16 = [] := List.length_eq_zero_iff.mp (by omega)
    refine ⟨s.inputFile, ?_, by rw [hfile]; rfl, by rw [hfile]; rfl, by rw [hfile]; rfl⟩
    rw [if_neg hmore, hnone]
    simp [zeroPad]

/-- **What is written is the marked file.** -/
theorem writeOutput_spec (w : WaveFile) (host : Host) {s : Scan} {positions : List ℕ}
    (h : positions.length ≤ 1000) (hfound : Found w.chunks s)
    (hfile : s.inputFile = { Stream.at w.bytes w.bytes.length with eof := true })
    (hfits : (Riff.file waveID (w.markedChunks positions h)).length < 2 ^ 32) :
    writeOutput host (header w.chunks) (w.fmt.content.take 24) s positions (.of [])
      = .ok (.of (Riff.file waveID (w.markedChunks positions h))) := by
  obtain ⟨-, hextra, hdata, hothers⟩ := found_pieces hfound
  rw [length_file, Nat.add_assoc, length_encode_markedChunks] at hfits
  have hsize := newFileDataSize_spec positions.length hextra hdata hothers (by omega)
  rw [← length_encode_markedChunks w h] at hsize
  have hid : field (header w.chunks) 0 4 = Riff.riffID := by simp [field, header, Riff.riffID]
  have hkind : field (header w.chunks) 8 4 = waveID := by
    rw [field, header, List.drop_left' (by simp [Riff.riffID])]
    rfl
  have hcount : littleEndianBytesToUInt32 host (leBytes 4 positions.length)
      = positions.length := by
    rw [littleEndianBytesToUInt32_eq, leNat_leBytes]
    exact Nat.mod_eq_of_lt (by omega)
  have hall : (positions.mapIdx point).take positions.length = positions.mapIdx point :=
    List.take_of_length_le (by simp)
  obtain ⟨f, hformat, hfbytes, hferror, hffaults⟩ := copyFormat_spec w (s := s)
    (Riff.riffID ++ leBytes 4 (waveID.length + (encode (w.markedChunks positions h)).length) ++
      waveID) hextra hfile
  obtain ⟨g, hcopyAll, hgbytes, hgerror, hgfaults⟩ :=
    copyAll_spec hothers f _ hfbytes hferror hffaults
  obtain ⟨p, hcopyData⟩ := copyPadded_spec _ hdata hgbytes hgerror hgfaults
  rw [writeOutput]
  simp only [newCueChunk_eq, uint32ToLittleEndianBytes_eq, hid, hkind, hsize]
  rw [fwriteOrExit_of, Outcome.ok_bind, fwriteOrExit_of, Outcome.ok_bind, List.nil_append,
    hformat, Outcome.ok_bind]
  dsimp only
  rw [fwriteOrExit_of, Outcome.ok_bind, hcount, hall, fwriteAll_of, Outcome.ok_bind, hcopyAll,
    Outcome.ok_bind]
  dsimp only
  rw [hcopyData, file_markedChunks]
  rfl

end Csnip.Wave
