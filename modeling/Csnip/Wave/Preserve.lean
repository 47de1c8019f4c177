/-
Adding markers preserves a wave file.

On a little-endian host everything comes together: the input is read to the end, the
markers file gives its positions, and what is written is the marked file
(`addMarkers_marked`).  On a big-endian host the compression code is read from bytes of the
stack that were not written to; when they are zero, no format chunk is accepted, and the
program leaves with -1 whatever the file (`bigEndian_refuses`).
-/
import Csnip.Wave.MarkerLines
import Csnip.Wave.Written

namespace Csnip.Wave

open LittleEndian Stdio Loop Riff

/-! ### A little-endian host -/

/-- Reading the input file. -/
theorem readInput_spec (w : WaveFile) {env : Env} (hmalloc : ∀ n, env.malloc n = true)
    (hhost : env.littleEndian = true) :
    ∃ s, readInput env (.fopen w.bytes []) = .ok (header w.chunks, s) ∧ Found w.chunks s ∧
      s.inputFile = { Stream.at w.bytes w.bytes.length with eof := true } := by
  obtain ⟨s, hloop, hfound, hfile⟩ := scan_spec w hmalloc hhost
  obtain ⟨hformat, -, hdata, -⟩ := found_pieces hfound
  refine ⟨s, ?_, hfound, hfile⟩
  have hlen := length_bytes w
  have hfits := w.fits
  have hbytes : (Riff.file waveID w.chunks).length = w.bytes.length := rfl
  have hopen : Stream.fopen w.bytes [] = .at w.bytes 0 := rfl
  have hread : (Stream.at w.bytes 0).fread 12 = (header w.chunks, .at w.bytes 12) := by
    rw [Stream.fread_at (by omega), List.drop_zero, bytes_eq,
      List.take_left' (length_header w.chunks)]
  have hid : field (header w.chunks) 0 4 = riffID := by simp [field, header, riffID, Riff.riffID]
  have hkind : field (header w.chunks) 8 4 = waveID := by
    rw [field, header, List.drop_left' (by simp [Riff.riffID])]
    rfl
  have hsize : leNat (field (header w.chunks) 4 4) = 4 + (encode w.chunks).length := by
    have hfield : field (header w.chunks) 4 4
        = leBytes 4 (waveID.length + (encode w.chunks).length) := by
      simp [field, header, Riff.riffID]
    have hwave : waveID.length = 4 := rfl
    rw [hfield, leNat_leBytes, hwave]
    exact Nat.mod_eq_of_lt (by omega)
  have hsome : 0 < (encode w.chunks).length := by
    have hmem : w.fmt ∈ w.chunks := by
      have hfilter : w.fmt ∈ w.chunks.filter isFmt := by rw [w.fmt_only]; simp
      exact (List.mem_filter.mp hfilter).1
    have hone := w.fmt.length_bytes
    obtain ⟨seen, ahead, hcut⟩ := List.append_of_mem hmem
    rw [hcut, encode_append, encode_cons]
    simp only [List.length_append]
    omega
  have hremaining : u32 (leNat (field (header w.chunks) 4 4) + 2 ^ 32 - 4)
      = (encode w.chunks).length := by
    rw [hsize]
    unfold u32
    omega
  have henough : ¬ (s.formatChunk = none ∨ s.dataChunkLocation.size = 0) := by
    rw [hformat, hdata.1, Chunk.length_content]
    simp
    omega
  rw [readInput, exitIf_of_not (by rw [hmalloc]; decide), Outcome.ok_bind, hopen, freadOrExit,
    sizeofWaveHeader]
  dsimp only
  rw [hread]
  dsimp only
  rw [exitIf_of_not (by simp [Stream.at]), Outcome.ok_bind, Outcome.pure_eq, Outcome.ok_bind]
  dsimp only
  rw [complete_of_length (length_header _), Outcome.ok_bind, hid, exitIf_of_not (by simp),
    Outcome.ok_bind, hkind, exitIf_of_not (by simp), Outcome.ok_bind,
    littleEndianBytesToUInt32_eq, hremaining, exitIf_of_not (by omega), Outcome.ok_bind, hloop,
    Outcome.ok_bind, exitIf_of_not henough, Outcome.ok_bind]
  rfl

variable {w : WaveFile} {text : List UInt8} {positions : List ℕ}

/-- **On a little-endian host** the output is the marked file. -/
theorem addMarkers_marked {env : Env} (option : CuePointMergingOption)
    (htext : MarkerText text positions) (hsome : positions ≠ [])
    (hfew : positions.length ≤ 1000) (hsmall : ∀ n ∈ positions, n < 2 ^ 32 - 1)
    (hfits : (Riff.file waveID (w.markedChunks positions hfew)).length < 2 ^ 32)
    (hmalloc : ∀ n, env.malloc n = true) (hhost : env.littleEndian = true) :
    addMarkersToWaveFile env (some (.fopen w.bytes [])) (some (.fopen text []))
      (some (.of [])) option = .ok (0, (w.marked positions hfew hfits).bytes) := by
  obtain ⟨s, hinput, hfound, hfile⟩ := readInput_spec w hmalloc hhost
  obtain ⟨hformat, -⟩ := found_pieces hfound
  have hlocations := locations_small htext hsmall
  have hmarkers : readMarkers env.toHost (.fopen text []) = .ok positions := by
    rw [readMarkers_locations _ (by rw [hlocations]; exact hfew), hlocations, if_neg hsome]
  rw [addMarkersToWaveFile, fopenOrExit, Outcome.ok_bind, fopenOrExit, Outcome.ok_bind, hinput,
    Outcome.ok_bind]
  dsimp only
  rw [hmarkers, Outcome.ok_bind, exitIf_of_not (by rw [hmalloc]; decide), Outcome.ok_bind,
    fopenOrExit, Outcome.ok_bind, hformat, Outcome.ofOption_some, Outcome.ok_bind,
    writeOutput_spec w env.toHost hfew hfound hfile hfits]
  rfl

/-! ### A big-endian host -/

section BigEndian

variable {env : Env}

theorem exitIf_eq_ok {p : Prop} [Decidable p] {u : Unit} (h : exitIf p = .ok u) : ¬ p := by
  intro hp
  rw [exitIf, if_pos hp] at h
  cases h

/-- No format chunk is accepted when the stack holds zeros. -/
theorem scanFormat_refuses (hhost : env.littleEndian = false)
    (hstack : ∀ p, env.stack p = (0, 0)) (s s' : Scan) : scanFormat env s ≠ .ok s' := by
  intro h
  rw [scanFormat] at h
  obtain ⟨_, -, h⟩ := Outcome.bind_eq_ok.mp h
  obtain ⟨⟨chunk, f⟩, -, h⟩ := Outcome.bind_eq_ok.mp h
  obtain ⟨chunk', hcomplete, h⟩ := Outcome.bind_eq_ok.mp h
  obtain ⟨_, hcode, -⟩ := Outcome.bind_eq_ok.mp h
  refine exitIf_eq_ok hcode ?_
  have hlen : chunk'.length = sizeofFormatChunk := by
    rw [complete] at hcomplete
    split at hcomplete
    · next hlen => cases hcomplete; exact hlen
    · cases hcomplete
  have htwo : 2 ≤ (field chunk' 8 2).length := by
    simp [field, hlen, sizeofFormatChunk]
  rw [littleEndianBytesToUInt16_of_bigEndian hhost _ htwo, hstack]
  decide

/-! The other branches do not touch the format chunk. -/

theorem scanData_formatChunk {s t : Scan} (h : scanData env s = .ok t) :
    t.formatChunk = s.formatChunk := by
  rw [scanData] at h
  obtain ⟨_, -, h⟩ := Outcome.bind_eq_ok.mp h
  obtain ⟨_, -, h⟩ := Outcome.bind_eq_ok.mp h
  cases h
  rfl

theorem scanCue_formatChunk {s t : Scan} (h : scanCue env s = .ok t) :
    t.formatChunk = s.formatChunk := by
  rw [scanCue] at h
  obtain ⟨_, -, h⟩ := Outcome.bind_eq_ok.mp h
  obtain ⟨_, -, h⟩ := Outcome.bind_eq_ok.mp h
  obtain ⟨_, -, h⟩ := Outcome.bind_eq_ok.mp h
  obtain ⟨_, -, h⟩ := Outcome.bind_eq_ok.mp h
  obtain ⟨_, -, h⟩ := Outcome.bind_eq_ok.mp h
  cases h
  rfl

theorem scanOther_formatChunk {s t : Scan} (h : scanOther env s = .ok t) :
    t.formatChunk = s.formatChunk := by
  rw [scanOther] at h
  obtain ⟨_, -, h⟩ := Outcome.bind_eq_ok.mp h
  obtain ⟨_, -, h⟩ := Outcome.bind_eq_ok.mp h
  cases h
  rfl

/-- A round finds no format chunk. -/
theorem scanRound_keeps (hhost : env.littleEndian = false)
    (hstack : ∀ p, env.stack p = (0, 0)) {s s' : Scan} (hs : s.formatChunk = none)
    (h : scanRound env s = .ok (.again s') ∨ scanRound env s = .ok (.done s')) :
    s'.formatChunk = none := by
  have hround : ∃ r, scanRound env s = .ok r ∧ (r = .again s' ∨ r = .done s') := by
    rcases h with h | h
    · exact ⟨_, h, .inl rfl⟩
    · exact ⟨_, h, .inr rfl⟩
  obtain ⟨r, hr, hcases⟩ := hround
  rw [scanRound] at hr
  dsimp only at hr
  split at hr
  · cases hr
    rcases hcases with hcase | hcase
    · cases hcase
    · cases hcase
      exact hs
  · obtain ⟨_, -, hr⟩ := Outcome.bind_eq_ok.mp hr
    obtain ⟨t, hbranch, hr⟩ := Outcome.bind_eq_ok.mp hr
    cases hr
    have hsame : t = s' := by
      rcases hcases with hcase | hcase
      · cases hcase
        rfl
      · cases hcase
    subst hsame
    split at hbranch
    · exact absurd hbranch (scanFormat_refuses hhost hstack _ _)
    · split at hbranch
      · exact (scanData_formatChunk hbranch).trans hs
      · split at hbranch
        · exact (scanCue_formatChunk hbranch).trans hs
        · exact (scanOther_formatChunk hbranch).trans hs

/-- **On a big-endian host** whose stack holds zeros, no file is read. -/
theorem bigEndian_refuses (hhost : env.littleEndian = false)
    (hstack : ∀ p, env.stack p = (0, 0)) (f : Stream) (r : List UInt8 × Scan) :
    readInput env f ≠ .ok r := by
  intro h
  rw [readInput] at h
  obtain ⟨_, -, h⟩ := Outcome.bind_eq_ok.mp h
  obtain ⟨⟨_, g⟩, -, h⟩ := Outcome.bind_eq_ok.mp h
  obtain ⟨_, -, h⟩ := Outcome.bind_eq_ok.mp h
  obtain ⟨_, -, h⟩ := Outcome.bind_eq_ok.mp h
  obtain ⟨_, -, h⟩ := Outcome.bind_eq_ok.mp h
  obtain ⟨_, -, h⟩ := Outcome.bind_eq_ok.mp h
  obtain ⟨s, hloop, h⟩ := Outcome.bind_eq_ok.mp h
  obtain ⟨_, henough, -⟩ := Outcome.bind_eq_ok.mp h
  have hnone : s.formatChunk = none :=
    Outcome.loop_partial (I := fun s : Scan => s.formatChunk = none)
      (Q := fun s : Scan => s.formatChunk = none)
      (fun _ _ hs hround => scanRound_keeps hhost hstack hs (.inl hround))
      (fun _ _ hs hround => scanRound_keeps hhost hstack hs (.inr hround))
      _ _ _ rfl hloop
  exact exitIf_eq_ok henough (.inl hnone)

/-- So nothing is marked. -/
theorem addMarkers_bigEndian (hhost : env.littleEndian = false)
    (hstack : ∀ p, env.stack p = (0, 0)) (input markers : Option Stream) (output : Option Sink)
    (option : CuePointMergingOption) (r : ℤ × List UInt8) :
    addMarkersToWaveFile env input markers output option ≠ .ok r := by
  intro h
  rw [addMarkersToWaveFile] at h
  obtain ⟨f, -, h⟩ := Outcome.bind_eq_ok.mp h
  obtain ⟨_, -, h⟩ := Outcome.bind_eq_ok.mp h
  obtain ⟨r, hinput, -⟩ := Outcome.bind_eq_ok.mp h
  exact bigEndian_refuses hhost hstack f r hinput

end BigEndian

/-! ### Any host -/

/-- One channel, 44100 frames a second, 16 bits. -/
def smallFmt : Chunk where
  id := fmtID
  body := [1, 0, 1, 0, 68, 172, 0, 0, 136, 88, 1, 0, 2, 0, 16, 0]
  padding := []
  length_id := rfl
  length_body := by decide
  length_padding := rfl

def smallData : Chunk where
  id := dataID
  body := [9]
  padding := [0]
  length_id := rfl
  length_body := by decide
  length_padding := rfl

/-- A file with a data chunk of odd length in front of its format chunk. -/
def smallFile : WaveFile where
  chunks := [smallData, smallFmt]
  fmt := smallFmt
  data := smallData
  fmt_only := by decide
  data_only := by decide
  cue_le := by decide
  others_le := by decide
  fmt_length := by decide
  fmt_code := by decide
  cue_body := by
    intro c hc hid
    have hno : ∀ c ∈ [smallData, smallFmt], c.id ≠ cueID := by decide
    exact absurd hid (hno c hc)
  fits := by decide

theorem smallText : MarkerText [55, 10] [7] :=
  have hdigits : IsNumeral [55] 7 := ⟨by decide, by decide, by simp [isDigit], by decide⟩
  .line hdigits (.inl rfl) .nil

end Csnip.Wave
