/-
The files wavecuepoint.c is about.

`WaveFile` is a RIFF file of the kind `WAVE` with the chunks the program can work with;
`MarkerText` relates the text of a markers file to the positions it gives.  `marked` is
the file that should come out, and `Preserved` what it has to do with the file that went
in.
-/
import Csnip.Lib.Riff
import Csnip.Wave.Markers

namespace Csnip.Wave

open LittleEndian Riff

/-! ### Wave files -/

/-- A chunk that is neither a format nor a data nor a cue chunk. -/
def isOther (c : Chunk) : Bool := c.id ≠ fmtID && c.id ≠ dataID && c.id ≠ cueID

def isFmt (c : Chunk) : Bool := c.id = fmtID

def isData (c : Chunk) : Bool := c.id = dataID

def isCue (c : Chunk) : Bool := c.id = cueID

/-- The body of a cue chunk: the number of points and 24 bytes for each. -/
def CueBody (body : List UInt8) : Prop :=
  ∃ k < 65536, body.take 4 = leBytes 4 k ∧ body.length = 4 + 24 * k

/-- A file with one uncompressed format chunk, one data chunk, at most one cue chunk and at
most 256 others, in any order. -/
structure WaveFile where
  chunks : List Chunk
  fmt : Chunk
  data : Chunk
  fmt_only : chunks.filter isFmt = [fmt]
  data_only : chunks.filter isData = [data]
  cue_le : (chunks.filter isCue).length ≤ 1
  others_le : (chunks.filter isOther).length ≤ 256
  fmt_length : 16 ≤ fmt.body.length
  fmt_code : leNat (fmt.body.take 2) = 1
  cue_body : ∀ c ∈ chunks, c.id = cueID → CueBody c.body
  fits : (Riff.file waveID chunks).length - 8 < 2 ^ 32

namespace WaveFile

def bytes (w : WaveFile) : List UInt8 := Riff.file waveID w.chunks

def cues (w : WaveFile) : List Chunk := w.chunks.filter isCue

def others (w : WaveFile) : List Chunk := w.chunks.filter isOther

end WaveFile

/-! ### Texts of markers -/

/-- A line end of any convention. -/
def IsLineEnd (bytes : List UInt8) : Prop :=
  bytes = [lineFeed] ∨ bytes = [carriageReturn] ∨ bytes = [carriageReturn, lineFeed]

/-- A decimal numeral of at most ten digits. -/
def IsNumeral (digits : List UInt8) (n : ℕ) : Prop :=
  digits ≠ [] ∧ digits.length ≤ 10 ∧ (∀ c ∈ digits, isDigit c = true) ∧ decimal digits = n

/-- The text gives the positions one per line.  Lines may be empty, and the last one may
have no line end. -/
inductive MarkerText : List UInt8 → List ℕ → Prop
  | nil : MarkerText [] []
  | last {digits : List UInt8} {n : ℕ} (hdigits : IsNumeral digits n) :
      MarkerText digits [n]
  | line {digits lineEnd text : List UInt8} {n : ℕ} {positions : List ℕ}
      (hdigits : IsNumeral digits n) (hend : IsLineEnd lineEnd)
      (hrest : MarkerText text positions) :
      MarkerText (digits ++ lineEnd ++ text) (n :: positions)
  | blank {lineEnd text : List UInt8} {positions : List ℕ} (hend : IsLineEnd lineEnd)
      (hrest : MarkerText text positions) :
      MarkerText (lineEnd ++ text) positions

/-! ### The marked file -/

/-- The chunk with a padding byte that is zero. -/
def repad (c : Chunk) : Chunk :=
  { c with
    padding := List.replicate (c.body.length % 2) 0
    length_padding := List.length_replicate }

@[simp] theorem content_repad (c : Chunk) : (repad c).content = c.content := rfl

/-- The point for the position `n`, the `i`-th from 0. -/
def point (i n : ℕ) : List UInt8 :=
  leBytes 4 (i + 1) ++ leBytes 4 0 ++ dataID ++ leBytes 4 0 ++ leBytes 4 0 ++ leBytes 4 n

/-- The points for the given positions. -/
def points (positions : List ℕ) : List UInt8 := (positions.mapIdx point).flatten

@[simp] theorem length_point (i n : ℕ) : (point i n).length = 24 := by
  simp [point, dataID]

@[simp] theorem length_points (positions : List ℕ) :
    (points positions).length = 24 * positions.length := by
  have hmap : (positions.mapIdx point).map List.length
      = List.replicate positions.length 24 := by
    rw [List.eq_replicate_iff]
    refine ⟨by simp, ?_⟩
    intro n hn
    obtain ⟨piece, hpiece, rfl⟩ := List.mem_map.mp hn
    obtain ⟨i, hi, rfl⟩ := List.mem_mapIdx.mp hpiece
    exact length_point i _
  rw [points, List.length_flatten, hmap, List.sum_replicate_nat, Nat.mul_comm]

/-- The cue chunk for at most a thousand positions. -/
def cueChunkOf (positions : List ℕ) (h : positions.length ≤ 1000) : Chunk where
  id := cueID
  body := leBytes 4 positions.length ++ points positions
  padding := []
  length_id := rfl
  length_body := by simp; omega
  length_padding := by simp; omega

/-- The chunks of the file with the given points. -/
def WaveFile.markedChunks (w : WaveFile) (positions : List ℕ) (h : positions.length ≤ 1000) :
    List Chunk :=
  repad w.fmt :: cueChunkOf positions h :: (w.others.map repad ++ [repad w.data])

/-- What the file that comes out has to do with the one that went in. -/
structure Preserved (w : WaveFile) (positions : List ℕ) (out : WaveFile) : Prop where
  size : leNat (field out.bytes 4 4) = out.bytes.length - 8
  fmt : out.fmt.content = w.fmt.content
  data : out.data.content = w.data.content
  others : out.others.map Chunk.content = w.others.map Chunk.content
  cue : ∃ cue, out.cues = [cue] ∧ cue.body = leBytes 4 positions.length ++ points positions

/-! ### The marked file is a wave file -/

section

variable {w : WaveFile}

theorem WaveFile.fmt_id (w : WaveFile) : w.fmt.id = fmtID := by
  have hmem : w.fmt ∈ w.chunks.filter isFmt := by rw [w.fmt_only]; simp
  simpa [isFmt] using (List.mem_filter.mp hmem).2

theorem WaveFile.data_id (w : WaveFile) : w.data.id = dataID := by
  have hmem : w.data ∈ w.chunks.filter isData := by rw [w.data_only]; simp
  simpa [isData] using (List.mem_filter.mp hmem).2

theorem WaveFile.other_ids (w : WaveFile) {c : Chunk} (hc : c ∈ w.others) :
    c.id ≠ fmtID ∧ c.id ≠ dataID ∧ c.id ≠ cueID := by
  simpa [isOther, and_assoc] using (List.mem_filter.mp hc).2

theorem ids_distinct : fmtID ≠ dataID ∧ fmtID ≠ cueID ∧ dataID ≠ cueID := by decide

/-- The chunks of one kind in the marked file. -/
theorem filter_markedChunks (w : WaveFile) {positions : List ℕ}
    (h : positions.length ≤ 1000) (p : Chunk → Bool) (hp : ∀ c, p (repad c) = p c) :
    (w.markedChunks positions h).filter p
      = (([w.fmt].filter p).map repad ++ [cueChunkOf positions h].filter p) ++
        ((w.others.filter p).map repad ++ ([w.data].filter p).map repad) := by
  have hfilter : ∀ chunks : List Chunk,
      (chunks.map repad).filter p = (chunks.filter p).map repad := by
    intro chunks
    rw [List.filter_map]
    congr 1
    exact List.filter_congr fun c _ => hp c
  have hcut : w.markedChunks positions h
      = ([w.fmt].map repad ++ [cueChunkOf positions h]) ++
        (w.others.map repad ++ [w.data].map repad) := rfl
  rw [hcut]
  simp only [List.filter_append, hfilter]

/-- The file with the given points, when it is not too long. -/
def WaveFile.marked (w : WaveFile) (positions : List ℕ) (h : positions.length ≤ 1000)
    (hfits : (Riff.file waveID (w.markedChunks positions h)).length < 2 ^ 32) : WaveFile where
  chunks := w.markedChunks positions h
  fmt := repad w.fmt
  data := repad w.data
  fmt_only := by
    have hothers : w.others.filter isFmt = [] := List.filter_eq_nil_iff.mpr fun c hc => by
      simp [isFmt, (w.other_ids hc).1]
    rw [filter_markedChunks w h isFmt fun _ => rfl, hothers]
    simp [isFmt, w.fmt_id, w.data_id, cueChunkOf, ids_distinct.1.symm, ids_distinct.2.1.symm]
  data_only := by
    have hothers : w.others.filter isData = [] := List.filter_eq_nil_iff.mpr fun c hc => by
      simp [isData, (w.other_ids hc).2.1]
    rw [filter_markedChunks w h isData fun _ => rfl, hothers]
    simp [isData, w.fmt_id, w.data_id, cueChunkOf, ids_distinct.1, ids_distinct.2.2.symm]
  cue_le := by
    have hothers : w.others.filter isCue = [] := List.filter_eq_nil_iff.mpr fun c hc => by
      simp [isCue, (w.other_ids hc).2.2]
    rw [filter_markedChunks w h isCue fun _ => rfl, hothers]
    simp [isCue, w.fmt_id, w.data_id, cueChunkOf, ids_distinct.2.1, ids_distinct.2.2]
  others_le := by
    have hothers : w.others.filter isOther = w.others := by
      rw [WaveFile.others, List.filter_filter]
      simp
    rw [filter_markedChunks w h isOther fun _ => rfl, hothers]
    simpa [isOther, w.fmt_id, w.data_id, cueChunkOf, WaveFile.others] using w.others_le
  fmt_length := w.fmt_length
  fmt_code := w.fmt_code
  cue_body := by
    intro c hc hid
    simp only [WaveFile.markedChunks, List.mem_cons, List.mem_append, List.mem_map,
      List.not_mem_nil, or_false] at hc
    rcases hc with rfl | rfl | ⟨c, hc, rfl⟩ | rfl
    · exact absurd (w.fmt_id.symm.trans hid) ids_distinct.2.1
    · refine ⟨positions.length, by omega, ?_, ?_⟩
      · exact List.take_left' (length_leBytes 4 _)
      · simp [cueChunkOf]
    · exact absurd hid (w.other_ids hc).2.2
    · exact absurd (w.data_id.symm.trans hid) ids_distinct.2.2
  fits := by omega

/-- The other chunks stay, with their padding made zero. -/
theorem WaveFile.others_marked (w : WaveFile) {positions : List ℕ}
    (h : positions.length ≤ 1000)
    (hfits : (Riff.file waveID (w.markedChunks positions h)).length < 2 ^ 32) :
    (w.marked positions h hfits).others = w.others.map repad := by
  have hfmt : isOther w.fmt = false := by simp [isOther, w.fmt_id]
  have hdata : isOther w.data = false := by simp [isOther, w.data_id]
  have hcue : isOther (cueChunkOf positions h) = false := by simp [isOther, cueChunkOf]
  have hothers : w.others.filter isOther = w.others := by
    rw [WaveFile.others, List.filter_filter]
    simp
  rw [WaveFile.others, WaveFile.marked, filter_markedChunks w h isOther fun _ => rfl, hothers]
  simp [hfmt, hdata, hcue]

/-- **The marked file preserves what it should.** -/
theorem preserved_marked (w : WaveFile) {positions : List ℕ} (h : positions.length ≤ 1000)
    (hfits : (Riff.file waveID (w.markedChunks positions h)).length < 2 ^ 32) :
    Preserved w positions (w.marked positions h hfits) := by
  refine ⟨?_, rfl, rfl, ?_, cueChunkOf positions h, ?_, rfl⟩
  · have hsize : ((w.marked positions h hfits).bytes.drop 4).take 4
        = leBytes 4 (waveID.length + (encode (w.markedChunks positions h)).length) := by
      simp [WaveFile.bytes, WaveFile.marked, Riff.file, Riff.riffID]
    have hlen := length_file waveID (w.markedChunks positions h)
    rw [field, hsize, leNat_leBytes, Nat.mod_eq_of_lt (by omega)]
    simp only [WaveFile.bytes, WaveFile.marked]
    omega
  · rw [w.others_marked h hfits, List.map_map]
    rfl
  · have hnone : w.others.filter isCue = [] := List.filter_eq_nil_iff.mpr fun c hc => by
      simp [isCue, (w.other_ids hc).2.2]
    rw [WaveFile.cues, WaveFile.marked, filter_markedChunks w h isCue fun _ => rfl, hnone]
    simp [isCue, w.fmt_id, w.data_id, cueChunkOf, ids_distinct.2.1, ids_distinct.2.2]

end

end Csnip.Wave
