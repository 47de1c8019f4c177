/-
Marking a file that has been marked.

The output of the program is a file it can read again: its chunks are those of `markedChunks`,
with every padding made zero and one cue chunk.  Marking it once more keeps all of them but
the cue chunk, which is replaced as a whole (`markedChunks_marked`), so nothing of the first
markers is left.
-/
import Csnip.Wave.Preserve

namespace Csnip.Wave

open LittleEndian Stdio Riff

/-! ### The chunks of a file marked twice -/

@[simp] theorem repad_repad (c : Chunk) : repad (repad c) = repad c := rfl

/-- **The second markers replace the first ones**, and the rest is as if only they had been
added. -/
theorem markedChunks_marked (w : WaveFile) {positions₁ positions₂ : List ℕ}
    (h₁ : positions₁.length ≤ 1000) (h₂ : positions₂.length ≤ 1000)
    (hfits : (Riff.file waveID (w.markedChunks positions₁ h₁)).length < 2 ^ 32) :
    (w.marked positions₁ h₁ hfits).markedChunks positions₂ h₂ = w.markedChunks positions₂ h₂ := by
  have hothers : (w.others.map repad).map repad = w.others.map repad := by
    rw [List.map_map]
    exact List.map_congr_left fun c _ => repad_repad c
  rw [WaveFile.markedChunks, w.others_marked h₁ hfits, hothers]
  rfl

/-! ### Running the program twice -/

/-- A run that replaces the markers of the input by those of the text, every request for
memory being granted. -/
def replaceMarkers (host : Host) (stack : ℤ → UInt8 × UInt8) (input text : List UInt8) :
    Outcome (ℤ × List UInt8) :=
  addMarkersToWaveFile { toHost := host, malloc := fun _ => true, stack }
    (some (.fopen input [])) (some (.fopen text [])) (some (.of [])) .replaceAnyExistingCuePoints

/-- **Marking again replaces**, exactly on the hosts that are little-endian: for every wave
file the program can work with and any two texts of up to a thousand positions, and whatever
the stack holds in each run, marking with the first text and then with the second gives the
bytes that marking with the second one alone gives. -/
theorem remarking_replaces_iff (w : WaveFile) (host : Host) {text₁ text₂ : List UInt8}
    {positions₁ positions₂ : List ℕ}
    (htext₁ : MarkerText text₁ positions₁) (hsome₁ : positions₁ ≠ [])
    (hfew₁ : positions₁.length ≤ 1000) (hsmall₁ : ∀ n ∈ positions₁, n < 2 ^ 32 - 1)
    (hfits₁ : (Riff.file waveID (w.markedChunks positions₁ hfew₁)).length < 2 ^ 32)
    (htext₂ : MarkerText text₂ positions₂) (hsome₂ : positions₂ ≠ [])
    (hfew₂ : positions₂.length ≤ 1000) (hsmall₂ : ∀ n ∈ positions₂, n < 2 ^ 32 - 1)
    (hfits₂ : (Riff.file waveID (w.markedChunks positions₂ hfew₂)).length < 2 ^ 32) :
    (∀ stack₁ stack₂ stack : ℤ → UInt8 × UInt8, ∃ out₁ out₂ : List UInt8,
      replaceMarkers host stack₁ w.bytes text₁ = .ok (0, out₁) ∧
      replaceMarkers host stack₂ out₁ text₂ = .ok (0, out₂) ∧
      replaceMarkers host stack w.bytes text₂ = .ok (0, out₂)) ↔
    host.littleEndian = true := by
  constructor
  · intro h
    by_contra hbig
    obtain ⟨out₁, out₂, hrun, -⟩ := h (fun _ => (0, 0)) (fun _ => (0, 0)) fun _ => (0, 0)
    exact addMarkers_bigEndian (by simpa using hbig) (fun _ => rfl) _ _ _ _ _ hrun
  · intro hhost stack₁ stack₂ stack
    have hagain := markedChunks_marked w hfew₁ hfew₂ hfits₁
    have hfits : (Riff.file waveID
        ((w.marked positions₁ hfew₁ hfits₁).markedChunks positions₂ hfew₂)).length < 2 ^ 32 := by
      rw [hagain]
      exact hfits₂
    have hsame : ((w.marked positions₁ hfew₁ hfits₁).marked positions₂ hfew₂ hfits).bytes
        = (w.marked positions₂ hfew₂ hfits₂).bytes := congrArg (Riff.file waveID) hagain
    refine ⟨(w.marked positions₁ hfew₁ hfits₁).bytes, (w.marked positions₂ hfew₂ hfits₂).bytes,
      addMarkers_marked _ htext₁ hsome₁ hfew₁ hsmall₁ hfits₁ (fun _ => rfl) hhost, ?_,
      addMarkers_marked _ htext₂ hsome₂ hfew₂ hsmall₂ hfits₂ (fun _ => rfl) hhost⟩
    rw [← hsame]
    exact addMarkers_marked _ htext₂ hsome₂ hfew₂ hsmall₂ hfits (fun _ => rfl) hhost

theorem otherText : MarkerText [56] [8] :=
  have hdigits : IsNumeral [56] 8 := ⟨by decide, by decide, by simp [isDigit], by decide⟩
  .last hdigits

theorem remarking_replaces_small :
    (∀ stack₁ stack₂ stack : ℤ → UInt8 × UInt8, ∃ out₁ out₂ : List UInt8,
      replaceMarkers ⟨true, true⟩ stack₁ smallFile.bytes [55, 10] = .ok (0, out₁) ∧
      replaceMarkers ⟨true, true⟩ stack₂ out₁ [56] = .ok (0, out₂) ∧
      replaceMarkers ⟨true, true⟩ stack smallFile.bytes [56] = .ok (0, out₂)) ↔
    true = true :=
  remarking_replaces_iff smallFile ⟨true, true⟩ smallText (by decide) (by decide) (by decide)
    (by decide) otherText (by decide) (by decide) (by decide) (by decide)

/-- On a big-endian host whose stack holds zeros the small file is never marked, not even for
the first time. -/
theorem remarking_bigEndian_small :
    replaceMarkers ⟨false, true⟩ (fun _ => (0, 0)) smallFile.bytes [55, 10] = .exit (-1) ∧
      ¬ ∀ stack₁ stack₂ stack : ℤ → UInt8 × UInt8, ∃ out₁ out₂ : List UInt8,
        replaceMarkers ⟨false, true⟩ stack₁ smallFile.bytes [55, 10] = .ok (0, out₁) ∧
        replaceMarkers ⟨false, true⟩ stack₂ out₁ [56] = .ok (0, out₂) ∧
        replaceMarkers ⟨false, true⟩ stack smallFile.bytes [56] = .ok (0, out₂) := by
  have hrefused : replaceMarkers ⟨false, true⟩ (fun _ => (0, 0)) smallFile.bytes [55, 10]
      = .exit (-1) := by decide +kernel
  refine ⟨hrefused, fun h => ?_⟩
  obtain ⟨out₁, out₂, hrun, -⟩ := h (fun _ => (0, 0)) (fun _ => (0, 0)) fun _ => (0, 0)
  rw [hrefused] at hrun
  cases hrun

end Csnip.Wave
