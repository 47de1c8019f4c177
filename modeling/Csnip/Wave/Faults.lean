/-
What `fwrite` answers is looked at.

wavecuepoint.c compares what every `fwrite` returns with what it asked for, and one that falls short
ends the run with -1.  So the same run is followed on two output files, one on which `fwrite` may
fail and one on which it does not: as long as the first goes on, both were handed the same bytes
(`Twin`), and when it does not, -1 is returned.  The rules for that are those of `Outcome.Follows`;
the input files may have faults of their own, which are the same for both.

The buffer of the stream is not modelled, and neither is `fclose`, which empties it and whose answer
the source ignores.  So nothing is said here of the bytes on the disk: where they do not fit, it may
be `fclose` that finds out, and 0 is returned.
-/
import Csnip.Wave.Output

namespace Csnip.Wave

open Stdio Loop Outcome

/-- Both were handed the same bytes, and the second file has no faults to come. -/
structure Twin (f g : Sink) : Prop where
  bytes : f.bytes = g.bytes
  faults : g.faults = []

/-- The same state of copying, but for the output file. -/
structure TwinCopy (c c' : Copy) : Prop where
  inputFile : c.inputFile = c'.inputFile
  remaining : c.remainingBytesToWrite = c'.remainingBytesToWrite
  outputFile : Twin c.outputFile c'.outputFile

/-- The two files, the second as before. -/
structure TwinFiles (files files' : Stream × Sink) : Prop where
  inputFile : files.1 = files'.1
  outputFile : Twin files.2 files'.2

theorem fwriteOrExit_follows {f g : Sink} (h : Twin f g) (bytes : List UInt8) :
    Follows (-1) Twin (fwriteOrExit f bytes) (fwriteOrExit g bytes) := by
  obtain ⟨written, faults⟩ := f
  obtain ⟨written', faults'⟩ := g
  obtain ⟨rfl, rfl⟩ : written = written' ∧ faults' = [] := ⟨h.bytes, h.faults⟩
  have hgood : fwriteOrExit ⟨written, []⟩ bytes = .ok ⟨written ++ bytes, []⟩ := by
    simp [fwriteOrExit, Sink.fwrite]
  rw [hgood]
  by_cases hfault : faults.headD false = true
  · have hfwrite : (⟨written, faults⟩ : Sink).fwrite bytes = (0, ⟨written, faults.tail⟩) :=
      if_pos hfault
    by_cases hnil : bytes = []
    · have hzero : ¬ 0 < bytes.length := by simp [hnil]
      have hnothing : fwriteOrExit ⟨written, faults⟩ bytes = .ok ⟨written, faults.tail⟩ := by
        simp [fwriteOrExit, hfwrite, hzero]
      rw [hnothing, hnil, List.append_nil]
      exact .ok ⟨rfl, rfl⟩
    · have hpos := List.length_pos_iff.mpr hnil
      have hexit : fwriteOrExit ⟨written, faults⟩ bytes = .exit (-1) := by
        simp [fwriteOrExit, hfwrite, exitIf, hpos]
      rw [hexit]
      exact .early _
  · have hfwrite : (⟨written, faults⟩ : Sink).fwrite bytes
        = (bytes.length, ⟨written ++ bytes, faults.tail⟩) := if_neg hfault
    have hwritten : fwriteOrExit ⟨written, faults⟩ bytes = .ok ⟨written ++ bytes, faults.tail⟩ := by
      simp [fwriteOrExit, hfwrite]
    rw [hwritten]
    exact .ok ⟨rfl, rfl⟩

theorem copyBlock_follows {c c' : Copy} (h : TwinCopy c c') (n : ℕ) :
    Follows (-1) TwinCopy (copyBlock c n) (copyBlock c' n) := by
  unfold copyBlock
  rw [h.inputFile, h.remaining]
  refine Follows.bind_same _ fun r => ?_
  refine Follows.bind_same _ fun buffer => ?_
  refine (fwriteOrExit_follows h.outputFile buffer).bind fun f g hfg => ?_
  exact .ok ⟨rfl, rfl, hfg⟩

theorem copyRound_follows {c c' : Copy} (h : TwinCopy c c') :
    Follows (-1) (SameRound TwinCopy TwinCopy) (copyRound c) (copyRound c') := by
  unfold copyRound
  rw [h.remaining]
  by_cases hmore : c'.remainingBytesToWrite ≥ 1024
  · rw [if_pos hmore, if_pos hmore]
    refine (copyBlock_follows h 1024).bind fun d d' hd => ?_
    exact .ok (.again hd)
  · rw [if_neg hmore, if_neg hmore]
    exact .ok (.done h)

theorem writeChunkLocation_follows (chunk : ChunkLocation) {files files' : Stream × Sink}
    (h : TwinFiles files files') :
    Follows (-1) TwinFiles
      (writeChunkLocationFromInputFileToOutputFile chunk files.1 files.2)
      (writeChunkLocationFromInputFileToOutputFile chunk files'.1 files'.2) := by
  unfold writeChunkLocationFromInputFileToOutputFile
  rw [h.inputFile]
  refine Follows.bind_same _ fun _ => ?_
  have hcopies : ∀ (fuel : ℕ) (f : Stream), Follows (-1) TwinCopy
      (loop copyRound fuel ⟨f, files.2, chunk.size⟩)
      (loop copyRound fuel ⟨f, files'.2, chunk.size⟩) := fun fuel f =>
    Follows.loop (fun _ _ => copyRound_follows) fuel _ _ ⟨rfl, rfl, h.outputFile⟩
  refine (hcopies _ _).bind fun c c' hc => ?_
  rw [hc.remaining]
  by_cases hrest : c'.remainingBytesToWrite > 0
  · rw [if_pos hrest, if_pos hrest]
    refine (copyBlock_follows hc _).bind fun d d' hd => ?_
    exact .ok ⟨hd.inputFile, hd.outputFile⟩
  · rw [if_neg hrest, if_neg hrest]
    exact .ok ⟨hc.inputFile, hc.outputFile⟩

theorem copyPadded_follows {files files' : Stream × Sink} (chunk : ChunkLocation)
    (h : TwinFiles files files') :
    Follows (-1) TwinFiles (copyPadded files chunk) (copyPadded files' chunk) := by
  unfold copyPadded
  refine (writeChunkLocation_follows chunk h).bind ?_
  intro ⟨inputFile, f⟩ ⟨inputFile', g⟩ hr
  dsimp only
  by_cases hodd : chunk.size % 2 ≠ 0
  · rw [if_pos hodd, if_pos hodd]
    refine (fwriteOrExit_follows hr.outputFile [0]).bind fun f g hfg => ?_
    exact .ok ⟨hr.inputFile, hfg⟩
  · rw [if_neg hodd, if_neg hodd]
    exact .ok hr

theorem fwriteAll_follows {f g : Sink} (h : Twin f g) (pieces : List (List UInt8)) :
    Follows (-1) Twin (fwriteAll f pieces) (fwriteAll g pieces) :=
  Follows.foldlM (fun _ _ bytes h => fwriteOrExit_follows h bytes) pieces f g h

theorem copyAll_follows {files files' : Stream × Sink} (h : TwinFiles files files')
    (chunks : List ChunkLocation) :
    Follows (-1) TwinFiles (copyAll files chunks) (copyAll files' chunks) :=
  Follows.foldlM (fun _ _ chunk h => copyPadded_follows chunk h) chunks files files' h

theorem writeOutput_follows (host : Host) (waveHeader formatChunk : List UInt8) (s : Scan)
    (cueLocations : List ℕ) {f g : Sink} (h : Twin f g) :
    Follows (-1) Twin (writeOutput host waveHeader formatChunk s cueLocations f)
      (writeOutput host waveHeader formatChunk s cueLocations g) := by
  unfold writeOutput
  refine (fwriteOrExit_follows h _).bind fun f g h => ?_
  refine (fwriteOrExit_follows h _).bind fun f g h => ?_
  have hextra : Follows (-1) TwinFiles
      (if s.formatChunkExtraBytes.size > 0 then
        copyPadded (s.inputFile, f) s.formatChunkExtraBytes
      else pure (s.inputFile, f))
      (if s.formatChunkExtraBytes.size > 0 then
        copyPadded (s.inputFile, g) s.formatChunkExtraBytes
      else pure (s.inputFile, g)) := by
    by_cases hsome : s.formatChunkExtraBytes.size > 0
    · rw [if_pos hsome, if_pos hsome]
      exact copyPadded_follows _ ⟨rfl, h⟩
    · rw [if_neg hsome, if_neg hsome]
      exact .ok ⟨rfl, h⟩
  refine hextra.bind ?_
  intro ⟨inputFile, f⟩ ⟨inputFile', g⟩ hr
  refine (fwriteOrExit_follows hr.outputFile _).bind fun f g h => ?_
  refine (fwriteAll_follows h _).bind fun f g h => ?_
  have hfiles : TwinFiles (inputFile, f) (inputFile', g) := ⟨hr.inputFile, h⟩
  refine (copyAll_follows hfiles _).bind ?_
  intro ⟨inputFile, f⟩ ⟨inputFile', g⟩ hr
  refine (copyPadded_follows _ hr).bind fun r r' hr => ?_
  exact .ok hr.outputFile

/-- **An `fwrite` that reports a failure ends the run with -1.**  Whatever the files hold, and
whichever of the `fwrite` calls fall short, the run comes to what it comes to when none does, return
code and bytes handed to `fwrite`, or it returns -1. -/
theorem write_fault_reported (env : Env) (inFile markerFile : Option Stream) (faults : List Bool)
    (mergeOption : CuePointMergingOption) :
    addMarkersToWaveFile env inFile markerFile (some { bytes := [], faults }) mergeOption
        = addMarkersToWaveFile env inFile markerFile (some (.of [])) mergeOption ∨
      addMarkersToWaveFile env inFile markerFile (some { bytes := [], faults }) mergeOption
        = .exit (-1) := by
  apply Follows.eq_or_exit
  unfold addMarkersToWaveFile
  refine Follows.bind_same _ fun inputFile => ?_
  refine Follows.bind_same _ fun markersFile => ?_
  refine Follows.bind_same _ fun r => ?_
  refine Follows.bind_same _ fun cueLocations => ?_
  refine Follows.bind_same _ fun _ => ?_
  have hopen : Follows (-1) Twin (fopenOrExit (some ({ bytes := [], faults } : Sink)))
      (fopenOrExit (some (Sink.of []))) := .ok ⟨rfl, rfl⟩
  refine hopen.bind fun f g h => ?_
  refine Follows.bind_same _ fun formatChunk => ?_
  refine (writeOutput_follows _ _ _ _ _ h).bind fun f g h => ?_
  rw [h.bytes]
  exact .ok rfl

end Csnip.Wave
