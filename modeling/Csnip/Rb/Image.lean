/-
The ring as bytes.

`rb_t` is packed and its members are stored little-endian, so the header is 716 bytes
whose layout does not depend on the compiler, and the buffer follows it.  This is what
another process sees of a ring in shared memory.  `widths` are the widths of the
members in their order; the place of a member is the sum of those before it, and a
store of one member is an update of the record (`store_image`).
-/
import Csnip.Lib.LittleEndian
import Csnip.Lib.Packed
import Csnip.Rb.Api

namespace Csnip

open Memory LittleEndian

namespace Rb

/-! ### The layout -/

/-- The members of `rb_t` as they are stored, and the buffer behind them. -/
def fields (rb : Rb) : List (List UInt8) :=
  [rb.magic, leBytes 4 rb.version, leBytes 8 rb.size, leBytes 8 rb.readIndex,
    leBytes 8 rb.writeIndex, leInt 4 rb.lastWasWrite, leInt 4 rb.memoryLocked,
    leInt 4 rb.inSharedMemory, leInt 4 rb.memoryLockable, leInt 4 rb.memoryShareable,
    leInt 4 rb.mutexLockable, leInt 4 rb.unlinkRequested, leInt 4 rb.noMoreInputData,
    leInt 4 rb.sampleRate, leInt 4 rb.channelCount, leInt 4 rb.bytesPerSample,
    leBytes 8 rb.totalBytesRead, leBytes 8 rb.totalBytesWrite, leBytes 8 rb.totalBytesPeek,
    leBytes 8 rb.totalUnderflows, leBytes 8 rb.totalOverflows,
    rb.shmHandle, rb.humanName, rb.mutex, rb.buf]

/-- The block a ring lives in. -/
def image (rb : Rb) : List UInt8 := rb.fields.flatten

/-- The widths of the members of `rb_t`. -/
def widths : List ℕ :=
  [8, 4, 8, 8, 8, 4, 4, 4, 4, 4, 4, 4, 4, 4, 4, 4, 8, 8, 8, 8, 8, 256, 256, 84]

/-- The arrays of the header are as long as they are declared, and the buffer is as long
as the header says. -/
structure Laid (rb : Rb) : Prop where
  arrays : rb.arrays.map List.length = [8, 256, 256, 84]
  length_buf : rb.buf.length = rb.size

variable {rb rb' : Rb}

/-- Moving the indices and counting keeps the layout. -/
theorem Laid.moved (hl : Laid rb) (index index' : ℕ) (flag : ℤ) (r w p u o : ℕ) :
    Laid { rb with
      readIndex := index, writeIndex := index', lastWasWrite := flag
      totalBytesRead := r, totalBytesWrite := w, totalBytesPeek := p
      totalUnderflows := u, totalOverflows := o } :=
  ⟨hl.arrays, hl.length_buf⟩

theorem fields_lengths (hl : Laid rb) : rb.fields.map List.length = widths ++ [rb.size] := by
  have harrays := hl.arrays
  simp only [Rb.arrays, List.map_cons, List.map_nil, List.cons.injEq, and_true] at harrays
  obtain ⟨hmagic, hshm, hname, hmutex⟩ := harrays
  simp only [fields, List.map_cons, List.map_nil, length_leBytes, length_leInt, hmagic, hshm,
    hname, hmutex, hl.length_buf, widths, List.cons_append, List.nil_append]

theorem length_image (hl : Laid rb) : rb.image.length = sizeofRb + rb.size := by
  rw [image, List.length_flatten, fields_lengths hl]
  rw [List.sum_append, List.sum_singleton]
  rfl

/-- The place of a member does not depend on the buffer. -/
theorem offset_fields (hl : Laid rb) {k : ℕ} {field : List UInt8}
    (hk : rb.fields[k]? = some field) :
    Packed.offset (rb.fields.map List.length) k = Packed.offset widths k := by
  have hlt : k < rb.fields.length := (List.getElem?_eq_some_iff.mp hk).1
  have hcount : rb.fields.length = widths.length + 1 := rfl
  rw [fields_lengths hl, Packed.offset, Packed.offset,
    List.take_append_of_le_length (by omega)]

/-- A member is found at its place. -/
theorem load_image (hl : Laid rb) {k n p : ℕ} {field : List UInt8}
    (hk : rb.fields[k]? = some field) (hn : field.length = n)
    (hp : Packed.offset widths k = p) : load rb.image p n = some field := by
  rw [← hp, ← hn, ← offset_fields hl hk]
  exact Packed.load_field hk

/-- Storing to the place of a member changes that member alone. -/
theorem store_image (hl : Laid rb) {k p : ℕ} {field new : List UInt8}
    (hk : rb.fields[k]? = some field) (hn : new.length = field.length)
    (hp : Packed.offset widths k = p) (hset : rb.fields.set k new = rb'.fields) :
    store rb.image p new = some rb'.image := by
  rw [← hp, ← offset_fields hl hk, image, image, ← hset]
  exact Packed.store_field hk hn

/-- The buffer begins right behind the header. -/
theorem image_eq (hl : Laid rb) :
    ∃ header : List UInt8, header.length = sizeofRb ∧ rb.image = header ++ rb.buf := by
  refine ⟨rb.fields.dropLast.flatten, ?_, ?_⟩
  · have hlen := length_image hl
    have hsplit : rb.image = rb.fields.dropLast.flatten ++ rb.buf := by
      simp only [image, fields, List.dropLast, List.flatten_cons, List.flatten_nil,
        List.append_nil, List.append_assoc]
    rw [hsplit, List.length_append, hl.length_buf] at hlen
    omega
  · simp only [image, fields, List.dropLast, List.flatten_cons, List.flatten_nil,
      List.append_nil, List.append_assoc]

/-- A piece of the buffer, loaded from the block. -/
theorem load_image_buf (hl : Laid rb) {p n : ℕ} :
    load rb.image (sizeofRb + p) n = load rb.buf p n := by
  obtain ⟨header, hlen, himage⟩ := image_eq hl
  unfold load
  rw [himage, List.length_append, hlen, ← List.drop_drop, ← hlen, List.drop_left]
  by_cases hle : p + n ≤ rb.buf.length
  · rw [if_pos hle, if_pos (by omega)]
  · rw [if_neg hle, if_neg (by omega)]

/-! ### Every reachable ring has the layout -/

theorem length_strncpy {old src : List UInt8} {n : ℕ} (h : n ≤ old.length) :
    (strncpy old src n).length = old.length := by
  rw [strncpy, List.length_append, List.length_take, List.length_append, List.length_replicate,
    List.length_drop]
  omega

theorem rbNew_arrays {malloc : Malloc} {size : ℕ} (hnew : rbNew malloc size = some (some rb)) :
    rb.arrays.map List.length = [8, 256, 256, 84] := by
  obtain ⟨block, -, hblock, -, rfl⟩ := rbNew_eq_some hnew
  unfold sizeofRb at hblock
  have hname : ((block.drop 376).take 256).length = 256 := by
    rw [List.length_take, List.length_drop]
    omega
  simp only [Rb.arrays, rbInit, List.map_cons, List.map_nil, List.cons.injEq, and_true]
  refine ⟨rfl, ?_, ?_, ?_⟩
  · rw [List.length_cons, List.length_take, List.length_drop]
    omega
  · rw [length_strncpy (by omega), hname]
  · rw [List.length_take, List.length_drop]
    omega

theorem Reachable.laid {size : ℕ} (hsize : size < 2 ^ 63) (hrb : Reachable size rb) : Laid rb := by
  refine ⟨?_, (hrb.wf hsize).1.length_buf⟩
  obtain ⟨malloc, rb₀, calls, outs, hnew, hrun⟩ := hrb
  have hinv := Machine.run_invariant (I := fun rb => WF rb ∧ rb.arrays = rb₀.arrays)
    (fun rb call out rb' hI hstep =>
      ⟨(exec_wf hI.1 hstep).1, (exec_wf hI.1 hstep).2.arrays.trans hI.2⟩)
    calls rb₀ outs rb ⟨(rbNew_wf hsize hnew).1, rfl⟩ hrun
  rw [hinv.2]
  exact rbNew_arrays hnew

end Rb

end Csnip
