/-
RB.java and rb.h are the same ring.

On the block of a well-formed ring that is small enough to be mapped, every number the
Java functions form stays below the sign bit, so a getter returns the member of the
record and a setter is an update of it.  What the C function does to the record is then
what the Java method does to the block, byte for byte.
-/
import Csnip.Java.RB
import Csnip.Rb.Image

namespace Csnip

open Memory LittleEndian Cyclic

namespace JavaRB

/-- A ring whose block can be mapped as a whole. -/
structure Mapped (rb : Rb) : Prop where
  wf : Rb.WF rb
  laid : Rb.Laid rb
  fits : sizeofRb + rb.size < 2 ^ 31

/-! ### Words -/

theorem long_eq {z : ℤ} (h0 : -2 ^ 63 ≤ z) (h : z < 2 ^ 63) : long z = z :=
  signed_of_range (by norm_num; omega) (by norm_num; omega)

theorem int_eq {z : ℤ} (h0 : -2 ^ 31 ≤ z) (h : z < 2 ^ 31) : int z = z :=
  signed_of_range (by norm_num; omega) (by norm_num; omega)

theorem rem_eq {a b : ℕ} (hb : 0 < b) : rem a b = some ((a % b : ℕ) : ℤ) := by
  rw [rem, if_neg (by omega), Int.tmod_eq_emod_of_nonneg (Int.natCast_nonneg a)]
  rfl

theorem leBytes_u64 (n : ℕ) : leBytes 8 (u64 n) = leBytes 8 n := leBytes_mod 8 n

/-! ### Getters and setters -/

section Members

variable {rb rb' : Rb} {k p : ℕ}

theorem getLong_image (hl : Rb.Laid rb) {v : ℕ} (hk : rb.fields[k]? = some (leBytes 8 v))
    (hp : Packed.offset Rb.widths k = p) :
    getLong rb.image p = some (signed 8 v) := by
  rw [getLong, Rb.load_image hl hk (length_leBytes 8 v) hp, Option.map_some, signed_leNat_leBytes]

theorem getInt_image (hl : Rb.Laid rb) {z : ℤ} (hk : rb.fields[k]? = some (leInt 4 z))
    (hp : Packed.offset Rb.widths k = p) :
    getInt rb.image p = some (signed 4 z) := by
  rw [getInt, Rb.load_image hl hk (length_leInt 4 z) hp, Option.map_some, signed_leNat_leInt]

theorem putLong_image (hl : Rb.Laid rb) {v : ℕ} {z : ℤ} (hk : rb.fields[k]? = some (leBytes 8 v))
    (hp : Packed.offset Rb.widths k = p)
    (hset : rb.fields.set k (leInt 8 z) = rb'.fields) :
    putLong rb.image p z = some rb'.image :=
  Rb.store_image hl hk (by rw [length_leInt, length_leBytes]) hp hset

/-- Adding to a total that is read as a signed number counts like adding to the word. -/
theorem addTotal_image (hl : Rb.Laid rb) {v n : ℕ} {f : ℕ → Rb}
    (hk : rb.fields[k]? = some (leBytes 8 v))
    (hp : Packed.offset Rb.widths k = p)
    (hset : ∀ total, rb.fields.set k (leBytes 8 total) = (f total).fields) :
    addTotal rb.image p n = some (f (u64 (v + n))).image := by
  rw [addTotal, getLong_image hl hk hp, Option.bind_some]
  refine putLong_image hl hk hp ?_
  rw [long, leInt_signed_add, ← leBytes_u64, hset]

theorem size_image (hm : Mapped rb) : size rb.image = some (rb.size : ℤ) := by
  have hfits := hm.fits
  rw [size, getLong_image hm.laid (k := 2) (p := boffSize) rfl rfl]
  exact congrArg some (long_eq (by omega) (by omega))

theorem readIndex_image (hm : Mapped rb) : readIndex rb.image = some (rb.readIndex : ℤ) := by
  have hfits := hm.fits
  have hr := hm.wf.read_lt
  rw [readIndex, getLong_image hm.laid (k := 3) (p := boffReadIndex) rfl rfl]
  exact congrArg some (long_eq (by omega) (by omega))

theorem writeIndex_image (hm : Mapped rb) : writeIndex rb.image = some (rb.writeIndex : ℤ) := by
  have hfits := hm.fits
  have hw := hm.wf.write_lt
  rw [writeIndex, getLong_image hm.laid (k := 4) (p := boffWriteIndex) rfl rfl]
  exact congrArg some (long_eq (by omega) (by omega))

theorem lastWasWrite_image (hm : Mapped rb) : lastWasWrite rb.image = some rb.lastWasWrite := by
  have hf := hm.wf.flag
  rw [lastWasWrite, getInt_image hm.laid (k := 5) (p := boffLastWasWrite) rfl rfl]
  exact congrArg some (int_eq (by omega) (by omega))

theorem setReadIndex_image (hl : Rb.Laid rb) (i : ℕ) :
    setReadIndex rb.image i = some { rb with readIndex := i }.image := by
  refine putLong_image hl (k := 3) rfl rfl ?_
  rw [leInt_natCast]
  rfl

theorem setWriteIndex_image (hl : Rb.Laid rb) (i : ℕ) :
    setWriteIndex rb.image i = some { rb with writeIndex := i }.image := by
  refine putLong_image hl (k := 4) rfl rfl ?_
  rw [leInt_natCast]
  rfl

theorem setLastWasWrite_image (hl : Rb.Laid rb) (z : ℤ) :
    setLastWasWrite rb.image z = some { rb with lastWasWrite := z }.image :=
  Rb.store_image hl (k := 5) rfl (by rw [length_leInt, length_leInt]) rfl rfl

theorem addTotalBytesRead_image (hl : Rb.Laid rb) (n : ℕ) :
    addTotal rb.image boffTotalBytesRead n =
      some { rb with totalBytesRead := u64 (rb.totalBytesRead + n) }.image :=
  addTotal_image hl (k := 16) (f := fun total => { rb with totalBytesRead := total })
    rfl rfl fun _ => rfl

theorem addTotalBytesPeek_image (hl : Rb.Laid rb) (n : ℕ) :
    addTotal rb.image boffTotalBytesPeek n =
      some { rb with totalBytesPeek := u64 (rb.totalBytesPeek + n) }.image :=
  addTotal_image hl (k := 18) (f := fun total => { rb with totalBytesPeek := total })
    rfl rfl fun _ => rfl

theorem addTotalUnderflows_image (hl : Rb.Laid rb) :
    addTotal rb.image boffTotalUnderflows 1 =
      some { rb with totalUnderflows := u64 (rb.totalUnderflows + 1) }.image :=
  addTotal_image hl (n := 1) (k := 19) (f := fun total => { rb with totalUnderflows := total })
    rfl rfl fun _ => rfl

end Members

/-! ### Fill level -/

section Level

variable {rb : Rb}

theorem canRead_image (hm : Mapped rb) : canRead rb.image = some (rb.canRead : ℤ) := by
  have hfits := hm.fits
  have hr := hm.wf.read_lt
  have hw := hm.wf.write_lt
  have hf := hm.wf.flag
  simp only [canRead, readIndex_image hm, writeIndex_image hm, lastWasWrite_image hm,
    size_image hm, Option.bind_eq_bind, Option.bind_some, Option.map_some, Nat.cast_inj,
    Nat.cast_lt]
  rw [Rb.canRead_eq hm.wf]
  by_cases heq : rb.readIndex = rb.writeIndex
  · rw [if_pos heq, if_pos heq]
    rcases hf with hf | hf
    · rw [if_neg (by omega), if_pos hf]
      rfl
    · rw [if_pos hf, if_neg (by omega)]
  · rw [if_neg heq, if_neg heq]
    by_cases hlt : rb.readIndex < rb.writeIndex
    · rw [if_pos hlt, if_pos hlt, long_eq (by omega) (by omega)]
      congr 1
      omega
    · rw [if_neg hlt, if_neg hlt, long_eq (z := rb.writeIndex + rb.size) (by omega) (by omega),
        long_eq (by omega) (by omega)]
      congr 1
      omega

theorem canWrite_image (hm : Mapped rb) : canWrite rb.image = some (rb.canWrite : ℤ) := by
  have hfits := hm.fits
  have hr := hm.wf.read_lt
  have hw := hm.wf.write_lt
  have hf := hm.wf.flag
  simp only [canWrite, readIndex_image hm, writeIndex_image hm, lastWasWrite_image hm,
    size_image hm, Option.bind_eq_bind, Option.bind_some, Option.map_some, Nat.cast_inj,
    Nat.cast_lt]
  rw [Rb.canWrite_eq hm.wf, Rb.canRead_eq hm.wf]
  by_cases heq : rb.readIndex = rb.writeIndex
  · rw [if_pos heq, if_pos heq]
    rcases hf with hf | hf
    · rw [if_neg (by omega), if_pos hf]
      rfl
    · rw [if_pos hf, if_neg (by omega), Nat.sub_self]
      rfl
  · rw [if_neg heq, if_neg heq]
    by_cases hlt : rb.readIndex < rb.writeIndex
    · rw [if_pos hlt, if_pos hlt, long_eq (z := rb.size - rb.writeIndex) (by omega) (by omega),
        long_eq (by omega) (by omega)]
      congr 1
      omega
    · rw [if_neg hlt, if_neg hlt, long_eq (by omega) (by omega)]
      congr 1
      omega

end Level

/-! ### Copying out of the block -/

section Copy

variable {rb : Rb} {dst : List UInt8}

/-- A piece of the buffer, stored to a place of the array. -/
theorem get_image (hm : Mapped rb) (dst : List UInt8) {p o n : ℕ} (hp : p + n ≤ rb.size)
    (ho : o + n ≤ dst.length) :
    get rb.image (int (headerLength + p)) dst o (int n)
      = some (overwrite dst o ((rb.buf.drop p).take n)) := by
  have hfits := hm.fits
  have hb := hm.wf.length_buf
  unfold sizeofRb at hfits
  have hplace : int (headerLength + p) = ((sizeofRb + p : ℕ) : ℤ) := by
    unfold headerLength sizeofRb
    rw [int_eq (by omega) (by omega)]
    push_cast
    rfl
  rw [hplace, int_eq (by omega) (by omega), get, if_neg (by omega)]
  simp only [Int.toNat_natCast]
  rw [Rb.load_image_buf hm.laid, load_of_le (by omega), Option.bind_some,
    store_of_le (by rw [List.length_take, List.length_drop]; omega)]

theorem copy_straight (hm : Mapped rb) {index n : ℕ} (hn : index + n ≤ rb.size)
    (hdst : n ≤ dst.length) :
    copy rb.image dst index n 0 = some (overwrite dst 0 (window rb.buf index n)) := by
  have hget := get_image hm dst (o := 0) hn (by omega)
  rw [Nat.cast_zero] at hget
  rw [copy, hget, window_straight (by rw [hm.wf.length_buf]; exact hn)]
  rfl

theorem copy_split (hm : Mapped rb) {index n : ℕ} (hi : index < rb.size) (hn : n ≤ rb.size)
    (hend : rb.size < index + n) (hdst : n ≤ dst.length) :
    copy rb.image dst index (rb.size - index : ℕ) (index + n - rb.size : ℕ)
      = some (overwrite dst 0 (window rb.buf index n)) := by
  have hb := hm.wf.length_buf
  have hfits := hm.fits
  have htake : (rb.buf.drop index).take (rb.size - index) = rb.buf.drop index :=
    List.take_of_length_le (by rw [List.length_drop]; omega)
  have hfirst := get_image hm dst (p := index) (o := 0) (n := rb.size - index)
    (by omega) (by omega)
  rw [Nat.cast_zero, htake] at hfirst
  have hmid : (overwrite dst 0 (rb.buf.drop index)).length = dst.length :=
    length_overwrite (by rw [List.length_drop]; omega)
  have hsecond := get_image hm (overwrite dst 0 (rb.buf.drop index)) (p := 0)
    (o := rb.size - index) (n := index + n - rb.size) (by omega) (by rw [hmid]; omega)
  have hzero : int (headerLength + (0 : ℕ)) = headerLength := int_eq (by decide) (by decide)
  rw [hzero, List.drop_zero] at hsecond
  rw [copy, hfirst]
  simp only [Option.bind_eq_bind, Option.bind_some]
  rw [if_pos (by omega), int_eq (z := (rb.size - index : ℕ)) (by omega) (by omega), hsecond,
    window_split (by omega) (by omega) (by omega), hb]
  -- the second piece continues where the first one ended
  have hjoin : 0 + (rb.buf.drop index).length + (rb.buf.take (index + n - rb.size)).length
      ≤ dst.length := by
    rw [List.length_drop, List.length_take]
    omega
  have hplace : rb.size - index = 0 + (rb.buf.drop index).length := by
    rw [List.length_drop, hb, Nat.zero_add]
  rw [hplace, overwrite_overwrite hjoin]

end Copy

/-! ### The functions -/

section Functions

variable {rb : Rb}

/-- Where the read index, the write index, the flag and the totals end up. -/
theorem moveReadIndex_image (hl : Rb.Laid rb) {i n count canRead : ℕ} {isOver : ℤ}
    (hi : i < 2 ^ 63) :
    moveReadIndex rb.image i n count isOver canRead =
      some { rb with
        readIndex := i
        writeIndex := if isOver = 1 ∧ canRead < n then i else rb.writeIndex
        lastWasWrite := 0
        totalBytesRead := u64 (rb.totalBytesRead + n)
        totalUnderflows :=
          if n < count then u64 (rb.totalUnderflows + 1) else rb.totalUnderflows }.image := by
  have hl₁ : Rb.Laid { rb with readIndex := i } := ⟨hl.arrays, hl.length_buf⟩
  -- the index just stored is what the write index is set to
  have hdrag : (if isOver = 1 ∧ (canRead : ℤ) < n then
      (readIndex { rb with readIndex := i }.image).bind
        (setWriteIndex { rb with readIndex := i }.image)
      else some { rb with readIndex := i }.image) =
      some { rb with
        readIndex := i
        writeIndex := if isOver = 1 ∧ canRead < n then i else rb.writeIndex }.image := by
    have hback : readIndex { rb with readIndex := i }.image = some (i : ℤ) := by
      rw [readIndex, getLong_image hl₁ (k := 3) (p := boffReadIndex) (v := i) rfl rfl]
      exact congrArg some (long_eq (by omega) (by omega))
    simp only [Nat.cast_lt]
    split
    · rw [hback, Option.bind_some, setWriteIndex_image hl₁]
    · rfl
  rw [moveReadIndex, setReadIndex_image hl]
  simp only [Option.bind_eq_bind, Option.bind_some]
  rw [hdrag]
  simp only [Option.bind_some]
  generalize (if isOver = 1 ∧ canRead < n then i else rb.writeIndex) = w
  have hl₂ : Rb.Laid { rb with readIndex := i, writeIndex := w } := ⟨hl.arrays, hl.length_buf⟩
  rw [setLastWasWrite_image hl₂, Option.bind_some]
  have hl₃ : Rb.Laid { rb with readIndex := i, writeIndex := w, lastWasWrite := 0 } :=
    ⟨hl.arrays, hl.length_buf⟩
  rw [addTotalBytesRead_image hl₃, Option.bind_some]
  simp only [Nat.cast_lt]
  split
  · rw [addTotalUnderflows_image (hl.moved ..)]
  · rfl

/-- How many bytes the Java functions settle on. -/
theorem doCount_eq {count isOver : ℕ} (hover : isOver = 0 ∨ isOver = 1) :
    (if (isOver : ℤ) = 1 then min (rb.size : ℤ) count
      else if (count : ℤ) > rb.canRead then (rb.canRead : ℤ) else count)
      = (rb.readCount count isOver : ℕ) := by
  unfold Rb.readCount
  rcases hover with rfl | rfl
  · rw [if_neg (by omega), if_pos rfl]
    split <;> omega
  · rw [if_pos (by omega), if_neg (by omega)]
    omega

/-- Only an over-reading call can overtake the write index. -/
theorem afterRead_image {count isOver : ℕ} (hover : isOver = 0 ∨ isOver = 1) :
    { rb with
      readIndex := (rb.readIndex + rb.readCount count isOver) % rb.size
      writeIndex := if (isOver : ℤ) = 1 ∧ rb.canRead < rb.readCount count isOver
        then (rb.readIndex + rb.readCount count isOver) % rb.size else rb.writeIndex
      lastWasWrite := 0
      totalBytesRead := u64 (rb.totalBytesRead + rb.readCount count isOver)
      totalUnderflows := if rb.readCount count isOver < count then u64 (rb.totalUnderflows + 1)
        else rb.totalUnderflows } = rb.afterRead (rb.readCount count isOver) count := by
  have hdrag : ((isOver : ℤ) = 1 ∧ rb.canRead < rb.readCount count isOver)
      ↔ rb.canRead < rb.readCount count isOver := by
    rcases hover with rfl | rfl
    · rw [Rb.readCount_zero]
      omega
    · simp
  rw [Rb.afterRead, if_congr hdrag rfl rfl]

/-- The copy of `n` bytes from the read index, and the index it leads to. -/
theorem copy_image (hm : Mapped rb) {n : ℕ} {dst : List UInt8} (hn : n ≤ rb.size)
    (hdst : n ≤ dst.length) :
    ∃ copyCount1 copyCount2 : ℤ,
      (if long (rb.readIndex + n) > rb.size then long (rb.size - rb.readIndex) else n)
        = copyCount1 ∧
      (if long (rb.readIndex + n) > rb.size then long (long (rb.readIndex + n) - rb.size) else 0)
        = copyCount2 ∧
      copy rb.image dst rb.readIndex copyCount1 copyCount2
        = some (overwrite dst 0 (window rb.buf rb.readIndex n)) ∧
      rem (if copyCount2 < 1 then long (rb.readIndex + copyCount1) else copyCount2) rb.size
        = some (((rb.readIndex + n) % rb.size : ℕ) : ℤ) := by
  have hfits := hm.fits
  have hr := hm.wf.read_lt
  have hpos := hm.wf.size_pos
  have hsum : long (rb.readIndex + n) = ((rb.readIndex + n : ℕ) : ℤ) := by
    rw [long_eq (by omega) (by omega), Nat.cast_add]
  rw [hsum]
  by_cases hend : rb.size < rb.readIndex + n
  · have hc1 : long (rb.size - rb.readIndex) = ((rb.size - rb.readIndex : ℕ) : ℤ) := by
      rw [long_eq (by omega) (by omega)]
      omega
    have hc2 : long ((rb.readIndex + n : ℕ) - rb.size)
        = ((rb.readIndex + n - rb.size : ℕ) : ℤ) := by
      rw [long_eq (by omega) (by omega)]
      omega
    have hgt : ((rb.readIndex + n : ℕ) : ℤ) > rb.size := by omega
    refine ⟨_, _, (if_pos hgt).trans hc1, (if_pos hgt).trans hc2,
      copy_split hm hr hn hend hdst, ?_⟩
    rw [if_neg (by omega), rem_eq hpos,
      ← Nat.mod_eq_sub_mod (by omega : rb.readIndex + n ≥ rb.size)]
  · have hle : ¬ ((rb.readIndex + n : ℕ) : ℤ) > rb.size := by omega
    refine ⟨_, _, if_neg hle, if_neg hle, copy_straight hm (by omega) hdst, ?_⟩
    rw [if_pos (by decide), hsum, rem_eq hpos]

theorem genericRead_image (hm : Mapped rb) {count isOver : ℕ} {dst : List UInt8}
    (hover : isOver = 0 ∨ isOver = 1) (hdst : rb.readCount count isOver ≤ dst.length) :
    ∃ n bytes rb', rb.genericRead count isOver = some (n, bytes, rb') ∧
      genericRead rb.image dst count isOver = some ((n : ℤ), overwrite dst 0 bytes, rb'.image) := by
  have hfits := hm.fits
  have hr := hm.wf.read_lt
  have hn := Rb.readCount_le_size hm.wf count isOver
  have hzero := Rb.readCount_eq_zero hm.wf count isOver
  have hlt : (rb.readIndex + rb.readCount count isOver) % rb.size < rb.size :=
    Nat.mod_lt _ hm.wf.size_pos
  rw [Rb.genericRead_eq hm.wf, genericRead]
  by_cases hc : count = 0
  · rw [if_pos (hzero.mpr (Or.inl hc)), if_pos (show (count : ℤ) = 0 by omega)]
    exact ⟨0, [], rb, rfl, by rw [overwrite_nil, Nat.cast_zero]⟩
  · rw [if_neg (show ¬ (count : ℤ) = 0 by omega), canRead_image hm, size_image hm]
    simp only [Option.bind_eq_bind, Option.bind_some]
    by_cases hstop : isOver = 0 ∧ rb.canRead = 0
    · rw [if_pos (hzero.mpr (Or.inr hstop)),
        if_pos (show (isOver : ℤ) ≠ 1 ∧ (rb.canRead : ℤ) < 1 by omega)]
      exact ⟨0, [], rb, rfl, by rw [overwrite_nil, Nat.cast_zero]⟩
    · have hnz : ¬ rb.readCount count isOver = 0 := by
        rw [hzero]
        exact not_or.mpr ⟨hc, hstop⟩
      rw [if_neg hnz, if_neg (show ¬ ((isOver : ℤ) ≠ 1 ∧ (rb.canRead : ℤ) < 1) by omega)]
      refine ⟨_, _, _, rfl, ?_⟩
      rw [doCount_eq hover, readIndex_image hm, Option.bind_some]
      obtain ⟨copyCount1, copyCount2, hc1, hc2, hcopy, hindex⟩ := copy_image hm hn hdst
      rw [hc1, hc2, hcopy, Option.bind_some, hindex, Option.bind_some,
        moveReadIndex_image hm.laid (by omega), afterRead_image hover]
      simp only [Option.bind_some, Option.pure_def]

theorem genericAdvanceReadIndex_image (hm : Mapped rb) {count isOver : ℕ}
    (hover : isOver = 0 ∨ isOver = 1) :
    ∃ n rb', rb.genericAdvanceReadIndex count isOver = some (n, rb') ∧
      genericAdvanceReadIndex rb.image count isOver = some ((n : ℤ), rb'.image) := by
  have hfits := hm.fits
  have hr := hm.wf.read_lt
  have hn := Rb.readCount_le_size hm.wf count isOver
  have hzero := Rb.readCount_eq_zero hm.wf count isOver
  have hlt : (rb.readIndex + rb.readCount count isOver) % rb.size < rb.size :=
    Nat.mod_lt _ hm.wf.size_pos
  rw [Rb.genericAdvanceReadIndex_eq hm.wf, genericAdvanceReadIndex]
  by_cases hc : count = 0
  · rw [if_pos hc, if_pos (show (count : ℤ) = 0 by omega)]
    exact ⟨0, rb, rfl, rfl⟩
  · rw [if_neg hc, if_neg (show ¬ (count : ℤ) = 0 by omega), canRead_image hm, size_image hm]
    simp only [Option.bind_eq_bind, Option.bind_some]
    by_cases hstop : isOver = 0 ∧ rb.canRead = 0
    · rw [if_pos (hzero.mpr (Or.inr hstop)),
        if_pos (show (isOver : ℤ) ≠ 1 ∧ (rb.canRead : ℤ) < 1 by omega),
        addTotalUnderflows_image hm.laid]
      exact ⟨0, _, rfl, rfl⟩
    · have hnz : ¬ rb.readCount count isOver = 0 := by
        rw [hzero]
        exact not_or.mpr ⟨hc, hstop⟩
      rw [if_neg hnz, if_neg (show ¬ ((isOver : ℤ) ≠ 1 ∧ (rb.canRead : ℤ) < 1) by omega)]
      refine ⟨_, _, rfl, ?_⟩
      simp only [doCount_eq hover, readIndex_image hm, Option.bind_some]
      rw [← afterRead_image hover]
      generalize rb.readCount count isOver = n at hn hnz hlt ⊢
      rw [long_eq (z := rb.readIndex + n) (by omega) (by omega)]
      by_cases hend : rb.size < rb.readIndex + n
      · have hwrap : long (rb.readIndex + n - rb.size)
            = ((rb.readIndex + n - rb.size : ℕ) : ℤ) := by
          rw [long_eq (by omega) (by omega)]
          omega
        rw [if_pos (by omega), hwrap, rem_eq hm.wf.size_pos, Option.bind_some,
          ← Nat.mod_eq_sub_mod (by omega : rb.readIndex + n ≥ rb.size),
          moveReadIndex_image hm.laid (by omega)]
        rfl
      · rw [if_neg (by omega), ← Nat.cast_add, rem_eq hm.wf.size_pos, Option.bind_some,
          moveReadIndex_image hm.laid (by omega)]
        rfl

end Functions

/-! ### The bytes that change -/

/-- The bytes of the members a reading call may assign: the indices and the flag,
`total_bytes_read` and `total_underflows`. -/
def Assigned (i : ℕ) : Prop :=
  boffReadIndex ≤ i ∧ i < boffMemoryLocked ∨
    boffTotalBytesRead ≤ i ∧ i < boffTotalBytesWrite ∨
    boffTotalUnderflows ≤ i ∧ i < boffTotalUnderflows + 8

section Outside

variable {rb rb' : Rb}

theorem image_outside (hl : Rb.Laid rb) (index index' : ℕ) (flag : ℤ) (read underflows : ℕ)
    {i : ℕ} (hi : ¬ Assigned i) :
    { rb with
      readIndex := index, writeIndex := index', lastWasWrite := flag
      totalBytesRead := read, totalUnderflows := underflows }.image[i]? = rb.image[i]? := by
  unfold Assigned at hi
  have hplaces : boffReadIndex = 20 ∧ boffWriteIndex = 28 ∧ boffLastWasWrite = 36 ∧
      boffMemoryLocked = 40 ∧ boffTotalBytesRead = 80 ∧ boffTotalBytesWrite = 88 ∧
      boffTotalUnderflows = 104 := by decide
  obtain ⟨h20, h28, h36, h40, h80, h88, h104⟩ := hplaces
  rw [h20, h40, h80, h88, h104] at hi
  -- one member after the other
  have h1 := getElem?_store (i := i) (setReadIndex_image hl index)
    (by rw [length_leInt, h20]; omega)
  have hl₁ : Rb.Laid { rb with readIndex := index } := ⟨hl.arrays, hl.length_buf⟩
  have h2 := getElem?_store (i := i) (setWriteIndex_image hl₁ index')
    (by rw [length_leInt, h28]; omega)
  have hl₂ : Rb.Laid { rb with readIndex := index, writeIndex := index' } :=
    ⟨hl.arrays, hl.length_buf⟩
  have h3 := getElem?_store (i := i) (setLastWasWrite_image hl₂ flag)
    (by rw [length_leInt, h36]; omega)
  have hl₃ : Rb.Laid { rb with readIndex := index, writeIndex := index', lastWasWrite := flag } :=
    ⟨hl.arrays, hl.length_buf⟩
  have hread : store _ boffTotalBytesRead (leBytes 8 read) = some ({ rb with
      readIndex := index, writeIndex := index', lastWasWrite := flag
      totalBytesRead := read } : Rb).image :=
    Rb.store_image hl₃ (k := 16) rfl (by rw [length_leBytes, length_leBytes]) rfl rfl
  have h4 := getElem?_store (i := i) hread (by rw [length_leBytes, h80]; omega)
  have hl₄ : Rb.Laid { rb with
      readIndex := index, writeIndex := index', lastWasWrite := flag, totalBytesRead := read } :=
    ⟨hl.arrays, hl.length_buf⟩
  have hunderflows : store _ boffTotalUnderflows (leBytes 8 underflows) = some ({ rb with
      readIndex := index, writeIndex := index', lastWasWrite := flag
      totalBytesRead := read, totalUnderflows := underflows } : Rb).image :=
    Rb.store_image hl₄ (k := 19) rfl (by rw [length_leBytes, length_leBytes]) rfl rfl
  have h5 := getElem?_store (i := i) hunderflows (by rw [length_leBytes, h104]; omega)
  rw [h5, h4, h3, h2, h1]

theorem genericRead_outside (hm : Mapped rb) {count isOver n i : ℕ} {bytes : List UInt8}
    (hrun : rb.genericRead count isOver = some (n, bytes, rb')) (hi : ¬ Assigned i) :
    rb'.image[i]? = rb.image[i]? := by
  rw [Rb.genericRead_eq hm.wf, Option.some.injEq] at hrun
  split at hrun
  · cases hrun
    rfl
  · cases hrun
    exact image_outside hm.laid _ _ _ _ _ hi

theorem genericAdvanceReadIndex_outside (hm : Mapped rb) {count isOver n i : ℕ}
    (hrun : rb.genericAdvanceReadIndex count isOver = some (n, rb')) (hi : ¬ Assigned i) :
    rb'.image[i]? = rb.image[i]? := by
  rw [Rb.genericAdvanceReadIndex_eq hm.wf, Option.some.injEq] at hrun
  split at hrun
  · cases hrun
    rfl
  · split at hrun
    · cases hrun
      exact image_outside hm.laid rb.readIndex rb.writeIndex rb.lastWasWrite rb.totalBytesRead _ hi
    · cases hrun
      exact image_outside hm.laid _ _ _ _ _ hi

end Outside

/-- **The Java class and the C library are the same ring over the same bytes.**

The levels agree; a reading and an advancing method give back the count and the bytes
the C function does, and turn the block into the block of the ring the C function
leaves, with no byte outside the members it assigns touched. -/
theorem java_agrees {rb : Rb} (hm : Mapped rb) {count isOver : ℕ}
    (hover : isOver = 0 ∨ isOver = 1) {dst : List UInt8}
    (hdst : rb.readCount count isOver ≤ dst.length) :
    canRead rb.image = some (rb.canRead : ℤ) ∧ canWrite rb.image = some (rb.canWrite : ℤ) ∧
    (∃ n bytes rb', rb.genericRead count isOver = some (n, bytes, rb') ∧
      genericRead rb.image dst count isOver = some ((n : ℤ), overwrite dst 0 bytes, rb'.image) ∧
      ∀ i, ¬ Assigned i → rb'.image[i]? = rb.image[i]?) ∧
    (∃ n rb', rb.genericAdvanceReadIndex count isOver = some (n, rb') ∧
      genericAdvanceReadIndex rb.image count isOver = some ((n : ℤ), rb'.image) ∧
      ∀ i, ¬ Assigned i → rb'.image[i]? = rb.image[i]?) := by
  refine ⟨canRead_image hm, canWrite_image hm, ?_, ?_⟩
  · obtain ⟨n, bytes, rb', hrun, hjava⟩ := genericRead_image hm hover hdst
    exact ⟨n, bytes, rb', hrun, hjava, fun i hi => genericRead_outside hm hrun hi⟩
  · obtain ⟨n, rb', hrun, hjava⟩ := genericAdvanceReadIndex_image hm hover
    exact ⟨n, rb', hrun, hjava, fun i hi => genericAdvanceReadIndex_outside hm hrun hi⟩

theorem mapped_of_reachable {size : ℕ} {rb : Rb} (hrb : Rb.Reachable size rb)
    (hfits : sizeofRb + size < 2 ^ 31) : Mapped rb := by
  have hlt : size < 2 ^ 63 := by omega
  obtain ⟨hwf, hsize⟩ := hrb.wf hlt
  exact ⟨hwf, hrb.laid hlt, by rw [hsize]; exact hfits⟩

theorem mapped_cleared {size : ℕ} (hpos : 1 ≤ size) (hfits : sizeofRb + size < 2 ^ 31) :
    Mapped (Rb.cleared size) :=
  mapped_of_reachable (Rb.reachable_cleared hpos (Nat.lt_trans hfits (by norm_num))) hfits

/-- Seven bytes are asked for, and the three of the content come from both ends of the buffer. -/
theorem java_agrees_turnedRing :
    canRead Rb.turnedRing.image = some (Rb.turnedRing.canRead : ℤ) ∧
    canWrite Rb.turnedRing.image = some (Rb.turnedRing.canWrite : ℤ) ∧
    (∃ n bytes rb', Rb.turnedRing.genericRead 7 0 = some (n, bytes, rb') ∧
      genericRead Rb.turnedRing.image [9, 9, 9, 9] (7 : ℕ) (0 : ℕ)
        = some ((n : ℤ), overwrite [9, 9, 9, 9] 0 bytes, rb'.image) ∧
      ∀ i, ¬ Assigned i → rb'.image[i]? = Rb.turnedRing.image[i]?) ∧
    (∃ n rb', Rb.turnedRing.genericAdvanceReadIndex 7 0 = some (n, rb') ∧
      genericAdvanceReadIndex Rb.turnedRing.image (7 : ℕ) (0 : ℕ) = some ((n : ℤ), rb'.image) ∧
      ∀ i, ¬ Assigned i → rb'.image[i]? = Rb.turnedRing.image[i]?) :=
  java_agrees (mapped_of_reachable Rb.reachable_turnedRing (by decide)) (Or.inl rfl)
    (show Rb.turnedRing.readCount 7 0 ≤ 4 by decide)

end JavaRB

end Csnip
