/-
Two programs at the ends of one ring.

`rb_cat -` copies its standard input to a ring, `img_cat` sends a header and a file, and
`rb_shared_writer` sends one sentence over and over; `rb_cat` prints what it reads, and
`rb_shared_reader` breaks it into lines.  Each of them calls `rb_write()` or `rb_read()` in a loop.
A turn is a whole call of one of the two functions, and the turns of two programs come in any order.
The programs take no locks, so that calls may overlap, and then bytes can be lost or made up: what
single accesses do to each other is the subject of `Spsc/Safety.lean`.  Here no two calls overlap.

Under that condition a ring of any size is a channel (`rbChannel`): what is printed is at every
moment the front of what was sent, and when both programs get their turns all of it is printed.
-/
import Csnip.Cat.Drain
import Csnip.Lib.LittleEndian
import Csnip.Lib.Packed
import Csnip.Lib.Pipe

namespace Csnip

open Memory LittleEndian Fair Pipe

namespace Copy

open Cat (bufsize read_keeps_mark write_keeps_mark)

/-! ### A ring is a channel -/

/-- A ring on which nobody has set the mark. -/
def Unmarked (rb : Rb) : Prop := Rb.WF rb ∧ rb.noMoreInputData = 0

/-- `rb_read()` in the loop of `rb_cat`, which goes on while there is no mark. -/
def readUnmarked (rb : Rb) (count : ℕ) : Option (List UInt8 × Rb) :=
  if rb.noMoreInputData < 1 then (rb.read count).map Prod.snd else none

/-- `rb_read()` in the loop of `rb_shared_reader`, which does not end. -/
def readOn (rb : Rb) (count : ℕ) : Option (List UInt8 × Rb) := (rb.read count).map Prod.snd

section Ring

variable {rb : Rb}

theorem readUnmarked_eq (h : Unmarked rb) (count : ℕ) :
    readUnmarked rb count = readOn rb count := by
  rw [readUnmarked, h.2, if_pos (by decide)]
  rfl

theorem readOn_spec (h : Unmarked rb) (count : ℕ) : ∃ rb',
    readOn rb count = some (rb.queue.take count, rb') ∧ Unmarked rb' ∧
      rb'.queue = rb.queue.drop count := by
  obtain ⟨rb', hread, hcons⟩ := Rb.read_consumes h.1 count
  have hlen := Rb.length_queue h.1
  refine ⟨rb', ?_, ⟨hcons.wf, (read_keeps_mark h.1 hread).trans h.2⟩, ?_⟩
  · rw [readOn, hread, Option.map_some, ← hlen, ← List.take_eq_take_min]
  · rw [hcons.queue, ← hlen]
    by_cases hle : count ≤ rb.queue.length
    · rw [Nat.min_eq_left hle]
    · rw [Nat.min_eq_right (by omega), List.drop_length, List.drop_of_length_le (by omega)]

theorem write_spec (h : Unmarked rb) (bytes : List UInt8) : ∃ rb',
    rb.write bytes bytes.length
        = some (min bytes.length (rb.size - rb.queue.length), rb') ∧ Unmarked rb' ∧
      rb'.queue = rb.queue ++ bytes.take (min bytes.length (rb.size - rb.queue.length)) := by
  have hsrc : min bytes.length rb.canWrite ≤ bytes.length := Nat.min_le_left _ _
  obtain ⟨rb', hwrite, hprod⟩ := Rb.write_produces h.1 hsrc
  rw [Rb.length_queue h.1, ← Rb.canWrite_eq h.1]
  exact ⟨rb', hwrite, ⟨hprod.wf, (write_keeps_mark h.1 hsrc hwrite).trans h.2⟩, hprod.queue⟩

end Ring

/-- A ring somebody writes to with `rb_write()` and somebody else reads from, one whole call at a
time. -/
def rbChannel (receive : Rb → ℕ → Option (List UInt8 × Rb))
    (hreceive : ∀ rb count, Unmarked rb → receive rb count = readOn rb count) :
    Channel Rb UInt8 where
  Valid := Unmarked
  content := Rb.queue
  capacity := Rb.size
  send rb bytes := rb.write bytes bytes.length
  receive := receive
  capacity_pos _ h := h.1.size_pos
  send_spec _ bytes h := write_spec h bytes
  receive_spec rb count h := hreceive rb count h ▸ readOn_spec h count

/-- A new ring is one nobody has marked, and it is empty. -/
theorem unmarked_of_new {malloc : Malloc} {size : ℕ} {name : List UInt8}
    {sampleRate channelCount bytesPerSample : ℤ} {rb : Rb} (hsize : size < 2 ^ 64)
    (hnew : rbNewAudio malloc size name sampleRate channelCount bytesPerSample
      = some (some rb)) : Unmarked rb ∧ rb.queue = [] := by
  obtain ⟨hwf, -, hempty⟩ := Rb.rbNewAudio_wf (Rb.rbNewAudio_size_lt hsize hnew) hnew
  have hlen := Rb.length_queue hwf
  rw [hempty, List.length_eq_zero_iff] at hlen
  obtain ⟨block, -, -, -, rfl⟩ := Rb.rbNewAudio_eq_some hnew
  exact ⟨⟨hwf, rfl⟩, hlen⟩

/-! ### `... | rb_cat - <handle>` and `rb_cat <handle>` -/

/-- The ring between two `rb_cat`. -/
def catChannel : Channel Rb UInt8 := rbChannel readUnmarked fun _ count h => readUnmarked_eq h count

/-- The reading `rb_cat` asks for `bufsize` bytes and prints what it gets. -/
def catReader : Receiver Unit UInt8 where
  request _ := bufsize
  take r _ := r
  request_pos _ := by decide

/-- A turn of one of the two, a `read()` or a whole call on the ring; `chunk k` is what the `k`-th
`read()` of the standard input gives, and the writing loop ends with the first one that gives
nothing. -/
def catNext (chunk : ℕ → List UInt8) : State Rb UInt8 Unit → Party → Option (State Rb UInt8 Unit) :=
  next catChannel catReader chunk

/-- **What goes into one `rb_cat` comes out of the other**, as long as their calls do not overlap.

In every order in which the two make their calls one after the other, every call is defined and what
has been printed is the front of the input, up to the first `read()` that gives nothing; when both
get their turns again and again, the whole of it is printed in the end. -/
theorem rb_cat_copies_input {malloc : Malloc} {size : ℕ} {name : List UInt8}
    {sampleRate channelCount bytesPerSample : ℤ} {rb : Rb} (hsize : size < 2 ^ 64)
    (hnew : rbNewAudio malloc size name sampleRate channelCount bytesPerSample
      = some (some rb)) {chunk : ℕ → List UInt8} {n : ℕ} (hchunks : ∀ k < n, chunk k ≠ [])
    (hend : chunk n = []) (schedule : ℕ → Party) :
    Runs (catNext chunk) schedule (follow (catNext chunk) schedule (start rb ())) ∧
      (∀ j, (follow (catNext chunk) schedule (start rb ()) j).delivered
        <+: (List.range n).flatMap chunk) ∧
      (IsFair schedule → ∃ m, ∀ j, m ≤ j →
        (follow (catNext chunk) schedule (start rb ()) j).delivered
          = (List.range n).flatMap chunk) := by
  obtain ⟨hopen, hempty⟩ := unmarked_of_new hsize hnew
  have h0 : Inv catChannel chunk (start rb ()) := start_inv () hopen hempty
  have hrun := runs_follow h0 (fun s p hs => next_inv (R := catReader) hs p) schedule
  have hfront : ∀ j, (follow (catNext chunk) schedule (start rb ()) j).delivered
      <+: (List.range n).flatMap chunk := by
    intro j
    exact (runs_inv hrun h0 j).delivered_front_of_ends hend
  refine ⟨hrun, hfront, fun hfair => ?_⟩
  obtain ⟨m, hm⟩ := delivers hchunks hfair hrun h0
  exact ⟨m, fun j hj => (hfront j).eq_of_length_le (hm j hj).length_le⟩

/-- A standard input of three bytes. -/
def threeBytes (k : ℕ) : List UInt8 := if k = 0 then [9, 8, 7] else []

/-- They go through a ring of two. -/
theorem rb_cat_copies_three_bytes : ∃ m, ∀ j, m ≤ j →
    (follow (catNext threeBytes) byTurns (start (Rb.cleared 2) ()) j).delivered = [9, 8, 7] := by
  have hnew : rbNew .cleared 2 = some (some (Rb.cleared 2)) :=
    Rb.rbNew_cleared (by decide) (by decide)
  have hchunks : ∀ k < 1, threeBytes k ≠ [] := by decide
  exact (rb_cat_copies_input (by decide) hnew hchunks rfl byTurns).2.2 byTurns_fair

/-! ### `img_cat <handle> <img>` and `rb_cat <handle>` -/

/-- `imgframe_t`, which is packed. -/
structure Imgframe where
  magic : List UInt8
  pixelDataSizeBytes : ℤ
  frameNumber : ℕ
  width : ℤ
  height : ℤ
  channelCount : ℤ
  bytesPerChannel : ℤ
  streamNumber : ℤ
  fps : UInt32
  millisSinceEpoch : ℕ
deriving Repr, DecidableEq

def imgMagic : List UInt8 := [105, 109, 103, 102, 48, 48, 48, 0]

/-- `imgframe_new()`, on a block that holds what it held; `fps` is the number's representation and
`millis` is the time of the day. -/
def imgframeNew (block : List UInt8) (size w h channelCount bytesPerChannel streamNumber : ℤ)
    (fps : UInt32) (millis : ℕ) : Imgframe where
  magic := strncpy (block.take 8) imgMagic 8
  pixelDataSizeBytes := size
  frameNumber := 0
  width := w
  height := h
  channelCount := channelCount
  bytesPerChannel := bytesPerChannel
  streamNumber := streamNumber
  fps := fps
  millisSinceEpoch := millis

namespace Imgframe

/-- The members as they are stored. -/
def fields (img : Imgframe) : List (List UInt8) :=
  [img.magic, leInt 4 img.pixelDataSizeBytes, leBytes 8 img.frameNumber, leInt 4 img.width,
    leInt 4 img.height, leInt 4 img.channelCount, leInt 4 img.bytesPerChannel,
    leInt 4 img.streamNumber, leBytes 4 img.fps.toNat, leBytes 8 img.millisSinceEpoch]

/-- The bytes of a header. -/
def image (img : Imgframe) : List UInt8 := img.fields.flatten

def widths : List ℕ := [8, 4, 8, 4, 4, 4, 4, 4, 4, 8]

/-- Member `k` of a header at the front of some bytes. -/
def member (bytes : List UInt8) (k : ℕ) : Option (List UInt8) :=
  load bytes (Packed.offset widths k) (widths.getD k 0)

/-- The header at the front of some bytes. -/
def ofBytes (bytes : List UInt8) : Option Imgframe := do
  let magic ← member bytes 0
  let pixelDataSizeBytes ← member bytes 1
  let frameNumber ← member bytes 2
  let width ← member bytes 3
  let height ← member bytes 4
  let channelCount ← member bytes 5
  let bytesPerChannel ← member bytes 6
  let streamNumber ← member bytes 7
  let fps ← member bytes 8
  let millisSinceEpoch ← member bytes 9
  return {
    magic := magic
    pixelDataSizeBytes := signed 4 (leNat pixelDataSizeBytes)
    frameNumber := leNat frameNumber
    width := signed 4 (leNat width)
    height := signed 4 (leNat height)
    channelCount := signed 4 (leNat channelCount)
    bytesPerChannel := signed 4 (leNat bytesPerChannel)
    streamNumber := signed 4 (leNat streamNumber)
    fps := UInt32.ofNat (leNat fps)
    millisSinceEpoch := leNat millisSinceEpoch }

/-- The members have values of their types. -/
structure Fits (img : Imgframe) : Prop where
  length_magic : img.magic.length = 8
  ints : ∀ z ∈ [img.pixelDataSizeBytes, img.width, img.height, img.channelCount,
    img.bytesPerChannel, img.streamNumber], signed 4 z = z
  words : ∀ n ∈ [img.frameNumber, img.millisSinceEpoch], n < 2 ^ 64

variable {img : Imgframe}

theorem fields_lengths (h : img.Fits) : img.fields.map List.length = widths := by
  simp only [fields, List.map_cons, List.map_nil, length_leBytes, length_leInt, h.length_magic,
    widths]

theorem length_image (h : img.Fits) : img.image.length = 52 := by
  rw [image, List.length_flatten, fields_lengths h]
  rfl

theorem member_image (h : img.Fits) (rest : List UInt8) {k : ℕ} {field : List UInt8}
    (hk : img.fields[k]? = some field) : member (img.image ++ rest) k = some field := by
  have hfield := Packed.load_field hk
  have hwidth : widths.getD k 0 = field.length := by
    rw [← fields_lengths h, List.getD_eq_getElem?_getD, List.getElem?_map, hk]
    rfl
  rw [fields_lengths h] at hfield
  rw [member, hwidth]
  exact load_append hfield rest

/-- **A header is read back from its bytes**, whatever stands behind them. -/
theorem ofBytes_image (h : img.Fits) (rest : List UInt8) :
    ofBytes (img.image ++ rest) = some img := by
  have hints := h.ints
  have hwords := h.words
  simp only [List.forall_mem_cons, List.not_mem_nil, IsEmpty.forall_iff, implies_true, and_true]
    at hints hwords
  obtain ⟨hsize, hw, hh, hchannels, hbytes, hstream⟩ := hints
  obtain ⟨hnumber, hmillis⟩ := hwords
  have hfps : UInt32.ofNat (leNat (leBytes 4 img.fps.toNat)) = img.fps := by
    have hlt : img.fps.toNat < 256 ^ 4 := img.fps.toNat_lt
    rw [leNat_leBytes, Nat.mod_eq_of_lt hlt, UInt32.ofNat_toNat]
  have hword : ∀ n, n < 2 ^ 64 → leNat (leBytes 8 n) = n := by
    intro n hn
    rw [leNat_leBytes]
    omega
  have hmember : ∀ {k : ℕ} {field : List UInt8}, img.fields[k]? = some field →
      member (img.image ++ rest) k = some field := member_image h rest
  rw [ofBytes, hmember (k := 0) rfl, hmember (k := 1) rfl, hmember (k := 2) rfl,
    hmember (k := 3) rfl, hmember (k := 4) rfl, hmember (k := 5) rfl, hmember (k := 6) rfl,
    hmember (k := 7) rfl, hmember (k := 8) rfl, hmember (k := 9) rfl]
  simp only [Option.bind_eq_bind, Option.bind_some, Option.pure_def, signed_leNat_leInt, hsize,
    hw, hh, hchannels, hbytes, hstream, hword _ hnumber, hword _ hmillis, hfps]

/-- A header `img_cat` makes, as it is stored. -/
theorem imgframeNew_fits {block : List UInt8} {size : ℤ} {millis : ℕ}
    (hmillis : millis < 2 ^ 64) :
    (imgframeNew block (signed 4 size) 0 0 0 0 0 0 millis).Fits := by
  refine ⟨?_, ?_, ?_⟩
  · rw [imgframeNew, strncpy, List.length_append, List.length_take, List.length_append,
      List.length_drop, List.length_take]
    simp [imgMagic]
  · have hsize : signed 4 (signed 4 size) = signed 4 size := Int.bmod_bmod
    simp only [imgframeNew, List.forall_mem_cons, hsize]
    decide
  · simp only [imgframeNew, List.forall_mem_cons]
    exact ⟨by decide, hmillis, fun _ h => absurd h List.not_mem_nil⟩

end Imgframe

/-- What the `k`-th `read()` of a file gives. -/
def fileChunk (file : List UInt8) (k : ℕ) : List UInt8 := (file.drop (k * bufsize)).take bufsize

/-- What `img_cat` sends: the header, and the file a piece at a time. -/
def imgPieces (header file : List UInt8) : ℕ → List UInt8
  | 0 => header
  | k + 1 => fileChunk file k

/-- The header of `img_cat`; `st_size` is assigned to an `int`. -/
def imgHeader (block file : List UInt8) (millis : ℕ) : Imgframe :=
  imgframeNew block (signed 4 file.length) 0 0 0 0 0 0 millis

/-- The size of a file of less than 2 GiB fits into an `int`. -/
theorem pixelDataSizeBytes_imgHeader (block : List UInt8) {file : List UInt8} (millis : ℕ)
    (hfile : file.length < 2 ^ 31) :
    (imgHeader block file millis).pixelDataSizeBytes = file.length := by
  have hbound : (file.length : ℤ) < 2 ^ 31 := by exact_mod_cast hfile
  have hrange : signed 4 (file.length : ℤ) = file.length := by
    apply signed_of_range
    · have hnonneg : (0 : ℤ) ≤ file.length := Int.natCast_nonneg _
      omega
    · omega
  simp only [imgHeader, imgframeNew, hrange]

/-- A turn of `img_cat` or of the `rb_cat` that prints, again a `read()` or a whole call. -/
def imgNext (block file : List UInt8) (millis : ℕ) :
    State Rb UInt8 Unit → Party → Option (State Rb UInt8 Unit) :=
  next catChannel catReader (imgPieces (imgHeader block file millis).image file)

/-- How many pieces a file has. -/
def fileChunks (file : List UInt8) : ℕ := (file.length + bufsize - 1) / bufsize

theorem flatMap_fileChunk (file : List UInt8) (n : ℕ) :
    (List.range n).flatMap (fileChunk file) = file.take (n * bufsize) := by
  induction n with
  | zero => rw [Nat.zero_mul, List.take_zero]; rfl
  | succ n ih =>
      rw [List.range_succ, List.flatMap_append, ih, List.flatMap_singleton, fileChunk,
        Nat.succ_mul, List.take_add]

theorem upTo_imgPieces (header file : List UInt8) (n : ℕ) :
    upTo (imgPieces header file) (n + 1) = header ++ file.take (n * bufsize) := by
  rw [upTo, List.range_succ_eq_map, List.flatMap_cons, List.flatMap_map, ← flatMap_fileChunk]
  rfl

/-- The pieces make up the header and the file, and the one behind them is empty. -/
theorem imgPieces_all {header : List UInt8} (file : List UInt8) (hheader : header ≠ []) :
    (∀ k < fileChunks file + 1, imgPieces header file k ≠ []) ∧
      imgPieces header file (fileChunks file + 1) = [] ∧
      upTo (imgPieces header file) (fileChunks file + 1) = header ++ file := by
  have hbuf : bufsize = 64000 := rfl
  have hround : file.length ≤ fileChunks file * bufsize := by
    rw [fileChunks, hbuf]
    omega
  refine ⟨fun k hk => ?_, ?_, ?_⟩
  · cases k with
    | zero => exact hheader
    | succ k =>
        rw [imgPieces, fileChunk, ← List.length_pos_iff, List.length_take, List.length_drop]
        rw [fileChunks, hbuf] at hk
        rw [hbuf]
        omega
  · rw [imgPieces, fileChunk, List.drop_of_length_le hround, List.take_nil]
  · rw [upTo_imgPieces, List.take_of_length_le hround]

/-- **What `img_cat` sends can be taken apart again by whoever prints the ring**, as long as the
calls of the two do not overlap.

In every order of whole calls every call is defined and what has been printed is the front of the
header and the file; when both programs get their turns all of it is printed in the end.  The header
is then read back from the front, the file stands behind it, and for a file of less than 2 GiB the
header says how long that is. -/
theorem img_cat_sends_image {malloc : Malloc} {size : ℕ} {name : List UInt8}
    {sampleRate channelCount bytesPerSample : ℤ} {rb : Rb} (hsize : size < 2 ^ 64)
    (hnew : rbNewAudio malloc size name sampleRate channelCount bytesPerSample
      = some (some rb)) (block file : List UInt8) {millis : ℕ} (hmillis : millis < 2 ^ 64)
    (schedule : ℕ → Party) :
    Runs (imgNext block file millis) schedule
        (follow (imgNext block file millis) schedule (start rb ())) ∧
      (∀ j, (follow (imgNext block file millis) schedule (start rb ()) j).delivered
        <+: (imgHeader block file millis).image ++ file) ∧
      (IsFair schedule → ∃ m, ∀ j, m ≤ j →
        let printed := (follow (imgNext block file millis) schedule (start rb ()) j).delivered
        Imgframe.ofBytes printed = some (imgHeader block file millis) ∧ printed.drop 52 = file ∧
          (file.length < 2 ^ 31 →
            (imgHeader block file millis).pixelDataSizeBytes = file.length)) := by
  obtain ⟨hopen, hempty⟩ := unmarked_of_new hsize hnew
  have hfits : (imgHeader block file millis).Fits := Imgframe.imgframeNew_fits hmillis
  have hlen := Imgframe.length_image hfits
  obtain ⟨hpieces, hend, hall⟩ := imgPieces_all file
    (List.length_pos_iff.mp (Nat.lt_of_lt_of_eq (by decide) hlen.symm))
  have h0 : Inv catChannel (imgPieces (imgHeader block file millis).image file) (start rb ()) :=
    start_inv () hopen hempty
  have hrun := runs_follow h0 (fun s p hs => next_inv (R := catReader) hs p) schedule
  have hfront : ∀ j, (follow (imgNext block file millis) schedule (start rb ()) j).delivered
      <+: (imgHeader block file millis).image ++ file := by
    intro j
    rw [← hall]
    exact (runs_inv hrun h0 j).delivered_front_of_ends hend
  refine ⟨hrun, hfront, fun hfair => ?_⟩
  obtain ⟨m, hm⟩ := delivers hpieces hfair hrun h0
  refine ⟨m, fun j hj => ?_⟩
  have hprinted : (follow (imgNext block file millis) schedule (start rb ()) j).delivered
      = (imgHeader block file millis).image ++ file := by
    have hfull := hm j hj
    rw [hall] at hfull
    exact (hfront j).eq_of_length_le hfull.length_le
  dsimp only
  rw [hprinted, Imgframe.ofBytes_image hfits, ← hlen, List.drop_left]
  exact ⟨rfl, rfl, pixelDataSizeBytes_imgHeader block millis⟩

/-- A file of two bytes through a ring of two. -/
theorem img_cat_sends_two_bytes : ∃ m, ∀ j, m ≤ j →
    (follow (imgNext [] [1, 2] 7) byTurns (start (Rb.cleared 2) ()) j).delivered.drop 52
      = [1, 2] := by
  have hnew : rbNew .cleared 2 = some (some (Rb.cleared 2)) :=
    Rb.rbNew_cleared (by decide) (by decide)
  have hmillis : 7 < 2 ^ 64 := by decide
  obtain ⟨m, hm⟩ :=
    (img_cat_sends_image (by decide) hnew [] [1, 2] hmillis byTurns).2.2 byTurns_fair
  exact ⟨m, fun j hj => (hm j hj).2.1⟩

/-! ### `rb_shared_writer` and `rb_shared_reader` -/

/-- `"ringbuffers are cool. "` -/
def sentence : List UInt8 :=
  [114, 105, 110, 103, 98, 117, 102, 102, 101, 114, 115, 32, 97, 114, 101, 32, 99, 111, 111, 108,
    46, 32]

/-- The buffer of `rb_shared_reader`. -/
def bufSize : ℕ := 32

/-- `read_total` of `rb_shared_reader`, and what it has printed. -/
structure Reader where
  readTotal : ℕ
  stdout : List UInt8
deriving Repr, DecidableEq

namespace Reader

/-- `if(read_total>=buf_size)`: a full buffer is a line. -/
def newLine (r : Reader) : Reader :=
  if bufSize ≤ r.readTotal then ⟨0, r.stdout ++ [10]⟩ else r

/-- What `fprintf(stdout,"%s",buf_read)` prints. -/
def cString (bytes : List UInt8) : List UInt8 := bytes.takeWhile (· ≠ 0)

theorem newLine_lt (r : Reader) : r.newLine.readTotal < bufSize := by
  rw [newLine]
  split_ifs with hfull
  · exact Nat.zero_lt_succ 31
  · exact Nat.lt_of_not_le hfull

/-- The loop of `reader_thread_func()`: how much it asks for, and what it does with what it gets. -/
def receiver : Receiver Reader UInt8 where
  request r := bufSize - r.newLine.readTotal
  take r bytes := ⟨r.newLine.readTotal + bytes.length, r.newLine.stdout ++ cString bytes⟩
  request_pos r := Nat.sub_pos_of_lt r.newLine_lt

/-- Some bytes have been printed as lines of the size of the buffer, and a last one that may not
be full yet. -/
structure Shows (r : Reader) (bytes : List UInt8) (lines : List (List UInt8)) (last : List UInt8) :
    Prop where
  full : ∀ line ∈ lines, line.length = bufSize
  length_last : last.length = r.readTotal
  last_le : r.readTotal ≤ bufSize
  bytes_eq : bytes = lines.flatten ++ last
  stdout_eq : r.stdout = lines.flatMap (· ++ [10]) ++ last

variable {r : Reader} {bytes got : List UInt8} {lines : List (List UInt8)} {last : List UInt8}

/-- A line that is full is ended. -/
theorem Shows.newLine (h : Shows r bytes lines last) :
    ∃ lines' last', Shows r.newLine bytes lines' last' := by
  by_cases hfull : bufSize ≤ r.readTotal
  · rw [Reader.newLine, if_pos hfull]
    refine ⟨lines ++ [last], [], fun line hline => ?_, rfl, Nat.zero_le _, ?_, ?_⟩
    · rcases List.mem_append.mp hline with hold | hnew
      · exact h.full line hold
      · rw [List.mem_singleton.mp hnew, h.length_last]
        exact Nat.le_antisymm h.last_le hfull
    · rw [h.bytes_eq, List.flatten_append, List.append_nil, List.flatten_singleton]
    · rw [h.stdout_eq, List.flatMap_append, List.flatMap_singleton, List.append_nil,
        List.append_assoc]
  · rw [Reader.newLine, if_neg hfull]
    exact ⟨lines, last, h⟩

/-- Text has no byte in it that ends a string. -/
theorem cString_eq (h : ∀ b ∈ got, b ≠ 0) : cString got = got := by
  induction got with
  | nil => rfl
  | cons b got ih =>
      have hb : b ≠ 0 := h b List.mem_cons_self
      have hrest := ih fun c hc => h c (List.mem_cons_of_mem b hc)
      rw [cString] at hrest ⊢
      rw [List.takeWhile_cons_of_pos (by simpa using hb), hrest]

/-- What is read goes to the end of the line. -/
theorem Shows.more (h : Shows r bytes lines last) (hgot : r.readTotal + got.length ≤ bufSize)
    (htext : ∀ b ∈ got, b ≠ 0) :
    Shows ⟨r.readTotal + got.length, r.stdout ++ cString got⟩ (bytes ++ got) lines
      (last ++ got) where
  full := h.full
  length_last := by rw [List.length_append, h.length_last]
  last_le := hgot
  bytes_eq := by rw [h.bytes_eq, List.append_assoc]
  stdout_eq := by rw [cString_eq htext, h.stdout_eq, List.append_assoc]

/-- One round of the loop. -/
theorem Shows.take (h : Shows r bytes lines last)
    (hgot : got.length ≤ receiver.request r) (htext : ∀ b ∈ got, b ≠ 0) :
    ∃ lines' last', Shows (receiver.take r got) (bytes ++ got) lines' last' := by
  obtain ⟨lines', last', hline⟩ := h.newLine
  have hlt := r.newLine_lt
  have hrequest : receiver.request r = bufSize - r.newLine.readTotal := rfl
  exact ⟨lines', _, hline.more (by omega) htext⟩

end Reader

/-- The ring between `rb_shared_writer` and `rb_shared_reader`. -/
def sharedChannel : Channel Rb UInt8 := rbChannel readOn fun _ _ _ => rfl

/-- A turn of one of the two, a whole call: the writer begins the sentence again when all of it is
written. -/
def sharedNext : State Rb UInt8 Reader → Party → Option (State Rb UInt8 Reader) :=
  next sharedChannel Reader.receiver fun _ => sentence

/-- At least `n` lines are shown, and a last one; they are the front of the repeated sentence. -/
def ShowsSentences (n : ℕ) (stdout : List UInt8) : Prop :=
  ∃ (lines : List (List UInt8)) (last : List UInt8) (k : ℕ),
    n ≤ lines.length ∧ (∀ line ∈ lines, line.length = bufSize) ∧ last.length ≤ bufSize ∧
    stdout = lines.flatMap (· ++ [10]) ++ last ∧
    lines.flatten ++ last <+: (List.replicate k sentence).flatten

section Sentences

variable {s t : State Rb UInt8 Reader}

theorem upTo_sentence (k : ℕ) :
    upTo (fun _ => sentence) k = (List.replicate k sentence).flatten := by
  rw [upTo, List.flatMap, List.map_const', List.length_range]

/-- What is in the ring is text. -/
theorem text_of_inv (h : Inv sharedChannel (fun _ => sentence) s) :
    ∀ b ∈ s.channel.queue, b ≠ 0 := by
  intro b hb
  obtain ⟨k, -, hsent⟩ := h.sent_front
  have hmem : b ∈ upTo (fun _ => sentence) k := by
    refine hsent.subset ?_
    rw [h.order]
    exact List.mem_append_right _ hb
  rw [upTo_sentence] at hmem
  obtain ⟨text, htext, hbyte⟩ := List.mem_flatten.mp hmem
  rw [List.eq_of_mem_replicate htext] at hbyte
  have hnone : ∀ b ∈ sentence, b ≠ 0 := by simp [sentence]
  exact hnone b hbyte

/-- What the two programs keep. -/
def Shared (s : State Rb UInt8 Reader) : Prop :=
  Inv sharedChannel (fun _ => sentence) s ∧
    ∃ lines last, Reader.Shows s.receiver s.delivered lines last

theorem start_shared {rb : Rb} (h : Unmarked rb) (hempty : rb.queue = []) :
    Shared (start rb ⟨0, []⟩) :=
  ⟨start_inv _ h hempty, [], [], fun _ hline => absurd hline List.not_mem_nil, rfl,
    Nat.zero_le _, rfl, rfl⟩

theorem next_shared (h : Shared s) (p : Party) : ∃ t, sharedNext s p = some t ∧ Shared t := by
  obtain ⟨hinv, lines, last, hshows⟩ := h
  obtain ⟨t, hnext, hinv'⟩ := next_inv (R := Reader.receiver) hinv p
  refine ⟨t, hnext, hinv', ?_⟩
  cases p with
  | sender =>
      obtain ⟨t', hnext', hreceiver, hdelivered, -⟩ := sender_cases hinv
      obtain rfl : t' = t := Option.some.inj (hnext'.symm.trans hnext)
      rw [hreceiver, hdelivered]
      exact ⟨lines, last, hshows⟩
  | receiver =>
      obtain ⟨t', hnext', -, hreceiver, hdelivered, -⟩ :=
        receiver_cases (R := Reader.receiver) hinv
      obtain rfl : t' = t := Option.some.inj (hnext'.symm.trans hnext)
      rw [hreceiver, hdelivered]
      exact hshows.take (List.length_take_le _ _) fun b hb =>
        text_of_inv hinv b (List.mem_of_mem_take hb)

/-- What has been delivered is shown. -/
theorem Shared.showsSentences {n : ℕ} (h : Shared s)
    (hmany : bufSize * (n + 1) ≤ s.delivered.length ∨ n = 0) :
    ShowsSentences n s.receiver.stdout := by
  obtain ⟨hinv, lines, last, hshows⟩ := h
  obtain ⟨k, -, hfront⟩ := hinv.delivered_front
  rw [upTo_sentence, hshows.bytes_eq] at hfront
  have hlast : last.length ≤ bufSize := hshows.length_last ▸ hshows.last_le
  refine ⟨lines, last, k, ?_, hshows.full, hlast, hshows.stdout_eq, hfront⟩
  rcases hmany with hmany | rfl
  · have hlen : lines.flatten.length = lines.length * bufSize := by
      rw [List.length_flatten, List.map_congr_left hshows.full, List.map_const',
        List.sum_replicate_nat]
    rw [hshows.bytes_eq, List.length_append, hlen] at hmany
    rw [bufSize] at hmany hlast
    omega
  · exact Nat.zero_le _

end Sentences

/-- **The sentence comes through, a line at a time**, as long as the calls of the two do not
overlap.

In every order of whole calls every call is defined, and what `rb_shared_reader` has printed are
lines of 32 bytes and a last one of at most so many, which put together are the front of the
sentence repeated; and when both get their turns again and again there are more and more lines. -/
theorem rb_shared_shows_sentences {malloc : Malloc} {size : ℕ} {name : List UInt8}
    {sampleRate channelCount bytesPerSample : ℤ} {rb : Rb} (hsize : size < 2 ^ 64)
    (hnew : rbNewAudio malloc size name sampleRate channelCount bytesPerSample
      = some (some rb)) (schedule : ℕ → Party) :
    Runs sharedNext schedule (follow sharedNext schedule (start rb ⟨0, []⟩)) ∧
      (∀ j, ShowsSentences 0
        (follow sharedNext schedule (start rb ⟨0, []⟩) j).receiver.stdout) ∧
      (IsFair schedule → ∀ n, ∃ m, ∀ j, m ≤ j → ShowsSentences n
        (follow sharedNext schedule (start rb ⟨0, []⟩) j).receiver.stdout) := by
  obtain ⟨hopen, hempty⟩ := unmarked_of_new hsize hnew
  have h0 := start_shared hopen hempty
  have hrun := runs_follow h0 (fun s p hs => next_shared hs p) schedule
  have hshared : ∀ j, Shared (follow sharedNext schedule (start rb ⟨0, []⟩) j) := by
    refine hrun.invariant h0 fun s p t hs hnext => ?_
    obtain ⟨t', hnext', ht'⟩ := next_shared hs p
    obtain rfl : t' = t := Option.some.inj (hnext'.symm.trans hnext)
    exact ht'
  refine ⟨hrun, fun j => (hshared j).showsSentences (.inr rfl), fun hfair n => ?_⟩
  have hpieces : ∀ k < 2 * (n + 1), sentence ≠ [] := fun _ _ => List.cons_ne_nil _ _
  obtain ⟨m, hm⟩ := delivers hpieces hfair hrun h0.1
  refine ⟨m, fun j hj => (hshared j).showsSentences (.inl ?_)⟩
  have hle := (hm j hj).length_le
  have hlen : (upTo (fun _ => sentence) (2 * (n + 1))).length = 2 * (n + 1) * 22 := by
    rw [upTo_sentence, List.length_flatten, List.map_replicate, List.sum_replicate_nat]
    rfl
  rw [hlen] at hle
  rw [bufSize]
  omega

/-- Through a ring of five bytes, too. -/
theorem rb_shared_shows_sentences_five : ∃ m, ∀ j, m ≤ j → ShowsSentences 100
    (follow sharedNext byTurns (start (Rb.cleared 5) ⟨0, []⟩) j).receiver.stdout := by
  have hnew : rbNew .cleared 5 = some (some (Rb.cleared 5)) :=
    Rb.rbNew_cleared (by decide) (by decide)
  exact (rb_shared_shows_sentences (by decide) hnew byTurns).2.2 byTurns_fair 100

end Copy

end Csnip
