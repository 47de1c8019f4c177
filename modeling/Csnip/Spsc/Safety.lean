/-
When one reader and one writer are safe without locks.

Seen from the counts of bytes released and published, an access can go wrong in two
places only.  A party that has found the indices equal loads the flag, and the other one
may have changed it since: the flag then tells "full" or "empty" of a ring that is
neither.  And a party stores the flag some time after its index: the other one may have
filled or emptied the ring in between, and stored the flag too, which is now undone.
`Safe` excludes these, and nothing else has to be excluded: `Inv` is kept by every other
access of either party, whatever came before it.

Both do happen.  The run at the end loses two bytes of a ring of two.
-/
import Csnip.Rb.Ring
import Csnip.Rb.Api
import Csnip.Spsc.Steps

namespace Csnip

open Memory Cyclic Machine

namespace Spsc

/-! ### The condition -/

/-- The reader's access does not depend on a flag that is out of date, and does not make
it so, with `unread` bytes published and not released. -/
def Reader.Safe (rb : Rb) (writer : Writer) (unread : ℕ) : Reader → Prop
  | .canReadFlag count => rb.lastWasWrite ≠ 0 → min count rb.size ≤ unread
  | .storeFlag .. => unread = rb.size → writer.AtFlag
  | _ => True

/-- The same of the writer. -/
def Writer.Safe (rb : Rb) (reader : Reader) (unread : ℕ) : Writer → Prop
  | .canWriteFlag _ count => rb.lastWasWrite = 0 → unread + min count rb.size ≤ rb.size
  | .storeFlag .. => unread = 0 → reader.AtFlag
  | _ => True

def State.Safe (s : State) : Move → Prop
  | .reader => s.reader.Safe s.rb s.writer s.unread
  | .writer => s.writer.Safe s.rb s.reader s.unread
  | _ => True

/-- A move that meets the condition. -/
def State.SafeStep (s t : State) : Prop := ∃ move, s.Safe move ∧ s.next move = some t

/-! ### Levels computed from the indices -/

section Level

variable {size c p : ℕ}

/-- The two indices, from the counts they stand for. -/
theorem index_distance (hs : 0 < size) (hcp : c ≤ p) (hps : p ≤ c + size) :
    p % size = if c % size + (p - c) < size then c % size + (p - c)
      else c % size + (p - c) - size := by
  have hc : c % size < size := Nat.mod_lt c hs
  rw [← add_mod_of_lt hc (by omega), Nat.mod_add_mod, show c + (p - c) = p by omega]

/-- Different indices tell how many bytes are between them. -/
theorem readLevel_eq (hs : 0 < size) (hlt : size < 2 ^ 63) (hcp : c ≤ p) (hps : p ≤ c + size)
    (hne : c % size ≠ p % size) :
    (if c % size < p % size then subU64 (p % size) (c % size)
      else subU64 (u64 (p % size + size)) (c % size)) = p - c := by
  have hdist := index_distance hs hcp hps
  have hc : c % size < size := Nat.mod_lt c hs
  have hp : p % size < size := Nat.mod_lt p hs
  by_cases hstraight : c % size + (p - c) < size
  · rw [if_pos hstraight] at hdist
    rw [if_pos (by omega), subU64_of_le (by omega) (by omega)]
    omega
  · rw [if_neg hstraight] at hdist
    rw [if_neg (by omega), u64_of_lt (by omega), subU64_of_le (by omega) (by omega)]
    omega

/-- And how many bytes there is room for. -/
theorem writeLevel_eq (hs : 0 < size) (hlt : size < 2 ^ 63) (hcp : c ≤ p) (hps : p ≤ c + size)
    (hne : c % size ≠ p % size) :
    (if c % size < p % size then u64 (subU64 size (p % size) + c % size)
      else subU64 (c % size) (p % size)) = size - (p - c) := by
  have hdist := index_distance hs hcp hps
  have hc : c % size < size := Nat.mod_lt c hs
  have hp : p % size < size := Nat.mod_lt p hs
  by_cases hstraight : c % size + (p - c) < size
  · rw [if_pos hstraight] at hdist
    rw [if_pos (by omega), subU64_of_le (by omega) (by omega), u64_of_lt (by omega)]
    omega
  · rw [if_neg hstraight] at hdist
    rw [if_neg (by omega), subU64_of_le (by omega) (by omega)]
    omega

end Level

/-! ### The invariant -/

/-- The lengths of the two pieces of `n` bytes from `index`. -/
def Cut (size index n copyCount1 copyCount2 : ℕ) : Prop :=
  index + n ≤ size ∧ copyCount1 = n ∧ copyCount2 = 0 ∨
    size < index + n ∧ copyCount1 = size - index ∧ copyCount2 = index + n - size

/-- What the local variables of the reader stand for while `ahead` are the unread bytes
from `r` on. -/
def Reader.Ok (size r : ℕ) (ahead : List UInt8) : Reader → Prop
  | .canReadW _ r' => r' = r
  | .linear n => n ≤ ahead.length
  | .copyCount n linearEnd => n ≤ ahead.length ∧ linearEnd = r + n ∧ size < r + n
  | .copyFrom n copyCount1 copyCount2 => n ≤ ahead.length ∧ Cut size r n copyCount1 copyCount2
  | .copy1 n copyCount1 copyCount2 index =>
      n ≤ ahead.length ∧ Cut size r n copyCount1 copyCount2 ∧ index = r
  | .copy2 n copyCount2 destination =>
      n ≤ ahead.length ∧ size < r + n ∧ copyCount2 = r + n - size ∧
        destination = ahead.take (size - r)
  | .nextIndex n copyCount1 destination =>
      n ≤ ahead.length ∧ copyCount1 = n ∧ destination = ahead.take n
  | .storeIndex n index destination =>
      n ≤ ahead.length ∧ index = (r + n) % size ∧ destination = ahead.take n
  | _ => True

/-- What the local variables of the writer stand for after `c` bytes were released and
`p` published.  The read index it has loaded may be an old one. -/
def Writer.Ok (size w c p : ℕ) : Writer → Prop
  | .canWriteR source count => count ≤ source.length
  | .canWriteW source count r =>
      count ≤ source.length ∧ ∃ d, d ≤ c ∧ p ≤ d + size ∧ r = d % size
  | .canWriteFlag source count => count ≤ source.length
  | .linear source n => n ≤ source.length ∧ p + n ≤ c + size
  | .copyCount source n linearEnd =>
      n ≤ source.length ∧ p + n ≤ c + size ∧ linearEnd = w + n ∧ size < w + n
  | .copyTo source n copyCount1 copyCount2 =>
      n ≤ source.length ∧ p + n ≤ c + size ∧ Cut size w n copyCount1 copyCount2
  | .copy1 source n copyCount1 copyCount2 index =>
      n ≤ source.length ∧ p + n ≤ c + size ∧ Cut size w n copyCount1 copyCount2 ∧ index = w
  | .copy2 source n copyCount1 copyCount2 =>
      n ≤ source.length ∧ p + n ≤ c + size ∧ size < w + n ∧ copyCount1 = size - w ∧
        copyCount2 = w + n - size
  | .nextIndex source n copyCount1 => n ≤ source.length ∧ p + n ≤ c + size ∧ copyCount1 = n
  | .storeIndex source n index =>
      n ≤ source.length ∧ p + n ≤ c + size ∧ index = (w + n) % size
  | _ => True

/-- What holds between any two accesses, `consumed` having been released and `produced`
published. -/
structure Inv (rb : Rb) (reader : Reader) (writer : Writer) (consumed produced : List UInt8) :
    Prop where
  wf : Rb.WF rb
  order : consumed <+: produced
  room : produced.length + writer.staged.length ≤ consumed.length + rb.size
  readIndex : rb.readIndex = consumed.length % rb.size
  writeIndex : rb.writeIndex = produced.length % rb.size
  content : window rb.buf rb.readIndex (produced.length - consumed.length + writer.staged.length)
    = produced.drop consumed.length ++ writer.staged
  empty : produced.length = consumed.length → ¬ reader.AtFlag → rb.lastWasWrite = 0
  full : produced.length = consumed.length + rb.size → ¬ writer.AtFlag → rb.lastWasWrite ≠ 0
  reader_ok : reader.Ok rb.size rb.readIndex (produced.drop consumed.length)
  writer_ok : writer.Ok rb.size rb.writeIndex consumed.length produced.length

variable {rb rb' : Rb} {reader reader' : Reader} {writer writer' : Writer}
  {consumed produced : List UInt8}

/-- What the reader knows stays true when more is published. -/
theorem Reader.Ok.mono {size r : ℕ} {ahead ahead' : List UInt8} (hle : ahead <+: ahead')
    (h : reader.Ok size r ahead) : reader.Ok size r ahead' := by
  obtain ⟨more, rfl⟩ := hle
  have htake : ∀ {k}, k ≤ ahead.length → (ahead ++ more).take k = ahead.take k :=
    fun hk => List.take_append_of_le_length hk
  have hlen : (ahead ++ more).length = ahead.length + more.length := List.length_append
  cases reader with
  | linear n => exact Nat.le_trans h (by omega)
  | copyCount n linearEnd => exact ⟨Nat.le_trans h.1 (by omega), h.2⟩
  | copyFrom n c1 c2 => exact ⟨Nat.le_trans h.1 (by omega), h.2⟩
  | copy1 n c1 c2 index => exact ⟨Nat.le_trans h.1 (by omega), h.2⟩
  | copy2 n c2 destination =>
      obtain ⟨hn, hend, hc2, hd⟩ := h
      exact ⟨by omega, hend, hc2, by rw [hd, htake (by omega)]⟩
  | nextIndex n c1 destination =>
      obtain ⟨hn, hc1, hd⟩ := h
      exact ⟨by omega, hc1, by rw [hd, htake hn]⟩
  | storeIndex n index destination =>
      obtain ⟨hn, hindex, hd⟩ := h
      exact ⟨by omega, hindex, by rw [hd, htake hn]⟩
  | _ => exact h

/-- What the writer knows stays true when more is released. -/
theorem Writer.Ok.mono {size w c c' p : ℕ} (hle : c ≤ c') (h : writer.Ok size w c p) :
    writer.Ok size w c' p := by
  cases writer with
  | canWriteW source count r =>
      obtain ⟨havail, d, hd, hp, hr⟩ := h
      exact ⟨havail, d, by omega, hp, hr⟩
  | linear source n => exact ⟨h.1, Nat.le_trans h.2 (by omega)⟩
  | copyCount source n linearEnd => exact ⟨h.1, Nat.le_trans h.2.1 (by omega), h.2.2⟩
  | copyTo source n c1 c2 => exact ⟨h.1, Nat.le_trans h.2.1 (by omega), h.2.2⟩
  | copy1 source n c1 c2 index => exact ⟨h.1, Nat.le_trans h.2.1 (by omega), h.2.2⟩
  | copy2 source n c1 c2 => exact ⟨h.1, Nat.le_trans h.2.1 (by omega), h.2.2⟩
  | nextIndex source n c1 => exact ⟨h.1, Nat.le_trans h.2.1 (by omega), h.2.2⟩
  | storeIndex source n index => exact ⟨h.1, Nat.le_trans h.2.1 (by omega), h.2.2⟩
  | _ => exact h

namespace Inv

theorem le (h : Inv rb reader writer consumed produced) :
    consumed.length ≤ produced.length := h.order.length_le

theorem level (h : Inv rb reader writer consumed produced) :
    produced.length ≤ consumed.length + rb.size := by
  have := h.room
  omega

/-- The bytes in front of the reader are the unread ones. -/
theorem window_ahead (h : Inv rb reader writer consumed produced) {k : ℕ}
    (hk : k ≤ produced.length - consumed.length) :
    window rb.buf rb.readIndex k = (produced.drop consumed.length).take k := by
  have hcontent := congrArg (List.take k) h.content
  rwa [take_window (by omega), List.take_append_of_le_length (by rw [List.length_drop]; omega)]
    at hcontent

/-- The writer's index is behind the unread bytes. -/
theorem writeIndex_ahead (h : Inv rb reader writer consumed produced) :
    rb.writeIndex = (rb.readIndex + (produced.length - consumed.length)) % rb.size := by
  have hle := h.le
  rw [h.readIndex, Nat.mod_add_mod, show consumed.length + (produced.length - consumed.length)
    = produced.length by omega, h.writeIndex]

/-! ### Accesses that only load -/

/-- The reader goes on without having changed anything. -/
theorem read_on (h : Inv rb reader writer consumed produced) (hflag : ¬ reader.AtFlag)
    (hrel : reader'.released = [])
    (hok : reader'.Ok rb.size rb.readIndex (produced.drop consumed.length)) :
    Inv rb reader' writer (consumed ++ reader'.released) produced := by
  rw [hrel, List.append_nil]
  exact { h with empty := fun hz _ => h.empty hz hflag, reader_ok := hok }

theorem write_on (h : Inv rb reader writer consumed produced) (hflag : ¬ writer.AtFlag)
    (hpub : writer'.published = []) (hstage : writer'.staged = writer.staged)
    (hok : writer'.Ok rb.size rb.writeIndex consumed.length produced.length) :
    Inv rb reader writer' consumed (produced ++ writer'.published) := by
  rw [hpub, List.append_nil]
  exact { h with
    room := by rw [hstage]; exact h.room
    content := by rw [hstage]; exact h.content
    full := fun hz _ => h.full hz hflag
    writer_ok := hok }

/-- A reader that was told no more than there is goes on with a count that is there. -/
theorem afterCanRead (h : Inv rb reader writer consumed produced) (hflag : ¬ reader.AtFlag)
    {count level : ℕ} (hlevel : min count level ≤ produced.length - consumed.length) :
    Inv rb (Reader.afterCanRead count level) writer
      (consumed ++ (Reader.afterCanRead count level).released) produced := by
  unfold Reader.afterCanRead
  split
  · exact h.read_on hflag rfl trivial
  · refine h.read_on hflag rfl ?_
    show _ ≤ (produced.drop consumed.length).length
    rw [List.length_drop]
    split <;> omega

theorem afterCanWrite (h : Inv rb reader writer consumed produced) (hflag : ¬ writer.AtFlag)
    (hstage : writer.staged = []) {source : List UInt8} {count level : ℕ}
    (havail : count ≤ source.length)
    (hlevel : produced.length + min count level ≤ consumed.length + rb.size) :
    Inv rb reader (Writer.afterCanWrite source count level) consumed
      (produced ++ (Writer.afterCanWrite source count level).published) := by
  unfold Writer.afterCanWrite
  split
  · exact h.write_on hflag rfl hstage.symm trivial
  · refine h.write_on hflag rfl hstage.symm ⟨?_, ?_⟩
    · split <;> omega
    · split <;> omega

/-! ### Accesses that copy and store -/

/-- A piece goes into the buffer behind what is unread and what is staged. -/
theorem stage (h : Inv rb reader writer consumed produced) (hflag : ¬ writer.AtFlag)
    {bytes buf : List UInt8} {place : ℕ}
    (hplace : place = (rb.readIndex + (produced.length - consumed.length + writer.staged.length))
      % rb.size)
    (hbuf : buf = Cyclic.write rb.buf place bytes) (hpub : writer'.published = [])
    (hstage : writer'.staged = writer.staged ++ bytes)
    (hroom : produced.length + writer.staged.length + bytes.length ≤ consumed.length + rb.size)
    (hok : writer'.Ok rb.size rb.writeIndex consumed.length produced.length) :
    Inv { rb with buf := buf } reader writer' consumed (produced ++ writer'.published) := by
  have hle := h.le
  have hlen := h.wf.length_buf
  have hlt : place < rb.size := by rw [hplace]; exact Nat.mod_lt _ h.wf.size_pos
  rw [hpub, List.append_nil]
  exact { h with
    wf := ⟨h.wf.size_pos, h.wf.size_lt, h.wf.read_lt, h.wf.write_lt, h.wf.flag, by
      show buf.length = rb.size
      rw [hbuf, length_write (by omega) (by omega), hlen]⟩
    room := by
      rw [hstage, List.length_append]
      show _ ≤ consumed.length + rb.size
      omega
    content := by
      show window buf rb.readIndex _ = _
      rw [hstage, List.length_append, ← Nat.add_assoc, hbuf, hplace, ← hlen,
        window_write (by rw [hlen]; exact h.wf.read_lt) (by rw [hlen]; omega), h.content,
        List.append_assoc]
    full := fun hz _ => h.full hz hflag
    writer_ok := hok }

/-- Storing the read index releases the bytes in front of it. -/
theorem release {n index : ℕ} {destination : List UInt8}
    (h : Inv rb (.storeIndex n index destination) writer consumed produced) :
    Inv { rb with readIndex := index } (.storeFlag n destination) writer
      (consumed ++ destination) produced := by
  obtain ⟨hn, hindex, hd⟩ := h.reader_ok
  have hle := h.le
  have hroom := h.room
  have hlen := h.wf.length_buf
  rw [List.length_drop] at hn
  have hcount : destination.length = n := by
    rw [hd, List.length_take, List.length_drop]
    omega
  have hsplit : consumed ++ destination = produced.take (consumed.length + n) := by
    rw [hd, List.take_add, ← List.prefix_iff_eq_take.mp h.order]
  have hdrop : produced.drop (consumed ++ destination).length
      = (produced.drop consumed.length).drop n := by
    rw [List.length_append, hcount, List.drop_drop]
  exact {
    wf := ⟨h.wf.size_pos, h.wf.size_lt, by
      show index < rb.size
      rw [hindex]
      exact Nat.mod_lt _ h.wf.size_pos, h.wf.write_lt, h.wf.flag, hlen⟩
    order := by rw [hsplit]; exact List.take_prefix _ _
    room := by
      rw [List.length_append]
      show _ ≤ _ + rb.size
      omega
    readIndex := by
      show index = _ % rb.size
      rw [hindex, h.readIndex, Nat.mod_add_mod, List.length_append, hcount]
    writeIndex := h.writeIndex
    content := by
      have hcontent := congrArg (List.drop n) h.content
      rw [drop_window (by omega) (by omega),
        List.drop_append_of_le_length (by rw [List.length_drop]; omega)] at hcontent
      show window rb.buf index _ = _
      rw [hdrop, ← hcontent, hindex, ← hlen, window_mod, List.length_append, hcount]
      congr 1
      omega
    empty := fun _ hflag => absurd trivial hflag
    full := fun hz hflag => h.full (by
      rw [List.length_append] at hz
      have hz' : produced.length = consumed.length + destination.length + rb.size := hz
      omega) hflag
    reader_ok := trivial
    writer_ok := h.writer_ok.mono (by rw [List.length_append]; omega) }

/-- Storing the write index publishes the staged bytes. -/
theorem publish {n index : ℕ} {source : List UInt8}
    (h : Inv rb reader (.storeIndex source n index) consumed produced) :
    Inv { rb with writeIndex := index } reader (.storeFlag source n) consumed
      (produced ++ source.take n) := by
  obtain ⟨hn, hfit, hindex⟩ := h.writer_ok
  have hle := h.le
  have hcount : (source.take n).length = n := by rw [List.length_take]; omega
  have hahead : (produced ++ source.take n).drop consumed.length
      = produced.drop consumed.length ++ source.take n := List.drop_append_of_le_length hle
  exact {
    wf := ⟨h.wf.size_pos, h.wf.size_lt, h.wf.read_lt, by
      show index < rb.size
      rw [hindex]
      exact Nat.mod_lt _ h.wf.size_pos, h.wf.flag, h.wf.length_buf⟩
    order := h.order.trans (List.prefix_append _ _)
    room := by
      rw [List.length_append, hcount]
      show produced.length + n + 0 ≤ consumed.length + rb.size
      omega
    readIndex := h.readIndex
    writeIndex := by
      show index = _ % rb.size
      rw [hindex, h.writeIndex, Nat.mod_add_mod, List.length_append, hcount]
    content := by
      have hcontent : window rb.buf rb.readIndex
          (produced.length - consumed.length + (source.take n).length)
          = produced.drop consumed.length ++ source.take n := h.content
      show window rb.buf rb.readIndex (_ + 0) = _ ++ []
      rw [List.append_nil, hahead, ← hcontent, List.length_append]
      congr 1
      omega
    empty := fun hz hflag => h.empty (by rw [List.length_append] at hz; omega) hflag
    full := fun _ hflag => absurd trivial hflag
    reader_ok := h.reader_ok.mono (by rw [hahead]; exact List.prefix_append _ _)
    writer_ok := trivial }

/-! ### Every access keeps the invariant -/

/-- The first copy of the reader takes the front of what is unread. -/
theorem reader_copy1 {n c1 c2 index : ℕ}
    (h : Inv rb (.copy1 n c1 c2 index) writer consumed produced)
    (hstep : (Reader.copy1 n c1 c2 index).next rb = some (rb', reader')) :
    Inv rb' reader' writer (consumed ++ reader'.released) produced := by
  have hr := h.wf.read_lt
  have hlen := h.wf.length_buf
  have hok := h.reader_ok
  have hunread : (produced.drop consumed.length).length = produced.length - consumed.length :=
    List.length_drop
  obtain ⟨hn, hcut, rfl⟩ := hok
  have hc1 : rb.readIndex + c1 ≤ rb.size := by unfold Cut at hcut; omega
  have hbytes : (rb.buf.drop rb.readIndex).take c1 = (produced.drop consumed.length).take c1 := by
    rw [← window_straight (by omega), h.window_ahead (by unfold Cut at hcut; omega)]
  simp only [Reader.next, load_of_le (show rb.readIndex + c1 ≤ rb.buf.length by omega), hbytes,
    Option.map_some] at hstep
  cases hstep
  rcases hcut with ⟨-, rfl, rfl⟩ | ⟨hend, rfl, rfl⟩
  · rw [if_pos rfl]
    exact h.read_on id rfl ⟨hn, rfl, rfl⟩
  · rw [if_neg (by omega)]
    exact h.read_on id rfl ⟨hn, hend, rfl, rfl⟩

/-- The second one takes the rest, from the start of the buffer. -/
theorem reader_copy2 {n c2 : ℕ} {destination : List UInt8}
    (h : Inv rb (.copy2 n c2 destination) writer consumed produced)
    (hstep : (Reader.copy2 n c2 destination).next rb = some (rb', reader')) :
    Inv rb' reader' writer (consumed ++ reader'.released) produced := by
  have hpos := h.wf.size_pos
  have hr := h.wf.read_lt
  have hlen := h.wf.length_buf
  have hok := h.reader_ok
  have hlevel := h.level
  have hunread : (produced.drop consumed.length).length = produced.length - consumed.length :=
    List.length_drop
  obtain ⟨hn, hend, rfl, rfl⟩ := hok
  simp only [Reader.next,
    load_of_le (show 0 + (rb.readIndex + n - rb.size) ≤ rb.buf.length by omega),
    List.drop_zero, umod_of_pos hpos, Option.map_some, Option.bind_some] at hstep
  cases hstep
  refine h.read_on id rfl ⟨hn, ?_, ?_⟩
  · rw [← Nat.mod_eq_sub_mod (by omega : rb.readIndex + n ≥ rb.size)]
  · -- both pieces are the window of the whole count
    rw [← h.window_ahead (by omega), ← h.window_ahead (by omega), window_straight (by omega),
      window_split (by omega) (by omega) (by omega), hlen,
      List.take_of_length_le (by rw [List.length_drop]; omega)]

theorem reader_next (h : Inv rb reader writer consumed produced)
    (hsafe : reader.Safe rb writer (produced.length - consumed.length))
    (hstep : reader.next rb = some (rb', reader')) :
    Inv rb' reader' writer (consumed ++ reader'.released) produced := by
  have hle := h.le
  have hlevel := h.level
  have hpos := h.wf.size_pos
  have hs := h.wf.size_lt
  have hr := h.wf.read_lt
  have hlen := h.wf.length_buf
  have hok := h.reader_ok
  have hunread : (produced.drop consumed.length).length = produced.length - consumed.length :=
    List.length_drop
  cases reader with
  | idle => cases hstep
  | canReadR count =>
      cases hstep
      exact h.read_on id rfl rfl
  | canReadW count r =>
      obtain rfl : r = rb.readIndex := hok
      cases hstep
      by_cases heq : rb.readIndex = rb.writeIndex
      · rw [if_pos heq]
        exact h.read_on id rfl trivial
      · rw [if_neg heq]
        refine h.afterCanRead id ?_
        have hread := readLevel_eq hpos hs hle hlevel (by rwa [← h.readIndex, ← h.writeIndex])
        rw [← h.readIndex, ← h.writeIndex] at hread
        rw [hread]
        omega
  | canReadFlag count =>
      cases hstep
      refine h.afterCanRead id ?_
      by_cases hf : rb.lastWasWrite ≠ 0
      · rw [if_pos hf]
        exact hsafe hf
      · rw [if_neg hf]
        omega
  | linear n =>
      have hn : n ≤ (produced.drop consumed.length).length := hok
      simp only [Reader.next, u64_of_lt (by omega : rb.readIndex + n < 2 ^ 64)] at hstep
      cases hstep
      by_cases hend : rb.readIndex + n > rb.size
      · rw [if_pos hend]
        exact h.read_on id rfl ⟨hn, rfl, hend⟩
      · rw [if_neg hend]
        exact h.read_on id rfl ⟨hn, Or.inl ⟨by omega, rfl, rfl⟩⟩
  | copyCount n linearEnd =>
      obtain ⟨hn, rfl, hend⟩ := hok
      simp only [Reader.next, subU64_of_le (a := rb.size) (b := rb.readIndex) (by omega) (by omega),
        subU64_of_le (a := rb.readIndex + n) (b := rb.size) (by omega) (by omega)] at hstep
      cases hstep
      exact h.read_on id rfl ⟨hn, Or.inr ⟨hend, rfl, rfl⟩⟩
  | copyFrom n c1 c2 =>
      obtain ⟨hn, hcut⟩ := hok
      cases hstep
      exact h.read_on id rfl ⟨hn, hcut, rfl⟩
  | copy1 n c1 c2 index => exact reader_copy1 h hstep
  | copy2 n c2 destination => exact reader_copy2 h hstep
  | nextIndex n c1 destination =>
      obtain ⟨hn, rfl, rfl⟩ := hok
      simp only [Reader.next, u64_of_lt (by omega : rb.readIndex + c1 < 2 ^ 64), umod_of_pos hpos,
        Option.map_some] at hstep
      cases hstep
      exact h.read_on id rfl ⟨hn, rfl, rfl⟩
  | storeIndex n index destination =>
      cases hstep
      exact h.release
  | storeFlag n destination =>
      cases hstep
      show Inv _ _ _ (consumed ++ []) _
      rw [List.append_nil]
      exact { h with
        wf := ⟨hpos, hs, hr, h.wf.write_lt, Or.inl rfl, hlen⟩
        empty := fun _ _ => rfl
        full := fun hz hflag => absurd (hsafe (by
          have hz' : produced.length = consumed.length + rb.size := hz
          omega)) hflag
        reader_ok := trivial }

/-- The first copy of the writer stages the front of its bytes behind the content. -/
theorem writer_copy1 {source : List UInt8} {n c1 c2 index : ℕ}
    (h : Inv rb reader (.copy1 source n c1 c2 index) consumed produced)
    (hstep : (Writer.copy1 source n c1 c2 index).next rb = some (rb', writer')) :
    Inv rb' reader writer' consumed (produced ++ writer'.published) := by
  have hw := h.wf.write_lt
  have hlen := h.wf.length_buf
  have hplace := h.writeIndex_ahead
  have hok := h.writer_ok
  obtain ⟨hn, hfit, hcut, rfl⟩ := hok
  have hc1 : rb.writeIndex + c1 ≤ rb.size ∧ c1 ≤ n := by unfold Cut at hcut; omega
  have hbytes : (source.take c1).length = c1 := by rw [List.length_take]; omega
  have hwrite : overwrite rb.buf rb.writeIndex (source.take c1)
      = Cyclic.write rb.buf rb.writeIndex (source.take c1) := by
    rw [Cyclic.write, if_pos (by omega)]
  simp only [Writer.next, load_of_le (show 0 + c1 ≤ source.length by omega), List.drop_zero,
    Option.bind_some,
    store_of_le (show rb.writeIndex + (source.take c1).length ≤ rb.buf.length by omega),
    Option.map_some] at hstep
  cases hstep
  rcases hcut with ⟨-, rfl, rfl⟩ | ⟨hend, rfl, rfl⟩
  · rw [if_pos rfl]
    exact h.stage id hplace hwrite rfl rfl (by rw [hbytes]; exact hfit) ⟨hn, hfit, rfl⟩
  · rw [if_neg (by omega)]
    exact h.stage id hplace hwrite rfl rfl (by rw [hbytes]; show _ + 0 + _ ≤ _; omega)
      ⟨hn, hfit, hend, rfl, rfl⟩

/-- The second one stages the rest, from the start of the buffer. -/
theorem writer_copy2 {source : List UInt8} {n c1 c2 : ℕ}
    (h : Inv rb reader (.copy2 source n c1 c2) consumed produced)
    (hstep : (Writer.copy2 source n c1 c2).next rb = some (rb', writer')) :
    Inv rb' reader writer' consumed (produced ++ writer'.published) := by
  have hle := h.le
  have hpos := h.wf.size_pos
  have hw := h.wf.write_lt
  have hlen := h.wf.length_buf
  have hplace := h.writeIndex_ahead
  have hok := h.writer_ok
  obtain ⟨hn, hfit, hend, rfl, rfl⟩ := hok
  have hstaged : (source.take (rb.size - rb.writeIndex)).length = rb.size - rb.writeIndex := by
    rw [List.length_take]
    omega
  have hbytes : ((source.drop (rb.size - rb.writeIndex)).take (rb.writeIndex + n - rb.size)).length
      = rb.writeIndex + n - rb.size := by
    rw [List.length_take, List.length_drop]
    omega
  have hwrite : overwrite rb.buf 0
        ((source.drop (rb.size - rb.writeIndex)).take (rb.writeIndex + n - rb.size))
      = Cyclic.write rb.buf 0
        ((source.drop (rb.size - rb.writeIndex)).take (rb.writeIndex + n - rb.size)) := by
    rw [Cyclic.write, if_pos (by omega)]
  -- the first piece ended at the physical end
  have hzero : 0 = (rb.readIndex + (produced.length - consumed.length
      + (source.take (rb.size - rb.writeIndex)).length)) % rb.size := by
    rw [← mod_add_assoc, ← hplace, hstaged, show rb.writeIndex + (rb.size - rb.writeIndex)
      = rb.size by omega, Nat.mod_self]
  have hjoin : source.take n = source.take (rb.size - rb.writeIndex)
      ++ (source.drop (rb.size - rb.writeIndex)).take (rb.writeIndex + n - rb.size) := by
    rw [← List.take_add, show rb.size - rb.writeIndex + (rb.writeIndex + n - rb.size) = n by omega]
  simp only [Writer.next, load_of_le (show rb.size - rb.writeIndex + (rb.writeIndex + n - rb.size)
      ≤ source.length by omega), Option.bind_some, umod_of_pos hpos, Option.map_some] at hstep
  rw [store_of_le (by rw [hbytes]; omega), Option.bind_some] at hstep
  cases hstep
  refine h.stage id hzero hwrite rfl hjoin ?_ ⟨hn, hfit, ?_⟩
  · show _ + (source.take (rb.size - rb.writeIndex)).length + _ ≤ _
    rw [hbytes, hstaged]
    omega
  · rw [← Nat.mod_eq_sub_mod (by omega : rb.writeIndex + n ≥ rb.size)]

theorem writer_next (h : Inv rb reader writer consumed produced)
    (hsafe : writer.Safe rb reader (produced.length - consumed.length))
    (hstep : writer.next rb = some (rb', writer')) :
    Inv rb' reader writer' consumed (produced ++ writer'.published) := by
  have hle := h.le
  have hlevel := h.level
  have hpos := h.wf.size_pos
  have hs := h.wf.size_lt
  have hw := h.wf.write_lt
  have hlen := h.wf.length_buf
  have hok := h.writer_ok
  cases writer with
  | idle => cases hstep
  | canWriteR source count =>
      cases hstep
      exact h.write_on id rfl rfl ⟨hok, consumed.length, Nat.le_refl _, hlevel, h.readIndex⟩
  | canWriteW source count r =>
      -- `d` bytes had been released when the read index was loaded
      obtain ⟨havail, d, hd, hdp, rfl⟩ := hok
      cases hstep
      by_cases heq : d % rb.size = rb.writeIndex
      · rw [if_pos heq]
        exact h.write_on id rfl rfl havail
      · rw [if_neg heq]
        refine h.afterCanWrite id rfl havail ?_
        have hroom := writeLevel_eq hpos hs (Nat.le_trans hd hle) hdp (by rwa [← h.writeIndex])
        rw [← h.writeIndex] at hroom
        rw [hroom]
        omega
  | canWriteFlag source count =>
      cases hstep
      refine h.afterCanWrite id rfl hok ?_
      by_cases hf : rb.lastWasWrite ≠ 0
      · rw [if_pos hf]
        omega
      · rw [if_neg hf]
        have := hsafe (not_not.mp hf)
        omega
  | linear source n =>
      obtain ⟨hn, hfit⟩ := hok
      simp only [Writer.next, u64_of_lt (by omega : rb.writeIndex + n < 2 ^ 64)] at hstep
      cases hstep
      by_cases hend : rb.writeIndex + n > rb.size
      · rw [if_pos hend]
        exact h.write_on id rfl rfl ⟨hn, hfit, rfl, hend⟩
      · rw [if_neg hend]
        exact h.write_on id rfl rfl ⟨hn, hfit, Or.inl ⟨by omega, rfl, rfl⟩⟩
  | copyCount source n linearEnd =>
      obtain ⟨hn, hfit, rfl, hend⟩ := hok
      simp only [Writer.next,
        subU64_of_le (a := rb.size) (b := rb.writeIndex) (by omega) (by omega),
        subU64_of_le (a := rb.writeIndex + n) (b := rb.size) (by omega) (by omega)] at hstep
      cases hstep
      exact h.write_on id rfl rfl ⟨hn, hfit, Or.inr ⟨hend, rfl, rfl⟩⟩
  | copyTo source n c1 c2 =>
      obtain ⟨hn, hfit, hcut⟩ := hok
      cases hstep
      exact h.write_on id rfl rfl ⟨hn, hfit, hcut, rfl⟩
  | copy1 source n c1 c2 index => exact writer_copy1 h hstep
  | copy2 source n c1 c2 => exact writer_copy2 h hstep
  | nextIndex source n c1 =>
      obtain ⟨hn, hfit, rfl⟩ := hok
      simp only [Writer.next, u64_of_lt (by omega : rb.writeIndex + c1 < 2 ^ 64), umod_of_pos hpos,
        Option.map_some] at hstep
      cases hstep
      exact h.write_on id rfl rfl ⟨hn, hfit, rfl⟩
  | storeIndex source n index =>
      cases hstep
      exact h.publish
  | storeFlag source n =>
      cases hstep
      show Inv _ _ _ _ (produced ++ [])
      rw [List.append_nil]
      exact { h with
        wf := ⟨hpos, hs, h.wf.read_lt, hw, Or.inr rfl, hlen⟩
        empty := fun hz hflag => absurd (hsafe (by omega)) hflag
        full := fun _ _ => one_ne_zero
        writer_ok := trivial }

end Inv

/-! ### Runs -/

def State.Inv (s : State) : Prop := Spsc.Inv s.rb s.reader s.writer s.consumed s.produced

theorem start_inv (h : Rb.WF rb) (hr : rb.readIndex = 0) (hw : rb.writeIndex = 0)
    (hf : rb.lastWasWrite = 0) : (State.start rb).Inv where
  wf := h
  order := List.nil_prefix
  room := Nat.zero_le _
  readIndex := hr.trans (Nat.zero_mod _).symm
  writeIndex := hw.trans (Nat.zero_mod _).symm
  content := window_zero _ _
  empty := fun _ _ => hf
  full := fun hz _ => absurd hz (by
    have := h.size_pos
    show ¬ 0 = 0 + rb.size
    omega)
  reader_ok := trivial
  writer_ok := trivial

theorem step_inv {s t : State} {move : Move} (h : s.Inv) (hsafe : s.Safe move)
    (hstep : s.next move = some t) : t.Inv := by
  cases move with
  | callRead count =>
      simp only [State.next] at hstep
      split at hstep
      · next hidle =>
          cases hstep
          have hrel : (if count = 0 then Reader.idle else .canReadR count).released
              = s.reader.released := by
            rw [hidle]
            split <;> rfl
          show Spsc.Inv _ _ _ (s.delivered ++ _) _
          rw [hrel]
          refine { h with
            empty := fun hz _ => h.empty hz (by rw [hidle]; exact id)
            reader_ok := ?_ }
          split <;> trivial
      · cases hstep
  | callWrite source count avail =>
      simp only [State.next] at hstep
      split at hstep
      · next hidle =>
          cases hstep
          have hpub : (if count = 0 then Writer.idle else .canWriteR source count).published
              = s.writer.published := by
            rw [hidle]
            split <;> rfl
          have hstage : (if count = 0 then Writer.idle else .canWriteR source count).staged
              = s.writer.staged := by
            rw [hidle]
            split <;> rfl
          show Spsc.Inv _ _ _ _ (s.accepted ++ _)
          rw [hpub]
          refine { h with
            room := by rw [hstage]; exact h.room
            content := by rw [hstage]; exact h.content
            full := fun hz _ => h.full hz (by rw [hidle]; exact id), writer_ok := ?_ }
          split
          · trivial
          · exact avail
      · cases hstep
  | reader =>
      simp only [State.next, Option.map_eq_some_iff, Prod.exists] at hstep
      obtain ⟨rb', reader', hnext, rfl⟩ := hstep
      exact Inv.reader_next h hsafe hnext
  | writer =>
      simp only [State.next, Option.map_eq_some_iff, Prod.exists] at hstep
      obtain ⟨rb', writer', hnext, rfl⟩ := hstep
      exact Inv.writer_next h hsafe hnext

/-- What is published is part of what the calls have accepted. -/
theorem Writer.published_prefix (writer : Writer) : writer.published <+: writer.accepted := by
  cases writer <;> first | exact List.nil_prefix | exact List.prefix_refl _

/-- What is delivered was accepted, the call in progress included. -/
theorem State.Inv.delivered_front {s : State} (h : s.Inv) :
    s.delivered <+: s.accepted ++ s.writer.accepted := by
  have hpublished : s.produced <+: s.accepted ++ s.writer.accepted :=
    (List.prefix_append_right_inj _).mpr s.writer.published_prefix
  exact (List.prefix_append _ _).trans (h.order.trans hpublished)

/-- Outside the calls the rest is in the ring. -/
theorem State.Inv.canRead_idle {s : State} (h : s.Inv) (hr : s.reader = .idle)
    (hw : s.writer = .idle) : s.rb.canRead + s.delivered.length = s.accepted.length := by
  have hle := h.le
  have hlevel := h.level
  have hproduced : s.produced = s.accepted := by
    rw [State.produced, hw]
    exact List.append_nil _
  have hconsumed : s.consumed = s.delivered := by
    rw [State.consumed, hr]
    exact List.append_nil _
  have hcan : s.rb.canRead = s.produced.length - s.consumed.length :=
    Rb.canRead_unique h.wf (by omega) h.writeIndex_ahead
      (fun hz => h.empty (by omega) (by rw [hr]; exact id))
      (fun hz => h.full (by omega) (by rw [hw]; exact id))
  rw [hproduced, hconsumed] at hcan hle
  omega

/-- A new ring. -/
theorem start_inv_of_rbNew {malloc : Malloc} {size : ℕ} {rb : Rb} (hsize : size < 2 ^ 64)
    (hnew : rbNew malloc size = some (some rb)) : (State.start rb).Inv := by
  have hwf := (Rb.rbNew_wf (Rb.rbNew_size_lt hsize hnew) hnew).1
  obtain ⟨block, -, -, -, rfl⟩ := Rb.rbNew_eq_some hnew
  exact start_inv hwf rfl rfl rfl

/-- **A reader and a writer whose flag accesses are timely are safe without locks.**

In every run from a new ring all of whose moves meet the condition, in every state
reached, the bytes delivered are a prefix of those accepted, the call in progress
included, and whenever nobody is inside a call the ring holds exactly the rest. -/
theorem spsc_safe {malloc : Malloc} {size : ℕ} {rb : Rb} (hsize : size < 2 ^ 64)
    (hnew : rbNew malloc size = some (some rb)) {s : State}
    (hrun : Relation.ReflTransGen State.SafeStep (.start rb) s) :
    s.delivered <+: s.accepted ++ s.writer.accepted ∧
    (s.reader = .idle → s.writer = .idle →
      s.rb.canRead + s.delivered.length = s.accepted.length) := by
  have h : s.Inv := Machine.invariant_of_reflTransGen (start_inv_of_rbNew hsize hnew)
    (fun a b ha hab => by
      obtain ⟨move, hsafe, hnext⟩ := hab
      exact step_inv ha hsafe hnext) hrun
  exact ⟨h.delivered_front, fun hr hw => h.canRead_idle hr hw⟩

/-! ### Runs by name -/

section Schedules

instance (reader : Reader) : Decidable reader.AtFlag := by
  cases reader <;> unfold Reader.AtFlag <;> infer_instance

instance (writer : Writer) : Decidable writer.AtFlag := by
  cases writer <;> unfold Writer.AtFlag <;> infer_instance

instance (s : State) (move : Move) : Decidable (s.Safe move) := by
  cases move with
  | reader =>
      cases h : s.reader <;> simp only [State.Safe, h, Reader.Safe] <;> infer_instance
  | writer =>
      cases h : s.writer <;> simp only [State.Safe, h, Writer.Safe] <;> infer_instance
  | _ => exact isTrue trivial

end Schedules

/-- On a ring of three, with two bytes in it: a read of both and a write of a third one, an access
of the one after an access of the other. -/
def timelyMoves : List Move :=
  .callWrite [41, 42] 2 (by decide) :: List.replicate 9 .writer ++
    [.callRead 2, .callWrite [43] 1 (by decide)] ++
    (List.replicate 8 [.reader, .writer]).flatten

theorem spsc_safe_overlapping : ∃ s,
    followIf State.next State.Safe (.start (Rb.cleared 3)) timelyMoves = some s ∧
      s.delivered = [41, 42] ∧ s.accepted = [41, 42, 43] ∧
      s.delivered <+: s.accepted ++ s.writer.accepted ∧
      (s.reader = .idle → s.writer = .idle →
        s.rb.canRead + s.delivered.length = s.accepted.length) := by
  have hrun : (followIf State.next State.Safe (.start (Rb.cleared 3)) timelyMoves).map
      (fun s => (s.delivered, s.accepted)) = some ([41, 42], [41, 42, 43]) := by
    decide +kernel
  obtain ⟨s, hs, heq⟩ := Option.map_eq_some_iff.mp hrun
  simp only [Prod.mk.injEq] at heq
  exact ⟨s, hs, heq.1, heq.2, spsc_safe (by decide) (Rb.rbNew_cleared (by decide) (by decide))
    (reach_of_followIf timelyMoves _ hs)⟩

/-- Two bytes fill the ring; a read of one byte is stopped before it stores the flag, a
write of one byte takes the place and stores the flag; then the read stores it. -/
def lateStore : List Move :=
  .callWrite [1, 2] 2 (by decide) :: List.replicate 9 .writer ++
    .callRead 1 :: List.replicate 8 .reader ++
    .callWrite [3] 1 (by decide) :: List.replicate 8 .writer ++ [.reader]

/-- A read of two bytes finds the indices equal and is stopped before it loads the flag;
a write of one byte stores it; then the read takes the ring for full. -/
def lateLoad : List Move :=
  .callRead 2 :: List.replicate 2 .reader ++
    .callWrite [1] 1 (by decide) :: List.replicate 9 .writer ++ List.replicate 7 .reader

/-- **Two schedules that are not safe.**  After the first, with nobody inside a call, the
ring is empty although two of the accepted bytes were not delivered; in the second a
byte is delivered that was never accepted. -/
theorem spsc_late_flag :
    rbNew .cleared 2 = some (some (Rb.cleared 2)) ∧
    (∃ s, Relation.ReflTransGen State.Step (.start (Rb.cleared 2)) s ∧
      s.reader = .idle ∧ s.writer = .idle ∧ s.rb.canRead = 0 ∧
      s.accepted = [1, 2, 3] ∧ s.delivered = [1]) ∧
    (∃ s, Relation.ReflTransGen State.Step (.start (Rb.cleared 2)) s ∧
      s.delivered = [1, 0] ∧ s.accepted ++ s.writer.accepted = [1] ∧
      ¬ s.delivered <+: s.accepted ++ s.writer.accepted) := by
  refine ⟨Rb.rbNew_cleared (by decide) (by decide), ?_, ?_⟩
  · have hrun : ((followIf State.next (fun _ _ => True) (.start (Rb.cleared 2)) lateStore).map
        fun s => (s.reader, s.writer, s.rb.canRead, s.accepted, s.delivered))
        = some (.idle, .idle, 0, [1, 2, 3], [1]) := by decide +kernel
    obtain ⟨s, hs, heq⟩ := Option.map_eq_some_iff.mp hrun
    simp only [Prod.mk.injEq] at heq
    exact ⟨s, reach_of_follow hs, heq⟩
  · have hrun : ((followIf State.next (fun _ _ => True) (.start (Rb.cleared 2)) lateLoad).map
        fun s => (s.delivered, s.accepted ++ s.writer.accepted)) = some ([1, 0], [1]) := by
      decide +kernel
    obtain ⟨s, hs, heq⟩ := Option.map_eq_some_iff.mp hrun
    simp only [Prod.mk.injEq] at heq
    exact ⟨s, reach_of_follow hs, heq.1, heq.2, by rw [heq.1, heq.2]; decide⟩

end Spsc

end Csnip
