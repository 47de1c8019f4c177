/-
The RIFF container format.

A file is the id `RIFF`, the length of what follows, an id for the kind of the file, and
chunks up to the end.  A chunk is an id, the length of its body, the body, and a pad byte
when that length is odd; lengths are 32-bit little-endian numbers that do not count the
id and the length themselves, nor the pad byte.

`parse` reads a file back; `parse_file` says that it is the inverse of `file`, so that the
chunks of a file are determined by its bytes.
-/
import Csnip.Lib.LittleEndian

namespace Riff

open LittleEndian

/-- A chunk that can be written. -/
structure Chunk where
  id : List UInt8
  body : List UInt8
  padding : List UInt8
  length_id : id.length = 4
  length_body : body.length < 2 ^ 32
  length_padding : padding.length = body.length % 2
deriving DecidableEq

namespace Chunk

/-- The chunk without its pad byte. -/
def content (c : Chunk) : List UInt8 := c.id ++ leBytes 4 c.body.length ++ c.body

/-- The chunk as it stands in a file. -/
def bytes (c : Chunk) : List UInt8 := c.content ++ c.padding

@[simp] theorem length_content (c : Chunk) : c.content.length = 8 + c.body.length := by
  simp only [content, List.length_append, length_leBytes, c.length_id]

@[simp] theorem length_bytes (c : Chunk) :
    c.bytes.length = 8 + c.body.length + c.body.length % 2 := by
  rw [bytes, List.length_append, length_content, c.length_padding]

end Chunk

/-- Chunks one behind the other. -/
def encode (chunks : List Chunk) : List UInt8 := chunks.flatMap Chunk.bytes

@[simp] theorem encode_nil : encode [] = [] := rfl

@[simp] theorem encode_cons (c : Chunk) (chunks : List Chunk) :
    encode (c :: chunks) = c.bytes ++ encode chunks := rfl

@[simp] theorem encode_append (chunks₁ chunks₂ : List Chunk) :
    encode (chunks₁ ++ chunks₂) = encode chunks₁ ++ encode chunks₂ := List.flatMap_append

/-- "RIFF" -/
def riffID : List UInt8 := [82, 73, 70, 70]

/-- The file of the kind `form` with the given chunks. -/
def file (form : List UInt8) (chunks : List Chunk) : List UInt8 :=
  riffID ++ leBytes 4 (form.length + (encode chunks).length) ++ form ++ encode chunks

theorem length_file (form : List UInt8) (chunks : List Chunk) :
    (file form chunks).length = 8 + form.length + (encode chunks).length := by
  simp only [file, riffID, List.length_append, length_leBytes, List.length_cons, List.length_nil]

/-! ### Reading a file back -/

/-- The first chunk, and what follows it. -/
def takeChunk (bytes : List UInt8) : Option (Chunk × List UInt8) :=
  if h : 8 ≤ bytes.length then
    let size := leNat ((bytes.drop 4).take 4)
    if hs : 8 + size + size % 2 ≤ bytes.length then
      some ({
        id := bytes.take 4
        body := (bytes.drop 8).take size
        padding := (bytes.drop (8 + size)).take (size % 2)
        length_id := by rw [List.length_take]; omega
        length_body := by
          have hlen : ((bytes.drop 4).take 4).length = 4 := by simp; omega
          have hsize := leNat_lt ((bytes.drop 4).take 4)
          rw [hlen] at hsize
          rw [List.length_take, List.length_drop]
          omega
        length_padding := by
          simp only [List.length_take, List.length_drop]
          omega }, bytes.drop (8 + size + size % 2))
    else none
  else none

/-- Chunks up to the end, at most `fuel` of them. -/
def parseChunks : ℕ → List UInt8 → Option (List Chunk)
  | _, [] => some []
  | 0, _ :: _ => none
  | fuel + 1, b :: bytes =>
      match takeChunk (b :: bytes) with
      | none => none
      | some (c, rest) => (parseChunks fuel rest).map (c :: ·)

/-- The chunks of a file of the kind `form`. -/
def parse (form bytes : List UInt8) : Option (List Chunk) :=
  if bytes.take 4 = riffID ∧ leNat ((bytes.drop 4).take 4) + 8 = bytes.length ∧
      (bytes.drop 8).take form.length = form then
    parseChunks bytes.length (bytes.drop (8 + form.length))
  else none

theorem takeChunk_bytes (c : Chunk) (rest : List UInt8) :
    takeChunk (c.bytes ++ rest) = some (c, rest) := by
  obtain ⟨id, body, padding, hid, hbody, hpad⟩ := c
  have hbytes : (Chunk.mk id body padding hid hbody hpad).bytes ++ rest
      = id ++ (leBytes 4 body.length ++ (body ++ (padding ++ rest))) := by
    simp only [Chunk.bytes, Chunk.content, List.append_assoc]
  have hdrop4 : (id ++ (leBytes 4 body.length ++ (body ++ (padding ++ rest)))).drop 4
      = leBytes 4 body.length ++ (body ++ (padding ++ rest)) := List.drop_left' hid
  have hdrop8 : (id ++ (leBytes 4 body.length ++ (body ++ (padding ++ rest)))).drop 8
      = body ++ (padding ++ rest) := by
    rw [show 8 = 4 + 4 from rfl, ← List.drop_drop, hdrop4]
    exact List.drop_left' (length_leBytes 4 body.length)
  have hsize :
      leNat (((id ++ (leBytes 4 body.length ++ (body ++ (padding ++ rest)))).drop 4).take 4)
        = body.length := by
    rw [hdrop4, List.take_left' (length_leBytes 4 body.length), leNat_leBytes]
    exact Nat.mod_eq_of_lt hbody
  have hdropB : (id ++ (leBytes 4 body.length ++ (body ++ (padding ++ rest)))).drop
      (8 + body.length) = padding ++ rest := by
    rw [← List.drop_drop, hdrop8, List.drop_left]
  have hdropP : (id ++ (leBytes 4 body.length ++ (body ++ (padding ++ rest)))).drop
      (8 + body.length + body.length % 2) = rest := by
    rw [← List.drop_drop, hdropB]
    exact List.drop_left' hpad
  have hlen : (id ++ (leBytes 4 body.length ++ (body ++ (padding ++ rest)))).length
      = 8 + body.length + body.length % 2 + rest.length := by
    simp only [List.length_append, length_leBytes, hid, hpad]
    omega
  rw [hbytes, takeChunk, dif_pos (by omega)]
  dsimp only
  rw [dif_pos (by rw [hsize]; omega)]
  simp only [hsize, hdrop8, hdropB, hdropP, List.take_left, List.take_left' hid,
    List.take_left' hpad]

theorem parseChunks_encode (chunks : List Chunk) :
    ∀ fuel, chunks.length ≤ fuel → parseChunks fuel (encode chunks) = some chunks := by
  induction chunks with
  | nil =>
      intro fuel _
      cases fuel <;> rfl
  | cons c chunks ih =>
      intro fuel hfuel
      have hne : encode (c :: chunks) ≠ [] := by
        intro hnil
        have hlen := congrArg List.length hnil
        simp at hlen
      obtain ⟨b, bs, hbs⟩ := List.exists_cons_of_ne_nil hne
      cases fuel with
      | zero => simp at hfuel
      | succ fuel =>
          rw [hbs, parseChunks, ← hbs, encode_cons, takeChunk_bytes]
          dsimp only
          rw [ih fuel (by simp at hfuel; omega), Option.map_some]

/-- **The chunks of a file are read back**, if its length is in the 32-bit range. -/
theorem parse_file {form : List UInt8} {chunks : List Chunk}
    (hfits : (file form chunks).length - 8 < 2 ^ 32) :
    parse form (file form chunks) = some chunks := by
  have hlen := length_file form chunks
  have hmany : chunks.length ≤ (encode chunks).length := by
    clear hfits hlen
    induction chunks with
    | nil => exact Nat.zero_le 0
    | cons c chunks ih =>
        simp only [encode_cons, List.length_cons, List.length_append, Chunk.length_bytes]
        omega
  have hid : (file form chunks).take 4 = riffID := by simp [file, riffID]
  have hdrop4 : (file form chunks).drop 4
      = leBytes 4 (form.length + (encode chunks).length) ++ (form ++ encode chunks) := by
    simp [file, riffID]
  have hdrop8 : (file form chunks).drop 8 = form ++ encode chunks := by
    rw [show 8 = 4 + 4 from rfl, ← List.drop_drop, hdrop4]
    exact List.drop_left' (length_leBytes 4 _)
  have hsize : leNat (((file form chunks).drop 4).take 4) + 8 = (file form chunks).length := by
    rw [hdrop4, List.take_left' (length_leBytes 4 _), leNat_leBytes, Nat.mod_eq_of_lt (by omega)]
    omega
  have hform : ((file form chunks).drop 8).take form.length = form := by
    rw [hdrop8, List.take_left]
  rw [parse, if_pos ⟨hid, hsize, hform⟩, ← List.drop_drop, hdrop8, List.drop_left]
  exact parseChunks_encode chunks _ (by omega)

end Riff
