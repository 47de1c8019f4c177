/-
Hashing a whole message.

`md5_hash`, `sha1_hash`, `sha224_hash`, `sha256_hash`, `sha384_hash` and `sha512_hash` are one
function written six times.  What they differ in is a `Scheme`; `hash` is what they share,
statement by statement.  It takes the message block by block, puts what is left over into a
block of its own, behind it the byte 0x80, and the length of the message in bits into the last
bytes, in a further block if there is no room.  No 64-bit word can hold that length: the low five
bits of `len` are shifted up into the first byte, the others are taken out byte by byte.

`hash_eq` says that this is the fold of the compression function over the blocks of the message
filled up in the layout of the function, and that nothing behind the message is read.  That the
layouts are those of the standards is shown with each of the functions.
-/
import Csnip.Lib.LittleEndian
import Csnip.Lib.Loop
import Csnip.Lib.Memory
import Csnip.Lib.MerkleDamgard

namespace Csnip.Hash

open Memory Loop LittleEndian MerkleDamgard

/-- Which byte of the length comes first. -/
inductive LengthOrder where
  | lowFirst
  | highFirst
deriving Repr, DecidableEq

/-- How the blocks are laid out. -/
structure Layout where
  BLOCK_LEN : ℕ
  LENGTH_SIZE : ℕ
  lengthOrder : LengthOrder
  pos : 0 < LENGTH_SIZE
  room : LENGTH_SIZE < BLOCK_LEN
  small : BLOCK_LEN < 2 ^ 64

/-- What one of the functions has of its own. -/
structure Scheme (σ : Type) extends Layout where
  /-- `hash` or `state` at the start. -/
  initial : σ
  compress : σ → List UInt8 → σ

/-- The blocks of md5-test.c. -/
def md5Layout : Layout := ⟨64, 8, .lowFirst, by decide, by decide, by norm_num⟩

/-- Those of sha1-test.c, sha224-test.c and sha256-test.c. -/
def sha256Layout : Layout := ⟨64, 8, .highFirst, by decide, by decide, by norm_num⟩

/-- Those of sha384-test.c and sha512-test.c. -/
def sha512Layout : Layout := ⟨128, 16, .highFirst, by decide, by decide, by norm_num⟩

namespace Scheme

variable {σ : Type} (S : Scheme σ)

/-! ### The function -/

/-- `for (off = 0; len - off >= BLOCK_LEN; off += BLOCK_LEN)` -/
def blockRound (message : List UInt8) (len : ℕ) :
    ℕ × σ → Option (Round (ℕ × σ) (ℕ × σ))
  | (off, state) =>
      if S.BLOCK_LEN ≤ subU64 len off then do
        let block ← load message off S.BLOCK_LEN
        pure (.again (u64 (off + S.BLOCK_LEN), S.compress state block))
      else pure (.done (off, state))

/-- Where byte `i` of the length goes. -/
def lengthPlace (i : ℕ) : ℕ :=
  match S.lengthOrder with
  | .lowFirst => S.BLOCK_LEN - S.LENGTH_SIZE + i
  | .highFirst => S.BLOCK_LEN - 1 - i

/-- `for (int i = 1; i < LENGTH_SIZE; i++, len >>= 8)`, over `len` and `block`. -/
def lengthRound (i : ℤ) : ℕ × List UInt8 → Option (ℕ × List UInt8)
  | (len, block) => do
      let block ← store block (S.lengthPlace i.toNat) [UInt8.ofNat (len &&& 0xFF)]
      pure (len >>> 8, block)

/-- The length of the message in bits, stored into the block. -/
def storeLength (len : ℕ) (block : List UInt8) : Option (List UInt8) := do
  let block ← store block (S.lengthPlace 0) [UInt8.ofNat ((len &&& 0x1F) <<< 3)]
  let (_, block) ← forUp 1 S.LENGTH_SIZE S.lengthRound (len >>> 5, block)
  pure block

/-- `if (BLOCK_LEN - rem < LENGTH_SIZE)`, over `hash` and `block`. -/
def makeRoom (rem : ℕ) (state : σ) (block : List UInt8) : σ × List UInt8 :=
  if subU64 S.BLOCK_LEN rem < S.LENGTH_SIZE then
    (S.compress state block, List.replicate S.BLOCK_LEN 0)
  else (state, block)

/-- The length goes into the block, and the block is the last one. -/
def lastBlock (len : ℕ) : σ × List UInt8 → Option σ
  | (state, block) => do
      let block ← S.storeLength len block
      pure (S.compress state block)

/-- The state when the function returns. -/
def hash (message : List UInt8) (len : ℕ) : Option σ := do
  let (off, state) ← loop (S.blockRound message len) (len + 1) (0, S.initial)
  let block := List.replicate S.BLOCK_LEN 0
  let rem := subU64 len off
  let rest ← load message off rem
  let block ← store block 0 rest
  let block ← store block rem [0x80]
  let rem := u64 (rem + 1)
  S.lastBlock len (S.makeRoom rem state block)

/-! ### The whole blocks -/

/-- The state after the first `k` blocks of the message. -/
def after (message : List UInt8) (k : ℕ) : σ :=
  (blocks S.BLOCK_LEN (message.take (k * S.BLOCK_LEN))).foldl S.compress S.initial

theorem blockLen_pos : 0 < S.BLOCK_LEN := Nat.zero_lt_of_lt S.room

theorem after_succ {message : List UInt8} {k : ℕ}
    (h : k * S.BLOCK_LEN + S.BLOCK_LEN ≤ message.length) : S.after message (k + 1)
      = S.compress (S.after message k) ((message.drop (k * S.BLOCK_LEN)).take S.BLOCK_LEN) := by
  have hfirst : (message.take (k * S.BLOCK_LEN)).length = k * S.BLOCK_LEN := by
    rw [List.length_take]
    omega
  have hnext : ((message.drop (k * S.BLOCK_LEN)).take S.BLOCK_LEN).length = S.BLOCK_LEN := by
    rw [List.length_take, List.length_drop]
    omega
  rw [after, after, Nat.succ_mul, List.take_add, blocks_append S.blockLen_pos
    (by rw [hfirst]; exact Nat.dvd_mul_left _ _), blocks_self S.blockLen_pos hnext,
    List.foldl_append]
  rfl

/-- The loop takes all the whole blocks. -/
theorem loop_blockRound {message : List UInt8} {len : ℕ} (hlen : len < 2 ^ 64)
    (hle : len ≤ message.length) :
    loop (S.blockRound message len) (len + 1) (0, S.initial)
      = some (len / S.BLOCK_LEN * S.BLOCK_LEN, S.after message (len / S.BLOCK_LEN)) := by
  have hpos := S.blockLen_pos
  obtain ⟨r, hloop, k, rfl, hk, hend⟩ : ∃ r,
      loop (S.blockRound message len) (len + 1) (0, S.initial) = some r ∧
        ∃ k, r = (k * S.BLOCK_LEN, S.after message k) ∧ k * S.BLOCK_LEN ≤ len ∧
          len - k * S.BLOCK_LEN < S.BLOCK_LEN := by
    refine loop_total (S.blockRound message len)
      (I := fun r => ∃ k, r = (k * S.BLOCK_LEN, S.after message k) ∧ k * S.BLOCK_LEN ≤ len)
      (fun r => len - r.1) ?_ _ _ ⟨0, ?_, by omega⟩ (by simp)
    · rintro _ ⟨k, rfl, hk⟩
      rw [blockRound, subU64_of_le hlen hk]
      by_cases hmore : S.BLOCK_LEN ≤ len - k * S.BLOCK_LEN
      · have hnext : k * S.BLOCK_LEN + S.BLOCK_LEN ≤ len := by omega
        refine .inl ⟨((k + 1) * S.BLOCK_LEN, S.after message (k + 1)), ?_, ⟨k + 1, rfl, ?_⟩, ?_⟩
        · rw [if_pos hmore, load_of_le (by omega), u64_of_lt (by omega), S.after_succ (by omega),
            Nat.succ_mul]
          rfl
        · rw [Nat.succ_mul]
          exact hnext
        · dsimp only
          rw [Nat.succ_mul]
          omega
      · exact .inr ⟨_, if_neg hmore, k, rfl, hk, by omega⟩
    · rw [after, Nat.zero_mul, List.take_zero, blocks_nil]
      rfl
  have hdiv : len / S.BLOCK_LEN = k := by
    rw [Nat.div_eq_iff hpos]
    omega
  rw [hloop, hdiv]

/-! ### The length -/

/-- Where the bytes of the length begin when the first `i` of them are stored. -/
def lengthStart (i : ℕ) : ℕ :=
  match S.lengthOrder with
  | .lowFirst => S.BLOCK_LEN - S.LENGTH_SIZE
  | .highFirst => S.BLOCK_LEN - i

/-- The low `i` bytes of a length, as they stand in the block. -/
def lengthBytes (bits i : ℕ) : List UInt8 :=
  match S.lengthOrder with
  | .lowFirst => leBytes i bits
  | .highFirst => (leBytes i bits).reverse

@[simp] theorem length_lengthBytes (bits i : ℕ) : (S.lengthBytes bits i).length = i := by
  unfold lengthBytes
  split <;> simp

theorem lengthBytes_inj {m n : ℕ} (hm : m < 256 ^ S.LENGTH_SIZE) (hn : n < 256 ^ S.LENGTH_SIZE)
    (h : S.lengthBytes m S.LENGTH_SIZE = S.lengthBytes n S.LENGTH_SIZE) : m = n := by
  unfold lengthBytes at h
  split at h
  · exact leBytes_inj hm hn h
  · exact leBytes_inj hm hn (List.reverse_inj.mp h)

theorem lengthStart_size : S.lengthStart S.LENGTH_SIZE = S.BLOCK_LEN - S.LENGTH_SIZE := by
  unfold lengthStart
  split <;> rfl

/-- One byte more. -/
theorem store_lengthPlace {block : List UInt8} (hblock : block.length = S.BLOCK_LEN) (bits : ℕ)
    {i : ℕ} (hi : i < S.LENGTH_SIZE) :
    store (overwrite block (S.lengthStart i) (S.lengthBytes bits i)) (S.lengthPlace i)
        [UInt8.ofNat (bits / 256 ^ i)]
      = some (overwrite block (S.lengthStart (i + 1)) (S.lengthBytes bits (i + 1))) := by
  have hroom := S.room
  have hlow : (leBytes i bits).length = i := length_leBytes i bits
  unfold lengthStart lengthBytes lengthPlace
  cases S.lengthOrder with
  | lowFirst =>
      dsimp only
      have hfits : S.BLOCK_LEN - S.LENGTH_SIZE + (leBytes i bits).length ≤ block.length := by omega
      have hnext : S.BLOCK_LEN - S.LENGTH_SIZE + (leBytes i bits).length
          + [UInt8.ofNat (bits / 256 ^ i)].length ≤ block.length := by
        rw [List.length_singleton]
        omega
      have hboth := overwrite_overwrite hnext
      rw [hlow] at hboth
      rw [store_of_le (by rw [length_overwrite hfits, List.length_singleton]; omega), hboth,
        leBytes_succ_eq_append]
  | highFirst =>
      dsimp only
      have hrev : (leBytes i bits).reverse.length = i := by rw [List.length_reverse, hlow]
      have hplace : S.BLOCK_LEN - i = S.BLOCK_LEN - 1 - i + 1 := by omega
      have hfits : S.BLOCK_LEN - i + (leBytes i bits).reverse.length ≤ block.length := by omega
      have hfront : S.BLOCK_LEN - 1 - i + [UInt8.ofNat (bits / 256 ^ i)].length
          + (leBytes i bits).reverse.length ≤ block.length := by
        rw [List.length_singleton]
        omega
      have hboth := overwrite_overwrite_front hfront
      rw [List.length_singleton, ← hplace] at hboth
      rw [store_of_le (by rw [length_overwrite hfits, List.length_singleton]; omega), hboth,
        leBytes_succ_eq_append, List.reverse_append, Nat.sub_sub, Nat.add_comm 1 i]
      rfl

/-- The low five bits, shifted up, are the lowest byte of the length in bits. -/
theorem ofNat_low (len : ℕ) : UInt8.ofNat ((len &&& 0x1F) <<< 3) = UInt8.ofNat (8 * len) := by
  have hlow : len &&& 0x1F = len % 32 := Nat.and_two_pow_sub_one_eq_mod len 5
  apply UInt8.toNat_inj.mp
  rw [UInt8.toNat_ofNat', UInt8.toNat_ofNat', hlow, Nat.shiftLeft_eq]
  omega

theorem ofNat_and (n : ℕ) : UInt8.ofNat (n &&& 0xFF) = UInt8.ofNat n := by
  have hlow : n &&& 0xFF = n % 256 := Nat.and_two_pow_sub_one_eq_mod n 8
  apply UInt8.toNat_inj.mp
  rw [UInt8.toNat_ofNat', UInt8.toNat_ofNat', hlow]
  omega

/-- The whole length in bits is stored, though it need not fit into the word it is taken from. -/
theorem storeLength_eq (len : ℕ) {block : List UInt8} (hblock : block.length = S.BLOCK_LEN) :
    S.storeLength len block = some (overwrite block (S.BLOCK_LEN - S.LENGTH_SIZE)
      (S.lengthBytes (8 * len) S.LENGTH_SIZE)) := by
  have hpos := S.pos
  have hfirst := S.store_lengthPlace hblock (8 * len) S.pos
  have hempty : S.lengthBytes (8 * len) 0 = [] :=
    List.length_eq_zero_iff.mp (S.length_lengthBytes _ _)
  rw [hempty, overwrite_nil, pow_zero, Nat.div_one, ← ofNat_low] at hfirst
  obtain ⟨r, hloop, hr⟩ := forUp_total S.lengthRound (a := 1) (b := S.LENGTH_SIZE)
    (s := (len >>> 5, overwrite block (S.lengthStart 1) (S.lengthBytes (8 * len) 1)))
    (I := fun i r => r = (8 * len / 256 ^ i.toNat,
      overwrite block (S.lengthStart i.toNat) (S.lengthBytes (8 * len) i.toNat)))
    (by
      have hshift : len >>> 5 = 8 * len / 256 := by
        rw [Nat.shiftRight_eq_div_pow]
        omega
      rw [hshift]
      rfl)
    (by
      rintro i _ hlo hhi rfl
      have hless : i.toNat < S.LENGTH_SIZE := by omega
      have hplace := S.store_lengthPlace hblock (8 * len) hless
      have hsucc : (i + 1).toNat = i.toNat + 1 := by omega
      have hshift : (8 * len / 256 ^ i.toNat) >>> 8 = 8 * len / 256 ^ (i.toNat + 1) := by
        rw [Nat.shiftRight_eq_div_pow, Nat.div_div_eq_div_mul, pow_succ 256]
      refine ⟨_, ?_, rfl⟩
      rw [lengthRound, ofNat_and, hplace, hsucc, ← hshift]
      rfl)
  have hend : (max 1 (S.LENGTH_SIZE : ℤ)).toNat = S.LENGTH_SIZE := by omega
  rw [hend, lengthStart_size] at hr
  rw [storeLength, hfirst, Option.bind_eq_bind, Option.bind_some, hloop, hr]
  rfl

/-! ### What the function computes -/

/-- How a message is filled up to blocks of this layout. -/
def padding : Padding UInt8 where
  mark := 0x80
  zero := 0
  blockLen := S.BLOCK_LEN
  lengthSize := S.LENGTH_SIZE
  lengthField := fun len => S.lengthBytes (8 * len) S.LENGTH_SIZE
  room := S.room
  length_lengthField := fun len => S.length_lengthBytes (8 * len) S.LENGTH_SIZE

/-- The blocks of the filled up message. -/
def messageBlocks (message : List UInt8) : List (List UInt8) :=
  blocks S.BLOCK_LEN (S.padding.pad message)

/-- The compression function folded over these blocks, as the standards have it. -/
def standard (message : List UInt8) : σ := (S.messageBlocks message).foldl S.compress S.initial

theorem standard_eq_fold (message : List UInt8) :
    S.standard message = S.padding.fold S.compress S.initial message := rfl

/-- What follows the last whole block. -/
def tail (rest : List UInt8) (len : ℕ) : List UInt8 :=
  rest ++ 0x80 :: (List.replicate (S.padding.zeros len) 0 ++ S.lengthBytes (8 * len) S.LENGTH_SIZE)

theorem standard_eq {message : List UInt8} {k : ℕ} (h : k * S.BLOCK_LEN ≤ message.length) :
    S.standard message = (blocks S.BLOCK_LEN
      (S.tail (message.drop (k * S.BLOCK_LEN)) message.length)).foldl S.compress
        (S.after message k) := by
  have hwhole : S.BLOCK_LEN ∣ (message.take (k * S.BLOCK_LEN)).length := by
    rw [List.length_take, Nat.min_eq_left h]
    exact Nat.dvd_mul_left _ _
  have hsplit : S.padding.pad message
      = message.take (k * S.BLOCK_LEN)
        ++ S.tail (message.drop (k * S.BLOCK_LEN)) message.length := by
    rw [tail, ← List.append_assoc, List.take_append_drop]
    rfl
  rw [standard, messageBlocks, hsplit, blocks_append S.blockLen_pos hwhole, List.foldl_append,
    after]

/-- The block with what is left over of the message, and the mark. -/
theorem overwrite_zeros (rest : List UInt8) (n : ℕ) :
    overwrite (List.replicate n 0) 0 rest = rest ++ List.replicate (n - rest.length) 0 := by
  rw [overwrite, List.take_zero, List.nil_append, List.drop_replicate, Nat.zero_add]

theorem store_mark (rest : List UInt8) {n : ℕ} (h : rest.length < n) :
    store (rest ++ List.replicate (n - rest.length) 0) rest.length [0x80]
      = some (rest ++ 0x80 :: List.replicate (n - (rest.length + 1)) 0) := by
  have hzeros : List.replicate (n - rest.length) (0 : UInt8)
      = 0 :: List.replicate (n - (rest.length + 1)) 0 := by
    rw [← List.replicate_succ]
    congr 1
    omega
  rw [hzeros, store_front]

/-- The length behind a block that has room for it. -/
theorem overwrite_length (front field : List UInt8) {n : ℕ}
    (h : front.length + field.length ≤ n) :
    overwrite (front ++ List.replicate (n - front.length) 0) (n - field.length) field
      = front ++ (List.replicate (n - (front.length + field.length)) 0 ++ field) := by
  have hlen : (front ++ List.replicate (n - front.length) (0 : UInt8)).length = n := by
    rw [List.length_append, List.length_replicate]
    omega
  rw [overwrite, List.drop_of_length_le (by omega), List.append_nil, List.take_append,
    List.take_of_length_le (by omega), List.take_replicate, List.append_assoc]
  congr 3
  omega

/-- A block that has room for the length is the last one. -/
theorem finish_of_le {rest : List UInt8} {len k : ℕ} (state : σ)
    (hlen : len = k * S.BLOCK_LEN + rest.length)
    (h : rest.length + 1 + S.LENGTH_SIZE ≤ S.BLOCK_LEN) :
    S.storeLength len (rest ++ 0x80 :: List.replicate (S.BLOCK_LEN - (rest.length + 1)) 0)
        = some (S.tail rest len) ∧
      (blocks S.BLOCK_LEN (S.tail rest len)).foldl S.compress state
        = S.compress state (S.tail rest len) := by
  have hfront : (rest ++ [0x80]).length = rest.length + 1 := by
    rw [List.length_append, List.length_singleton]
  have hfield := S.length_lengthBytes (8 * len) S.LENGTH_SIZE
  have hstore : S.storeLength len
      (rest ++ 0x80 :: List.replicate (S.BLOCK_LEN - (rest.length + 1)) 0)
        = some (S.tail rest len) := by
    have hover := overwrite_length (rest ++ [0x80]) (S.lengthBytes (8 * len) S.LENGTH_SIZE)
      (n := S.BLOCK_LEN) (by rw [hfront, hfield]; exact h)
    rw [hfront, hfield, List.append_assoc, List.append_assoc, List.singleton_append,
      List.singleton_append] at hover
    have hblock : (rest ++ (0x80 : UInt8)
        :: List.replicate (S.BLOCK_LEN - (rest.length + 1)) 0).length = S.BLOCK_LEN := by
      rw [List.length_append, List.length_cons, List.length_replicate]
      omega
    rw [S.storeLength_eq len hblock, hover, tail, S.padding.zeros_of_le hlen h]
    rfl
  have hone : (S.tail rest len).length = S.BLOCK_LEN := by
    rw [tail, S.padding.zeros_of_le hlen h, List.length_append, List.length_cons,
      List.length_append, List.length_replicate, hfield]
    change rest.length + (S.BLOCK_LEN - (rest.length + 1 + S.LENGTH_SIZE) + S.LENGTH_SIZE + 1)
      = S.BLOCK_LEN
    omega
  refine ⟨hstore, ?_⟩
  rw [blocks_self S.blockLen_pos hone]
  rfl

/-- One that has not is followed by another one. -/
theorem finish_of_lt {rest : List UInt8} {len k : ℕ} (state : σ)
    (hlen : len = k * S.BLOCK_LEN + rest.length) (hrest : rest.length < S.BLOCK_LEN)
    (h : S.BLOCK_LEN < rest.length + 1 + S.LENGTH_SIZE) :
    ∃ block, S.storeLength len (List.replicate S.BLOCK_LEN 0) = some block ∧
      (blocks S.BLOCK_LEN (S.tail rest len)).foldl S.compress state
        = S.compress (S.compress state
          (rest ++ 0x80 :: List.replicate (S.BLOCK_LEN - (rest.length + 1)) 0)) block := by
  have hroom := S.room
  have hfield := S.length_lengthBytes (8 * len) S.LENGTH_SIZE
  have hover := overwrite_length [] (S.lengthBytes (8 * len) S.LENGTH_SIZE) (n := S.BLOCK_LEN)
    (by rw [hfield, List.length_nil]; omega)
  rw [hfield, List.length_nil, Nat.sub_zero, Nat.zero_add, List.nil_append, List.nil_append]
    at hover
  have hfirst : (rest ++ (0x80 : UInt8)
      :: List.replicate (S.BLOCK_LEN - (rest.length + 1)) 0).length = S.BLOCK_LEN := by
    rw [List.length_append, List.length_cons, List.length_replicate]
    omega
  have hsecond : (List.replicate (S.BLOCK_LEN - S.LENGTH_SIZE) 0
      ++ S.lengthBytes (8 * len) S.LENGTH_SIZE).length = S.BLOCK_LEN := by
    rw [List.length_append, List.length_replicate, hfield]
    omega
  have htail : S.tail rest len
      = (rest ++ 0x80 :: List.replicate (S.BLOCK_LEN - (rest.length + 1)) 0)
        ++ (List.replicate (S.BLOCK_LEN - S.LENGTH_SIZE) 0
          ++ S.lengthBytes (8 * len) S.LENGTH_SIZE) := by
    rw [tail, S.padding.zeros_of_lt hlen hrest h, List.replicate_add]
    simp only [List.append_assoc, List.cons_append]
    rfl
  refine ⟨List.replicate (S.BLOCK_LEN - S.LENGTH_SIZE) 0
    ++ S.lengthBytes (8 * len) S.LENGTH_SIZE, ?_, ?_⟩
  · rw [S.storeLength_eq len List.length_replicate, hover]
  · rw [htail, blocks_append S.blockLen_pos (dvd_of_eq hfirst.symm),
      blocks_self S.blockLen_pos hfirst, blocks_self S.blockLen_pos hsecond]
    rfl

/-- **The function computes the hash of the standards**, of every message whose length is a
`size_t`, and it reads nothing behind the message. -/
theorem hash_eq (message : List UInt8) {len : ℕ} (hlen : len < 2 ^ 64)
    (hle : len ≤ message.length) :
    S.hash message len = some (S.standard (message.take len)) := by
  have hsmall := S.small
  have hrem : len % S.BLOCK_LEN < S.BLOCK_LEN := Nat.mod_lt _ S.blockLen_pos
  have hsplit := Nat.div_add_mod' len S.BLOCK_LEN
  have hoff : len / S.BLOCK_LEN * S.BLOCK_LEN ≤ len := by omega
  have hsub : subU64 len (len / S.BLOCK_LEN * S.BLOCK_LEN) = len % S.BLOCK_LEN := by
    rw [subU64_of_le hlen hoff]
    omega
  have hload := load_of_le (l := message) (p := len / S.BLOCK_LEN * S.BLOCK_LEN)
    (n := len % S.BLOCK_LEN) (by omega)
  set rest := (message.drop (len / S.BLOCK_LEN * S.BLOCK_LEN)).take (len % S.BLOCK_LEN) with hdef
  have hrest : rest.length = len % S.BLOCK_LEN := (load_eq_some hload).2
  have hstore : store (List.replicate S.BLOCK_LEN (0 : UInt8)) 0 rest
      = some (rest ++ List.replicate (S.BLOCK_LEN - rest.length) 0) := by
    rw [store_of_le (by rw [List.length_replicate]; omega), overwrite_zeros]
  have hmark := store_mark rest (n := S.BLOCK_LEN) (by omega)
  -- what the standards fold over behind the whole blocks
  have hstandard : S.standard (message.take len)
      = (blocks S.BLOCK_LEN (S.tail rest len)).foldl S.compress
        (S.after message (len / S.BLOCK_LEN)) := by
    have htake : (message.take len).length = len := by rw [List.length_take, Nat.min_eq_left hle]
    have hbehind : (message.take len).drop (len / S.BLOCK_LEN * S.BLOCK_LEN) = rest := by
      rw [List.drop_take, hdef]
      congr 1
      omega
    rw [S.standard_eq (k := len / S.BLOCK_LEN) (by rw [htake]; exact hoff), hbehind, htake, after,
      after, List.take_take, Nat.min_eq_left hoff]
  rw [hash, S.loop_blockRound hlen hle, hstandard, Option.bind_eq_bind, Option.bind_some]
  dsimp only
  rw [hsub, hload, Option.bind_eq_bind, Option.bind_some, hstore, Option.bind_some, ← hrest, hmark,
    Option.bind_some, u64_of_lt (by omega)]
  have hlen' : len = len / S.BLOCK_LEN * S.BLOCK_LEN + rest.length := by omega
  by_cases hroom : rest.length + 1 + S.LENGTH_SIZE ≤ S.BLOCK_LEN
  · obtain ⟨hlength, hfold⟩ := S.finish_of_le (S.after message (len / S.BLOCK_LEN)) hlen' hroom
    rw [makeRoom, subU64_of_le hsmall (by omega), if_neg (by omega), lastBlock, hlength, hfold]
    rfl
  · obtain ⟨block, hlength, hfold⟩ := S.finish_of_lt (S.after message (len / S.BLOCK_LEN)) hlen'
      (by omega) (by omega)
    rw [makeRoom, subU64_of_le hsmall (by omega), if_pos (by omega), lastBlock, hlength, hfold]
    rfl

/-! ### Collisions -/

/-- Two inputs of the compression function, one for each message, with one result. -/
def CompressCollides (m m' : List UInt8) : Prop :=
  ∃ p ∈ inputs S.compress S.initial (S.messageBlocks m),
    ∃ q ∈ inputs S.compress S.initial (S.messageBlocks m'), Collide S.compress p q

/-- **Two messages with one hash** made the compression function collide on the way, or their last
states differ only in what the hash leaves out. -/
theorem hash_collision {δ : Type} (digest : σ → δ) {m m' : List UInt8} (hne : m ≠ m')
    (hm : m.length < 2 ^ 64) (hm' : m'.length < 2 ^ 64)
    (hfit : 8 * m.length < 256 ^ S.LENGTH_SIZE) (hfit' : 8 * m'.length < 256 ^ S.LENGTH_SIZE)
    (h : (S.hash m m.length).map digest = (S.hash m' m'.length).map digest) :
    S.CompressCollides m m' ∨
      S.standard m ≠ S.standard m' ∧ digest (S.standard m) = digest (S.standard m') := by
  rw [S.hash_eq m hm le_rfl, S.hash_eq m' hm' le_rfl, List.take_length, List.take_length] at h
  have hdigest : digest (S.standard m) = digest (S.standard m') := Option.some.inj h
  by_cases hstate : S.standard m = S.standard m'
  · left
    have hlen : S.padding.lengthField m.length = S.padding.lengthField m'.length →
        m.length = m'.length := by
      intro hfield
      have hbits := S.lengthBytes_inj hfit hfit' hfield
      omega
    exact S.padding.collide_of_pad S.compress S.initial hne hlen hstate
  · exact .inr ⟨hstate, hdigest⟩

/-- A compression function that forgets everything. -/
def forgetful : Scheme Unit where
  BLOCK_LEN := 4
  LENGTH_SIZE := 2
  lengthOrder := .highFirst
  initial := ()
  compress := fun _ _ => ()
  pos := by decide
  room := by decide
  small := by norm_num

/-- It collides at once. -/
theorem hash_collision_forgetful : forgetful.CompressCollides [] [0] ∨
    forgetful.standard [] ≠ forgetful.standard [0] ∧
      id (forgetful.standard []) = id (forgetful.standard [0]) := by
  have hsame : (forgetful.hash [] 0).map id = (forgetful.hash [0] 1).map id := by
    rw [hash_eq _ _ (by norm_num) (by simp), hash_eq _ _ (by norm_num) (by simp)]
  exact hash_collision forgetful id (List.cons_ne_nil 0 []).symm (by norm_num) (by norm_num)
    (by decide) (by decide) hsame

end Scheme

end Csnip.Hash
