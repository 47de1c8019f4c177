/-
A dump of memory.

`hexdump()` goes over the bytes one at a time.  What stands at the end of a line is collected in
`buff` meanwhile, which is printed when the next line begins and once more behind the last byte.  An
array of seventeen is enough for that, and it has an end whenever it is printed: `Printing` says
what it holds after every byte.

The last line is filled up by counting on to a multiple of sixteen, in the `int` that counts the
bytes.  There is no such number behind the last fifteen lengths an `int` can have, and the counter
overflows.
-/
import Csnip.Lib.Loop
import Csnip.Lib.Memory

namespace Csnip

open Memory Loop

namespace Hexdump

/-! ### What is printed -/

/-- Characters as bytes. -/
def ascii (text : List Char) : List UInt8 := text.map fun c => UInt8.ofNat c.toNat

/-- `%0<width>x` -/
def printHex (width n : ℕ) : List UInt8 :=
  let digits := Nat.toDigits 16 n
  ascii (List.replicate (width - digits.length) '0' ++ digits)

/-- `" %02x"` -/
def hexCode (c : UInt8) : List UInt8 := 32 :: printHex 2 c.toNat

/-- A printable character for a byte, a full stop for what is none. -/
def printable (c : UInt8) : UInt8 := if c < 0x20 ∨ 0x7e < c then 46 else c

/-- `"  %04x "` -/
def offset (i : ℕ) : List UInt8 := [32, 32] ++ printHex 4 i ++ [32]

/-- `"  ZERO LENGTH\n"` -/
def zeroLength : List UInt8 := ascii ("  ZERO LENGTH\n".toList)

/-- `"  NEGATIVE LENGTH: %i\n"` -/
def negativeLength (len : ℤ) : List UInt8 :=
  ascii ("  NEGATIVE LENGTH: -".toList ++ Nat.toDigits 10 len.natAbs) ++ [10]

/-! ### The function -/

/-- `buff`, with `none` for a cell nothing was stored to, and what is printed. -/
structure Dump where
  buff : List (Option UInt8)
  printed : List UInt8

/-- The string at the start of some cells. -/
def cString : List (Option UInt8) → Option (List UInt8)
  | some c :: cells => if c = 0 then some [] else (cString cells).map (c :: ·)
  | none :: _ | [] => none

/-- `printf("  %s\n", buff)` -/
def Dump.printBuff (d : Dump) : Option Dump :=
  (cString d.buff).map fun s => { d with printed := d.printed ++ ([32, 32] ++ s ++ [10]) }

/-- A new line, with its offset.  Just don't print ASCII for the zeroth line. -/
def Dump.newLine (d : Dump) (i : ℤ) : Option Dump := do
  let d ← if i ≠ 0 then d.printBuff else pure d
  pure { d with printed := d.printed ++ offset i.toNat }

/-- The hex code of a byte, and its character stored for later. -/
def Dump.showByte (pc : List UInt8) (i : ℤ) (d : Dump) : Option Dump := do
  let c ← pc[i.toNat]?
  let buff ← store d.buff (i % 16).toNat [some (printable c)]
  let buff ← store buff ((i % 16).toNat + 1) [some 0]
  pure { buff, printed := d.printed ++ hexCode c }

/-- Process a byte. -/
def byteRound (pc : List UInt8) (i : ℤ) (d : Dump) : Option Dump := do
  let d ← if i % 16 = 0 then d.newLine i else pure d
  d.showByte pc i

/-- Pad out the last line. -/
def padRound : ℤ × List UInt8 → Option (Round (ℤ × List UInt8) (List UInt8))
  | (i, printed) =>
      if i % 16 ≠ 0 then
        -- `i++`
        if i + 1 < 2 ^ 31 then pure (.again (i + 1, printed ++ [32, 32, 32])) else none
      else pure (.done printed)

/-- The description, if given. -/
def heading (desc : Option (List UInt8)) : List UInt8 := desc.elim [] (· ++ [10])

def hexdump (desc : Option (List UInt8)) (addr : List UInt8) (len : ℤ) : Option (List UInt8) := do
  if len = 0 then return heading desc ++ zeroLength
  if len < 0 then return heading desc ++ negativeLength len
  let d ← forUp 0 len (byteRound addr) { buff := List.replicate 17 none, printed := heading desc }
  let printed ← loop padRound 16 (len, d.printed)
  let d ← { d with printed }.printBuff
  return d.printed

/-! ### Lines -/

/-- The line with a number, of the bytes given. -/
def lineOf (k : ℕ) (bytes : List UInt8) : List UInt8 :=
  offset (16 * k) ++ bytes.flatMap hexCode ++ List.replicate (3 * (16 - bytes.length)) 32 ++
    ([32, 32] ++ bytes.map printable ++ [10])

/-- The bytes of a line. -/
def row (bytes : List UInt8) (k : ℕ) : List UInt8 := (bytes.drop (16 * k)).take 16

/-- The first lines. -/
def lines (bytes : List UInt8) (n : ℕ) : List UInt8 :=
  (List.range n).flatMap fun k => lineOf k (row bytes k)

/-- All lines. -/
def dumpOf (bytes : List UInt8) : List UInt8 := lines bytes ((bytes.length + 15) / 16)

theorem lines_succ (bytes : List UInt8) (n : ℕ) :
    lines bytes (n + 1) = lines bytes n ++ lineOf n (row bytes n) := by
  simp [lines, List.range_succ, List.flatMap_append]

theorem printable_ne_zero (c : UInt8) : printable c ≠ 0 := by
  unfold printable
  split
  · decide
  · rename_i h
    intro hzero
    exact h (.inl (hzero ▸ by decide))

/-- The string is what was stored in front of its end. -/
theorem cString_printable (bytes : List UInt8) (cells : List (Option UInt8)) :
    cString (bytes.map (fun c => some (printable c)) ++ some 0 :: cells)
      = some (bytes.map printable) := by
  induction bytes with
  | nil => simp [cString]
  | cons c bytes ih => simp [cString, printable_ne_zero, ih]

/-! ### After every byte -/

/-- The first `n` bytes are in the lines and in the buffer: `q` lines are complete, and `row` has
what the line behind them shows so far, which may be nothing but its offset. -/
structure Printing (heading bytes : List UInt8) (n : ℕ) (d : Dump) (q : ℕ) (row : List UInt8) :
    Prop where
  count : 16 * q + row.length = n
  short : row.length ≤ 16
  row_eq : row = (bytes.drop (16 * q)).take row.length
  printed : d.printed = heading ++ lines bytes q ++ offset (16 * q) ++ row.flatMap hexCode
  buff : row ≠ [] →
    ∃ cells, d.buff = row.map (fun c => some (printable c)) ++ some 0 :: cells
  length : d.buff.length = 17

/-- Two cells behind some others. -/
theorem store_two (front back : List (Option UInt8)) (a b x y : Option UInt8) :
    ((store (front ++ a :: b :: back) front.length [x]).bind fun buff =>
      store buff (front.length + 1) [y]) = some (front ++ x :: y :: back) := by
  have hnext : front ++ x :: b :: back = (front ++ [x]) ++ b :: back := by simp
  have hplace : front.length + 1 = (front ++ [x]).length := by simp
  rw [store_front, Option.bind_some, hnext, hplace, store_front]
  simp

section Rounds

variable {heading bytes : List UInt8} {n q : ℕ} {d : Dump} {row : List UInt8} {c : UInt8}

/-- The characters of the line are in front. -/
theorem Printing.take_buff (h : Printing heading bytes n d q row) :
    d.buff.take row.length = row.map fun c => some (printable c) := by
  rcases row with _ | ⟨c, row⟩
  · rfl
  · obtain ⟨cells, hcells⟩ := h.buff (List.cons_ne_nil c row)
    rw [hcells, List.take_append_of_le_length (by simp), List.take_of_length_le (by simp)]

/-- There are two more cells behind those of a line that is not full. -/
theorem two_cells {buff : List (Option UInt8)} {r : ℕ} (hbuff : buff.length = 17) (hr : r < 16) :
    ∃ a b back, buff.drop r = a :: b :: back := by
  have hlen : (buff.drop r).length = 17 - r := by rw [List.length_drop, hbuff]
  rcases hdrop : buff.drop r with _ | ⟨a, _ | ⟨b, back⟩⟩
  · rw [hdrop, List.length_nil] at hlen
    omega
  · rw [hdrop, List.length_singleton] at hlen
    omega
  · exact ⟨a, b, back, rfl⟩

/-- A byte is shown behind others of its line. -/
theorem Printing.showByte (h : Printing heading bytes n d q row) (hrow : row.length < 16)
    (hc : bytes[n]? = some c) :
    ∃ d', d.showByte bytes n = some d' ∧ Printing heading bytes (n + 1) d' q (row ++ [c]) := by
  obtain ⟨a, b, back, hback⟩ := two_cells h.length hrow
  have hsplit : d.buff = row.map (fun c => some (printable c)) ++ a :: b :: back := by
    rw [← h.take_buff, ← hback, List.take_append_drop]
  have hplace : ((n : ℤ) % 16).toNat = row.length := by
    have := h.count
    omega
  have hstore := store_two (row.map fun c => some (printable c)) back a b (some (printable c))
    (some 0)
  rw [List.length_map, ← hsplit] at hstore
  obtain ⟨buff, hfirst, hsecond⟩ := Option.bind_eq_some_iff.mp hstore
  refine ⟨⟨row.map (fun c => some (printable c)) ++ some (printable c) :: some 0 :: back,
    d.printed ++ hexCode c⟩, ?_, ?_⟩
  · simp only [Dump.showByte, Int.toNat_natCast, hc, hplace, hfirst, hsecond, Option.bind_eq_bind,
      Option.bind_some]
    rfl
  · refine ⟨?_, ?_, ?_, ?_, ?_, ?_⟩
    · have := h.count
      simp
      omega
    · simp
      omega
    · have hnext : (bytes.drop (16 * q))[row.length]? = some c := by
        rw [List.getElem?_drop, h.count, hc]
      rw [List.length_append, List.length_singleton, List.take_add_one, hnext, ← h.row_eq]
      rfl
    · rw [h.printed]
      simp
    · intro _
      exact ⟨back, by simp⟩
    · have := h.length
      rw [hsplit] at this
      simp at this ⊢
      omega

/-- What stands in the buffer is printed. -/
theorem Printing.printBuff (h : Printing heading bytes n d q row) (hrow : row ≠ [])
    (printed : List UInt8) :
    Dump.printBuff { d with printed }
      = some { d with printed := printed ++ ([32, 32] ++ row.map printable ++ [10]) } := by
  obtain ⟨cells, hcells⟩ := h.buff hrow
  simp only [Dump.printBuff, hcells, cString_printable, Option.map_some]

/-- A full line is ended, and the next one begins. -/
theorem Printing.newLine (h : Printing heading bytes n d q row) (hrow : row.length = 16) :
    ∃ d', d.newLine n = some d' ∧ Printing heading bytes n d' (q + 1) [] := by
  have hcount := h.count
  have hn : (n : ℤ) ≠ 0 := by omega
  have hne : row ≠ [] := by
    intro hnil
    rw [hnil, List.length_nil] at hrow
    omega
  have hprint : d.printBuff = _ := h.printBuff hne d.printed
  refine ⟨⟨d.buff, d.printed ++ ([32, 32] ++ row.map printable ++ [10]) ++ offset (n : ℤ).toNat⟩,
    ?_, ?_⟩
  · rw [Dump.newLine, if_pos hn, hprint]
    rfl
  · refine ⟨?_, ?_, rfl, ?_, ?_, h.length⟩
    · simp
      omega
    · simp
    · have hfull : Hexdump.row bytes q = row := by
        have hrow' := h.row_eq
        rw [hrow] at hrow'
        exact hrow'.symm
      have hplace : (n : ℤ).toNat = 16 * (q + 1) := by omega
      rw [hplace, lines_succ, hfull, lineOf, hrow, h.printed]
      simp
    · intro hnil
      exact absurd rfl hnil

/-- A byte is processed. -/
theorem Printing.byteRound (h : Printing heading bytes n d q row) (hrow : row ≠ [])
    (hc : bytes[n]? = some c) :
    ∃ d' q' row', byteRound bytes n d = some d' ∧ row' ≠ [] ∧
      Printing heading bytes (n + 1) d' q' row' := by
  have hcount := h.count
  have hshort := h.short
  have hpos := List.length_pos_iff.mpr hrow
  by_cases hfull : row.length = 16
  · obtain ⟨d', hline, h'⟩ := h.newLine hfull
    obtain ⟨d'', hshow, h''⟩ := h'.showByte (by simp) hc
    refine ⟨d'', q + 1, [] ++ [c], ?_, by simp, h''⟩
    have hmod : (n : ℤ) % 16 = 0 := by omega
    rw [Hexdump.byteRound, if_pos hmod, hline]
    exact hshow
  · obtain ⟨d', hshow, h'⟩ := h.showByte (by omega) hc
    refine ⟨d', q, row ++ [c], ?_, by simp, h'⟩
    have hmod : ¬ (n : ℤ) % 16 = 0 := by omega
    rw [Hexdump.byteRound, if_neg hmod]
    exact hshow

/-- The first byte is processed. -/
theorem byteRound_zero (hd : d.buff.length = 17) (hprinted : d.printed = heading)
    (hc : bytes[0]? = some c) :
    ∃ d', byteRound bytes 0 d = some d' ∧ Printing heading bytes 1 d' 0 [c] := by
  have h : Printing heading bytes 0 { d with printed := d.printed ++ offset 0 } 0 [] :=
    ⟨rfl, by simp, rfl, by simp [lines, hprinted], fun hnil => absurd rfl hnil, hd⟩
  obtain ⟨d', hshow, h'⟩ := h.showByte (by simp) hc
  exact ⟨d', hshow, h'⟩

end Rounds

/-! ### The last line -/

/-- The padding counts on to a multiple of sixteen. -/
theorem padRound_total (m : ℕ) :
    ∀ (fuel : ℕ) (i : ℤ) (printed : List UInt8), m < 16 → m < fuel → (i + m) % 16 = 0 →
      i + m < 2 ^ 31 →
      loop padRound fuel (i, printed) = some (printed ++ List.replicate (3 * m) 32) := by
  induction m with
  | zero =>
      intro fuel i printed _ hfuel hmod _
      obtain ⟨fuel, rfl⟩ := Nat.exists_eq_succ_of_ne_zero (by omega : fuel ≠ 0)
      have hzero : ¬ i % 16 ≠ 0 := by
        push_cast at hmod
        omega
      have hround : padRound (i, printed) = pure (.done printed) := by rw [padRound, if_neg hzero]
      rw [loop_done fuel hround]
      simp
  | succ m ih =>
      intro fuel i printed hm hfuel hmod hroom
      obtain ⟨fuel, rfl⟩ := Nat.exists_eq_succ_of_ne_zero (by omega : fuel ≠ 0)
      push_cast at hmod hroom
      have hmore : i % 16 ≠ 0 := by omega
      have hround : padRound (i, printed) = pure (.again (i + 1, printed ++ [32, 32, 32])) := by
        rw [padRound, if_pos hmore, if_pos (by omega)]
      rw [loop_again fuel hround, ih fuel _ _ (by omega) (by omega) (by omega) (by omega)]
      have hspaces : 3 * (m + 1) = 3 + 3 * m := by omega
      rw [hspaces, List.replicate_add, List.append_assoc]
      rfl

/-- Behind the last multiple of sixteen the counter overflows. -/
theorem padRound_none (fuel : ℕ) :
    ∀ (i : ℤ) (printed : List UInt8), 2 ^ 31 - 16 < i → i < 2 ^ 31 →
      loop padRound fuel (i, printed) = none := by
  induction fuel with
  | zero => intro i printed _ _; rfl
  | succ fuel ih =>
      intro i printed hlo hhi
      have hmore : i % 16 ≠ 0 := by omega
      by_cases hlast : i + 1 < 2 ^ 31
      · have hround : padRound (i, printed) = pure (.again (i + 1, printed ++ [32, 32, 32])) := by
          rw [padRound, if_pos hmore, if_pos hlast]
        rw [loop_again fuel hround]
        exact ih _ _ (by omega) hlast
      · rw [loop, padRound, if_pos hmore, if_neg hlast]
        rfl

/-! ### The whole dump -/

theorem row_take {bytes : List UInt8} {n k : ℕ} (h : 16 * (k + 1) ≤ n) :
    row (bytes.take n) k = row bytes k := by
  rw [row, List.drop_take, List.take_take, row, Nat.min_eq_left (by omega)]

theorem lines_take {bytes : List UInt8} {n q : ℕ} (h : 16 * q ≤ n) :
    lines (bytes.take n) q = lines bytes q := by
  refine List.flatMap_congr fun k hk => ?_
  have hk' := List.mem_range.mp hk
  rw [row_take (by omega)]

section Whole

variable {heading bytes : List UInt8} {n q : ℕ} {d : Dump} {row : List UInt8}

/-- The line that is begun is the last one. -/
theorem Printing.dumpOf_eq (h : Printing heading bytes n d q row) (hrow : row ≠ [])
    (hn : n ≤ bytes.length) : dumpOf (bytes.take n) = lines bytes q ++ lineOf q row := by
  have hcount := h.count
  have hshort := h.short
  have hpos := List.length_pos_iff.mpr hrow
  have hlines : ((bytes.take n).length + 15) / 16 = q + 1 := by
    rw [List.length_take, Nat.min_eq_left hn]
    omega
  have hlast : Hexdump.row (bytes.take n) q = row := by
    have hrest : n - 16 * q = row.length := by omega
    rw [Hexdump.row, List.drop_take, hrest, List.take_take, Nat.min_eq_right hshort, ← h.row_eq]
  rw [dumpOf, hlines, lines_succ, lines_take (by omega), hlast]

/-- The last line is filled up and ended. -/
theorem Printing.finish (h : Printing heading bytes n d q row) (hrow : row ≠ [])
    (hn : n ≤ bytes.length) (hroom : n ≤ 2 ^ 31 - 16) :
    ((loop padRound 16 ((n : ℤ), d.printed)).bind fun printed =>
        (Dump.printBuff { d with printed }).map Dump.printed)
      = some (heading ++ dumpOf (bytes.take n)) := by
  have hcount := h.count
  have hshort := h.short
  have hpos := List.length_pos_iff.mpr hrow
  rw [padRound_total (16 - row.length) 16 n d.printed (by omega) (by omega) (by omega) (by omega),
    Option.bind_some, h.printBuff hrow, h.dumpOf_eq hrow hn, h.printed, lineOf]
  simp

/-- All bytes are processed. -/
theorem forUp_byteRound (heading : List UInt8) (hpos : 0 < n) (hn : n ≤ bytes.length) :
    ∃ d q row, forUp 0 n (byteRound bytes) { buff := List.replicate 17 none, printed := heading }
      = some d ∧ row ≠ [] ∧ Printing heading bytes n d q row := by
  let I : ℤ → Dump → Prop := fun i d => (i = 0 → d.buff.length = 17 ∧ d.printed = heading) ∧
    (0 < i → ∃ q row, row ≠ [] ∧ Printing heading bytes i.toNat d q row)
  have hround : ∀ i d, 0 ≤ i → i < (n : ℤ) → I i d →
      ∃ d', byteRound bytes i d = pure d' ∧ I (i + 1) d' := by
    intro i d hlo hhi hI
    obtain ⟨k, rfl⟩ := Int.eq_ofNat_of_zero_le hlo
    have hk : k < bytes.length := by omega
    have hc := List.getElem?_eq_getElem hk
    by_cases hzero : k = 0
    · subst hzero
      obtain ⟨hlen, hprinted⟩ := hI.1 rfl
      obtain ⟨d', hround, h'⟩ := byteRound_zero hlen hprinted hc
      exact ⟨d', hround, fun h => by omega, fun _ => ⟨0, _, by simp, h'⟩⟩
    · obtain ⟨q, row, hrow, h⟩ := hI.2 (by omega)
      obtain ⟨d', q', row', hround, hrow', h'⟩ := h.byteRound hrow hc
      exact ⟨d', hround, fun h => by omega, fun _ => ⟨q', row', hrow', h'⟩⟩
  have hstart : I 0 { buff := List.replicate 17 none, printed := heading } :=
    ⟨fun _ => ⟨rfl, rfl⟩, fun h => absurd h (lt_irrefl 0)⟩
  obtain ⟨d, hloop, -, hd⟩ := forUp_total (byteRound bytes) hstart hround
  have hmax : max (0 : ℤ) n = n := by omega
  rw [hmax] at hd
  obtain ⟨q, row, hrow, h⟩ := hd (by omega)
  exact ⟨d, q, row, hloop, hrow, h⟩

end Whole

section Function

variable {addr : List UInt8} {n : ℕ}

/-- What `hexdump` does with bytes. -/
theorem hexdump_of_pos (desc : Option (List UInt8)) (hpos : 0 < n) :
    hexdump desc addr n = (forUp 0 n (byteRound addr)
        { buff := List.replicate 17 none, printed := heading desc }).bind fun d =>
      (loop padRound 16 ((n : ℤ), d.printed)).bind fun printed =>
        (Dump.printBuff { d with printed }).map Dump.printed := by
  have hzero : ¬ (n : ℤ) = 0 := by omega
  have hneg : ¬ (n : ℤ) < 0 := by omega
  simp only [hexdump, if_neg hzero, if_neg hneg, Option.map_eq_bind]
  rfl

theorem hexdump_eq (desc : Option (List UInt8)) (hpos : 0 < n) (hn : n ≤ addr.length)
    (hroom : n ≤ 2 ^ 31 - 16) :
    hexdump desc addr n = some (heading desc ++ dumpOf (addr.take n)) := by
  obtain ⟨d, q, row, hloop, hrow, h⟩ := forUp_byteRound (heading desc) hpos hn
  rw [hexdump_of_pos desc hpos, hloop, Option.bind_some]
  exact h.finish hrow hn hroom

theorem hexdump_none (desc : Option (List UInt8)) (hpos : 0 < n) (hn : n ≤ addr.length)
    (hint : n < 2 ^ 31) (hroom : ¬ n ≤ 2 ^ 31 - 16) : hexdump desc addr n = none := by
  obtain ⟨d, q, row, hloop, hrow, h⟩ := forUp_byteRound (heading desc) hpos hn
  rw [hexdump_of_pos desc hpos, hloop, Option.bind_some,
    padRound_none 16 n d.printed (by omega) (by omega)]
  rfl

end Function

/-! ### The dump is of those bytes only -/

/-- The number that digits are read as. -/
def readHex (digits : List UInt8) : ℕ :=
  digits.foldl (fun n d => 16 * n + (if d < 58 then d.toNat - 48 else d.toNat - 87)) 0

theorem printHex_two : ∀ k : Fin 256,
    (printHex 2 k).length = 2 ∧ readHex (printHex 2 k) = k := by
  decide +kernel

theorem length_hexCode (c : UInt8) : (hexCode c).length = 3 := by
  rw [hexCode, List.length_cons]
  exact congrArg (· + 1) (printHex_two ⟨c.toNat, c.toNat_lt⟩).1

/-- The byte is had back from its code. -/
theorem hexCode_inj {c c' : UInt8} (h : hexCode c = hexCode c') : c = c' := by
  have hdigits := congrArg readHex (List.cons.inj h).2
  have hc := (printHex_two ⟨c.toNat, c.toNat_lt⟩).2
  have hc' := (printHex_two ⟨c'.toNat, c'.toNat_lt⟩).2
  exact UInt8.toNat_inj.mp (hc.symm.trans (hdigits.trans hc'))

/-- Texts in a row, each as long as the one it is compared with, are the same one by one. -/
theorem flatMap_inj {α : Type*} (f g : α → List UInt8) :
    ∀ l : List α, (∀ k ∈ l, (f k).length = (g k).length) → l.flatMap f = l.flatMap g →
      ∀ k ∈ l, f k = g k := by
  intro l
  induction l with
  | nil =>
      intro _ _ k hk
      simp at hk
  | cons k l ih =>
      intro hlen heq
      rw [List.flatMap_cons, List.flatMap_cons] at heq
      obtain ⟨hfirst, hrest⟩ := List.append_inj heq (hlen k List.mem_cons_self)
      have hl := ih (fun j hj => hlen j (List.mem_cons_of_mem k hj)) hrest
      intro j hj
      rcases List.mem_cons.mp hj with rfl | hj
      · exact hfirst
      · exact hl j hj

theorem flatMap_hexCode_inj (bytes : List UInt8) :
    ∀ bytes' : List UInt8, bytes.length = bytes'.length →
      bytes.flatMap hexCode = bytes'.flatMap hexCode → bytes = bytes' := by
  induction bytes with
  | nil =>
      intro bytes' hlen _
      exact (List.length_eq_zero_iff.mp hlen.symm).symm
  | cons c bytes ih =>
      intro bytes' hlen heq
      rcases bytes' with _ | ⟨c', bytes'⟩
      · simp at hlen
      · rw [List.flatMap_cons, List.flatMap_cons] at heq
        obtain ⟨hfirst, hrest⟩ := List.append_inj heq (by rw [length_hexCode, length_hexCode])
        rw [hexCode_inj hfirst, ih bytes' (Nat.succ.inj hlen) hrest]

theorem length_flatMap_hexCode (bytes : List UInt8) :
    (bytes.flatMap hexCode).length = 3 * bytes.length := by
  induction bytes with
  | nil => rfl
  | cons c bytes ih =>
      rw [List.flatMap_cons, List.length_append, length_hexCode, ih, List.length_cons]
      omega

/-- A line is of one row of bytes. -/
theorem lineOf_inj {k : ℕ} {bytes bytes' : List UInt8} (hlen : bytes.length = bytes'.length)
    (h : lineOf k bytes = lineOf k bytes') : bytes = bytes' := by
  simp only [lineOf, List.append_assoc] at h
  have hcodes := (List.append_inj (List.append_cancel_left h)
    (by rw [length_flatMap_hexCode, length_flatMap_hexCode, hlen])).1
  exact flatMap_hexCode_inj bytes bytes' hlen hcodes

theorem length_lineOf {k : ℕ} {bytes bytes' : List UInt8} (hlen : bytes.length = bytes'.length) :
    (lineOf k bytes).length = (lineOf k bytes').length := by
  simp only [lineOf, List.length_append, length_flatMap_hexCode, List.length_replicate,
    List.length_map, hlen]

/-- The rows are the bytes. -/
theorem eq_of_rows {bytes bytes' : List UInt8} (hlen : bytes.length = bytes'.length)
    (h : ∀ k < (bytes.length + 15) / 16, row bytes k = row bytes' k) : bytes = bytes' := by
  refine List.ext_getElem? fun i => ?_
  by_cases hi : i < bytes.length
  · have hplace : 16 * (i / 16) + i % 16 = i := Nat.div_add_mod i 16
    have hmod : i % 16 < 16 := Nat.mod_lt i (by omega)
    have hrow := congrArg (fun r => r[i % 16]?) (h (i / 16) (by omega))
    simpa [row, List.getElem?_take_of_lt hmod, List.getElem?_drop, hplace] using hrow
  · rw [List.getElem?_eq_none (by omega), List.getElem?_eq_none (by omega)]

/-- Blocks of one length that look the same are the same. -/
theorem dumpOf_inj {bytes bytes' : List UInt8} (hlen : bytes.length = bytes'.length)
    (h : dumpOf bytes = dumpOf bytes') : bytes = bytes' := by
  have hrows : ∀ k, (row bytes k).length = (row bytes' k).length := by
    intro k
    simp [row, hlen]
  unfold dumpOf lines at h
  rw [← hlen] at h
  have hlines := flatMap_inj _ _ _ (fun k _ => length_lineOf (hrows k)) h
  refine eq_of_rows hlen fun k hk => ?_
  exact lineOf_inj (hrows k) (hlines k (List.mem_range.mpr hk))

/-! ### The result -/

/-- **A dump shows the bytes and nothing else.**  Sixteen bytes in a line and the rest in the last
one, for all lengths but the last fifteen an `int` can have, for which the padding overflows; and
two blocks whose dumps are the same have the same bytes. -/
theorem hexdump_shows_bytes (desc : Option (List UInt8)) {addr : List UInt8} {len : ℤ}
    (hpos : 0 < len) (hint : len < 2 ^ 31) (hlen : len ≤ addr.length) :
    ((hexdump desc addr len).isSome ↔ len ≤ 2 ^ 31 - 16) ∧
      (len ≤ 2 ^ 31 - 16 →
        hexdump desc addr len = some (heading desc ++ dumpOf (addr.take len.toNat))) ∧
      ∀ addr' : List UInt8, len ≤ addr'.length → len ≤ 2 ^ 31 - 16 →
        hexdump desc addr len = hexdump desc addr' len →
          addr.take len.toNat = addr'.take len.toNat := by
  obtain ⟨n, rfl⟩ := Int.eq_ofNat_of_zero_le hpos.le
  have hpos' : 0 < n := by omega
  have hlen' : n ≤ addr.length := by omega
  refine ⟨⟨?_, ?_⟩, ?_, ?_⟩
  · intro hsome
    by_contra hroom
    rw [hexdump_none desc hpos' hlen' (by omega) (by omega)] at hsome
    simp at hsome
  · intro hroom
    rw [hexdump_eq desc hpos' hlen' (by omega)]
    rfl
  · intro hroom
    rw [hexdump_eq desc hpos' hlen' (by omega), Int.toNat_natCast]
  · intro addr' haddr' hroom heq
    rw [hexdump_eq desc hpos' hlen' (by omega), hexdump_eq desc hpos' (by omega) (by omega)] at heq
    have hdump := List.append_cancel_left (Option.some.inj heq)
    rw [Int.toNat_natCast]
    refine dumpOf_inj ?_ hdump
    rw [List.length_take, List.length_take, Nat.min_eq_left hlen',
      Nat.min_eq_left (by omega)]

/-- `"A\0\xff"` and three bytes that are not shown. -/
theorem hexdump_shows_bytes_three :
    hexdump none [65, 0, 255, 1, 2, 3] 3 = some (dumpOf [65, 0, 255]) ∧
      dumpOf [65, 0, 255] = ascii
        ("  0000  41 00 ff                                         A..\n".toList) :=
  ⟨(hexdump_shows_bytes none (by decide) (by decide) (by decide)).2.1 (by decide),
    by decide +kernel⟩

end Hexdump

end Csnip
