/-
Numbers in memory, least significant byte first.

`leBytes w n` are the `w` bytes that hold the low `8 * w` bits of `n`, and `leNat` is
the number a row of bytes stands for; each undoes the other as far as the width allows.
A signed number is held as its residue, and `signed` takes a residue back to the range
around zero.
-/
import Mathlib.Tactic.NormNum
import Mathlib.Tactic.Ring

namespace LittleEndian

/-- The low `w` bytes of `n`. -/
def leBytes : ℕ → ℕ → List UInt8
  | 0, _ => []
  | w + 1, n => UInt8.ofNat n :: leBytes w (n / 256)

/-- The number held in a row of bytes. -/
def leNat : List UInt8 → ℕ
  | [] => 0
  | b :: bs => b.toNat + 256 * leNat bs

@[simp] theorem length_leBytes (w n : ℕ) : (leBytes w n).length = w := by
  induction w generalizing n with
  | zero => rfl
  | succ w ih => rw [leBytes, List.length_cons, ih]

theorem leNat_leBytes (w n : ℕ) : leNat (leBytes w n) = n % 256 ^ w := by
  induction w generalizing n with
  | zero => rw [leBytes, leNat, pow_zero, Nat.mod_one]
  | succ w ih =>
      have hbyte : (UInt8.ofNat n).toNat = n % 256 := UInt8.toNat_ofNat'
      rw [leBytes, leNat, ih, hbyte, pow_succ', Nat.mod_mul]

theorem leNat_lt (bs : List UInt8) : leNat bs < 256 ^ bs.length := by
  induction bs with
  | nil => decide
  | cons b bs ih =>
      have hb : b.toNat < 256 := b.toNat_lt
      rw [leNat, List.length_cons, pow_succ']
      omega

/-- The low bytes are the number's residue. -/
theorem leNat_take (w : ℕ) (bs : List UInt8) : leNat (bs.take w) = leNat bs % 256 ^ w := by
  induction w generalizing bs with
  | zero => rw [List.take_zero, leNat, pow_zero, Nat.mod_one]
  | succ w ih =>
      cases bs with
      | nil => rw [List.take_nil, leNat, Nat.zero_mod]
      | cons b bs =>
          have hb : b.toNat < 256 := b.toNat_lt
          have hlow : (b.toNat + 256 * leNat bs) % 256 = b.toNat := by omega
          have hhigh : (b.toNat + 256 * leNat bs) / 256 = leNat bs := by omega
          rw [List.take_succ_cons, leNat, leNat, ih, pow_succ', Nat.mod_mul, hlow, hhigh]

/-- A number of `w` bytes is held in those bytes. -/
theorem leBytes_leNat (bs : List UInt8) : leBytes bs.length (leNat bs) = bs := by
  induction bs with
  | nil => rfl
  | cons b bs ih =>
      have hb : b.toNat < 256 := b.toNat_lt
      have hlow : UInt8.ofNat (b.toNat + 256 * leNat bs) = b := by
        apply UInt8.toNat_inj.mp
        rw [UInt8.toNat_ofNat']
        omega
      have hhigh : (b.toNat + 256 * leNat bs) / 256 = leNat bs := by omega
      rw [List.length_cons, leNat, leBytes, hlow, hhigh, ih]

/-- Only the bits that fit are held. -/
theorem leBytes_mod (w n : ℕ) : leBytes w (n % 256 ^ w) = leBytes w n := by
  induction w generalizing n with
  | zero => rfl
  | succ w ih =>
      have hhead : UInt8.ofNat (n % 256 ^ (w + 1)) = UInt8.ofNat n := by
        apply UInt8.toNat_inj.mp
        rw [UInt8.toNat_ofNat', UInt8.toNat_ofNat']
        exact Nat.mod_mod_of_dvd n (dvd_pow_self 256 (Nat.succ_ne_zero w))
      have htail : n % 256 ^ (w + 1) / 256 = n / 256 % 256 ^ w := by
        rw [pow_succ', Nat.mod_mul_right_div_self]
      rw [leBytes, hhead, htail, ih, leBytes]

/-- One byte more is the next higher one. -/
theorem leBytes_succ_eq_append (w n : ℕ) :
    leBytes (w + 1) n = leBytes w n ++ [UInt8.ofNat (n / 256 ^ w)] := by
  induction w generalizing n with
  | zero => rw [leBytes, leBytes, leBytes, pow_zero, Nat.div_one, List.nil_append]
  | succ w ih =>
      rw [leBytes, ih, leBytes, pow_succ', Nat.div_div_eq_div_mul, List.cons_append]

/-- Numbers that fit are told apart by their bytes. -/
theorem leBytes_inj {w n k : ℕ} (hn : n < 256 ^ w) (hk : k < 256 ^ w)
    (h : leBytes w n = leBytes w k) : n = k := by
  have hval := congrArg leNat h
  rwa [leNat_leBytes, leNat_leBytes, Nat.mod_eq_of_lt hn, Nat.mod_eq_of_lt hk] at hval

/-! ### Signed numbers -/

/-- A signed number, as its residue. -/
def leInt (w : ℕ) (z : ℤ) : List UInt8 := leBytes w (z % 256 ^ w).toNat

/-- The number of `w` bytes in two's complement that has the residue `n`. -/
def signed (w : ℕ) (n : ℤ) : ℤ := n.bmod (256 ^ w)

@[simp] theorem length_leInt (w : ℕ) (z : ℤ) : (leInt w z).length = w := length_leBytes _ _

/-- A number in the range is its own residue. -/
theorem signed_of_range {w : ℕ} {z : ℤ} (h0 : -256 ^ w ≤ 2 * z) (h : 2 * z < 256 ^ w) :
    signed w z = z := by
  rw [signed]
  apply Int.bmod_eq_of_le <;> push_cast <;> omega

/-- Holding a number twice is holding it once. -/
theorem leInt_signed (w : ℕ) (z : ℤ) : leInt w (signed w z) = leInt w z := by
  have hpow : ((256 ^ w : ℕ) : ℤ) = 256 ^ w := by push_cast; rfl
  rw [leInt, leInt, signed, ← hpow, Int.bmod_emod]

theorem leInt_natCast (w n : ℕ) : leInt w n = leBytes w n := by
  have hpow : ((n : ℤ) % 256 ^ w).toNat = n % 256 ^ w := by
    rw [← Int.toNat_natCast (n % 256 ^ w)]
    push_cast
    rfl
  rw [leInt, hpow, leBytes_mod]

/-- A signed number is read back from the bytes that hold it. -/
theorem signed_leNat_leInt (w : ℕ) (z : ℤ) : signed w (leNat (leInt w z)) = signed w z := by
  have hpow : ((256 ^ w : ℕ) : ℤ) = 256 ^ w := by push_cast; rfl
  have hpos : (0 : ℤ) < 256 ^ w := pow_pos (by norm_num) w
  rw [leInt, leNat_leBytes, Int.natCast_mod, Int.toNat_of_nonneg (Int.emod_nonneg z hpos.ne'), hpow,
    Int.emod_emod, signed, signed, ← hpow, Int.emod_bmod]

theorem signed_leNat_leBytes (w n : ℕ) : signed w (leNat (leBytes w n)) = signed w n := by
  rw [← leInt_natCast, signed_leNat_leInt]

/-- A sum may be formed of the signed numbers and of the words alike. -/
theorem leInt_signed_add (w n k : ℕ) :
    leInt w (signed w (signed w n + k)) = leBytes w (n + k) := by
  have hsum : signed w (signed w n + k) = signed w ((n + k : ℕ) : ℤ) := by
    rw [signed, signed, signed, Int.bmod_add_bmod, Nat.cast_add]
  rw [hsum, leInt_signed, leInt_natCast]

end LittleEndian
