/-
The leading bits of real numbers.

Constants that nobody is to have chosen are often taken from the binary digits of some irrational
number: the roots of the first primes, say, or the sines of the first numbers.  Here are the words
of the first digits behind the point, and how a table of such words is checked by calculation.

For the root of a whole number two powers decide (`fractionBits_root`).  The sines of whole numbers
are the imaginary parts of the powers of `exp I`.  Twenty terms of its series give that number to
more than 58 bits (`norm_expI_sub_le`), powers of a number that is as close to it are not much
further away (`norm_pow_sub_le`), and powers of a pair of whole numbers are found by calculation
(`sineBits_eq`).
-/
import Mathlib

namespace LeadingBits

/-! ### Roots -/

/-- The first `w` bits behind the point. -/
noncomputable def fractionBits (w : ℕ) (x : ℝ) : BitVec w := BitVec.ofNat w ⌊Int.fract x * 2 ^ w⌋₊

/-- The `k`-th root. -/
noncomputable def root (k p : ℕ) : ℝ := (p : ℝ) ^ (k : ℝ)⁻¹

/-- `c` holds the first `w` bits of the fraction of the `k`-th root of `p`, whose whole part is
`m`. -/
def RootHolds (k w p m c : ℕ) : Prop :=
  c < 2 ^ w ∧ (m * 2 ^ w + c) ^ k ≤ p * 2 ^ (w * k) ∧ p * 2 ^ (w * k) < (m * 2 ^ w + c + 1) ^ k

instance (k w p m c : ℕ) : Decidable (RootHolds k w p m c) := inferInstanceAs (Decidable (_ ∧ _))

theorem fractionBits_eq {w m c : ℕ} {x : ℝ} (hc : c < 2 ^ w)
    (hle : ((m * 2 ^ w + c : ℕ) : ℝ) ≤ x * 2 ^ w)
    (hlt : x * 2 ^ w < ((m * 2 ^ w + c + 1 : ℕ) : ℝ)) :
    fractionBits w x = BitVec.ofNat w c := by
  have hpow : (0 : ℝ) < 2 ^ w := by positivity
  have hc' : (c : ℝ) + 1 ≤ 2 ^ w := by exact_mod_cast hc
  push_cast at hle hlt
  have hfloor : ⌊x⌋ = (m : ℤ) := by
    apply Int.floor_eq_iff.mpr
    constructor
    · apply le_of_mul_le_mul_right _ hpow
      have hnonneg : (0 : ℝ) ≤ c := Nat.cast_nonneg c
      push_cast
      linarith
    · apply lt_of_mul_lt_mul_right _ hpow.le
      push_cast
      linarith
  have hfract : Int.fract x * 2 ^ w = x * 2 ^ w - m * 2 ^ w := by
    rw [Int.fract, hfloor, Int.cast_natCast, sub_mul]
  have hbits : ⌊Int.fract x * 2 ^ w⌋₊ = c := by
    rw [hfract]
    apply (Nat.floor_eq_iff (by linarith [Nat.cast_nonneg (α := ℝ) c])).mpr
    constructor <;> linarith
  rw [fractionBits, hbits]

/-- **A table of roots is checked by taking powers.** -/
theorem fractionBits_root {k w p m c : ℕ} (hk : k ≠ 0) (h : RootHolds k w p m c) :
    fractionBits w (root k p) = BitVec.ofNat w c := by
  obtain ⟨hc, hle, hlt⟩ := h
  have hroot : 0 ≤ root k p := Real.rpow_nonneg (Nat.cast_nonneg p) _
  have hpow : (root k p * 2 ^ w) ^ k = ((p * 2 ^ (w * k) : ℕ) : ℝ) := by
    rw [mul_pow, root, Real.rpow_inv_natCast_pow (Nat.cast_nonneg p) hk, ← pow_mul]
    push_cast
    rfl
  have hscaled : 0 ≤ root k p * 2 ^ w := by positivity
  apply fractionBits_eq hc
  · apply le_of_pow_le_pow_left₀ hk hscaled
    rw [hpow]
    exact_mod_cast hle
  · apply lt_of_pow_lt_pow_left₀ k (Nat.cast_nonneg _)
    rw [hpow]
    exact_mod_cast hlt

/-! ### The first primes -/

/-- A filtered range lists what it keeps in order. -/
theorem nth_eq_getD_filter_range {P : ℕ → Prop} [DecidablePred P] (n t : ℕ)
    (h : t < ((List.range n).filter P).length) :
    Nat.nth P t = ((List.range n).filter P).getD t 0 := by
  induction n with
  | zero => cases h
  | succ n ih =>
      rw [List.range_succ, List.filter_append] at h ⊢
      by_cases hbefore : t < ((List.range n).filter P).length
      · rw [List.getD_append _ _ _ _ hbefore]
        exact ih hbefore
      · have hn : P n := by
          by_contra hn
          rw [List.filter_cons_of_neg (by simpa using hn), List.filter_nil, List.append_nil] at h
          exact hbefore h
        rw [List.filter_cons_of_pos (by simpa using hn), List.filter_nil] at h ⊢
        rw [List.length_append, List.length_singleton] at h
        have ht : t = ((List.range n).filter P).length := by omega
        have hcount : Nat.count P n = t := by
          rw [Nat.count_eq_card_filter_range, ht]
          rfl
        rw [List.getD_append_right _ _ _ _ ht.ge, ht, Nat.sub_self, ← ht, ← hcount,
          Nat.nth_count hn]
        rfl

/-- Below 441 a prime is told by the numbers up to 20. -/
theorem prime_iff {n : ℕ} (hn : n < 441) :
    n.Prime ↔ 2 ≤ n ∧ ∀ d ∈ List.range 21, 2 ≤ d → d < n → ¬ d ∣ n := by
  constructor
  · intro h
    refine ⟨h.two_le, fun d _ h2 hlt hdvd => ?_⟩
    rcases (Nat.dvd_prime h).mp hdvd with rfl | rfl
    · omega
    · omega
  · rintro ⟨h2, hno⟩
    by_contra hnot
    have hsq : n.minFac ^ 2 ≤ n := Nat.minFac_sq_le_self (by omega) hnot
    have hprime := Nat.minFac_prime (show n ≠ 1 by omega)
    have hsmall : n.minFac < 21 := by
      by_contra hbig
      have hmany : 21 ^ 2 ≤ n.minFac ^ 2 := Nat.pow_le_pow_left (Nat.not_lt.mp hbig) 2
      omega
    have hless : n.minFac < n := by
      have h2' := hprime.two_le
      nlinarith
    exact hno _ (List.mem_range.mpr hsmall) hprime.two_le hless (Nat.minFac_dvd n)

/-- The first eighty primes. -/
def primes : List ℕ :=
  (List.range 410).filter fun n => 2 ≤ n ∧ ∀ d ∈ List.range 21, 2 ≤ d → d < n → ¬ d ∣ n

theorem nth_prime {t : ℕ} (ht : t < 80) : Nat.nth Nat.Prime t = primes.getD t 0 := by
  have hsame : primes = (List.range 410).filter Nat.Prime := by
    apply List.filter_congr
    intro n hn
    exact decide_eq_decide.mpr
      (prime_iff (Nat.lt_trans (List.mem_range.mp hn) (by decide))).symm
  have hlen : primes.length = 80 := by decide +kernel
  rw [hsame] at hlen ⊢
  exact nth_eq_getD_filter_range 410 t (by omega)

/-! ### Sines -/

section Sines

open Complex

/-- The first `w` bits behind the point of the sine of `n`, whatever its sign. -/
noncomputable def sineBits (w n : ℕ) : BitVec w := BitVec.ofNat w ⌊|Real.sin n| * 2 ^ w⌋₊

/-! ### Near `exp I` -/

/-- The cosine of 1 in 60 bits. -/
def cosOne : ℤ := 622926147424044489

/-- The sine of 1 in 60 bits. -/
def sinOne : ℤ := 970149993887725314

/-- The number they make up. -/
noncomputable def near : ℂ := ⟨cosOne / 2 ^ 60, sinOne / 2 ^ 60⟩

theorem norm_near_le : ‖near‖ ≤ 1 := by
  rw [← sq_le_one_iff₀ (norm_nonneg _), Complex.sq_norm, near, Complex.normSq_mk]
  norm_num [cosOne, sinOne]

/-- What is left out behind twenty terms. -/
theorem norm_expI_sub_series_le :
    ‖exp I - ∑ m ∈ Finset.range 20, I ^ m / m.factorial‖ ≤ 1 / 2 ^ 60 := by
  have hbound := exp_bound (x := I) (by rw [norm_I]) (n := 20) (by decide)
  refine hbound.trans ?_
  rw [norm_I]
  norm_num [Nat.factorial]

/-- The powers of `I` go round. -/
theorem I_pow_four_mul (n : ℕ) : I ^ (4 * n) = 1 ∧ I ^ (4 * n + 1) = I ∧ I ^ (4 * n + 2) = -1 ∧
    I ^ (4 * n + 3) = -I := by
  have hfour : I ^ (4 * n) = 1 := by rw [pow_mul, I_pow_four, one_pow]
  refine ⟨hfour, ?_, ?_, ?_⟩
  · rw [pow_succ, hfour, one_mul]
  · rw [pow_add, hfour, one_mul, I_sq]
  · rw [pow_add, hfour, one_mul, I_pow_three]

theorem series_eq : ∑ m ∈ Finset.range 20, I ^ m / (m.factorial : ℂ)
    = ⟨691843455246877 / 1280474741145600, 102360822438075317 / 121645100408832000⟩ := by
  have h0 := I_pow_four_mul 0
  have h1 := I_pow_four_mul 1
  have h2 := I_pow_four_mul 2
  have h3 := I_pow_four_mul 3
  have h4 := I_pow_four_mul 4
  norm_num at h0 h1 h2 h3 h4
  apply Complex.ext
  · norm_num [Finset.sum_range_succ, Nat.factorial, h0, h1, h2, h3, h4]
  · norm_num [Finset.sum_range_succ, Nat.factorial, h0, h1, h2, h3, h4]

theorem norm_expI_sub_le : ‖exp I - near‖ ≤ 1 / 2 ^ 58 := by
  have hseries := norm_expI_sub_series_le
  have hre : |((691843455246877 / 1280474741145600 : ℝ) - cosOne / 2 ^ 60)| ≤ 1 / 2 ^ 60 := by
    rw [abs_le]
    norm_num [cosOne]
  have him : |((102360822438075317 / 121645100408832000 : ℝ) - sinOne / 2 ^ 60)| ≤ 1 / 2 ^ 60 := by
    rw [abs_le]
    norm_num [sinOne]
  have hnear : ‖∑ m ∈ Finset.range 20, I ^ m / (m.factorial : ℂ) - near‖
      ≤ 1 / 2 ^ 60 + 1 / 2 ^ 60 := by
    rw [series_eq]
    exact (norm_le_abs_re_add_abs_im _).trans (add_le_add hre him)
  calc ‖exp I - near‖
      = ‖(exp I - ∑ m ∈ Finset.range 20, I ^ m / (m.factorial : ℂ))
          + (∑ m ∈ Finset.range 20, I ^ m / (m.factorial : ℂ) - near)‖ := by
        rw [sub_add_sub_cancel]
    _ ≤ 1 / 2 ^ 60 + (1 / 2 ^ 60 + 1 / 2 ^ 60) := norm_add_le_of_le hseries hnear
    _ ≤ 1 / 2 ^ 58 := by norm_num

/-! ### Powers -/

/-- Powers of numbers in the unit disc are not further apart than so often the numbers. -/
theorem norm_pow_sub_le {a b : ℂ} (ha : ‖a‖ ≤ 1) (hb : ‖b‖ ≤ 1) (n : ℕ) :
    ‖a ^ n - b ^ n‖ ≤ n * ‖a - b‖ := by
  induction n with
  | zero => simp
  | succ n ih =>
      have hsplit : a ^ (n + 1) - b ^ (n + 1) = a ^ n * (a - b) + (a ^ n - b ^ n) * b := by ring
      have hfirst : ‖a ^ n * (a - b)‖ ≤ ‖a - b‖ := by
        rw [norm_mul, norm_pow]
        exact mul_le_of_le_one_left (norm_nonneg _) (pow_le_one₀ (norm_nonneg _) ha)
      have hsecond : ‖(a ^ n - b ^ n) * b‖ ≤ n * ‖a - b‖ := by
        rw [norm_mul]
        exact (mul_le_of_le_one_right (norm_nonneg _) hb).trans ih
      rw [hsplit]
      refine (norm_add_le_of_le hfirst hsecond).trans_eq ?_
      push_cast
      ring

/-- The powers of a pair of whole numbers, taken for a complex one. -/
def power (c s : ℤ) : ℕ → ℤ × ℤ
  | 0 => (1, 0)
  | n + 1 =>
      let (x, y) := power c s n
      (x * c - y * s, x * s + y * c)

theorem near_pow (n : ℕ) : near ^ n = ⟨(power cosOne sinOne n).1 / 2 ^ (60 * n),
    (power cosOne sinOne n).2 / 2 ^ (60 * n)⟩ := by
  induction n with
  | zero => apply Complex.ext <;> simp [power]
  | succ n ih =>
      rw [pow_succ, ih, near, Nat.mul_succ, pow_add]
      apply Complex.ext
      · simp only [Complex.mul_re, power]
        push_cast
        ring
      · simp only [Complex.mul_im, power]
        push_cast
        ring

/-- The imaginary part of the power is as close to the sine. -/
theorem abs_sin_sub_le (n : ℕ) :
    |Real.sin n - (power cosOne sinOne n).2 / 2 ^ (60 * n)| ≤ n / 2 ^ 58 := by
  have hexp : exp I ^ n = exp (n * I) := (exp_nat_mul I n).symm
  have hsin : (exp (n * I)).im = Real.sin n := by
    have him := exp_ofReal_mul_I_im (n : ℝ)
    push_cast at him
    exact him
  have hone : ‖exp I‖ ≤ 1 := by
    have hnorm := norm_exp_ofReal_mul_I 1
    rw [ofReal_one, one_mul] at hnorm
    exact hnorm.le
  have hpow := norm_pow_sub_le hone norm_near_le n
  have him := (abs_im_le_norm (exp I ^ n - near ^ n)).trans hpow
  rw [sub_im, hexp, hsin, near_pow] at him
  refine him.trans ?_
  have hscaled := mul_le_mul_of_nonneg_left norm_expI_sub_le (Nat.cast_nonneg (α := ℝ) n)
  rwa [mul_one_div] at hscaled

/-- `t` holds the bits, as far as the power can tell. -/
def SineHolds (w n t : ℕ) : Prop :=
  t * 2 ^ (60 * n + 58) + n * 2 ^ (60 * n + w) ≤ (power cosOne sinOne n).2.natAbs * 2 ^ (58 + w) ∧
    (power cosOne sinOne n).2.natAbs * 2 ^ (58 + w) + n * 2 ^ (60 * n + w)
      < (t + 1) * 2 ^ (60 * n + 58)

instance (w n t : ℕ) : Decidable (SineHolds w n t) := inferInstanceAs (Decidable (_ ∧ _))

/-- **A table of sines is checked by taking powers.** -/
theorem sineBits_eq {w n t : ℕ} (h : SineHolds w n t) : sineBits w n = BitVec.ofNat w t := by
  obtain ⟨hlow, hhigh⟩ := h
  set y := (power cosOne sinOne n).2 with hy
  have hclose := abs_sin_sub_le n
  rw [← hy] at hclose
  have habs : |(|Real.sin n| - |(y : ℝ) / 2 ^ (60 * n)|)| ≤ n / 2 ^ 58 :=
    (abs_abs_sub_abs_le _ _).trans hclose
  rw [abs_div, abs_of_pos (by positivity : (0 : ℝ) < 2 ^ (60 * n))] at habs
  obtain ⟨hbelow, habove⟩ := abs_le.mp habs
  have hnat : (y.natAbs : ℝ) = |(y : ℝ)| := by rw [Nat.cast_natAbs, Int.cast_abs]
  have hlow' : (t : ℝ) * 2 ^ (60 * n + 58) + n * 2 ^ (60 * n + w) ≤ |(y : ℝ)| * 2 ^ (58 + w) := by
    rw [← hnat]
    exact_mod_cast hlow
  have hhigh' : |(y : ℝ)| * 2 ^ (58 + w) + n * 2 ^ (60 * n + w)
      < ((t : ℝ) + 1) * 2 ^ (60 * n + 58) := by
    rw [← hnat]
    exact_mod_cast hhigh
  -- everything in units of the last bit
  have hscale : (0 : ℝ) < 2 ^ (60 * n) * 2 ^ 58 := by positivity
  have hw : (0 : ℝ) ≤ 2 ^ w := by positivity
  have hpower : |(y : ℝ)| / 2 ^ (60 * n) * 2 ^ w * (2 ^ (60 * n) * 2 ^ 58)
      = |(y : ℝ)| * 2 ^ (58 + w) := by
    rw [pow_add]
    field_simp
  have herror : (n : ℝ) / 2 ^ 58 * 2 ^ w * (2 ^ (60 * n) * 2 ^ 58) = n * 2 ^ (60 * n + w) := by
    rw [pow_add]
    field_simp
  have hlower : (t : ℝ) + n / 2 ^ 58 * 2 ^ w ≤ |(y : ℝ)| / 2 ^ (60 * n) * 2 ^ w := by
    apply le_of_mul_le_mul_right _ hscale
    rw [add_mul, herror, hpower, ← pow_add]
    exact hlow'
  have hupper : |(y : ℝ)| / 2 ^ (60 * n) * 2 ^ w + n / 2 ^ 58 * 2 ^ w < (t : ℝ) + 1 := by
    apply lt_of_mul_lt_mul_right _ hscale.le
    rw [add_mul, herror, hpower, ← pow_add]
    exact hhigh'
  have hfloor : ⌊|Real.sin n| * 2 ^ w⌋₊ = t := by
    have hbelow' := mul_le_mul_of_nonneg_right hbelow hw
    have habove' := mul_le_mul_of_nonneg_right habove hw
    rw [sub_mul] at hbelow' habove'
    apply (Nat.floor_eq_iff (mul_nonneg (abs_nonneg _) hw)).mpr
    constructor <;> linarith
  rw [sineBits, hfloor]

end Sines

end LeadingBits
