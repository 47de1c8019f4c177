/-
Lists read and written going round.

A cyclic buffer is a list whose end joins its beginning.  Two operations describe
everything such a buffer is used for: `window l s n`, the `n` elements met going
round `l` from position `s`, and `write l s bs`, which stores `bs` going round from
`s`.  A program performs neither in one go: it splits the run at the physical end
and moves two straight pieces, each a `Memory.load` or a `Memory.store`.  The split
lemmas say that the pieces make up the whole, and `window_write` is the one fact a
queue over a cyclic buffer needs: storing right behind a window extends it by what
was stored.
-/
import Csnip.Lib.Memory
import Mathlib.Data.List.Rotate
import Mathlib.Data.Nat.ModEq

namespace Cyclic

open Memory

variable {α : Type*}

/-! ### Positions -/

/-- A position less than two rounds out wraps by at most one subtraction. -/
theorem add_mod_of_lt {n s i : ℕ} (hs : s < n) (hi : i ≤ n) :
    (s + i) % n = if s + i < n then s + i else s + i - n := by
  split
  · next h => exact Nat.mod_eq_of_lt h
  · next h =>
      rw [Nat.mod_eq_sub_mod (Nat.le_of_not_lt h)]
      exact Nat.mod_eq_of_lt (by omega)

/-- Going round `m` places and then `k` more is going round `m + k` places. -/
theorem mod_add_assoc (n s m k : ℕ) : ((s + m) % n + k) % n = (s + (m + k)) % n := by
  rw [Nat.mod_add_mod, Nat.add_assoc]

/-! ### Windows -/

/-- The `n` elements met going round `l` from position `s`. -/
def window (l : List α) (s n : ℕ) : List α := (l.rotate s).take n

@[simp] theorem window_zero (l : List α) (s : ℕ) : window l s 0 = [] := by
  simp [window]

@[simp] theorem length_window {l : List α} {s n : ℕ} (hn : n ≤ l.length) :
    (window l s n).length = n := by
  simp [window, hn]

@[simp] theorem window_mod (l : List α) (s n : ℕ) :
    window l (s % l.length) n = window l s n := by
  rw [window, window, List.rotate_mod]

theorem getElem?_window {l : List α} {s n i : ℕ} (hn : n ≤ l.length) (hi : i < n) :
    (window l s n)[i]? = l[(s + i) % l.length]? := by
  rw [window, List.getElem?_take_of_lt hi, List.getElem?_rotate (by omega), Nat.add_comm]

/-- Two windows of the same length are equal when they agree offset by offset. -/
theorem window_ext {l l' : List α} {s s' n : ℕ} (hn : n ≤ l.length) (hn' : n ≤ l'.length)
    (h : ∀ i < n, l[(s + i) % l.length]? = l'[(s' + i) % l'.length]?) :
    window l s n = window l' s' n := by
  apply List.ext_getElem?
  intro i
  by_cases hi : i < n
  · rw [getElem?_window hn hi, getElem?_window hn' hi]
    exact h i hi
  · rw [List.getElem?_eq_none (by simp [hn]; omega),
      List.getElem?_eq_none (by simp [hn']; omega)]

/-- Going round `m` places and then `n` more is going round `m + n` places. -/
theorem window_add {l : List α} {s m n : ℕ} (h : m + n ≤ l.length) :
    window l s (m + n) = window l s m ++ window l (s + m) n := by
  apply List.ext_getElem?
  intro i
  have hm : (window l s m).length = m := length_window (by omega)
  by_cases him : i < m
  · rw [List.getElem?_append_left (by omega), getElem?_window h (by omega),
      getElem?_window (by omega) him]
  · rw [List.getElem?_append_right (by omega), hm]
    by_cases hi : i < m + n
    · rw [getElem?_window h hi, getElem?_window (by omega) (by omega),
        show s + m + (i - m) = s + i by omega]
    · rw [List.getElem?_eq_none (by rw [length_window h]; omega),
        List.getElem?_eq_none (by rw [length_window (by omega)]; omega)]

theorem take_window {l : List α} {s n k : ℕ} (hk : k ≤ n) :
    (window l s n).take k = window l s k := by
  rw [window, List.take_take, Nat.min_eq_left hk, window]

theorem drop_window {l : List α} {s n k : ℕ} (hk : k ≤ n) (hn : n ≤ l.length) :
    (window l s n).drop k = window l (s + k) (n - k) := by
  have hsplit : window l s n = window l s k ++ window l (s + k) (n - k) := by
    rw [← window_add (by omega), show k + (n - k) = n by omega]
  rw [hsplit]
  exact List.drop_left' (length_window (by omega))

/-- A window that does not reach the physical end is one straight piece. -/
theorem window_straight {l : List α} {s n : ℕ} (h : s + n ≤ l.length) :
    window l s n = (l.drop s).take n := by
  rw [window, List.rotate_eq_drop_append_take (by omega),
    List.take_append_of_le_length (by simp; omega)]

@[simp] theorem window_whole (l : List α) : window l 0 l.length = l := by
  simp [window]

/-- A window that runs over the physical end is the end of the list and then its beginning. -/
theorem window_split {l : List α} {s n : ℕ} (hs : s ≤ l.length) (h : l.length ≤ s + n)
    (hn : n ≤ l.length) :
    window l s n = l.drop s ++ l.take (s + n - l.length) := by
  rw [window, List.rotate_eq_drop_append_take hs, List.take_append, List.length_drop,
    List.take_of_length_le (by simp; omega), List.take_take,
    show min (n - (l.length - s)) s = s + n - l.length by omega]

/-! ### Writing going round -/

/-- `l` with `bs` stored going round from position `s`, in one piece or in two. -/
def write (l : List α) (s : ℕ) (bs : List α) : List α :=
  if s + bs.length ≤ l.length then overwrite l s bs
  else overwrite (overwrite l s (bs.take (l.length - s))) 0 (bs.drop (l.length - s))

@[simp] theorem length_write {l bs : List α} {s : ℕ} (hs : s ≤ l.length)
    (hb : bs.length ≤ l.length) : (write l s bs).length = l.length := by
  unfold write
  split
  · next h => exact length_overwrite h
  · next h =>
      have hin : (overwrite l s (bs.take (l.length - s))).length = l.length :=
        length_overwrite (by simp; omega)
      rw [length_overwrite (by rw [hin]; simp; omega), hin]

/-- What a position holds after a write: the `j`-th stored element when it is `j`
places round from the start, and what it held before otherwise. -/
theorem getElem?_write {l bs : List α} {s j : ℕ} (hs : s < l.length)
    (hb : bs.length ≤ l.length) (hj : j < l.length) :
    (write l s bs)[(s + j) % l.length]? =
      if j < bs.length then bs[j]? else l[(s + j) % l.length]? := by
  have hmod := add_mod_of_lt hs hj.le
  unfold write
  split
  · next h =>
      rw [getElem?_overwrite h, hmod]
      by_cases hjb : j < bs.length
      · rw [if_pos hjb, if_pos (show s + j < l.length by omega), if_pos (by omega)]
        congr 1
        omega
      · rw [if_neg hjb]
        split
        · rw [if_neg (by omega)]
        · rw [if_neg (by omega)]
  · next h =>
      -- `hin` bounds the second piece: it starts at 0 and fits in front of `s`
      have hin : (overwrite l s (bs.take (l.length - s))).length = l.length :=
        length_overwrite (by simp; omega)
      have htake : (bs.take (l.length - s)).length = l.length - s := by simp; omega
      have hdrop : (bs.drop (l.length - s)).length = bs.length - (l.length - s) := by simp
      rw [getElem?_overwrite (by rw [hin, hdrop]; omega),
        getElem?_overwrite (by rw [htake]; omega), hmod, htake, hdrop]
      by_cases hwrap : s + j < l.length
      · rw [if_pos hwrap, if_neg (by omega), if_pos (by omega), if_pos (by omega),
          List.getElem?_take_of_lt (by omega)]
        congr 1
        omega
      · rw [if_neg hwrap]
        by_cases hjb : j < bs.length
        · rw [if_pos (by omega), if_pos hjb, List.getElem?_drop]
          congr 1
          omega
        · rw [if_neg (by omega), if_neg (by omega), if_neg hjb]

/-- Reading back what was just written. -/
theorem window_write_self {l bs : List α} {s : ℕ} (hs : s < l.length)
    (hb : bs.length ≤ l.length) : window (write l s bs) s bs.length = bs := by
  have hlen : (write l s bs).length = l.length := length_write hs.le hb
  apply List.ext_getElem?
  intro i
  by_cases hi : i < bs.length
  · rw [getElem?_window (by omega) hi, hlen, getElem?_write hs hb (by omega), if_pos hi]
  · rw [List.getElem?_eq_none (by rw [length_window (by omega)]; omega),
      List.getElem?_eq_none (by omega)]

/-- A window that ends where the write begins is not touched by it. -/
theorem window_write_behind {l bs : List α} {s n : ℕ} (hs : s < l.length)
    (h : n + bs.length ≤ l.length) :
    window (write l ((s + n) % l.length) bs) s n = window l s n := by
  have hpos : 0 < l.length := by omega
  have hlt : (s + n) % l.length < l.length := Nat.mod_lt _ hpos
  have hlen : (write l ((s + n) % l.length) bs).length = l.length :=
    length_write hlt.le (by omega)
  refine window_ext (by omega) (by omega) fun i hi => ?_
  -- offset `i` of the window is `l.length - n + i` places round from the write
  have hpos' : (s + i) % l.length
      = ((s + n) % l.length + (l.length - n + i)) % l.length := by
    rw [mod_add_assoc, show s + (n + (l.length - n + i)) = s + i + l.length by omega,
      Nat.add_mod_right]
  rw [hlen, hpos', getElem?_write hlt (by omega) (by omega), if_neg (by omega)]

/-- Nor is one that begins where the write ends. -/
theorem window_write_ahead {l bs : List α} {s n : ℕ} (hs : s < l.length)
    (h : bs.length + n ≤ l.length) :
    window (write l s bs) (s + bs.length) n = window l (s + bs.length) n := by
  have hlen : (write l s bs).length = l.length := length_write hs.le (by omega)
  refine window_ext (by omega) (by omega) fun i hi => ?_
  rw [hlen, Nat.add_assoc, getElem?_write hs (by omega) (by omega), if_neg (by omega)]

/-- **Storing right behind a window extends it by what was stored.** -/
theorem window_write {l bs : List α} {s n : ℕ} (hs : s < l.length)
    (h : n + bs.length ≤ l.length) :
    window (write l ((s + n) % l.length) bs) s (n + bs.length) = window l s n ++ bs := by
  have hlt : (s + n) % l.length < l.length := Nat.mod_lt _ (by omega)
  have hlen : (write l ((s + n) % l.length) bs).length = l.length :=
    length_write hlt.le (by omega)
  rw [window_add (by omega), window_write_behind hs h]
  congr 1
  rw [← window_mod, hlen]
  exact window_write_self hlt (by omega)

end Cyclic
