/-
Shared memory objects, and the mappings of a process.

A name stands for an object, a row of bytes that lives on in its mappings when the name is
removed.  A process maps the first bytes of an object at an address of its own, and may give
back any number of bytes from the address on.

Memory comes in pages.  What is read behind the end of an object, but in its last page, is
zero, and what is stored there is not kept; behind that page there is nothing to access.
-/
import Csnip.Lib.LittleEndian
import Csnip.Lib.Memory
import Mathlib.Algebra.BigOperators.Group.List.Basic

namespace Shm

open LittleEndian

/-! ### Bytes of an object -/

/-- The `n` bytes from the place `p` on, zeros behind the end. -/
def readAt (image : List UInt8) (p n : ℕ) : List UInt8 :=
  (image.drop p).take n ++ List.replicate (n - (image.length - p)) 0

/-- `bs` stored from the place `p` on, as far as the object goes. -/
def writeAt (image : List UInt8) (p : ℕ) (bs : List UInt8) : List UInt8 :=
  image.take p ++ bs.take (image.length - p) ++ image.drop (p + bs.length)

theorem leNat_append_zeros (bs : List UInt8) (n : ℕ) :
    leNat (bs ++ List.replicate n 0) = leNat bs := by
  induction bs with
  | nil =>
      induction n with
      | zero => rfl
      | succ n ih =>
          have hcons : leNat (0 :: List.replicate n 0) = 0 + 256 * leNat (List.replicate n 0) := rfl
          rw [List.nil_append] at ih
          rw [List.nil_append, List.replicate_succ, hcons, ih]
          rfl
  | cons b bs ih => rw [List.cons_append, leNat, ih, leNat]

/-- A number is not changed by the zeros behind the end. -/
theorem leNat_readAt (image : List UInt8) (p n : ℕ) :
    leNat (readAt image p n) = leNat ((image.drop p).take n) := leNat_append_zeros _ _

theorem readAt_of_le {image : List UInt8} {p n : ℕ} (h : p + n ≤ image.length) :
    readAt image p n = (image.drop p).take n := by
  have hnone : n - (image.length - p) = 0 := by omega
  rw [readAt, hnone, List.replicate_zero, List.append_nil]

/-- What is stored inside the object is there as it would be in any block. -/
theorem writeAt_of_le {image bs : List UInt8} {p : ℕ} (h : p + bs.length ≤ image.length) :
    writeAt image p bs = Memory.overwrite image p bs := by
  have hall : bs.take (image.length - p) = bs := List.take_of_length_le (by omega)
  rw [writeAt, hall, Memory.overwrite]

/-- Zeros are read back where zeros were stored. -/
theorem leNat_readAt_zeros (image : List UInt8) (p n : ℕ) :
    leNat (readAt (writeAt image p (List.replicate n 0)) p n) = 0 := by
  have hzeros : ∀ k, leNat (List.replicate k 0) = 0 := fun k => leNat_append_zeros [] k
  rw [leNat_readAt]
  by_cases hp : p ≤ image.length
  · have htake : (image.take p).length = p := by rw [List.length_take]; omega
    rw [writeAt, List.append_assoc, List.drop_left' htake, List.take_replicate,
      List.length_replicate]
    by_cases hn : p + n ≤ image.length
    · have hall : min (image.length - p) n = n := by omega
      rw [hall, List.take_left' (List.length_replicate ..)]
      exact hzeros n
    · have hnone : image.drop (p + n) = [] := List.drop_eq_nil_of_le (by omega)
      rw [hnone, List.append_nil, List.take_replicate]
      exact hzeros _
  · have hkept : writeAt image p (List.replicate n 0) = image := by
      have hroom : image.length - p = 0 := by omega
      have hnone : image.drop (p + (List.replicate n (0 : UInt8)).length) = [] :=
        List.drop_eq_nil_of_le (by omega)
      rw [writeAt, hroom, hnone, List.take_zero, List.take_of_length_le (by omega),
        List.append_nil, List.append_nil]
    have hnone : image.drop p = [] := List.drop_eq_nil_of_le (by omega)
    rw [hkept, hnone, List.take_nil]
    rfl

/-! ### Objects and mappings -/

/-- The bytes of an object from `first` up to `last`, of those that were mapped from the first
one on. -/
structure Mapping where
  object : ℕ
  first : ℕ
  last : ℕ
deriving Repr, DecidableEq

/-- The objects, and what a process has mapped of them; an address is a number of the list. -/
structure World (Name : Type*) where
  names : Name → Option ℕ
  objects : ℕ → List UInt8
  /-- the number of the next object -/
  fresh : ℕ
  mappings : List Mapping

/-- The bytes of the pages that `n` bytes take. -/
def roundUp (n : ℕ) : ℕ := (n + 4095) / 4096 * 4096

theorem le_roundUp (n : ℕ) : n ≤ roundUp n := by
  unfold roundUp
  omega

theorem page_le_roundUp {n : ℕ} (h : 0 < n) : 4096 ≤ roundUp n := by
  unfold roundUp
  omega

namespace World

variable {Name : Type*}

/-- What the name stands for. -/
def image (w : World Name) (name : Name) : Option (List UInt8) := (w.names name).map w.objects

/-- The bytes that are mapped. -/
def mapped (w : World Name) : ℕ := (w.mappings.map fun m => m.last - m.first).sum

/-- The first `n` bytes of an object are mapped, at the next address. -/
def extend (w : World Name) (object n : ℕ) : World Name :=
  { w with mappings := w.mappings ++ [⟨object, 0, n⟩] }

/-- Map the first `n` bytes of an object: at least one. -/
def mmap (w : World Name) (object n : ℕ) : Option (ℕ × World Name) :=
  if n = 0 then none else some (w.mappings.length, w.extend object n)

/-- Give back the `n` bytes from the address `a` on. -/
def munmap (w : World Name) (a n : ℕ) : World Name :=
  { w with mappings := w.mappings.modify a fun m => { m with first := min (max m.first n) m.last } }

/-- The mapping that the `n` bytes at the place `p` behind the address `a` are in. -/
def block (w : World Name) (a p n : ℕ) : Option Mapping :=
  w.mappings[a]?.filter fun m =>
    m.first ≤ p ∧ p + n ≤ roundUp (min m.last (w.objects m.object).length)

/-- Read memory. -/
def load (w : World Name) (a p n : ℕ) : Option (List UInt8) :=
  (w.block a p n).map fun m => readAt (w.objects m.object) p n

/-- Store to memory. -/
def store (w : World Name) (a p : ℕ) (bs : List UInt8) : Option (World Name) :=
  (w.block a p bs.length).map fun m =>
    { w with objects := Function.update w.objects m.object (writeAt (w.objects m.object) p bs) }

theorem image_of_some {w : World Name} {name : Name} {object : ℕ}
    (h : w.names name = some object) : w.image name = some (w.objects object) := by
  rw [image, h, Option.map_some]

theorem image_of_none {w : World Name} {name : Name} (h : w.names name = none) :
    w.image name = none := by
  rw [image, h, Option.map_none]

section Names

variable [DecidableEq Name]

/-- The object the name stands for, and a new one without bytes if there is none. -/
def create (w : World Name) (name : Name) : ℕ × World Name :=
  match w.names name with
  | some object => (object, w)
  | none =>
      (w.fresh, { w with
        names := Function.update w.names name (some w.fresh)
        objects := Function.update w.objects w.fresh []
        fresh := w.fresh + 1 })

/-- Give an object another length, with zeros behind what it had. -/
def ftruncate (w : World Name) (object n : ℕ) : World Name :=
  { w with objects := Function.update w.objects object (readAt (w.objects object) 0 n) }

/-- Remove a name. -/
def unlink (w : World Name) (name : Name) : World Name :=
  { w with names := Function.update w.names name none }

/-- Removing a name that stands for something is seen. -/
theorem image_unlink_eq_iff {w : World Name} {name : Name} :
    (w.unlink name).image = w.image ↔ w.names name = none := by
  constructor
  · intro h
    have hname := congrFun h name
    have hgone : (w.unlink name).names name = none := by
      rw [unlink]
      exact Function.update_self ..
    rw [image, image, hgone, Option.map_none] at hname
    exact Option.map_eq_none_iff.mp hname.symm
  · intro h
    have hsame : Function.update w.names name none = w.names := by
      rw [← h]
      exact Function.update_eq_self name w.names
    rw [unlink, hsame]

end Names

section Mapped

variable {w w' : World Name} {m : Mapping}

/-- What a store does: the mappings stay what they are. -/
theorem store_eq_some {a p : ℕ} {bs : List UInt8} (h : w.store a p bs = some w') :
    ∃ m, w.mappings[a]? = some m ∧ w' = { w with
      objects := Function.update w.objects m.object (writeAt (w.objects m.object) p bs) } := by
  obtain ⟨m, hblock, hw'⟩ := Option.map_eq_some_iff.mp h
  exact ⟨m, (Option.filter_eq_some_iff.mp hblock).1, hw'.symm⟩

/-- Zeros that were stored are read back. -/
theorem leNat_load_zeros {a p n : ℕ} {bs : List UInt8}
    (hstore : w.store a p (List.replicate n 0) = some w') (hload : w'.load a p n = some bs) :
    leNat bs = 0 := by
  obtain ⟨m, hm, rfl⟩ := store_eq_some hstore
  obtain ⟨m', hblock, hbs⟩ := Option.map_eq_some_iff.mp hload
  have hm' := (Option.filter_eq_some_iff.mp hblock).1
  dsimp only at hm'
  rw [hm] at hm'
  cases hm'
  rw [← hbs]
  dsimp only
  rw [Function.update_self]
  exact leNat_readAt_zeros _ p n

theorem mapped_extend (w : World Name) (object n : ℕ) :
    (w.extend object n).mapped = w.mapped + n := by
  simp [mapped, extend]

theorem mapping_extend (w : World Name) (object n : ℕ) :
    (w.extend object n).mappings[w.mappings.length]? = some ⟨object, 0, n⟩ := by
  rw [extend]
  exact List.getElem?_concat_length

/-- Earlier mappings are still there. -/
theorem mapping_extend_of_lt {object n a : ℕ} (h : a < w.mappings.length) :
    (w.extend object n).mappings[a]? = w.mappings[a]? := by
  rw [extend]
  exact List.getElem?_append_left h

@[simp] theorem length_extend (w : World Name) (object n : ℕ) :
    (w.extend object n).mappings.length = w.mappings.length + 1 := by
  rw [extend]
  exact List.length_append

/-- Bytes that are mapped, from the first one of their object on. -/
theorem block_of_le {object a p k n : ℕ} (h : w.mappings[a]? = some ⟨object, 0, n⟩)
    (hle : p + k ≤ min n (w.objects object).length) : w.block a p k = some ⟨object, 0, n⟩ := by
  have hround := le_roundUp (min n (w.objects object).length)
  rw [block, h]
  refine Option.filter_eq_some_iff.mpr ⟨rfl, ?_⟩
  rw [decide_eq_true_eq]
  exact ⟨Nat.zero_le _, Nat.le_trans hle hround⟩

theorem load_of_le {object a p k n : ℕ} (h : w.mappings[a]? = some ⟨object, 0, n⟩)
    (hle : p + k ≤ min n (w.objects object).length) :
    w.load a p k = some (((w.objects object).drop p).take k) := by
  have hin : p + k ≤ (w.objects object).length := by omega
  rw [load, block_of_le h hle, Option.map_some]
  dsimp only
  rw [readAt_of_le hin]

theorem store_of_le {object a p n : ℕ} {bs : List UInt8}
    (h : w.mappings[a]? = some ⟨object, 0, n⟩)
    (hle : p + bs.length ≤ min n (w.objects object).length) :
    w.store a p bs = some { w with
      objects := Function.update w.objects object
        (Memory.overwrite (w.objects object) p bs) } := by
  have hin : p + bs.length ≤ (w.objects object).length := by omega
  rw [store, block_of_le h hle, Option.map_some]
  dsimp only
  rw [writeAt_of_le hin]

/-- The first page of a new mapping can be read, if the object has a byte. -/
theorem load_extend {object n p k : ℕ} (hn : n ≠ 0) (hsome : w.objects object ≠ [])
    (hpage : p + k ≤ 4096) :
    (w.extend object n).load w.mappings.length p k = some (readAt (w.objects object) p k) := by
  have hpos : 0 < (w.objects object).length := List.length_pos_iff.mpr hsome
  have hround := page_le_roundUp (show 0 < min n (w.objects object).length by omega)
  have hblock : (w.extend object n).block w.mappings.length p k = some ⟨object, 0, n⟩ := by
    rw [block, mapping_extend]
    refine Option.filter_eq_some_iff.mpr ⟨rfl, ?_⟩
    rw [decide_eq_true_eq]
    exact ⟨Nat.zero_le _, Nat.le_trans hpage hround⟩
  rw [load, hblock]
  rfl

/-- Of an object without bytes nothing can be read. -/
theorem load_extend_nil {object n p k : ℕ} (hnone : w.objects object = []) (hk : 0 < k) :
    (w.extend object n).load w.mappings.length p k = none := by
  have hblock : (w.extend object n).block w.mappings.length p k = none := by
    rw [block, mapping_extend]
    refine Option.filter_eq_none_iff.mpr fun m hm => ?_
    cases hm
    have hempty : (w.extend object n).objects object = [] := hnone
    rw [decide_eq_true_eq, hempty, List.length_nil, Nat.min_zero]
    unfold roundUp
    omega
  rw [load, hblock]
  rfl

theorem sum_modify {l : List Mapping} {f : Mapping → Mapping} :
    ∀ {a : ℕ}, l[a]? = some m →
      ((l.modify a f).map fun m => m.last - m.first).sum + (m.last - m.first)
        = (l.map fun m => m.last - m.first).sum + ((f m).last - (f m).first) := by
  induction l with
  | nil => intro a h; cases h
  | cons m' l ih =>
      intro a h
      cases a with
      | zero =>
          cases h
          simp only [List.modify_zero_cons, List.map_cons, List.sum_cons]
          omega
      | succ a =>
          have hrest := ih (a := a) (by simpa using h)
          simp only [List.modify_succ_cons, List.map_cons, List.sum_cons]
          omega

/-- Other mappings are not given back. -/
theorem mapping_munmap_of_ne (w : World Name) {a b : ℕ} (n : ℕ) (h : a ≠ b) :
    (w.munmap a n).mappings[b]? = w.mappings[b]? := by
  rw [munmap]
  exact List.getElem?_modify_ne _ _ h

/-- Giving back bytes of a mapping none of which was given back before. -/
theorem mapped_munmap {a n : ℕ} (h : w.mappings[a]? = some m) (hfirst : m.first = 0) :
    (w.munmap a n).mapped + min n m.last = w.mapped := by
  have hsum := sum_modify (f := fun m => { m with first := min (max m.first n) m.last }) h
  rw [munmap, mapped, mapped]
  dsimp only at hsum ⊢
  omega

end Mapped

end World

end Shm
