/-
Rings in shared memory.

`rb_new_shared_audio`, `rb_open_shared` and `rb_free` of rb.h, with the system calls they
make.  Which of these succeed, where they can, is in `Sys`; the rest of what they do is
`Shm`.  A handle is a C string, and the mapped header is read and written at the places of
the members of `rb_t`.  The messages on the standard error stream are left out; one of them prints
a magic that is not that of a ring with `%s`, as far as the next zero, and it is taken to be there.

`rb_open_shared` maps the header alone, looks whether it is one of a ring, and maps it again
with the buffer.  On its way out it removes the name, whoever made it: what every other
process sees of it is `HarmsNobody`.
-/
import Csnip.Rb.Image
import Csnip.Lib.Shm

namespace Csnip

open Memory LittleEndian Shm

/-- The objects with their handles, and what the process has mapped. -/
abbrev Shared := Shm.World (List UInt8)

/-- Which of the system calls of a function succeed, where they can.  `remap` is the second
`mmap` of `rb_open_shared`. -/
structure Sys where
  shmOpen : Bool
  ftruncate : Bool
  mmap : Bool
  remap : Bool
  munmap : Bool
  shmUnlink : Bool
deriving Repr, DecidableEq

/-- All of them succeed. -/
def Sys.allSucceed : Sys := ⟨true, true, true, true, true, true⟩

/-- `mmap`: the address, or `MAP_FAILED`. -/
def mmapIf (succeeds : Bool) (w : Shared) (fd length : ℕ) : Option (ℕ × Shared) :=
  if succeeds then w.mmap fd length else none

/-- `munmap`, whose answer nobody looks at. -/
def munmapIf (succeeds : Bool) (w : Shared) (address length : ℕ) : Shared :=
  if succeeds then w.munmap address length else w

/-- `_shm_unlink`, whose answer nobody looks at. -/
def shmUnlinkIf (succeeds : Bool) (w : Shared) (shmHandle : List UInt8) : Shared :=
  if succeeds then w.unlink shmHandle else w

/-! ### Creating -/

/-- The header of a new ring: `rb_set_common_init_values()` on the mapped block, and the
assignments that follow it.  The handle is copied with its terminator. -/
def rbHeader (block : List UInt8) (size : ℕ) (shmHandle name : List UInt8)
    (sampleRate channelCount bytesPerSample : ℤ) : Rb :=
  let rb := rbInit block size name sampleRate channelCount bytesPerSample
  { rb with
    shmHandle := (shmHandle ++ [0] ++ rb.shmHandle.drop (shmHandle.length + 1)).take 256
    inSharedMemory := 1 }

/-- `rb_new_shared_audio()`, with the handle that was made from a new UUID: the address of the
ring, or `NULL`. -/
def rbNewSharedAudio (sys : Sys) (w : Shared) (shmHandle : List UInt8) (size : ℕ)
    (name : List UInt8) (sampleRate channelCount bytesPerSample : ℤ) :
    Option (Option ℕ × Shared) :=
  if size < 1 then some (none, w)
  else if sys.shmOpen = false then some (none, w)
  else
    let (fd, w) := w.create shmHandle
    -- the length is a signed number
    if sys.ftruncate = false ∨ 2 ^ 63 ≤ u64 (sizeofRb + size) then
      some (none, shmUnlinkIf sys.shmUnlink w shmHandle)
    else
      let w := w.ftruncate fd (u64 (sizeofRb + size))
      match mmapIf sys.mmap w fd (u64 (sizeofRb + size)) with
      | none => some (none, shmUnlinkIf sys.shmUnlink w shmHandle)
      | some (rb, w) => do
          let block ← w.load rb 0 sizeofRb
          let header := rbHeader block size shmHandle name sampleRate channelCount bytesPerSample
          let w ← w.store rb 0 (header.image.take sizeofRb)
          some (some rb, w)

/-! ### Opening -/

/-- `rb_open_shared()`: the address of the ring, or `NULL`. -/
def rbOpenShared (sys : Sys) (w : Shared) (shmHandle : List UInt8) :
    Option (Option ℕ × Shared) :=
  match (if sys.shmOpen then w.names shmHandle else none) with
  | none => some (none, w)
  | some fd =>
      match mmapIf sys.mmap w fd sizeofRb with
      | none => some (none, shmUnlinkIf sys.shmUnlink w shmHandle)
      | some (rb, w) => do
          let magic ← w.load rb 0 8
          -- the magic ends with its only zero, so that `strncmp` compares all of it
          if magic ≠ rbMagic then
            some (none, shmUnlinkIf sys.shmUnlink (munmapIf sys.munmap w rb sizeofRb) shmHandle)
          else do
            let version ← w.load rb 8 4
            if leNat version ≠ rbVersion then
              some (none, shmUnlinkIf sys.shmUnlink (munmapIf sys.munmap w rb sizeofRb) shmHandle)
            else do
              let size ← w.load rb 12 8
              -- unmap and remap fully (knowing size now)
              let w := munmapIf sys.munmap w rb sizeofRb
              match mmapIf sys.remap w fd (u64 (sizeofRb + leNat size)) with
              | none => some (none, shmUnlinkIf sys.shmUnlink w shmHandle)
              | some (rb, w) => some (some rb, w)

/-! ### Freeing -/

/-- The C string at the start of some bytes, undefined if it has no end there. -/
def cString (bytes : List UInt8) : Option (List UInt8) :=
  if 0 ∈ bytes then some (bytes.takeWhile (· ≠ 0)) else none

/-- `rb_free()`.  A mapped ring that is not marked as shared would be given to `free`, which
is undefined. -/
def rbFree (sys : Sys) (w : Shared) (rb : Option ℕ) : Option Shared :=
  match rb with
  | none => some w
  | some rb => do
      let w ← w.store rb 60 (leInt 4 1)
      -- `munlock` of a ring that was locked does nothing to the mapping
      let w ← w.store rb 12 (leBytes 8 0)
      let inSharedMemory ← w.load rb 44 4
      if leNat inSharedMemory = 0 then none
      else do
        let shmHandle ← w.load rb 120 255
        let handle ← cString shmHandle
        let size ← w.load rb 12 8
        let w := munmapIf sys.munmap w rb (u64 (sizeofRb + leNat size))
        some (shmUnlinkIf sys.shmUnlink w handle)

/-! ### The header of an image -/

/-- The image starts as a ring of this version does. -/
def StartsAsRing (image : List UInt8) : Prop :=
  image.take 8 = rbMagic ∧ leNat ((image.drop 8).take 4) = rbVersion

/-- The size that the header of an image gives. -/
def sizeField (image : List UInt8) : ℕ := leNat ((image.drop 12).take 8)

theorem sizeField_lt (image : List UInt8) : sizeField image < 2 ^ 64 := by
  have hlt := leNat_lt ((image.drop 12).take 8)
  have hlen : ((image.drop 12).take 8).length ≤ 8 := List.length_take_le ..
  have hpow : 256 ^ ((image.drop 12).take 8).length ≤ 256 ^ 8 :=
    Nat.pow_le_pow_right (by decide) hlen
  rw [sizeField]
  omega

/-- A header with the version is longer than the magic. -/
theorem length_of_version {image : List UInt8} (h : leNat ((image.drop 8).take 4) = rbVersion) :
    12 ≤ image.length := by
  by_contra hshort
  have hlt := leNat_lt ((image.drop 8).take 4)
  have hlen : ((image.drop 8).take 4).length ≤ 3 := by
    rw [List.length_take, List.length_drop]
    omega
  have hpow : 256 ^ ((image.drop 8).take 4).length ≤ 256 ^ 3 :=
    Nat.pow_le_pow_right (by decide) hlen
  rw [h, rbVersion] at hlt
  omega

/-- What the two comparisons of the header come to. -/
theorem startsAsRing_iff (image : List UInt8) :
    StartsAsRing image ↔
      readAt image 0 8 = rbMagic ∧ leNat (readAt image 8 4) = rbVersion := by
  rw [leNat_readAt]
  refine and_congr_left fun hversion => ?_
  have hlen := length_of_version hversion
  rw [readAt_of_le (by omega), List.drop_zero]

/-! ### What opening comes to -/

section Open

variable {sys : Sys} {w : Shared} {shmHandle : List UInt8} {fd : ℕ}

@[simp] theorem image_extend (w : Shared) (object n : ℕ) :
    (w.extend object n).image = w.image := rfl

@[simp] theorem image_munmapIf (succeeds : Bool) (w : Shared) (address length : ℕ) :
    (munmapIf succeeds w address length).image = w.image := by
  unfold munmapIf
  split <;> rfl

@[simp] theorem length_munmapIf (succeeds : Bool) (w : Shared) (address length : ℕ) :
    (munmapIf succeeds w address length).mappings.length = w.mappings.length := by
  unfold munmapIf
  split
  · exact List.length_modify ..
  · rfl

/-- The world once the header of the object is mapped and given back. -/
def looked (sys : Sys) (w : Shared) (fd : ℕ) : Shared :=
  munmapIf sys.munmap (w.extend fd sizeofRb) w.mappings.length sizeofRb

/-- No such object, or it may not be opened. -/
theorem rbOpenShared_absent (h : sys.shmOpen = false ∨ w.names shmHandle = none) :
    rbOpenShared sys w shmHandle = some (none, w) := by
  have hnone : (if sys.shmOpen then w.names shmHandle else none) = none := by
    rcases h with hopen | hname
    · rw [hopen]
      rfl
    · rw [hname, ite_self]
  rw [rbOpenShared, hnone]

theorem mmapIf_eq {succeeds : Bool} {n : ℕ} (hsucceeds : succeeds = true) (hn : n ≠ 0) :
    mmapIf succeeds w fd n = some (w.mappings.length, w.extend fd n) := by
  rw [mmapIf, if_pos hsucceeds, World.mmap, if_neg hn]

theorem mmapIf_eq_none {succeeds : Bool} {n : ℕ} (h : ¬ (succeeds = true ∧ n ≠ 0)) :
    mmapIf succeeds w fd n = none := by
  by_cases hsucceeds : succeeds = true
  · have hn : n = 0 := by
      by_contra hne
      exact h ⟨hsucceeds, hne⟩
    rw [mmapIf, if_pos hsucceeds, World.mmap, if_pos hn]
  · rw [mmapIf, if_neg hsucceeds]

variable (hopen : sys.shmOpen = true) (hname : w.names shmHandle = some fd)

include hopen hname

/-- The header is not mapped. -/
theorem rbOpenShared_unmapped (hmmap : sys.mmap = false) :
    rbOpenShared sys w shmHandle = some (none, shmUnlinkIf sys.shmUnlink w shmHandle) := by
  rw [rbOpenShared, if_pos hopen, hname]
  dsimp only
  rw [mmapIf_eq_none fun hboth => Bool.false_ne_true (hmmap.symm.trans hboth.1)]

variable (hmmap : sys.mmap = true)

include hmmap

/-- Of an object without bytes the header is not to be read. -/
theorem rbOpenShared_nil (hnil : w.objects fd = []) : rbOpenShared sys w shmHandle = none := by
  rw [rbOpenShared, if_pos hopen, hname]
  dsimp only
  rw [mmapIf_eq hmmap (by decide)]
  dsimp only
  rw [World.load_extend_nil hnil (by decide)]
  rfl

/-- The header is not one of a ring of this version. -/
theorem rbOpenShared_foreign (hsome : w.objects fd ≠ []) (hring : ¬ StartsAsRing (w.objects fd)) :
    rbOpenShared sys w shmHandle
      = some (none, shmUnlinkIf sys.shmUnlink (looked sys w fd) shmHandle) := by
  rw [startsAsRing_iff] at hring
  rw [rbOpenShared, if_pos hopen, hname]
  dsimp only
  rw [mmapIf_eq hmmap (by decide)]
  dsimp only
  rw [World.load_extend (by decide) hsome (by decide), Option.bind_eq_bind, Option.bind_some]
  by_cases hmagic : readAt (w.objects fd) 0 8 = rbMagic
  · have hversion : leNat (readAt (w.objects fd) 8 4) ≠ rbVersion := fun hv => hring ⟨hmagic, hv⟩
    rw [if_neg (not_not.mpr hmagic), World.load_extend (by decide) hsome (by decide),
      Option.bind_some, if_pos hversion]
    rfl
  · rw [if_pos hmagic]
    rfl

/-- The header is one of a ring: all of it is mapped, if it can be. -/
theorem rbOpenShared_ring (hring : StartsAsRing (w.objects fd)) :
    rbOpenShared sys w shmHandle =
      match mmapIf sys.remap (looked sys w fd) fd (u64 (sizeofRb + sizeField (w.objects fd))) with
      | none => some (none, shmUnlinkIf sys.shmUnlink (looked sys w fd) shmHandle)
      | some (rb, w) => some (some rb, w) := by
  have hlen := length_of_version hring.2
  have hsome : w.objects fd ≠ [] := fun hnil => by rw [hnil, List.length_nil] at hlen; omega
  obtain ⟨hmagic, hversion⟩ := (startsAsRing_iff _).mp hring
  rw [rbOpenShared, if_pos hopen, hname]
  dsimp only
  rw [mmapIf_eq hmmap (by decide)]
  dsimp only
  rw [World.load_extend (by decide) hsome (by decide), Option.bind_eq_bind, Option.bind_some,
    if_neg (not_not.mpr hmagic), World.load_extend (by decide) hsome (by decide),
    Option.bind_some, if_neg (not_not.mpr hversion),
    World.load_extend (by decide) hsome (by decide), Option.bind_some, leNat_readAt]
  rfl

end Open

/-! ### What others see of it -/

/-- **Opening harms nobody**: every handle stands for what it stood for, whether or not the
ring was opened, and only images of rings of this version are. -/
def HarmsNobody (sys : Sys) (w : Shared) (shmHandle : List UInt8) : Prop :=
  ∀ rb w', rbOpenShared sys w shmHandle = some (rb, w') →
    w'.image = w.image ∧
      (rb.isSome → ∃ image, w.image shmHandle = some image ∧ StartsAsRing image)

/-- Removing the handle of an object, on the way out. -/
theorem image_shmUnlinkIf_iff {succeeds : Bool} {w v : Shared} {shmHandle : List UInt8}
    (himage : v.image = w.image) :
    (shmUnlinkIf succeeds v shmHandle).image = w.image ↔
      succeeds = false ∨ w.image shmHandle = none := by
  have hname : v.names shmHandle = none ↔ w.image shmHandle = none := by
    rw [← himage]
    exact Option.map_eq_none_iff.symm
  unfold shmUnlinkIf
  cases succeeds with
  | false => exact iff_of_true himage (.inl rfl)
  | true =>
      rw [if_pos rfl, ← himage, World.image_unlink_eq_iff, hname, himage]
      simp

section Harm

variable {sys : Sys} {w : Shared} {shmHandle : List UInt8}

/-- What happens to the image behind the handle when the name is not removed. -/
def Spared (sys : Sys) (image : List UInt8) : Prop :=
  sys.mmap = true ∧ (image = [] ∨
    (StartsAsRing image ∧ sys.remap = true ∧ u64 (sizeofRb + sizeField image) ≠ 0))

/-- A way out that removes the name. -/
theorem harmsNobody_unlinked {v : Shared} {image : List UInt8}
    (himage : w.image shmHandle = some image)
    (hv : v.image = w.image)
    (hrun : rbOpenShared sys w shmHandle = some (none, shmUnlinkIf sys.shmUnlink v shmHandle)) :
    HarmsNobody sys w shmHandle ↔ sys.shmUnlink = false := by
  have hiff := @image_shmUnlinkIf_iff sys.shmUnlink w v shmHandle hv
  rw [himage] at hiff
  constructor
  · intro hharm
    obtain ⟨hsame, -⟩ := hharm _ _ hrun
    exact (hiff.mp hsame).resolve_right (by simp)
  · intro hkept rb w' hrun'
    rw [hrun] at hrun'
    cases hrun'
    exact ⟨hiff.mpr (.inl hkept), fun hsome => by cases hsome⟩

/-- An object that is there and can be opened. -/
theorem harmsNobody_present {fd : ℕ} (hopen : sys.shmOpen = true)
    (hname : w.names shmHandle = some fd) :
    HarmsNobody sys w shmHandle ↔ sys.shmUnlink = false ∨ Spared sys (w.objects fd) := by
  have himage := World.image_of_some hname
  have hlooked : (looked sys w fd).image = w.image := by
    rw [looked, image_munmapIf, image_extend]
  by_cases hmmap : sys.mmap = true
  · by_cases hnil : w.objects fd = []
    · -- looking at the header is the end of the process
      have hrun := rbOpenShared_nil hopen hname hmmap hnil
      refine iff_of_true (fun rb w' hrun' => ?_) (.inr ⟨hmmap, .inl hnil⟩)
      rw [hrun] at hrun'
      cases hrun'
    · by_cases hring : StartsAsRing (w.objects fd)
      · have hrun := rbOpenShared_ring hopen hname hmmap hring
        by_cases hmap : sys.remap = true ∧ u64 (sizeofRb + sizeField (w.objects fd)) ≠ 0
        · rw [mmapIf_eq hmap.1 hmap.2] at hrun
          refine iff_of_true (fun rb w' hrun' => ?_) (.inr ⟨hmmap, .inr ⟨hring, hmap⟩⟩)
          rw [hrun] at hrun'
          cases hrun'
          exact ⟨by rw [image_extend, hlooked], fun _ => ⟨_, himage, hring⟩⟩
        · rw [mmapIf_eq_none hmap] at hrun
          rw [harmsNobody_unlinked himage hlooked hrun]
          refine (or_iff_left ?_).symm
          rintro ⟨-, hempty | ⟨-, hboth⟩⟩
          · exact hnil hempty
          · exact hmap hboth
      · rw [harmsNobody_unlinked himage hlooked (rbOpenShared_foreign hopen hname hmmap hnil hring)]
        refine (or_iff_left ?_).symm
        rintro ⟨-, hempty | ⟨hstarts, -⟩⟩
        · exact hnil hempty
        · exact hring hstarts
  · have hfails : sys.mmap = false := by simpa using hmmap
    rw [harmsNobody_unlinked himage rfl (rbOpenShared_unmapped hopen hname hfails)]
    exact (or_iff_left fun hspared => hmmap hspared.1).symm

/-- **When opening harms nobody**: exactly if the name cannot be removed, or the object is not
there or cannot be opened, or its header is mapped, and is one of a ring that is then mapped
whole, or there is no byte of it to look at. -/
theorem open_harms_nobody_iff (sys : Sys) (w : Shared) (shmHandle : List UInt8) :
    HarmsNobody sys w shmHandle ↔
      sys.shmUnlink = false ∨ sys.shmOpen = false ∨
        ∀ image, w.image shmHandle = some image → Spared sys image := by
  by_cases hthere : sys.shmOpen = true ∧ ∃ fd, w.names shmHandle = some fd
  · obtain ⟨hopen, fd, hname⟩ := hthere
    rw [harmsNobody_present hopen hname, World.image_of_some hname, hopen]
    simp
  · -- nothing is found
    have habsent : sys.shmOpen = false ∨ w.names shmHandle = none := by
      cases hopen : sys.shmOpen with
      | false => exact .inl rfl
      | true =>
          cases hname : w.names shmHandle with
          | none => exact .inr rfl
          | some fd => exact absurd ⟨hopen, fd, hname⟩ hthere
    have hrun := rbOpenShared_absent habsent
    refine iff_of_true (fun rb w' hrun' => ?_) (.inr ?_)
    · rw [hrun] at hrun'
      cases hrun'
      exact ⟨rfl, fun hsome => by cases hsome⟩
    · refine habsent.imp_right fun hname image himage => ?_
      rw [World.image_of_none hname] at himage
      cases himage

/-- Somebody's object of one byte, under the handle "x". -/
def strangers : Shared :=
  { names := Function.update (fun _ => none) [120] (some 0)
    objects := fun _ => [7]
    fresh := 1
    mappings := [] }

/-- Who tries to open it removes it. -/
theorem open_removes_strangers :
    strangers.image [120] = some [7] ∧
      (∃ w', rbOpenShared .allSucceed strangers [120] = some (none, w') ∧
        w'.image [120] = none) ∧
      ¬ HarmsNobody .allSucceed strangers [120] := by
  have himage : strangers.image [120] = some [7] := rfl
  have hforeign : ¬ StartsAsRing (strangers.objects 0) := by
    rintro ⟨hmagic, -⟩
    exact absurd hmagic (by decide)
  have hrun : rbOpenShared .allSucceed strangers [120]
      = some (none, shmUnlinkIf true (looked .allSucceed strangers 0) [120]) :=
    rbOpenShared_foreign rfl rfl rfl (by decide) hforeign
  have hgone : (shmUnlinkIf true (looked .allSucceed strangers 0) [120]).image [120] = none := rfl
  refine ⟨himage, ⟨_, hrun, hgone⟩, fun hharm => ?_⟩
  obtain ⟨hsame, -⟩ := hharm _ _ hrun
  rw [hsame, himage] at hgone
  cases hgone

end Harm

end Csnip
