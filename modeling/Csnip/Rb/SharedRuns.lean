/-
Whether shared rings are unmapped completely.

A process creates, opens and frees rings; `Process` is what it has mapped, and the rings that
are live, with their sizes.  The bytes that are mapped should be those of the live rings, each
with its header: `Balanced`.  A ring is mapped with its buffer, but `rb_free` sets its size to
zero before it takes the length from it, so that only the header is given back.

`Kept` is the invariant: the live rings are mapped, each at an address of its own.  From it
follows which calls are `Tidy`, that is, keep the balance.
-/
import Csnip.Rb.Shared
import Csnip.Lib.Machine

namespace Csnip

open Memory LittleEndian Shm

/-! ### The process -/

/-- What a process has mapped, and the live rings: their addresses and sizes. -/
structure Process where
  world : Shared
  live : List (ℕ × ℕ)

/-- The calls, each with what the system does. -/
inductive SharedCall where
  | create (sys : Sys) (shmHandle : List UInt8) (size : ℕ) (name : List UInt8)
      (sampleRate channelCount bytesPerSample : ℤ)
  | openShared (sys : Sys) (shmHandle : List UInt8)
  | free (sys : Sys) (rb : Option ℕ)

namespace Process

/-- Carry out a call: the address of a ring, or `NULL`.  The size of a ring that was opened is
what `rb_size()` says then, and only live rings may be freed. -/
def call (p : Process) : SharedCall → Option (Option ℕ × Process)
  | .create sys shmHandle size name sampleRate channelCount bytesPerSample => do
      let (rb, world) ←
        rbNewSharedAudio sys p.world shmHandle size name sampleRate channelCount bytesPerSample
      match rb with
      | none => some (none, { p with world })
      | some rb => some (some rb, { world, live := p.live ++ [(rb, size)] })
  | .openShared sys shmHandle => do
      let (rb, world) ← rbOpenShared sys p.world shmHandle
      match rb with
      | none => some (none, { p with world })
      | some rb => do
          let size ← world.load rb 12 8
          some (some rb, { world, live := p.live ++ [(rb, leNat size)] })
  | .free sys rb =>
      match rb with
      | none => some (none, p)
      | some rb =>
          if rb ∈ p.live.map Prod.fst then do
            let world ← rbFree sys p.world (some rb)
            some (none, { world, live := p.live.eraseP fun ring => ring.1 = rb })
          else none

/-- The bytes of rings, with their headers. -/
def ringBytes (rings : List (ℕ × ℕ)) : ℕ := (rings.map fun ring => sizeofRb + ring.2).sum

/-- The bytes that are mapped are those of the live rings. -/
def Balanced (p : Process) : Prop := p.world.mapped = ringBytes p.live

/-- The live rings are mapped from their first byte on, each at an address of its own. -/
structure Kept (p : Process) : Prop where
  nodup : (p.live.map Prod.fst).Nodup
  mapped : ∀ ring ∈ p.live, ∃ fd,
    p.world.mappings[ring.1]? = some ⟨fd, 0, u64 (sizeofRb + ring.2)⟩

end Process

/-! ### What the functions do to the mappings -/

section Functions

variable {sys : Sys} {w w' : Shared} {shmHandle : List UInt8}

/-- The calls that create a ring. -/
def Creates (sys : Sys) (size : ℕ) : Prop :=
  1 ≤ size ∧ sys.shmOpen = true ∧ sys.ftruncate = true ∧ u64 (sizeofRb + size) < 2 ^ 63 ∧
    sys.mmap = true ∧ u64 (sizeofRb + size) ≠ 0

@[simp] theorem mappings_shmUnlinkIf (succeeds : Bool) (w : Shared) (shmHandle : List UInt8) :
    (shmUnlinkIf succeeds w shmHandle).mappings = w.mappings := by
  unfold shmUnlinkIf
  split <;> rfl

@[simp] theorem mappings_create (w : Shared) (shmHandle : List UInt8) :
    (w.create shmHandle).2.mappings = w.mappings := by
  unfold World.create
  split <;> rfl

/-- A ring is created with all its bytes mapped, or nothing is. -/
theorem rbNewSharedAudio_cases {size : ℕ} {name : List UInt8}
    {sampleRate channelCount bytesPerSample : ℤ} {rb : Option ℕ}
    (h : rbNewSharedAudio sys w shmHandle size name sampleRate channelCount bytesPerSample
      = some (rb, w')) :
    (rb = none ∧ ¬ Creates sys size ∧ w'.mappings = w.mappings) ∨
      (rb = some w.mappings.length ∧ Creates sys size ∧ ∃ fd,
        w'.mappings = w.mappings ++ [⟨fd, 0, u64 (sizeofRb + size)⟩]) := by
  rw [rbNewSharedAudio] at h
  by_cases hsize : size < 1
  · rw [if_pos hsize] at h
    cases h
    exact .inl ⟨rfl, fun hc => absurd hc.1 (by omega), rfl⟩
  rw [if_neg hsize] at h
  by_cases hopen : sys.shmOpen = false
  · rw [if_pos hopen] at h
    cases h
    exact .inl ⟨rfl, fun hc => Bool.false_ne_true (hopen.symm.trans hc.2.1), rfl⟩
  rw [if_neg hopen] at h
  dsimp only at h
  by_cases htruncate : sys.ftruncate = false ∨ 2 ^ 63 ≤ u64 (sizeofRb + size)
  · rw [if_pos htruncate] at h
    cases h
    refine .inl ⟨rfl, fun hc => ?_, by simp⟩
    rcases htruncate with hfails | hlong
    · exact Bool.false_ne_true (hfails.symm.trans hc.2.2.1)
    · exact absurd hc.2.2.2.1 (by omega)
  rw [if_neg htruncate] at h
  rw [not_or] at htruncate
  by_cases hmap : sys.mmap = true ∧ u64 (sizeofRb + size) ≠ 0
  · rw [mmapIf_eq hmap.1 hmap.2] at h
    obtain ⟨block, -, h⟩ := Option.bind_eq_some_iff.mp h
    obtain ⟨w₁, hstore, h⟩ := Option.bind_eq_some_iff.mp h
    cases h
    obtain ⟨m, -, rfl⟩ := World.store_eq_some hstore
    refine .inr ⟨?_, ⟨by omega, by simpa using hopen, by simpa using htruncate.1,
      by omega, hmap⟩, (w.create shmHandle).1, ?_⟩
    · rw [World.ftruncate, mappings_create]
    · rw [World.extend, World.ftruncate]
      dsimp only
      rw [mappings_create]
  · rw [mmapIf_eq_none hmap] at h
    cases h
    refine .inl ⟨rfl, fun hc => hmap hc.2.2.2.2, ?_⟩
    rw [mappings_shmUnlinkIf, World.ftruncate, mappings_create]

/-- The ring behind the handle is mapped whole. -/
def Opens (sys : Sys) (image : List UInt8) : Prop :=
  StartsAsRing image ∧ sys.remap = true ∧ u64 (sizeofRb + sizeField image) ≠ 0

@[simp] theorem length_looked (sys : Sys) (w : Shared) (fd : ℕ) :
    (looked sys w fd).mappings.length = w.mappings.length + 1 := by
  rw [looked, length_munmapIf, World.length_extend]

@[simp] theorem objects_looked (sys : Sys) (w : Shared) (fd : ℕ) :
    (looked sys w fd).objects = w.objects := by
  rw [looked, munmapIf]
  split <;> rfl

/-- Looking at a header leaves the other mappings as they were. -/
theorem mapping_looked (sys : Sys) (w : Shared) (fd : ℕ) {a : ℕ} (ha : a < w.mappings.length) :
    (looked sys w fd).mappings[a]? = w.mappings[a]? := by
  have hold : (w.extend fd sizeofRb).mappings[a]? = w.mappings[a]? :=
    World.mapping_extend_of_lt ha
  rw [looked, munmapIf]
  split
  · have hne : w.mappings.length ≠ a := by omega
    rw [World.mapping_munmap_of_ne _ _ hne, hold]
  · exact hold

/-- Looking at a header keeps as many bytes mapped if it is given back. -/
theorem mapped_looked (sys : Sys) (w : Shared) (fd : ℕ) :
    (looked sys w fd).mapped = w.mapped + if sys.munmap then 0 else sizeofRb := by
  have hextend := World.mapped_extend w fd sizeofRb
  rw [looked, munmapIf]
  by_cases hmunmap : sys.munmap = true
  · have hmapping := World.mapping_extend w fd sizeofRb
    have hgone := World.mapped_munmap (n := sizeofRb) hmapping rfl
    rw [if_pos hmunmap, if_pos hmunmap]
    dsimp only at hgone
    omega
  · rw [if_neg hmunmap, if_neg hmunmap, hextend]

/-- A ring is opened with all its bytes mapped behind its header, or only the header has been,
or nothing. -/
theorem rbOpenShared_cases {rb : Option ℕ} (h : rbOpenShared sys w shmHandle = some (rb, w')) :
    (rb = none ∧ w'.mappings = w.mappings ∧
      ¬ (sys.shmOpen = true ∧ sys.mmap = true ∧ ∃ image, w.image shmHandle = some image)) ∨
    ∃ fd, sys.shmOpen = true ∧ sys.mmap = true ∧ w.names shmHandle = some fd ∧
      ((rb = none ∧ w'.mappings = (looked sys w fd).mappings ∧ ¬ Opens sys (w.objects fd)) ∨
        (rb = some (w.mappings.length + 1) ∧ Opens sys (w.objects fd) ∧
          w' = (looked sys w fd).extend fd (u64 (sizeofRb + sizeField (w.objects fd))))) := by
  by_cases hopen : sys.shmOpen = true
  · cases hname : w.names shmHandle with
    | none =>
        rw [rbOpenShared_absent (.inr hname)] at h
        cases h
        refine .inl ⟨rfl, rfl, ?_⟩
        rintro ⟨-, -, image, himage⟩
        rw [World.image_of_none hname] at himage
        cases himage
    | some fd =>
        by_cases hmmap : sys.mmap = true
        · refine .inr ⟨fd, hopen, hmmap, rfl, ?_⟩
          by_cases hnil : w.objects fd = []
          · rw [rbOpenShared_nil hopen hname hmmap hnil] at h
            cases h
          · by_cases hring : StartsAsRing (w.objects fd)
            · rw [rbOpenShared_ring hopen hname hmmap hring] at h
              by_cases hmap : sys.remap = true ∧ u64 (sizeofRb + sizeField (w.objects fd)) ≠ 0
              · rw [mmapIf_eq hmap.1 hmap.2] at h
                cases h
                refine .inr ⟨?_, ⟨hring, hmap⟩, rfl⟩
                rw [length_looked]
              · rw [mmapIf_eq_none hmap] at h
                cases h
                exact .inl ⟨rfl, mappings_shmUnlinkIf _ _ _, fun hopens => hmap hopens.2⟩
            · rw [rbOpenShared_foreign hopen hname hmmap hnil hring] at h
              cases h
              exact .inl ⟨rfl, mappings_shmUnlinkIf _ _ _, fun hopens => hring hopens.1⟩
        · have hfails : sys.mmap = false := by simpa using hmmap
          rw [rbOpenShared_unmapped hopen hname hfails] at h
          cases h
          exact .inl ⟨rfl, mappings_shmUnlinkIf _ _ _, fun hboth => hmmap hboth.2.1⟩
  · have hfails : sys.shmOpen = false := by simpa using hopen
    rw [rbOpenShared_absent (.inl hfails)] at h
    cases h
    exact .inl ⟨rfl, rfl, fun hboth => hopen hboth.1⟩

/-- **Only the header is given back**, whatever the size was. -/
theorem rbFree_mappings {rb : ℕ} (h : rbFree sys w (some rb) = some w') :
    w'.mappings = (munmapIf sys.munmap w rb sizeofRb).mappings := by
  obtain ⟨w₁, hstore₁, h⟩ := Option.bind_eq_some_iff.mp h
  obtain ⟨w₂, hstore₂, h⟩ := Option.bind_eq_some_iff.mp h
  obtain ⟨inSharedMemory, -, h⟩ := Option.bind_eq_some_iff.mp h
  split at h
  · cases h
  obtain ⟨field, -, h⟩ := Option.bind_eq_some_iff.mp h
  obtain ⟨handle, -, h⟩ := Option.bind_eq_some_iff.mp h
  obtain ⟨size, hload, h⟩ := Option.bind_eq_some_iff.mp h
  cases h
  have hzero : leNat size = 0 := World.leNat_load_zeros (n := 8) hstore₂ hload
  obtain ⟨m₁, -, rfl⟩ := World.store_eq_some hstore₁
  obtain ⟨m₂, -, rfl⟩ := World.store_eq_some hstore₂
  rw [mappings_shmUnlinkIf, hzero]
  unfold munmapIf
  split <;> rfl

end Functions

/-! ### One call -/

namespace Process

/-- **The call keeps the balance**: it creates no ring whose length does not fit into 64 bits,
opens none, and gives the header back when it has looked at it, and frees only rings without
a buffer, whose mapping is given back. -/
def Tidy (p : Process) : SharedCall → Prop
  | .create sys _ size _ _ _ _ => Creates sys size → sizeofRb + size < 2 ^ 64
  | .openShared sys shmHandle =>
      sys.shmOpen = true → sys.mmap = true → ∀ image, p.world.image shmHandle = some image →
        sys.munmap = true ∧ (Opens sys image → sizeofRb + sizeField image < 2 ^ 64)
  | .free sys rb =>
      ∀ a size, rb = some a → (a, size) ∈ p.live → sys.munmap = true ∧ size = 0

section Call

variable {p p' : Process} {sys : Sys} {shmHandle : List UInt8} {out : Option ℕ}

theorem mapped_of_mappings {w w' : Shared} (h : w'.mappings = w.mappings) :
    w'.mapped = w.mapped := by
  rw [World.mapped, World.mapped, h]

theorem ringBytes_append (rings₁ rings₂ : List (ℕ × ℕ)) :
    ringBytes (rings₁ ++ rings₂) = ringBytes rings₁ + ringBytes rings₂ := by
  rw [ringBytes, List.map_append, List.sum_append]
  rfl

theorem ringBytes_cons (ring : ℕ × ℕ) (rings : List (ℕ × ℕ)) :
    ringBytes (ring :: rings) = sizeofRb + ring.2 + ringBytes rings := by
  rw [ringBytes, List.map_cons, List.sum_cons]
  rfl

/-- The mapping of a live ring is among the mappings. -/
theorem Kept.lt (h : p.Kept) {ring : ℕ × ℕ} (hring : ring ∈ p.live) :
    ring.1 < p.world.mappings.length := by
  obtain ⟨fd, hfd⟩ := h.mapped ring hring
  exact (List.getElem?_eq_some_iff.mp hfd).1

/-- The invariant speaks of the mappings of the live rings only. -/
theorem Kept.of_agree (h : p.Kept) (hlive : p'.live = p.live)
    (hagree : ∀ a < p.world.mappings.length, p'.world.mappings[a]? = p.world.mappings[a]?) :
    p'.Kept where
  nodup := by rw [hlive]; exact h.nodup
  mapped ring hring := by
    rw [hlive] at hring
    rw [hagree ring.1 (h.lt hring)]
    exact h.mapped ring hring

/-- A new ring, mapped at a new address. -/
theorem Kept.add (h : p.Kept) {a size fd : ℕ} (hlive : p'.live = p.live ++ [(a, size)])
    (ha : p.world.mappings.length ≤ a)
    (hagree : ∀ b < p.world.mappings.length, p'.world.mappings[b]? = p.world.mappings[b]?)
    (hnew : p'.world.mappings[a]? = some ⟨fd, 0, u64 (sizeofRb + size)⟩) : p'.Kept where
  nodup := by
    rw [hlive, List.map_append, List.nodup_append]
    refine ⟨h.nodup, List.nodup_singleton a, ?_⟩
    rintro b hb b' hb' rfl
    obtain ⟨ring, hring, rfl⟩ := List.mem_map.mp hb
    have hlt := h.lt hring
    have heq : ring.1 = a := List.mem_singleton.mp hb'
    omega
  mapped ring hring := by
    rw [hlive, List.mem_append] at hring
    rcases hring with hold | hlast
    · rw [hagree ring.1 (h.lt hold)]
      exact h.mapped ring hold
    · rw [List.mem_singleton.mp hlast]
      exact ⟨fd, hnew⟩

/-- With a ring more, and with bytes that are not a ring's, the balance is kept if the ring is
that much longer than its mapping. -/
theorem balanced_add_iff (hb : p.Balanced) {a size lost : ℕ}
    (hlive : p'.live = p.live ++ [(a, size)])
    (hmapped : p'.world.mapped = p.world.mapped + lost + u64 (sizeofRb + size)) :
    p'.Balanced ↔ lost + u64 (sizeofRb + size) = sizeofRb + size := by
  have hnil : ringBytes [] = 0 := rfl
  rw [Balanced] at hb ⊢
  rw [hmapped, hlive, ringBytes_append, ringBytes_cons, hnil, hb]
  dsimp only
  omega

/-- Creating. -/
theorem create_call (h : p.Kept) {size : ℕ} {name : List UInt8}
    {sampleRate channelCount bytesPerSample : ℤ}
    (hcall : p.call (.create sys shmHandle size name sampleRate channelCount bytesPerSample)
      = some (out, p')) :
    p'.Kept ∧ (p.Balanced →
      (p'.Balanced ↔ (Creates sys size → sizeofRb + size < 2 ^ 64))) := by
  obtain ⟨⟨rb, world⟩, hrun, hcall⟩ := Option.bind_eq_some_iff.mp hcall
  rcases rbNewSharedAudio_cases hrun with ⟨rfl, hno, hmappings⟩ | ⟨rfl, hcreates, fd, hmappings⟩
  · cases hcall
    refine ⟨h.of_agree rfl fun a _ => by rw [hmappings], fun hb => ?_⟩
    refine iff_of_true ?_ fun hcreates => absurd hcreates hno
    rw [Balanced, mapped_of_mappings hmappings]
    exact hb
  · cases hcall
    have hnew : world.mappings[p.world.mappings.length]?
        = some ⟨fd, 0, u64 (sizeofRb + size)⟩ := by
      rw [hmappings]
      exact List.getElem?_concat_length
    refine ⟨h.add rfl (Nat.le_refl _)
      (fun b hlt => by rw [hmappings]; exact List.getElem?_append_left hlt) hnew, fun hb => ?_⟩
    have hmapped : world.mapped = p.world.mapped + 0 + u64 (sizeofRb + size) :=
      (mapped_of_mappings hmappings).trans (World.mapped_extend p.world fd _)
    rw [balanced_add_iff hb rfl hmapped, Nat.zero_add, u64_eq_self_iff]
    exact ⟨fun hfits _ => hfits, fun hfits => hfits hcreates⟩

/-- A ring that was opened says the size that it was mapped with. -/
theorem load_opened {w : Shared} {fd : ℕ} {size : List UInt8} (hopens : Opens sys (w.objects fd))
    (hload : ((looked sys w fd).extend fd (u64 (sizeofRb + sizeField (w.objects fd)))).load
      (w.mappings.length + 1) 12 8 = some size) :
    leNat size = sizeField (w.objects fd) := by
  have hlen := length_of_version hopens.1.2
  have hsome : (looked sys w fd).objects fd ≠ [] := by
    rw [objects_looked]
    intro hnil
    rw [hnil] at hlen
    cases hlen
  have hread := World.load_extend (p := 12) (k := 8) hopens.2.2 hsome (by decide)
  rw [length_looked] at hread
  rw [hread, objects_looked] at hload
  cases hload
  exact leNat_readAt _ _ _

/-- What a tidy call looks at when there is an object behind the handle. -/
theorem tidy_openShared_iff {fd : ℕ} (hopen : sys.shmOpen = true) (hmmap : sys.mmap = true)
    (hname : p.world.names shmHandle = some fd) :
    p.Tidy (.openShared sys shmHandle) ↔ sys.munmap = true ∧
      (Opens sys (p.world.objects fd) → sizeofRb + sizeField (p.world.objects fd) < 2 ^ 64) := by
  have himage := World.image_of_some hname
  simp only [Tidy, hopen, hmmap, himage, Option.some.injEq, forall_eq', forall_const]

/-- Opening. -/
theorem open_call (h : p.Kept) (hcall : p.call (.openShared sys shmHandle) = some (out, p')) :
    p'.Kept ∧ (p.Balanced → (p'.Balanced ↔ p.Tidy (.openShared sys shmHandle))) := by
  obtain ⟨⟨rb, world⟩, hrun, hcall⟩ := Option.bind_eq_some_iff.mp hcall
  rcases rbOpenShared_cases hrun with ⟨rfl, hmappings, hno⟩ | ⟨fd, hopen, hmmap, hname, hcases⟩
  · -- nothing was mapped
    cases hcall
    refine ⟨h.of_agree rfl fun a _ => by rw [hmappings], fun hb => iff_of_true ?_ ?_⟩
    · rw [Balanced, mapped_of_mappings hmappings]
      exact hb
    · intro hopen hmmap image himage
      exact absurd ⟨hopen, hmmap, image, himage⟩ hno
  have hlooked := mapped_looked sys p.world fd
  rw [tidy_openShared_iff hopen hmmap hname]
  rcases hcases with ⟨rfl, hmappings, hno⟩ | ⟨rfl, hopens, rfl⟩
  · -- the header was mapped and given back
    cases hcall
    refine ⟨h.of_agree rfl fun a ha => by rw [hmappings]; exact mapping_looked _ _ _ ha,
      fun hb => ?_⟩
    have hheader : sizeofRb ≠ 0 := by decide
    rw [Balanced] at hb
    rw [Balanced, mapped_of_mappings hmappings, hlooked, hb]
    by_cases hmunmap : sys.munmap = true
    · rw [if_pos hmunmap]
      exact iff_of_true rfl ⟨hmunmap, fun hopens => absurd hopens hno⟩
    · rw [if_neg hmunmap]
      exact iff_of_false (by dsimp only; omega) fun hboth => hmunmap hboth.1
  · -- and the ring behind it
    obtain ⟨size, hload, hcall⟩ := Option.bind_eq_some_iff.mp hcall
    cases hcall
    rw [load_opened hopens hload]
    have hnew := World.mapping_extend (looked sys p.world fd) fd
      (u64 (sizeofRb + sizeField (p.world.objects fd)))
    rw [length_looked] at hnew
    refine ⟨h.add rfl (Nat.le_succ _) ?_ hnew, fun hb => ?_⟩
    · intro b hlt
      have hlonger : b < (looked sys p.world fd).mappings.length := by
        rw [length_looked]
        omega
      rw [← mapping_looked sys p.world fd hlt]
      exact World.mapping_extend_of_lt hlonger
    · have hmapped := World.mapped_extend (looked sys p.world fd) fd
        (u64 (sizeofRb + sizeField (p.world.objects fd)))
      rw [hlooked] at hmapped
      rw [balanced_add_iff hb rfl hmapped]
      by_cases hmunmap : sys.munmap = true
      · rw [if_pos hmunmap, Nat.zero_add, u64_eq_self_iff]
        exact ⟨fun hfits => ⟨hmunmap, fun _ => hfits⟩, fun hboth => hboth.2 hopens⟩
      · -- the header that is still mapped is no ring's
        have hword : sizeField (p.world.objects fd) < 2 ^ 64 := sizeField_lt _
        rw [if_neg hmunmap]
        refine iff_of_false ?_ fun hboth => hmunmap hboth.1
        unfold u64 sizeofRb
        omega

/-- A live ring among the others, which are at other addresses. -/
theorem split_live (h : p.Kept) {a : ℕ} (ha : a ∈ p.live.map Prod.fst) :
    ∃ ring before behind, ring.1 = a ∧ p.live = before ++ ring :: behind ∧
      p.live.eraseP (fun ring => ring.1 = a) = before ++ behind ∧
      ∀ other ∈ before ++ behind, other.1 ≠ a := by
  obtain ⟨found, hfound, hfirst⟩ := List.mem_map.mp ha
  obtain ⟨ring, before, behind, -, hring, hsplit, herase⟩ :=
    List.exists_of_eraseP (p := fun ring : ℕ × ℕ => ring.1 = a) hfound (by simpa using hfirst)
  have hring : ring.1 = a := by simpa using hring
  refine ⟨ring, before, behind, hring, hsplit, herase, fun other hother heq => ?_⟩
  have hnodup := h.nodup
  rw [hsplit, List.map_append, List.map_cons, List.nodup_middle, List.nodup_cons,
    ← List.map_append, hring, ← heq] at hnodup
  exact hnodup.1 (List.mem_map_of_mem hother)

/-- A ring less, whose mapping may have changed. -/
theorem Kept.erase (h : p.Kept) {a : ℕ} (ha : a ∈ p.live.map Prod.fst)
    (hlive : p'.live = p.live.eraseP fun ring => ring.1 = a)
    (hagree : ∀ b, a ≠ b → p'.world.mappings[b]? = p.world.mappings[b]?) : p'.Kept where
  nodup := by
    rw [hlive]
    exact h.nodup.sublist (List.eraseP_sublist.map Prod.fst)
  mapped ring hring := by
    obtain ⟨-, before, behind, -, -, herase, hothers⟩ := split_live h ha
    rw [hlive] at hring
    have hold : ring ∈ p.live := List.mem_of_mem_eraseP hring
    rw [herase] at hring
    rw [hagree ring.1 fun heq => hothers ring hring heq.symm]
    exact h.mapped ring hold

/-- There is one live ring at its address. -/
theorem tidy_free_iff (h : p.Kept) {ring : ℕ × ℕ} (hring : ring ∈ p.live) :
    p.Tidy (.free sys (some ring.1)) ↔ sys.munmap = true ∧ ring.2 = 0 := by
  constructor
  · intro hall
    exact hall ring.1 ring.2 rfl hring
  · intro hboth a size ha hmem
    cases ha
    have hsame : (ring.1, size) = ring := List.inj_on_of_nodup_map h.nodup hmem hring rfl
    rw [← hsame] at hboth
    exact hboth

/-- Freeing. -/
theorem free_call (h : p.Kept) {rb : Option ℕ}
    (hcall : p.call (.free sys rb) = some (out, p')) :
    p'.Kept ∧ (p.Balanced → (p'.Balanced ↔ p.Tidy (.free sys rb))) := by
  cases rb with
  | none =>
      cases hcall
      exact ⟨h, fun hb => iff_of_true hb fun a size ha => by cases ha⟩
  | some a =>
      simp only [call] at hcall
      by_cases hlive : a ∈ p.live.map Prod.fst
      · rw [if_pos hlive] at hcall
        obtain ⟨world, hfree, hcall⟩ := Option.bind_eq_some_iff.mp hcall
        cases hcall
        have hmappings := rbFree_mappings hfree
        constructor
        · refine h.erase hlive rfl fun b hne => ?_
          dsimp only
          rw [hmappings, munmapIf]
          split
          · exact World.mapping_munmap_of_ne _ _ hne
          · rfl
        · intro hb
          obtain ⟨ring, before, behind, hring, hsplit, herase, -⟩ := split_live h hlive
          have hmember : ring ∈ p.live := by rw [hsplit]; simp
          obtain ⟨fd, hmapping⟩ := h.mapped ring hmember
          rw [← hring] at hmappings herase ⊢
          rw [tidy_free_iff h hmember]
          rw [Balanced, hsplit, ringBytes_append, ringBytes_cons] at hb
          rw [Balanced, herase, ringBytes_append, mapped_of_mappings hmappings, munmapIf]
          by_cases hmunmap : sys.munmap = true
          · -- as many bytes as a header has are given back, the ring's buffer is not
            have hgone := World.mapped_munmap (n := sizeofRb) hmapping rfl
            rw [if_pos hmunmap]
            dsimp only at hgone ⊢
            unfold u64 sizeofRb at *
            constructor
            · intro hsum
              exact ⟨hmunmap, by omega⟩
            · rintro ⟨-, hzero⟩
              omega
          · rw [if_neg hmunmap]
            unfold sizeofRb at hb
            exact iff_of_false (by omega) fun hboth => hmunmap hboth.1
      · rw [if_neg hlive] at hcall
        cases hcall

end Call

/-! ### Every run -/

/-- **One call.**  The live rings stay mapped, and the balance is kept exactly by the tidy
calls. -/
theorem kept_call {p p' : Process} {c : SharedCall} {out : Option ℕ} (h : p.Kept)
    (hcall : p.call c = some (out, p')) :
    p'.Kept ∧ (p.Balanced → (p'.Balanced ↔ p.Tidy c)) := by
  cases c with
  | create sys shmHandle size name sampleRate channelCount bytesPerSample =>
      exact create_call h hcall
  | openShared sys shmHandle => exact open_call h hcall
  | free sys rb => exact free_call h hcall

/-- **Rings are unmapped completely** in a run exactly if all its calls are tidy: for every
run that starts with nothing mapped, whatever objects there are and whatever the system does,
the bytes that are mapped are those of the live rings in every state. -/
theorem rings_unmapped_iff {w : Shared} (hw : w.mappings = []) (calls : List SharedCall)
    (hrun : (Machine.run call ⟨w, []⟩ calls).isSome) :
    Machine.Throughout call Balanced ⟨w, []⟩ calls ↔ Machine.Each call Tidy ⟨w, []⟩ calls := by
  have hkept : Kept ⟨w, []⟩ := ⟨List.nodup_nil, fun ring hring => by cases hring⟩
  have hbalanced : Balanced ⟨w, []⟩ := by
    rw [Balanced, World.mapped, hw]
    rfl
  exact Machine.throughout_iff_each (fun p c out p' hp hcall => (kept_call hp hcall).1)
    (fun p c out p' hp hb hcall => (kept_call hp hcall).2 hb) calls _ hkept hbalanced hrun

/-- Nothing is mapped, and there are no objects. -/
def nothing : Shared :=
  { names := fun _ => none
    objects := fun _ => []
    fresh := 0
    mappings := [] }

/-- A ring is created and opened once more, and a handle without an object is tried; then the
ring that was opened is freed. -/
theorem rings_unmapped_opened :
    Machine.Throughout call Balanced ⟨nothing, []⟩
      [.create .allSucceed [117] 4096 [] 0 1 1, .openShared .allSucceed [117],
        .openShared .allSucceed [118], .free .allSucceed (some 2)] ↔
      Machine.Each call Tidy ⟨nothing, []⟩
        [.create .allSucceed [117] 4096 [] 0 1 1, .openShared .allSucceed [117],
          .openShared .allSucceed [118], .free .allSucceed (some 2)] :=
  rings_unmapped_iff rfl _ (by decide +kernel)

/-- Of a ring that is created and freed, the buffer stays mapped. -/
theorem freed_ring_stays :
    (Machine.run call ⟨nothing, []⟩
        [.create .allSucceed [117] 4096 [] 0 1 1, .free .allSucceed (some 0)]).map
        (fun r => (r.2.world.mapped, r.2.live)) = some (4096, []) ∧
      ¬ Machine.Throughout call Balanced ⟨nothing, []⟩
        [.create .allSucceed [117] 4096 [] 0 1 1, .free .allSucceed (some 0)] := by
  have hrun : (Machine.run call ⟨nothing, []⟩
      [.create .allSucceed [117] 4096 [] 0 1 1, .free .allSucceed (some 0)]).map
      (fun r => (r.2.world.mapped, r.2.live)) = some (4096, []) := by decide +kernel
  refine ⟨hrun, fun hthrough => ?_⟩
  obtain ⟨⟨outs, p⟩, hresult, hvalues⟩ := Option.map_eq_some_iff.mp hrun
  have hbalanced : p.Balanced := Machine.last_of_throughout _ _ outs p hthrough hresult
  rw [Prod.mk.injEq] at hvalues
  rw [Balanced, hvalues.1, hvalues.2] at hbalanced
  cases hbalanced

end Process

end Csnip
