/-
Embedding a file into an object file.

`main` of blobit.c maps the object and the file, searches the object for the signature, and
copies the file over it.  It never compares the length of the file with the room behind the
signature, and it takes `mmap` to answer `NULL` when it fails.  The files and the mappings are
those of `Shm`: what is copied behind the end of the object but into its last page is not
kept, and a copy that goes further has no meaning.

The messages are left out, but for which one a run ends with.  The two calls of `munmap` at
the end are left out as well: they get the closed streams and not the mappings, and are
refused.
-/
import Csnip.Lib.Shm

namespace Csnip.Blobit

open Memory Shm

/-! ### The program -/

/-- The files with their names, and what the process has mapped. -/
abbrev Files := World (List UInt8)

/-- Which of the calls succeed, where they can. -/
structure Sys where
  fopenObj : Bool
  fopenEmb : Bool
  mmapObj : Bool
  mmapEmb : Bool
deriving Repr, DecidableEq

/-- What `mmap` may answer. -/
inductive Address where
  | null
  | mapFailed
  | mapped (address : ℕ)
deriving Repr, DecidableEq

/-- How a run ends. -/
inductive Report where
  | args
  | couldNotOpen
  | couldNotMap
  | signatureNotFound
  | embedded (offset : ℕ)
deriving Repr, DecidableEq

/-- The value that `main` returns with it. -/
def Report.code : Report → ℤ
  | .args | .couldNotOpen | .couldNotMap | .signatureNotFound => 1
  | .embedded _ => 0

/-- `SIGNATURE`: "__signature__" -/
def SIGNATURE : List UInt8 := [95, 95, 115, 105, 103, 110, 97, 116, 117, 114, 101, 95, 95]

/-- `fopen` of a file that must be there. -/
def fopen (succeeds : Bool) (w : Files) (uri : List UInt8) : Option ℕ :=
  if succeeds then w.names uri else none

/-- `mmap` of a whole file: an empty one is refused. -/
def mmap (succeeds : Bool) (w : Files) (fd length : ℕ) : Address × Files :=
  match (if succeeds then w.mmap fd length else none) with
  | none => (.mapFailed, w)
  | some (address, w) => (.mapped address, w)

/-- Read memory behind an address. -/
def Address.load (w : Files) (p n : ℕ) : Address → Option (List UInt8)
  | .mapped address => w.load address p n
  | .null | .mapFailed => none

/-- Store to memory behind an address. -/
def Address.store (w : Files) (p : ℕ) (bytes : List UInt8) : Address → Option Files
  | .mapped address => w.store address p bytes
  | .null | .mapFailed => none

/-- `memmem(obj, obj_len, signature, strlen(signature))`, as an offset.  An empty signature is
found at once, and one that is longer than the object is not looked for. -/
def memmemAt (w : Files) (obj : Address) (objLen : ℕ) (signature : List UInt8) :
    Option (Option ℕ) :=
  if signature = [] then some (some 0)
  else if objLen < signature.length then some none
  else (obj.load w 0 objLen).map fun object => memmem object signature

/-- `memcpy(obj+offset, emb, emb_len)`, which does not touch memory if there is nothing to
copy. -/
def memcpyAt (w : Files) (obj : Address) (offset : ℕ) (emb : Address) (embLen : ℕ) :
    Option Files :=
  if embLen = 0 then some w
  else (emb.load w 0 embLen).bind fun bytes => obj.store w offset bytes

/-- `main`, with the arguments behind the name of the program: how it ends, and the files. -/
def main (sys : Sys) (w : Files) : List (List UInt8) → Option (Report × Files)
  | objectUri :: fileUri :: more =>
      let signature := more.headD SIGNATURE
      match fopen sys.fopenObj w objectUri, fopen sys.fopenEmb w fileUri with
      | some fobj, some femb =>
          let objLen := (w.objects fobj).length
          let embLen := (w.objects femb).length
          let (obj, w) := mmap sys.mmapObj w fobj objLen
          let (emb, w) := mmap sys.mmapEmb w femb embLen
          if obj = .null ∨ emb = .null then some (.couldNotMap, w)
          else
            -- find signature offset
            (memmemAt w obj objLen signature).bind fun
              | none => some (.signatureNotFound, w)
              | some offset =>
                  -- copy from embed to object at offset
                  (memcpyAt w obj offset emb embLen).map fun w => (.embedded offset, w)
      | _, _ => some (.couldNotOpen, w)
  | _ => some (.args, w)

/-! ### What embedding is for -/

/-- Only the bytes from the offset on, as many as the payload has, are not what they were, and
they are the payload. -/
structure Spliced (image payload : List UInt8) (offset : ℕ) (image' : List UInt8) : Prop where
  length_eq : image'.length = image.length
  inside : offset + payload.length ≤ image.length
  copied : (image'.drop offset).take payload.length = payload
  others : ∀ i, i < offset ∨ offset + payload.length ≤ i → image'[i]? = image[i]?

/-- The program reports a failure and leaves the object as it was, or it embeds the payload at
the first place of the signature. -/
def EmbedsOnly (sys : Sys) (w : Files) (objectUri fileUri : List UInt8)
    (more : List (List UInt8)) (image payload : List UInt8) : Prop :=
  ∃ report w', main sys w (objectUri :: fileUri :: more) = some (report, w') ∧
    (report.code = 1 ∧ w'.image objectUri = some image ∨
      ∃ offset image', report = .embedded offset ∧
        FirstAt (more.headD SIGNATURE) image offset ∧
        w'.image objectUri = some image' ∧ Spliced image payload offset image')

/-- Both files are mapped when they are looked at, and the payload fits behind the
signature. -/
def Fits (sys : Sys) (image payload signature : List UInt8) : Prop :=
  sys.fopenObj = true → sys.fopenEmb = true → signature.length ≤ image.length →
    sys.mmapObj = true ∧ ∀ offset, FirstAt signature image offset →
      offset + payload.length ≤ image.length ∧ (payload = [] ∨ sys.mmapEmb = true)

/-! ### What the calls come to -/

section Calls

variable {w : Files}

theorem names_of_fopen {succeeds : Bool} {uri : List UInt8} {fd : ℕ}
    (h : fopen succeeds w uri = some fd) : w.names uri = some fd := by
  rw [fopen] at h
  split at h
  · exact h
  · cases h

theorem mmap_cases (succeeds : Bool) (w : Files) (fd length : ℕ) :
    (mmap succeeds w fd length = (.mapFailed, w) ∧ ¬ (succeeds = true ∧ length ≠ 0)) ∨
      (mmap succeeds w fd length = (.mapped w.mappings.length, w.extend fd length) ∧
        succeeds = true ∧ length ≠ 0) := by
  by_cases hsucceeds : succeeds = true
  · by_cases hlength : length = 0
    · refine .inl ⟨?_, fun hboth => hboth.2 hlength⟩
      rw [mmap, if_pos hsucceeds, World.mmap, if_pos hlength]
    · refine .inr ⟨?_, hsucceeds, hlength⟩
      rw [mmap, if_pos hsucceeds, World.mmap, if_neg hlength]
  · refine .inl ⟨?_, fun hboth => hsucceeds hboth.1⟩
    rw [mmap, if_neg hsucceeds]

theorem mmap_of_fails {succeeds : Bool} {fd length : ℕ} (hfails : ¬ succeeds = true) :
    (mmap succeeds w fd length).1 = .mapFailed := by
  rw [mmap, if_neg hfails]

@[simp] theorem mmap_ne_null (succeeds : Bool) (w : Files) (fd length : ℕ) :
    (mmap succeeds w fd length).1 ≠ .null := by
  rcases mmap_cases succeeds w fd length with ⟨hmap, -⟩ | ⟨hmap, -⟩
  · rw [hmap]
    exact Address.noConfusion
  · rw [hmap]
    exact Address.noConfusion

@[simp] theorem objects_mmap (succeeds : Bool) (w : Files) (fd length : ℕ) :
    (mmap succeeds w fd length).2.objects = w.objects := by
  rcases mmap_cases succeeds w fd length with ⟨hmap, -⟩ | ⟨hmap, -⟩
  · rw [hmap]
  · rw [hmap]
    rfl

@[simp] theorem names_mmap (succeeds : Bool) (w : Files) (fd length : ℕ) :
    (mmap succeeds w fd length).2.names = w.names := by
  rcases mmap_cases succeeds w fd length with ⟨hmap, -⟩ | ⟨hmap, -⟩
  · rw [hmap]
  · rw [hmap]
    rfl

/-- The object is at the address, from its first byte on. -/
def At (w : Files) (fd n : ℕ) (a : Address) : Prop :=
  ∃ address, a = .mapped address ∧ w.mappings[address]? = some ⟨fd, 0, n⟩

/-- A file that is not empty can be mapped. -/
theorem mmap_at (fd : ℕ) {bytes : List UInt8} (hsome : bytes ≠ []) :
    At (mmap true w fd bytes.length).2 fd bytes.length (mmap true w fd bytes.length).1 := by
  rcases mmap_cases true w fd bytes.length with ⟨-, hno⟩ | ⟨hmap, -⟩
  · have hlength : bytes.length ≠ 0 := fun hzero => hsome (List.length_eq_zero_iff.mp hzero)
    exact absurd ⟨rfl, hlength⟩ hno
  · rw [hmap]
    exact ⟨_, rfl, World.mapping_extend w fd bytes.length⟩

/-- Mapping another file leaves it there. -/
theorem At.mmap {fd n : ℕ} {a : Address} (h : At w fd n a) (succeeds : Bool) (fd' length : ℕ) :
    At (mmap succeeds w fd' length).2 fd n a := by
  obtain ⟨address, rfl, hmapping⟩ := h
  have hlt := (List.getElem?_eq_some_iff.mp hmapping).1
  refine ⟨address, rfl, ?_⟩
  rcases mmap_cases succeeds w fd' length with ⟨hmap, -⟩ | ⟨hmap, -⟩
  · rw [hmap]
    exact hmapping
  · rw [hmap]
    exact (World.mapping_extend_of_lt hlt).trans hmapping

end Calls

/-! ### The run -/

section Run

/-- Where the object is mapped. -/
def objAddress (sys : Sys) (w : Files) (fobj : ℕ) : Address :=
  (mmap sys.mmapObj w fobj (w.objects fobj).length).1

/-- Where the file is mapped, behind the object. -/
def embAddress (sys : Sys) (w : Files) (fobj femb : ℕ) : Address :=
  (mmap sys.mmapEmb (mmap sys.mmapObj w fobj (w.objects fobj).length).2 femb
    (w.objects femb).length).1

/-- The files once both are mapped. -/
def mappedBoth (sys : Sys) (w : Files) (fobj femb : ℕ) : Files :=
  (mmap sys.mmapEmb (mmap sys.mmapObj w fobj (w.objects fobj).length).2 femb
    (w.objects femb).length).2

variable {sys : Sys} {w : Files} {objectUri fileUri signature : List UInt8}
  {more : List (List UInt8)} {fobj femb : ℕ}

@[simp] theorem objects_mappedBoth : (mappedBoth sys w fobj femb).objects = w.objects := by
  rw [mappedBoth, objects_mmap, objects_mmap]

theorem image_mappedBoth : (mappedBoth sys w fobj femb).image = w.image := by
  funext name
  rw [World.image, World.image, objects_mappedBoth, mappedBoth, names_mmap, names_mmap]

theorem main_opened (hobj : fopen sys.fopenObj w objectUri = some fobj)
    (hemb : fopen sys.fopenEmb w fileUri = some femb) :
    main sys w (objectUri :: fileUri :: more)
      = (memmemAt (mappedBoth sys w fobj femb) (objAddress sys w fobj) (w.objects fobj).length
          (more.headD SIGNATURE)).bind fun
        | none => some (.signatureNotFound, mappedBoth sys w fobj femb)
        | some offset =>
            (memcpyAt (mappedBoth sys w fobj femb) (objAddress sys w fobj) offset
              (embAddress sys w fobj femb) (w.objects femb).length).map
              fun w => (.embedded offset, w) := by
  have hnull : ¬ (objAddress sys w fobj = .null ∨ embAddress sys w fobj femb = .null) :=
    not_or.mpr ⟨mmap_ne_null _ _ _ _, mmap_ne_null _ _ _ _⟩
  rw [main, hobj, hemb]
  exact if_neg hnull

/-- The object is not empty, and mapped. -/
theorem objAddress_at (hmap : sys.mmapObj = true) (hsome : w.objects fobj ≠ []) :
    At (mappedBoth sys w fobj femb) fobj (w.objects fobj).length (objAddress sys w fobj) := by
  rw [objAddress, mappedBoth, hmap]
  exact (mmap_at fobj hsome).mmap _ _ _

theorem embAddress_at (hmap : sys.mmapEmb = true) (hsome : w.objects femb ≠ []) :
    At (mappedBoth sys w fobj femb) femb (w.objects femb).length
      (embAddress sys w fobj femb) := by
  rw [embAddress, mappedBoth, hmap]
  exact mmap_at femb hsome

/-- All of a file that is mapped can be read. -/
theorem At.load {fd n : ℕ} {a : Address} (h : At w fd n a) (hn : n = (w.objects fd).length) :
    a.load w 0 n = some (w.objects fd) := by
  obtain ⟨address, rfl, hmapping⟩ := h
  rw [Address.load, World.load_of_le hmapping (by omega), List.drop_zero,
    List.take_of_length_le (by omega)]

/-- The search, once both files are mapped. -/
theorem memmemAt_eq (hsig : signature ≠ []) :
    memmemAt (mappedBoth sys w fobj femb) (objAddress sys w fobj) (w.objects fobj).length
        signature
      = if (w.objects fobj).length < signature.length ∨ sys.mmapObj = true then
          some (memmem (w.objects fobj) signature)
        else none := by
  rw [memmemAt, if_neg hsig]
  by_cases hshort : (w.objects fobj).length < signature.length
  · have hnone : memmem (w.objects fobj) signature = none :=
      (memmem_eq_none_iff hsig).mpr fun p hat => by
        have hle := hat.le hsig
        omega
    rw [if_pos hshort, if_pos (.inl hshort), hnone]
  · rw [if_neg hshort]
    by_cases hmap : sys.mmapObj = true
    · have hsome : w.objects fobj ≠ [] := by
        intro hnil
        have hpos := List.length_pos_iff.mpr hsig
        rw [hnil, List.length_nil] at hshort
        omega
      have hat : At (mappedBoth sys w fobj femb) fobj (w.objects fobj).length
          (objAddress sys w fobj) := objAddress_at hmap hsome
      have hload := hat.load (by rw [objects_mappedBoth])
      rw [if_pos (.inr hmap), hload, objects_mappedBoth, Option.map_some]
    · rw [if_neg (not_or.mpr ⟨hshort, hmap⟩), objAddress, mmap_of_fails hmap]
      rfl

theorem memcpyAt_nil {obj emb : Address} {offset : ℕ} (hnil : w.objects femb = []) :
    memcpyAt w obj offset emb (w.objects femb).length = some w := by
  rw [memcpyAt, if_pos (by rw [hnil]; rfl)]

/-- The copy of a payload that is not mapped. -/
theorem memcpyAt_fails {offset : ℕ} (hfails : ¬ sys.mmapEmb = true)
    (hsome : w.objects femb ≠ []) :
    memcpyAt (mappedBoth sys w fobj femb) (objAddress sys w fobj) offset
      (embAddress sys w fobj femb) (w.objects femb).length = none := by
  have hlength : (w.objects femb).length ≠ 0 := fun hzero =>
    hsome (List.length_eq_zero_iff.mp hzero)
  rw [memcpyAt, if_neg hlength, embAddress, mmap_of_fails hfails]
  rfl

/-- The copy of a payload that fits. -/
theorem memcpyAt_fits {offset : ℕ} (hobj : sys.mmapObj = true) (hemb : sys.mmapEmb = true)
    (hsome : w.objects femb ≠ [])
    (hfits : offset + (w.objects femb).length ≤ (w.objects fobj).length) :
    ∃ w', memcpyAt (mappedBoth sys w fobj femb) (objAddress sys w fobj) offset
        (embAddress sys w fobj femb) (w.objects femb).length = some w' ∧
      w'.names = w.names ∧
      w'.objects fobj = overwrite (w.objects fobj) offset (w.objects femb) := by
  have hpos := List.length_pos_iff.mpr hsome
  have hobject : w.objects fobj ≠ [] := by
    intro hnil
    rw [hnil, List.length_nil] at hfits
    omega
  have hat : At (mappedBoth sys w fobj femb) femb (w.objects femb).length
      (embAddress sys w fobj femb) := embAddress_at hemb hsome
  have hload := hat.load (by rw [objects_mappedBoth])
  obtain ⟨address, haddress, hmapping⟩ : At (mappedBoth sys w fobj femb) fobj
      (w.objects fobj).length (objAddress sys w fobj) := objAddress_at hobj hobject
  have hstore : (mappedBoth sys w fobj femb).store address offset (w.objects femb) = some _ :=
    World.store_of_le hmapping (by rw [objects_mappedBoth]; omega)
  have hcopy : memcpyAt (mappedBoth sys w fobj femb) (objAddress sys w fobj) offset
      (embAddress sys w fobj femb) (w.objects femb).length
      = (mappedBoth sys w fobj femb).store address offset (w.objects femb) := by
    rw [memcpyAt, if_neg (by omega), hload, objects_mappedBoth, Option.bind_some, haddress]
    rfl
  rw [objects_mappedBoth] at hstore
  refine ⟨_, hcopy.trans hstore, ?_, Function.update_self ..⟩
  rw [mappedBoth, names_mmap, names_mmap]

/-- A file that cannot be opened is reported. -/
theorem embedsOnly_of_closed {image payload : List UInt8} (himage : w.image objectUri = some image)
    (h : fopen sys.fopenObj w objectUri = none ∨ fopen sys.fopenEmb w fileUri = none) :
    EmbedsOnly sys w objectUri fileUri more image payload := by
  refine ⟨.couldNotOpen, w, ?_, .inl ⟨rfl, himage⟩⟩
  rw [main]
  rcases h with hnone | hnone
  · rw [hnone]
  · rw [hnone]
    cases fopen sys.fopenObj w objectUri with
    | none => rfl
    | some fobj => rfl

/-- A payload that is embedded is there as a whole, and nothing else has changed. -/
theorem spliced_overwrite {image payload : List UInt8} {offset : ℕ}
    (hfits : offset + payload.length ≤ image.length) :
    Spliced image payload offset (overwrite image offset payload) where
  length_eq := length_overwrite hfits
  inside := hfits
  copied := take_drop_overwrite hfits
  others i hi := by rw [getElem?_overwrite hfits, if_neg (by omega)]

section Opened

variable (hobj : fopen sys.fopenObj w objectUri = some fobj)
  (hemb : fopen sys.fopenEmb w fileUri = some femb) (hsig : more.headD SIGNATURE ≠ [])

include hobj hemb hsig

/-- Without a signature the run reports it, and the object is as it was. -/
theorem embedsOnly_of_absent (himage : w.image objectUri = some (w.objects fobj))
    (hmap : (w.objects fobj).length < (more.headD SIGNATURE).length ∨ sys.mmapObj = true)
    (hno : ∀ offset, ¬ OccursAt (more.headD SIGNATURE) (w.objects fobj) offset) :
    EmbedsOnly sys w objectUri fileUri more (w.objects fobj) (w.objects femb) := by
  have hnone := (memmem_eq_none_iff hsig).mpr hno
  refine ⟨.signatureNotFound, mappedBoth sys w fobj femb, ?_, .inl ⟨rfl, ?_⟩⟩
  · rw [main_opened hobj hemb, memmemAt_eq hsig, if_pos hmap, hnone]
    rfl
  · rw [image_mappedBoth]
    exact himage

/-- With one, the run is as good as its copy. -/
theorem main_found {offset : ℕ} (hmap : sys.mmapObj = true)
    (hfirst : FirstAt (more.headD SIGNATURE) (w.objects fobj) offset) :
    main sys w (objectUri :: fileUri :: more)
      = (memcpyAt (mappedBoth sys w fobj femb) (objAddress sys w fobj) offset
          (embAddress sys w fobj femb) (w.objects femb).length).map
          fun w => (.embedded offset, w) := by
  have hfound := (memmem_eq_some_iff hsig).mpr hfirst
  rw [main_opened hobj hemb, memmemAt_eq hsig, if_pos (.inr hmap), hfound, Option.bind_some]

theorem embedsOnly_of_fits (himage : w.image objectUri = some (w.objects fobj)) {offset : ℕ}
    (hmap : sys.mmapObj = true)
    (hfirst : FirstAt (more.headD SIGNATURE) (w.objects fobj) offset)
    (hfits : offset + (w.objects femb).length ≤ (w.objects fobj).length)
    (hread : w.objects femb = [] ∨ sys.mmapEmb = true) :
    EmbedsOnly sys w objectUri fileUri more (w.objects fobj) (w.objects femb) := by
  have hmain := main_found hobj hemb hsig hmap hfirst
  by_cases hnil : w.objects femb = []
  · have hcopy := @memcpyAt_nil (mappedBoth sys w fobj femb) femb (objAddress sys w fobj)
      (embAddress sys w fobj femb) offset (by rw [objects_mappedBoth]; exact hnil)
    rw [objects_mappedBoth] at hcopy
    refine ⟨.embedded offset, mappedBoth sys w fobj femb, by rw [hmain, hcopy, Option.map_some],
      .inr ⟨offset, w.objects fobj, rfl, hfirst, ?_, ?_⟩⟩
    · rw [image_mappedBoth]
      exact himage
    · have hspliced := spliced_overwrite hfits
      rw [hnil, overwrite_nil] at hspliced
      rw [hnil]
      exact hspliced
  · obtain ⟨w', hcopy, hnames, hobjects⟩ :=
      memcpyAt_fits hmap (hread.resolve_left hnil) hnil hfits
    refine ⟨.embedded offset, w', by rw [hmain, hcopy, Option.map_some],
      .inr ⟨offset, _, rfl, hfirst, ?_, spliced_overwrite hfits⟩⟩
    have hname : w'.names objectUri = some fobj := by
      rw [hnames, names_of_fopen hobj]
    rw [World.image_of_some hname, hobjects]

/-- A run that embeds has its files mapped, and a payload that fits. -/
theorem fits_of_embedsOnly
    (h : EmbedsOnly sys w objectUri fileUri more (w.objects fobj) (w.objects femb))
    (hlen : (more.headD SIGNATURE).length ≤ (w.objects fobj).length) :
    sys.mmapObj = true ∧ ∀ offset, FirstAt (more.headD SIGNATURE) (w.objects fobj) offset →
      offset + (w.objects femb).length ≤ (w.objects fobj).length ∧
        (w.objects femb = [] ∨ sys.mmapEmb = true) := by
  obtain ⟨report, w', hrun, hreport⟩ := h
  have hmap : sys.mmapObj = true := by
    by_contra hfails
    rw [main_opened hobj hemb, memmemAt_eq hsig,
      if_neg (not_or.mpr ⟨Nat.not_lt.mpr hlen, hfails⟩)] at hrun
    cases hrun
  refine ⟨hmap, fun offset hfirst => ?_⟩
  rw [main_found hobj hemb hsig hmap hfirst] at hrun
  constructor
  · obtain ⟨w'', -, heq⟩ := Option.map_eq_some_iff.mp hrun
    cases heq
    rcases hreport with ⟨hcode, -⟩ | ⟨offset', image', hsame, -, -, hspliced⟩
    · cases hcode
    · cases hsame
      exact hspliced.inside
  · by_contra hno
    obtain ⟨hsome, hfails⟩ := not_or.mp hno
    rw [memcpyAt_fails hfails hsome] at hrun
    cases hrun

end Opened

end Run

/-- **When embedding touches only its own bytes**: exactly if a file cannot be opened, or the
object is shorter than the signature, or the object is mapped and, where the signature stands
first, the payload is mapped and fits in front of the end of the object. -/
theorem embeds_only_iff (sys : Sys) {w : Files} {objectUri fileUri : List UInt8}
    {more : List (List UInt8)} {image payload : List UInt8}
    (himage : w.image objectUri = some image) (hpayload : w.image fileUri = some payload)
    (hsig : more.headD SIGNATURE ≠ []) :
    EmbedsOnly sys w objectUri fileUri more image payload ↔
      Fits sys image payload (more.headD SIGNATURE) := by
  obtain ⟨fobj, hfobj, rfl⟩ := Option.map_eq_some_iff.mp himage
  obtain ⟨femb, hfemb, rfl⟩ := Option.map_eq_some_iff.mp hpayload
  by_cases hopened : sys.fopenObj = true ∧ sys.fopenEmb = true
  · have hobj : fopen sys.fopenObj w objectUri = some fobj := by
      rw [fopen, if_pos hopened.1, hfobj]
    have hemb : fopen sys.fopenEmb w fileUri = some femb := by
      rw [fopen, if_pos hopened.2, hfemb]
    constructor
    · intro h _ _ hlen
      exact fits_of_embedsOnly hobj hemb hsig h hlen
    · intro h
      by_cases hshort : (w.objects fobj).length < (more.headD SIGNATURE).length
      · refine embedsOnly_of_absent hobj hemb hsig himage (.inl hshort) fun offset hat => ?_
        have hle := hat.le hsig
        omega
      · obtain ⟨hmap, hfirst⟩ := h hopened.1 hopened.2 (Nat.not_lt.mp hshort)
        cases hfound : memmem (w.objects fobj) (more.headD SIGNATURE) with
        | none =>
            exact embedsOnly_of_absent hobj hemb hsig himage (.inr hmap)
              ((memmem_eq_none_iff hsig).mp hfound)
        | some offset =>
            have hat := (memmem_eq_some_iff hsig).mp hfound
            obtain ⟨hfits, hread⟩ := hfirst offset hat
            exact embedsOnly_of_fits hobj hemb hsig himage hmap hat hfits hread
  · refine iff_of_true (embedsOnly_of_closed himage ?_) fun hobj hemb =>
      absurd ⟨hobj, hemb⟩ hopened
    by_cases hobj : sys.fopenObj = true
    · refine .inr (if_neg fun hemb => hopened ⟨hobj, hemb⟩)
    · exact .inl (if_neg hobj)

/-- An object under the name "o" and a file under the name "f". -/
def twoFiles (image payload : List UInt8) : Files :=
  { names := fun name => if name = [111] then some 0 else if name = [102] then some 1 else none
    objects := fun fd => if fd = 0 then image else payload
    fresh := 2
    mappings := [] }

/-- All calls succeed. -/
def Sys.allSucceed : Sys := ⟨true, true, true, true⟩

/-- Two bytes in place of the two of the signature. -/
theorem embeds_only_two :
    EmbedsOnly .allSucceed (twoFiles [9, 115, 116, 9] [1, 2]) [111] [102] [[115, 116]]
        [9, 115, 116, 9] [1, 2] ↔
      Fits .allSucceed [9, 115, 116, 9] [1, 2] [115, 116] :=
  embeds_only_iff .allSucceed rfl rfl (by decide)

/-- Of a payload that is longer than what is left of the object, the front is embedded, and
success is reported. -/
theorem payload_cut_off :
    (∃ w', main .allSucceed (twoFiles [9, 115, 116] [1, 2, 3]) [[111], [102], [115, 116]]
        = some (.embedded 1, w') ∧ w'.image [111] = some [9, 1, 2]) ∧
      ¬ EmbedsOnly .allSucceed (twoFiles [9, 115, 116] [1, 2, 3]) [111] [102] [[115, 116]]
        [9, 115, 116] [1, 2, 3] := by
  have hrun : ∃ w', main .allSucceed (twoFiles [9, 115, 116] [1, 2, 3]) [[111], [102], [115, 116]]
      = some (.embedded 1, w') ∧ w'.image [111] = some [9, 1, 2] := ⟨_, rfl, rfl⟩
  refine ⟨hrun, ?_⟩
  intro ⟨report, w'', hrun', hreport⟩
  obtain ⟨w', hmain, -⟩ := hrun
  rw [hmain] at hrun'
  cases hrun'
  rcases hreport with ⟨hcode, -⟩ | ⟨offset, image', hsame, -, -, hspliced⟩
  · cases hcode
  · cases hsame
    exact absurd hspliced.inside (by decide)

end Csnip.Blobit
