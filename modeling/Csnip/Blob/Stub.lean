/-
From a file to an array.

`dstub` prints the declaration of an array that is as long as a file and begins with a signature, a
compiler makes an object file of it, and `blobit` copies the file over the signature.  The compiler
is not part of the repository: `Compiled` is what is assumed of the bytes of the array, at the place
it has given them.  `dstub` puts the characters of the signature between the quotes as they are, and
a compiler takes a backslash, a quote or a question mark there for something else; only signatures
of characters that stand for themselves (`Plain`) are looked at.

The array is as long as the file, so that the file fits and nothing behind the array is touched.  It
may be shorter than the signature.  The language does not allow such an initializer; compilers warn
and take the front of it, and that is assumed here.  What the rest of the signature is compared with
is whatever stands behind the array (`occursAt_iff`).
-/
import Csnip.Blob.Blobit

namespace Csnip.Dstub

open Memory Shm Blobit

/-! ### The stub -/

/-- `VARIABLE`: "blob1" -/
def VARIABLE : List UInt8 := [98, 108, 111, 98, 49]

/-- `const char <name>[<size>] = "<signature>";` -/
structure Declaration where
  name : List UInt8
  size : ℕ
  signature : List UInt8
deriving Repr, DecidableEq

/-- How a run of `dstub` ends. -/
inductive Report
  | args
  | couldNotOpen
  | printed (d : Declaration)
deriving Repr, DecidableEq

/-- The value that `main` returns with it. -/
def Report.code : Report → ℤ
  | .args | .couldNotOpen => 1
  | .printed _ => 0

/-- `main`, with the arguments behind the name of the program. -/
def main (fopenSucceeds : Bool) (w : Files) : List (List UInt8) → Report
  | [] => .args
  | fileUri :: more =>
      match fopen fopenSucceeds w fileUri with
      | none => .couldNotOpen
      | some f =>
          .printed
            { name := more.headD VARIABLE
              size := (w.objects f).length
              signature := more.tail.headD SIGNATURE }

/-! ### The array -/

/-- A character that stands for itself in a string literal: it can be printed, and it is no quote,
backslash or question mark. -/
def Plain (c : UInt8) : Prop := 0x20 ≤ c ∧ c ≤ 0x7E ∧ c ≠ 0x22 ∧ c ≠ 0x5C ∧ c ≠ 0x3F

instance : DecidablePred Plain := fun _ => inferInstanceAs (Decidable (_ ∧ _))

/-- What stands for the characters between two quotes: plain ones are themselves.  Nothing is said
of others. -/
def literal (text : List UInt8) : Option (List UInt8) :=
  if text.all fun c => decide (Plain c) then some text else none

/-- The bytes of the array: those of its initializer as far as there is room, then zeros. -/
def Declaration.array (d : Declaration) : Option (List UInt8) :=
  (literal d.signature).map fun chars => (chars ++ List.replicate d.size 0).take d.size

/-- The object file has the array at a place. -/
structure Compiled (d : Declaration) (object : List UInt8) (place : ℕ) : Prop where
  inside : place + d.size ≤ object.length
  holds : ∀ bytes, d.array = some bytes → (object.drop place).take d.size = bytes

/-- What a program that is linked with the object file finds from `<name>` to `<name>_end`. -/
def Declaration.value (d : Declaration) (object : List UInt8) (place : ℕ) : List UInt8 :=
  (object.drop place).take d.size

section Place

variable {d : Declaration} {object : List UInt8} {place : ℕ}

theorem Declaration.array_of_plain (hplain : ∀ c ∈ d.signature, Plain c) :
    d.array = some ((d.signature ++ List.replicate d.size 0).take d.size) := by
  have hall : d.signature.all (fun c => decide (Plain c)) = true :=
    List.all_eq_true.mpr fun c hc => decide_eq_true (hplain c hc)
  rw [Declaration.array, literal, if_pos hall, Option.map_some]

/-- The signature stands there if what of it is not in the array follows it. -/
theorem Compiled.occursAt_iff (h : Compiled d object place)
    (hplain : ∀ c ∈ d.signature, Plain c) : OccursAt d.signature object place ↔
      d.signature.drop d.size <+: object.drop (place + d.size) := by
  have hsplit : object.drop place = (d.signature ++ List.replicate d.size 0).take d.size
      ++ object.drop (place + d.size) := by
    rw [← h.holds _ (d.array_of_plain hplain), ← List.drop_drop, List.take_append_drop]
  rw [OccursAt, hsplit, List.take_append]
  by_cases hfits : d.signature.length ≤ d.size
  · rw [List.take_of_length_le hfits, List.drop_of_length_le hfits, List.append_assoc]
    exact iff_of_true (List.prefix_append _ _) List.nil_prefix
  · have hcut : d.size - d.signature.length = 0 := by omega
    have hrest : d.signature.take d.size ++ d.signature.drop d.size <+:
        d.signature.take d.size ++ object.drop (place + d.size) ↔
          d.signature.drop d.size <+: object.drop (place + d.size) :=
      List.prefix_append_right_inj _
    rw [List.take_append_drop] at hrest
    rw [hcut, List.take_zero, List.append_nil]
    exact hrest

end Place

/-! ### Both programs -/

section Script

variable {w : Files} {fileUri objectUri name signature payload object : List UInt8}

/-- The declaration is as long as the file. -/
theorem main_eq (hfile : w.image fileUri = some payload) :
    main true w [fileUri, name, signature] = .printed ⟨name, payload.length, signature⟩ := by
  obtain ⟨f, hf, rfl⟩ := Option.map_eq_some_iff.mp hfile
  have hopen : fopen true w fileUri = some f := by rw [fopen, if_pos rfl, hf]
  rw [main, hopen]
  rfl

theorem blobit_embeds {offset : ℕ} (hsig : signature ≠ []) (hfile : w.image fileUri = some payload)
    (hobject : w.image objectUri = some object) (hfirst : FirstAt signature object offset)
    (hfits : offset + payload.length ≤ object.length) :
    ∃ w' object', Blobit.main .allSucceed w [objectUri, fileUri, signature]
        = some (.embedded offset, w') ∧
      w'.image objectUri = some object' ∧ Spliced object payload offset object' := by
  obtain ⟨fobj, hfobj, rfl⟩ := Option.map_eq_some_iff.mp hobject
  obtain ⟨femb, hfemb, rfl⟩ := Option.map_eq_some_iff.mp hfile
  have hobj : fopen true w objectUri = some fobj := by rw [fopen, if_pos rfl, hfobj]
  have hemb : fopen true w fileUri = some femb := by rw [fopen, if_pos rfl, hfemb]
  have hembeds : EmbedsOnly .allSucceed w objectUri fileUri [signature] (w.objects fobj)
      (w.objects femb) := embedsOnly_of_fits hobj hemb hsig hobject rfl hfirst hfits (.inr rfl)
  obtain ⟨report, w', hrun, hreport⟩ := hembeds
  have hembedded : report = .embedded offset := by
    have hmain := @main_found .allSucceed w objectUri fileUri [signature] fobj femb hobj hemb hsig
      offset rfl hfirst
    have hcopy := hmain.symm.trans hrun
    obtain ⟨w'', -, heq⟩ := Option.map_eq_some_iff.mp hcopy
    exact (Prod.mk.inj heq).1.symm
  subst hembedded
  rcases hreport with ⟨hcode, -⟩ | ⟨offset', object', hsame, -, himage, hspliced⟩
  · cases hcode
  · cases hsame
    exact ⟨w', object', hrun, himage, hspliced⟩

theorem blobit_finds_nothing (hsig : signature ≠ []) (hfile : w.image fileUri = some payload)
    (hobject : w.image objectUri = some object) (hno : ∀ p, ¬ OccursAt signature object p) :
    ∃ w', Blobit.main .allSucceed w [objectUri, fileUri, signature]
        = some (.signatureNotFound, w') ∧ w'.image objectUri = some object := by
  obtain ⟨fobj, hfobj, rfl⟩ := Option.map_eq_some_iff.mp hobject
  obtain ⟨femb, hfemb, rfl⟩ := Option.map_eq_some_iff.mp hfile
  have hobj : fopen true w objectUri = some fobj := by rw [fopen, if_pos rfl, hfobj]
  have hemb : fopen true w fileUri = some femb := by rw [fopen, if_pos rfl, hfemb]
  have hnone := (memmem_eq_none_iff hsig).mpr hno
  have hsearch : memmemAt (mappedBoth .allSucceed w fobj femb) (objAddress .allSucceed w fobj)
      (w.objects fobj).length signature = some none := by
    rw [memmemAt_eq hsig, if_pos (.inr rfl), hnone]
  refine ⟨mappedBoth .allSucceed w fobj femb, (main_opened hobj hemb).trans ?_, ?_⟩
  · exact congrArg (fun r => Option.bind r _) hsearch
  · rw [image_mappedBoth]
    exact hobject

end Script

/-! ### The result -/

/-- **The array becomes the file.**  All calls succeed.  The object file is compiled from the
declaration that was printed for the file and a signature of plain characters, and has the signature
nowhere else.  `blobit` then embeds the file exactly if what the array has no room for of the
signature stands behind it, and so whenever the file is as long as the signature: a program that is
linked with the object has the file in the array, and everything else is as it was compiled.
Otherwise it says that there is no signature, and changes nothing. -/
theorem array_becomes_file {w₀ w : Files} {fileUri objectUri name signature payload : List UInt8}
    {object : List UInt8} {d : Declaration} {place : ℕ} (hsig : signature ≠ [])
    (hplain : ∀ c ∈ signature, Plain c) (hfile₀ : w₀.image fileUri = some payload)
    (hstub : main true w₀ [fileUri, name, signature] = .printed d)
    (hcompiled : Compiled d object place)
    (honly : ∀ p, OccursAt signature object p → p = place) (hfile : w.image fileUri = some payload)
    (hobject : w.image objectUri = some object) :
    (signature.length ≤ payload.length →
      signature.drop payload.length <+: object.drop (place + payload.length)) ∧
    (signature.drop payload.length <+: object.drop (place + payload.length) →
      ∃ w' object', Blobit.main .allSucceed w [objectUri, fileUri, signature]
          = some (.embedded place, w') ∧ w'.image objectUri = some object' ∧
        d.value object' place = payload ∧ object'.length = object.length ∧
        ∀ i, i < place ∨ place + payload.length ≤ i → object'[i]? = object[i]?) ∧
    (¬ signature.drop payload.length <+: object.drop (place + payload.length) →
      ∃ w', Blobit.main .allSucceed w [objectUri, fileUri, signature]
          = some (.signatureNotFound, w') ∧ w'.image objectUri = some object) := by
  rw [main_eq hfile₀] at hstub
  obtain rfl := (Report.printed.inj hstub).symm
  have hoccurs := hcompiled.occursAt_iff hplain
  refine ⟨?_, ?_, ?_⟩
  · intro hlong
    rw [List.drop_of_length_le hlong]
    exact List.nil_prefix
  · intro hrest
    have hfirst : FirstAt signature object place :=
      ⟨hoccurs.mpr hrest, fun q hq hat => absurd (honly q hat) hq.ne⟩
    obtain ⟨w', object', hrun, himage, hspliced⟩ :=
      blobit_embeds hsig hfile hobject hfirst hcompiled.inside
    exact ⟨w', object', hrun, himage, hspliced.copied, hspliced.length_eq, hspliced.others⟩
  · intro hrest
    refine blobit_finds_nothing hsig hfile hobject fun p hat => hrest ?_
    exact hoccurs.mp (honly p hat ▸ hat)

/-- A file of three bytes, and an array with a signature of two. -/
theorem array_becomes_file_three :
    ∃ w' object', Blobit.main .allSucceed (twoFiles [9, 115, 116, 0, 9] [1, 2, 3])
        [[111], [102], [115, 116]] = some (.embedded 1, w') ∧ w'.image [111] = some object' ∧
      (object'.drop 1).take 3 = [1, 2, 3] ∧ object'.length = 5 ∧
      ∀ i, i < 1 ∨ 4 ≤ i → object'[i]? = [9, 115, 116, 0, 9][i]? := by
  have honly : ∀ p, OccursAt [115, 116] ([9, 115, 116, 0, 9] : List UInt8) p → p = 1 := by
    intro p hat
    have hle := hat.le (by decide)
    have hall : ∀ p < 4, OccursAt [115, 116] ([9, 115, 116, 0, 9] : List UInt8) p → p = 1 := by
      decide
    exact hall p (by simpa using Nat.lt_succ_of_le (Nat.le_of_add_le_add_right hle)) hat
  have hstub : main true (twoFiles [] [1, 2, 3]) [[102], VARIABLE, [115, 116]]
      = .printed ⟨VARIABLE, 3, [115, 116]⟩ := rfl
  have hplain : ∀ c ∈ ([115, 116] : List UInt8), Plain c := by decide +kernel
  have hcompiled : Compiled ⟨VARIABLE, 3, [115, 116]⟩ [9, 115, 116, 0, 9] 1 := by
    refine ⟨by decide, fun bytes hbytes => ?_⟩
    rw [Declaration.array_of_plain hplain] at hbytes
    exact Option.some.inj hbytes
  have hfile : (twoFiles [9, 115, 116, 0, 9] [1, 2, 3]).image [102] = some [1, 2, 3] := rfl
  have hobject : (twoFiles [9, 115, 116, 0, 9] [1, 2, 3]).image [111] = some [9, 115, 116, 0, 9] :=
    rfl
  have h := array_becomes_file (by decide) hplain rfl hstub hcompiled honly hfile hobject
  exact h.2.1 (h.1 (by decide))

end Csnip.Dstub
