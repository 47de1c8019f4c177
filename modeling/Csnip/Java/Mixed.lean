/-
A C process and a Java process on the same block.

The block of a ring is mapped by both.  A call of the C library works on the ring the block holds
(`Rb.ofImage`), and a method of the Java class on the bytes themselves, with `over` 0; the calls and
the methods come in any order, and no two of them overlap.  Together they are one bounded queue:
`mixed_refines_belt`.
-/
import Csnip.Java.Agree
import Csnip.Rb.Fifo
import Csnip.Rb.Members

namespace Csnip

open Memory LittleEndian

namespace JavaRB

/-- What one of the two does. -/
inductive MixedCall
  /-- A call of the C library. -/
  | c (call : Rb.Call)
  /-- `generic_read(destination,count,0)`, with room for the bytes. -/
  | read (destination : List UInt8) (count : ℕ) (room : count ≤ destination.length)
  /-- `generic_advance_read_index(count,0)`. -/
  | advanceReadIndex (count : ℕ)

/-- The call of the ring it is. -/
def MixedCall.asCall : MixedCall → Rb.Call
  | .c call => call
  | .read _ count _ => .read count
  | .advanceReadIndex count => .advanceReadIndex count

/-- The answer, and the block. -/
def mixedStep (mbb : Mbb) : MixedCall → Option (Rb.Out × Mbb)
  | .c call => do
      let rb ← Rb.ofImage mbb
      let (out, rb) ← rb.exec call
      return (out, rb.image)
  | .read destination count _ => do
      let (n, destination, mbb) ← genericRead mbb destination count 0
      return ({ ret := n.toNat, bytes := destination.take n.toNat }, mbb)
  | .advanceReadIndex count => do
      let (n, mbb) ← genericAdvanceReadIndex mbb count 0
      return ({ ret := n.toNat }, mbb)

/-- The block holds a ring that is the belt. -/
structure Holds (capacity : ℕ) (mbb : Mbb) (rb : Rb) : Prop where
  block : mbb = rb.image
  wf : Rb.WF rb
  stored : Rb.Stored rb
  size : rb.size = capacity

section Steps

variable {capacity : ℕ} {mbb : Mbb} {rb : Rb}

theorem Holds.mapped (h : Holds capacity mbb rb) (hfits : sizeofRb + capacity < 2 ^ 31) :
    Mapped rb :=
  ⟨h.wf, h.stored.laid, h.size.symm ▸ hfits⟩

/-- Whoever does it: the block holds the ring the call of the library leaves. -/
theorem mixedStep_eq (h : Holds capacity mbb rb) (hfits : sizeofRb + capacity < 2 ^ 31)
    {call : MixedCall} {out : Rb.Out} {rb' : Rb} (hrun : rb.exec call.asCall = some (out, rb')) :
    mixedStep mbb call = some (out, rb'.image) := by
  have hwf := h.wf
  have hmapped := h.mapped hfits
  rw [h.block]
  cases call with
  | c call =>
      have hexec : rb.exec call = some (out, rb') := hrun
      rw [mixedStep, Rb.ofImage_image hwf h.stored]
      simp only [Option.bind_eq_bind, Option.bind_some, hexec, Option.pure_def]
  | read destination count room =>
      have hroom : rb.readCount count 0 ≤ destination.length :=
        Nat.le_trans (Nat.min_le_left _ _) room
      obtain ⟨n, bytes, rb₁, hc, hjava⟩ := genericRead_image hmapped (Or.inl rfl) hroom
      have hread : rb.read count = some (n, bytes, rb₁) := hc
      have hlen : bytes.length = n := by
        obtain ⟨rb₂, hread', -⟩ := Rb.read_consumes hwf count
        rw [hread] at hread'
        cases hread'
        rw [List.length_take, Rb.length_queue hwf, Nat.min_eq_left (Nat.min_le_right _ _)]
      have hout : rb.exec (.read count) = some ({ ret := n, bytes := bytes }, rb₁) := by
        rw [Rb.exec, hread, Option.map_some]
      obtain ⟨rfl, rfl⟩ := Prod.mk.inj (Option.some.inj (hout.symm.trans hrun))
      have hfront : (overwrite destination 0 bytes).take n = bytes := by
        rw [overwrite, List.take_zero, List.nil_append, ← hlen, List.take_left]
      rw [Nat.cast_zero] at hjava
      rw [mixedStep, hjava]
      simp only [Option.bind_eq_bind, Option.bind_some, Int.toNat_natCast, hfront, Option.pure_def]
  | advanceReadIndex count =>
      obtain ⟨n, rb₁, hc, hjava⟩ : ∃ n rb₁, rb.genericAdvanceReadIndex count 0 = some (n, rb₁) ∧
          genericAdvanceReadIndex rb.image count (0 : ℕ) = some ((n : ℤ), rb₁.image) :=
        genericAdvanceReadIndex_image hmapped (Or.inl rfl)
      have hadvance : rb.advanceReadIndex count = some (n, rb₁) := hc
      have hout : rb.exec (.advanceReadIndex count) = some ({ ret := n }, rb₁) := by
        rw [Rb.exec, hadvance, Option.map_some]
      obtain ⟨rfl, rfl⟩ := Prod.mk.inj (Option.some.inj (hout.symm.trans hrun))
      rw [Nat.cast_zero] at hjava
      rw [mixedStep, hjava]
      simp only [Option.bind_eq_bind, Option.bind_some, Int.toNat_natCast, Option.pure_def]

end Steps

/-- What the calls of both do to a belt. -/
def MixedBeltStep {capacity : ℕ} (b : Belt capacity) (call : MixedCall) (out : Rb.Out)
    (b' : Belt capacity) : Prop :=
  Belt.Step b call.asCall out b'

/-- **Two processes, two languages, one bounded queue.**

From the block of any ring that Java can map, whatever calls of the C library and methods of the
Java class follow each other, none is undefined, their answers are those of the belt the ring is,
and the block they leave is the one of a ring that carries the belt: what either side writes is what
the two read, in order. -/
theorem mixed_refines_belt {capacity : ℕ} {rb₀ : Rb} (hwf : Rb.WF rb₀) (hstored : Rb.Stored rb₀)
    (hsize : rb₀.size = capacity) (hfits : sizeofRb + capacity < 2 ^ 31) (calls : List MixedCall)
    (hcalls : ∀ call ∈ calls, call.asCall.Sequential) :
    ∃ outs rb, ∃ b : Belt capacity,
      Machine.run mixedStep rb₀.image calls = some (outs, rb.image) ∧
      Machine.Run MixedBeltStep (rb₀.belt hwf hsize) calls outs b ∧
      rb.Carries b ∧ Rb.Stored rb := by
  have hsim : ∀ (mbb : Mbb) (b : Belt capacity) (call : MixedCall), call.asCall.Sequential →
      (∃ rb, Holds capacity mbb rb ∧ rb.Carries b) →
      ∃ out mbb' b', mixedStep mbb call = some (out, mbb') ∧ MixedBeltStep b call out b' ∧
        ∃ rb, Holds capacity mbb' rb ∧ rb.Carries b' := by
    intro mbb b call hcall hrel
    obtain ⟨rb, hholds, hrb, hsz, rfl⟩ := hrel
    obtain ⟨out, rb', hwf', hsz', hrun, hstep⟩ := Rb.exec_refines hcall hrb hsz
    exact ⟨out, rb'.image, _, mixedStep_eq hholds hfits hrun, hstep, rb',
      ⟨rfl, hwf', Rb.exec_stored hrb hholds.stored hrun, hsz'⟩, hwf', hsz', rfl⟩
  obtain ⟨outs, mbb, b, hrun, hRun, rb, hholds, hcarries⟩ :=
    Machine.run_refines hsim calls rb₀.image (rb₀.belt hwf hsize) hcalls
      ⟨rb₀, ⟨rfl, hwf, hstored, hsize⟩, hwf, hsize, rfl⟩
  exact ⟨outs, rb, b, hholds.block ▸ hrun, hRun, hcarries, hholds.stored⟩

/-- C writes three bytes to a ring of three, Java reads two of them, C writes one more, Java skips
one and C reads the last one. -/
def mixedCalls : List MixedCall :=
  [.c (.write [1, 2, 3] 3 (Nat.le_refl 3)), .read [0, 0, 0] 2 (Nat.le_succ 2),
    .c (.write [4] 1 (Nat.le_refl 1)), .advanceReadIndex 1, .c (.read 5)]

theorem stored_cleared {size : ℕ} (hpos : 1 ≤ size) (hfits : sizeofRb + size < 2 ^ 31) :
    Rb.Stored (Rb.cleared size) where
  laid := (mapped_cleared hpos hfits).laid
  version := show rbVersion < 256 ^ 4 by decide
  ints := show ∀ z ∈ [0, 0, 1, 1, 1, 0, 0, 0, 1, 1], signed 4 z = z by decide
  counts := ⟨Rb.zero_word, Rb.zero_word, Rb.zero_word, Rb.zero_word, Rb.zero_word⟩

theorem mixed_refines_belt_three : ∃ (outs : List Rb.Out) (rb : Rb) (b : Belt 3),
    Machine.run mixedStep (Rb.cleared 3).image mixedCalls = some (outs, rb.image) ∧
      rb.Carries b := by
  have hmapped : Mapped (Rb.cleared 3) := mapped_cleared (by decide) (by decide)
  have hcalls : ∀ call ∈ mixedCalls, call.asCall.Sequential := by
    simp [mixedCalls, MixedCall.asCall, Rb.Call.Sequential]
  obtain ⟨outs, rb, b, hrun, -, hcarries, -⟩ := mixed_refines_belt hmapped.wf
    (stored_cleared (by decide) (by decide)) rfl (by decide) mixedCalls hcalls
  exact ⟨outs, rb, b, hrun, hcarries⟩

end JavaRB

end Csnip
