/-
Following a file.

The loop of `main()` calls `walkFile(file,1)` again and again, and between two calls somebody else
appends lines to the file.  A call that finds the file longer prints its last line; so of the lines
that were appended between two calls the last one is printed and the others are not, and a line that
is alone is printed once and never again.

The exception is the first line of a file, which is not printed as long as it is the only one.
-/
import Csnip.Lib.Machine
import Csnip.Tailf.WalkFile

namespace Csnip

open Stdio

namespace Tailf

/-- A round of the loop: the file as it is found, and `prev_end`. -/
def followRound (prevEnd : ℤ) (file : Stream) : Option (List UInt8 × ℤ) :=
  (walkFile file prevEnd 1).map fun r => (r.written, r.prevEnd)

/-! ### Lines -/

/-- A file of complete lines. -/
def textOf (lines : List (List UInt8)) : List UInt8 := lines.flatMap (· ++ [newline])

/-- What a round prints that finds the lines of `group` behind those of `lines`. -/
def shownOf (lines group : List (List UInt8)) : List (List UInt8) :=
  if lines = [] ∧ group.length = 1 then [] else group.getLast?.toList

/-- What the rounds print that find one group after another. -/
def followed : List (List UInt8) → List (List (List UInt8)) → List (List (List UInt8))
  | _, [] => []
  | lines, group :: groups => shownOf lines group :: followed (lines ++ group) groups

section Lines

variable {lines group : List (List UInt8)} {line : List UInt8}

@[simp] theorem textOf_nil : textOf [] = [] := rfl

theorem textOf_append (lines group : List (List UInt8)) :
    textOf (lines ++ group) = textOf lines ++ textOf group := List.flatMap_append

theorem textOf_concat (lines : List (List UInt8)) (line : List UInt8) :
    textOf (lines ++ [line]) = textOf lines ++ (line ++ [newline]) := by
  rw [textOf_append, textOf, textOf, List.flatMap_singleton]

/-- A text that is not empty ends with a newline. -/
theorem textOf_eq_concat (h : lines ≠ []) : ∃ text, textOf lines = text ++ [newline] := by
  obtain ⟨front, line, rfl⟩ := (List.eq_nil_or_concat' lines).resolve_left h
  exact ⟨textOf front ++ line, by rw [textOf_concat, List.append_assoc]⟩

theorem length_textOf_lt (lines : List (List UInt8)) (h : group ≠ []) :
    (textOf lines).length < (textOf (lines ++ group)).length := by
  obtain ⟨text, htext⟩ := textOf_eq_concat h
  rw [textOf_append, htext, List.length_append, List.length_append, List.length_singleton]
  omega

/-- The last of several lines is what stands behind the last newline that counts. -/
theorem lastLines_textOf (h : lines ≠ []) (hline : newline ∉ line) :
    newline ∈ (textOf (lines ++ [line])).dropLast ∧
      LastLines 1 (textOf (lines ++ [line])) (line ++ [newline]) := by
  obtain ⟨text, htext⟩ := textOf_eq_concat h
  have hsplit : textOf (lines ++ [line]) = text ++ newline :: (line ++ [newline]) := by
    rw [textOf_concat, htext, List.append_assoc]
    rfl
  constructor
  · rw [hsplit, ← List.cons_append, ← List.append_assoc, List.dropLast_concat]
    simp
  · refine .inr ⟨text, hsplit, by simp, ?_⟩
    rw [List.dropLast_concat, List.count_eq_zero_of_not_mem hline]
    rfl

/-- A single line has no newline that counts. -/
theorem newline_not_mem_single (hline : newline ∉ line) :
    newline ∉ (textOf [line]).dropLast := by
  rw [← List.nil_append [line], textOf_concat, textOf_nil, List.nil_append, List.dropLast_concat]
  exact hline

end Lines

/-! ### A round -/

/-- What is left by the rounds so far is the size of the file they have seen. -/
theorem followRound_shows {lines group : List (List UInt8)} {file : Stream}
    (hlines : ∀ line ∈ group, newline ∉ line) (hfaults : file.faults = [])
    (hbytes : file.bytes = textOf (lines ++ group)) :
    followRound (textOf lines).length file
      = some (textOf (shownOf lines group), ((textOf (lines ++ group)).length : ℤ)) := by
  rcases List.eq_nil_or_concat' group with rfl | ⟨front, line, rfl⟩
  · -- no new data
    rw [List.append_nil] at hbytes
    have hsame := walkFile_same file 1
    rw [hbytes] at hsame
    have hnone : ¬ (lines = [] ∧ ([] : List (List UInt8)).length = 1) := by simp
    rw [followRound, hsame, Option.map_some, List.append_nil, shownOf, if_neg hnone]
    rfl
  · have hline : newline ∉ line := hlines line (by simp)
    have hlonger : ((textOf lines).length : ℤ) ≠ file.bytes.length := by
      have hlt : (textOf lines).length < (textOf (lines ++ (front ++ [line]))).length :=
        length_textOf_lt lines (by simp)
      rw [hbytes]
      omega
    obtain ⟨r, hcall, hprev, hprinted, hsilent⟩ := walkFile_new hfaults (le_refl 1) hlonger
    have hwritten : r.written = textOf (shownOf lines (front ++ [line])) := by
      rw [hbytes, ← List.append_assoc] at hprinted hsilent
      by_cases hfirst : lines = [] ∧ (front ++ [line]).length = 1
      · obtain ⟨hnil, hone⟩ := hfirst
        have hfront : front = [] := by
          rw [List.length_append, List.length_singleton] at hone
          exact List.length_eq_zero_iff.mp (by omega)
        rw [shownOf, if_pos ⟨hnil, hone⟩]
        rw [hnil, hfront] at hsilent
        exact hsilent (newline_not_mem_single hline)
      · have hothers : lines ++ front ≠ [] := by
          intro hnil
          obtain ⟨rfl, rfl⟩ := List.append_eq_nil_iff.mp hnil
          exact hfirst ⟨rfl, rfl⟩
        obtain ⟨hcounted, hlast⟩ := lastLines_textOf hothers hline
        rw [(hprinted hcounted).unique hlast, shownOf, if_neg hfirst, List.getLast?_concat]
        simp [textOf]
    rw [followRound, hcall, Option.map_some, hprev, hwritten, hbytes]

/-! ### The loop -/

/-- The files the rounds find: behind the lines so far each has those of its group. -/
inductive Found : List (List UInt8) → List (List (List UInt8)) → List Stream → Prop
  | nil (lines : List (List UInt8)) : Found lines [] []
  | cons {lines group : List (List UInt8)} {groups : List (List (List UInt8))} {file : Stream}
      {files : List Stream} (hlines : ∀ line ∈ group, newline ∉ line) (hfaults : file.faults = [])
      (hbytes : file.bytes = textOf (lines ++ group))
      (hrest : Found (lines ++ group) groups files) :
      Found lines (group :: groups) (file :: files)

section Loop

variable {lines : List (List UInt8)} {groups : List (List (List UInt8))} {files : List Stream}

theorem run_followRound (h : Found lines groups files) :
    Machine.run followRound (textOf lines).length files
      = some ((followed lines groups).map textOf,
        ((textOf (lines ++ groups.flatten)).length : ℤ)) := by
  induction h with
  | nil lines => rw [Machine.run_nil, List.flatten_nil, List.append_nil]; rfl
  | cons hlines hfaults hbytes _ ih =>
      rw [Machine.run_cons _ (followRound_shows hlines hfaults hbytes), ih, Option.map_some,
        followed, List.map_cons, List.flatten_cons, List.append_assoc]

/-- A round shows lines of its group. -/
theorem shownOf_sublist (lines group : List (List UInt8)) :
    (shownOf lines group).Sublist group := by
  rw [shownOf]
  split_ifs
  · exact List.nil_sublist group
  · rcases List.eq_nil_or_concat' group with rfl | ⟨front, line, rfl⟩
    · exact List.nil_sublist []
    · rw [List.getLast?_concat]
      exact List.sublist_append_right front [line]

/-- No line is shown twice, and none before one in front of it. -/
theorem followed_sublist (lines : List (List UInt8)) (groups : List (List (List UInt8))) :
    (followed lines groups).flatten.Sublist groups.flatten := by
  induction groups generalizing lines with
  | nil => exact List.nil_sublist []
  | cons group groups ih =>
      rw [followed, List.flatten_cons, List.flatten_cons]
      exact (shownOf_sublist lines group).append (ih (lines ++ group))

/-- Lines that come one at a time are all shown, but for the first of the file. -/
theorem flatten_followed (hone : ∀ group ∈ groups, group.length ≤ 1) (lines : List (List UInt8)) :
    (followed lines groups).flatten = groups.flatten.drop (if lines = [] then 1 else 0) := by
  induction groups generalizing lines with
  | nil => rw [followed, List.flatten_nil, List.drop_nil]
  | cons group groups ih =>
      have hrest := ih (fun g hg => hone g (List.mem_cons_of_mem group hg)) (lines ++ group)
      have hshort := hone group List.mem_cons_self
      rw [followed, List.flatten_cons, hrest, List.flatten_cons]
      rcases List.eq_nil_or_concat' group with rfl | ⟨front, line, rfl⟩
      · simp [shownOf]
      · have hfront : front = [] := by
          rw [List.length_append, List.length_singleton] at hshort
          exact List.length_eq_zero_iff.mp (by omega)
        rw [hfront, List.nil_append]
        by_cases hnil : lines = []
        · simp [shownOf, hnil]
        · simp [shownOf, hnil]

end Loop

/-- **Which lines `tailf` prints.**

Whatever groups of complete lines are appended to an empty file between the rounds, every round is
defined and prints the last line of its group, and the first line of the file not as long as it is
alone.  So no line is printed twice or out of order; and when no more than one line comes between
two rounds, all of them but the first are printed. -/
theorem tailf_follows {groups : List (List (List UInt8))} {files : List Stream}
    (h : Found [] groups files) :
    Machine.run followRound 0 files
      = some ((followed [] groups).map textOf, ((textOf groups.flatten).length : ℤ)) ∧
    (followed [] groups).flatten.Sublist groups.flatten ∧
    ((∀ group ∈ groups, group.length ≤ 1) →
      (followed [] groups).flatten = groups.flatten.drop 1) :=
  ⟨run_followRound h, followed_sublist [] groups, fun hone => flatten_followed hone []⟩

/-- A line, nothing, a line, and two lines. -/
theorem tailf_follows_four : Machine.run followRound 0
    [.fopen [97, newline] [], .fopen [97, newline] [], .fopen [97, newline, 98, newline] [],
      .fopen [97, newline, 98, newline, 99, newline, 100, newline] []]
      = some ([[], [], [98, newline], [100, newline]], 8) := by
  have hfound : Found [] [[[97]], [], [[98]], [[99], [100]]]
      [.fopen [97, newline] [], .fopen [97, newline] [], .fopen [97, newline, 98, newline] [],
        .fopen [97, newline, 98, newline, 99, newline, 100, newline] []] :=
    .cons (by decide) rfl rfl (.cons (by decide) rfl rfl (.cons (by decide) rfl rfl
      (.cons (by decide) rfl rfl (.nil _))))
  exact (tailf_follows hfound).1

end Tailf

end Csnip
