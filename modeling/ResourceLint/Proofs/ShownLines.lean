/-
What is shown of a line.

A snippet and a page cut the text into lines and look one up by its number.
Where so many lines are above it, the snippet has it as a row with the caret
right under it (`marks_ofText?`), and the page marks it, and no other line,
under its number (`codeMarks_codeBlock`).  Where no line is below these, both
show nothing.
-/
import Mathlib.Data.List.Basic
import ResourceLint.Report.Page
import ResourceLint.Snippet

namespace ResourceLint

/-- A snippet has a row for a line, with the caret right under it. -/
def Snippet.Marks (snippet : String) (own : List Char) (column : Option Nat) : Prop :=
  ∃ above below : List (List Char),
    snippet.toList = (above ++ expandTabs own :: (column.map (caretRow own)).toList
      ++ below).flatMap (· ++ ['\n'])

/-- Lines of code of which none is marked, from a number on. -/
def Report.plainCode (first : Nat) (rows : List String) : List Html :=
  (rows.zipIdx first).flatMap fun (source, index) => codeLine false (index + 1) source

/-- Among the lines of code one is marked, which is this one under its
number. -/
def Report.CodeMarks (code : List Html) (line : Nat) (own : List Char) : Prop :=
  ∃ above below : List String, above.length ≤ line ∧
    code = [.element "pre" [Html.attr "class" "errorlines"]
        (Html.lineEnd :: (plainCode (line - above.length) above
          ++ codeLine true (line + 1) (String.ofList own) ++ plainCode (line + 1) below)),
      Html.lineEnd]

section Shown

variable {text : String} {above below : List (List Char)} {own : List Char}

theorem Snippet.marks_ofText? (h : Text.linesFrom [] text.toList = above ++ own :: below)
    (column : Option Nat) :
    ∃ snippet, ofText? text above.length column = some snippet ∧ Marks snippet own column := by
  have hown : (Text.linesFrom [] text.toList)[above.length]? = some own := by
    rw [h, List.getElem?_append_right (Nat.le_refl _), Nat.sub_self]
    rfl
  unfold ofText? rows?
  generalize Text.linesFrom [] text.toList = lines at hown ⊢
  rw [hown]
  refine ⟨_, rfl,
    (if above.length = 0 then [] else (lines[above.length - 1]?).toList).map expandTabs,
    (lines[above.length + 1]?).toList.map expandTabs, ?_⟩
  simp only [String.toList_ofList, List.append_assoc, List.cons_append, List.nil_append]

theorem Snippet.ofText?_eq_none (h : Text.linesFrom [] text.toList = above) (column : Option Nat) :
    ofText? text above.length column = none := by
  unfold ofText? rows?
  rw [h, List.getElem?_eq_none (Nat.le_refl _)]
  rfl

namespace Report

/-- What is around a line is the end of the front, the line, and the beginning
of the back. -/
theorem window_append {α : Type} (front back : List α) (own : α) (width : Nat) :
    ((front ++ own :: back).drop (front.length - width)).take
        (front.length + width + 1 - (front.length - width))
      = front.drop (front.length - width) ++ own :: back.take width := by
  have hrest : front.length + width + 1 - (front.length - width)
      - (front.drop (front.length - width)).length = width + 1 := by
    rw [List.length_drop]
    omega
  rw [List.drop_append_of_le_length (Nat.sub_le _ _), List.take_append, hrest,
    List.take_succ_cons, List.take_of_length_le (by rw [List.length_drop]; omega)]

/-- Lines before a number and behind it are not the one with the number. -/
theorem flatMap_codeLine {line first : Nat} {rows : List String}
    (h : first + rows.length ≤ line ∨ line < first) :
    ((rows.zipIdx first).flatMap fun (source, index) =>
      codeLine (index == line) (index + 1) source) = plainCode first rows := by
  unfold plainCode
  refine List.flatMap_congr fun entry hentry => ?_
  obtain ⟨source, index⟩ := entry
  have hbounds := List.mem_zipIdx hentry
  have hne : (index == line) = false := by
    rw [beq_eq_false_iff_ne]
    omega
  dsimp only
  rw [hne]

theorem codeMarks_codeBlock (h : Text.linesFrom [] text.toList = above ++ own :: below) :
    CodeMarks (codeBlock text above.length) above.length own := by
  have hlines : Text.lines text
      = above.map String.ofList ++ String.ofList own :: below.map String.ofList := by
    unfold Text.lines
    rw [h, List.map_append, List.map_cons]
  -- from here only the number of the lines above matters
  generalize habove : above.map String.ofList = front at hlines
  generalize below.map String.ofList = back at hlines
  have hfront : front.length = above.length := by rw [← habove, List.length_map]
  rw [← hfront]
  have hnext : front.length - codeWindow + (front.drop (front.length - codeWindow)).length
      = front.length := by
    rw [List.length_drop]
    omega
  refine ⟨front.drop (front.length - codeWindow), back.take codeWindow, ?_, ?_⟩
  · rw [List.length_drop]
    omega
  · have hstart : front.length - (front.drop (front.length - codeWindow)).length
        = front.length - codeWindow := by omega
    unfold codeBlock
    simp only [hlines, window_append]
    rw [if_neg (by rw [List.length_append, List.length_cons]; omega), List.zipIdx_append,
      List.zipIdx_cons, List.flatMap_append, List.flatMap_cons, hnext, hstart,
      flatMap_codeLine (Or.inl (Nat.le_of_eq hnext)),
      flatMap_codeLine (Or.inr (Nat.lt_succ_self _)), beq_self_eq_true, List.append_assoc]

theorem codeBlock_eq_nil (h : Text.linesFrom [] text.toList = above) :
    codeBlock text above.length = [] := by
  have hlines : (Text.lines text).length ≤ above.length := by
    refine Nat.le_of_eq ?_
    unfold Text.lines
    rw [h, List.length_map]
  unfold codeBlock
  simp only [hlines, if_true]

end Report

end Shown

end ResourceLint
