/-
The snippet under a warning: the reported line between its neighbours, and
a caret under the reported column.
-/
import ResourceLint.Text.Lines

namespace ResourceLint.Snippet

/-- How many columns a tab takes. -/
def tabWidth : Nat := 4

/-- The columns a character takes. -/
def width (c : Char) : Nat := if c == '\t' then tabWidth else 1

def spaces (n : Nat) : List Char := List.replicate n ' '

/-- The line with its tabs as spaces. -/
def expandTabs (line : List Char) : List Char :=
  line.flatMap fun c => if c == '\t' then spaces tabWidth else [c]

/-- The row with the caret under a column of a line. -/
def caretRow (line : List Char) (column : Nat) : List Char :=
  spaces ((line.take column).foldl (fun n c => n + width c) 0) ++ ['^']

/-- The rows shown for a line, where the text has it. -/
def rows? (lines : List (List Char)) (line : Nat) (column : Option Nat) :
    Option (List (List Char)) :=
  (lines[line]?).map fun reported =>
    let before := if line = 0 then [] else (lines[line - 1]?).toList
    let caret := (column.map (caretRow reported)).toList
    let after := (lines[line + 1]?).toList
    before.map expandTabs ++ [expandTabs reported] ++ caret ++ after.map expandTabs

/-- The snippet of a text, every row ended by a line feed. -/
def ofText? (contents : String) (line : Nat) (column : Option Nat) : Option String :=
  (rows? (Text.linesFrom [] contents.toList) line column).map fun rows =>
    String.ofList (rows.flatMap (· ++ ['\n']))

end ResourceLint.Snippet
