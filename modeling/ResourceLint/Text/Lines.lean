/-
The lines of a text.

A line ends at a line feed, at a carriage return and line feed together,
or at a carriage return alone.  The end of the text ends a line too,
unless nothing stands after the last line end.
-/
namespace ResourceLint.Text

/-- The lines from a text on, where `line` holds what the current line has
so far, last character first. -/
def linesFrom (line : List Char) : List Char → List (List Char)
  | [] => if line.isEmpty then [] else [line.reverse]
  | '\n' :: rest => line.reverse :: linesFrom [] rest
  | '\r' :: '\n' :: rest => line.reverse :: linesFrom [] rest
  | '\r' :: rest => line.reverse :: linesFrom [] rest
  | c :: rest => linesFrom (c :: line) rest

/-- The lines of a text, without their ends. -/
def lines (s : String) : List String :=
  (linesFrom [] s.toList).map String.ofList

end ResourceLint.Text
