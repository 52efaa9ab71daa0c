/-
Where in the files a finding lies: a file, the stretch of it if that is
known, and further places that belong to the same finding.

Places that belong together form a chain: the first of them, its
secondary place, that one's secondary place, and so on.
-/
import ResourceLint.Path
import ResourceLint.Position

namespace ResourceLint

/-- One place in a file. -/
structure Place where
  file : Path
  start : Option Position
  stop : Option Position
  message : Option String
deriving DecidableEq, Inhabited

namespace Place

/-- A stretch of a file. -/
def ofSpan (file : Path) (span : Span) : Place :=
  { file, start := some span.start, stop := some span.stop, message := none }

/-- A file as a whole. -/
def ofFile (file : Path) : Place :=
  { file, start := none, stop := none, message := none }

/-- The line, counted from zero. -/
def line? (p : Place) : Option Nat := p.start.map (·.line)

/-- The file, and where in it the place begins. -/
def text (p : Place) : String :=
  match p.start with
  | some start => p.file.text ++ ":" ++ start.text
  | none => p.file.text

end Place

end ResourceLint
