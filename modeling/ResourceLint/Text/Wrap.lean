/-
Breaking lines of text at a width.

The words of a line are put on lines greedily: a word goes on the current
line where it fits after a space, and on a new one otherwise.  A word that
is wider than the width stands alone.
-/
import ResourceLint.Text.Slice

namespace ResourceLint.Text

/-- The words of a line: what is between its spaces, if anything. -/
def words (line : List Char) : List (List Char) :=
  (splitAt ' ' line).filter (!·.isEmpty)

/-- How many columns words take with a space between any two. -/
def lineWidth : List (List Char) → Nat
  | [] => 0
  | [word] => word.length
  | word :: more => word.length + 1 + lineWidth more

/-- Puts words on lines, where the current line holds some of `column`
columns together; those come last first. -/
def fillFrom (width : Nat) (current : List (List Char)) (column : Nat) :
    List (List Char) → List (List (List Char))
  | [] => [current.reverse]
  | word :: more =>
    if current.isEmpty then fillFrom width [word] word.length more
    else if column + 1 + word.length > width then
      current.reverse :: fillFrom width [word] word.length more
    else fillFrom width (word :: current) (column + 1 + word.length) more

/-- Puts words on lines of a width. -/
def fill (width : Nat) (ws : List (List Char)) : List (List (List Char)) :=
  fillFrom width [] 0 ws

/-- A line of words, with a space between any two. -/
def joinWords (ws : List (List Char)) : List Char := [' '].intercalate ws

/-- The text with every line broken at a width. -/
def wrapChars (width : Nat) (cs : List Char) : List Char :=
  ['\n'].intercalate ((splitAt '\n' cs).flatMap fun line => (fill width (words line)).map joinWords)

/-- The text with every line broken at a width. -/
def wrap (width : Nat) (s : String) : String := String.ofList (wrapChars width s.toList)

end ResourceLint.Text
