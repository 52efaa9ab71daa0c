/-
Places in a text, and a cursor that finds them.

A position names a byte of a text by its offset, and with it the line it
lies on and the number of characters before it on that line.  A line ends
at a line feed, at a carriage return and line feed together, or at a
carriage return alone.  An offset past the end stands for the end; an
offset inside a character has no column.

The cursor walks forward from one asked offset to the next and starts
over when it is asked for an earlier one, so that many ascending requests
cost one walk.
-/
import ResourceLint.Text.Slice

namespace ResourceLint

/-- A place in a text; all three numbers count from zero. -/
structure Position where
  line : Nat
  column : Option Nat
  offset : Nat
deriving DecidableEq, Inhabited

namespace Position

/-- A walk over a text: how far it has come and what is left. -/
structure Cursor where
  text : List Char
  line : Nat
  column : Nat
  offset : Nat
  rest : List Char

namespace Cursor

/-- The walk that has not begun. -/
def start (text : List Char) : Cursor :=
  { text, line := 0, column := 0, offset := 0, rest := text }

/-- Whether a line ends after `c`, when `rest` follows it. -/
def endsLine (c : Char) (rest : List Char) : Bool :=
  c == '\n' || (c == '\r' && rest.head? != some '\n')

/-- The walk after one more character. -/
def step (k : Cursor) (c : Char) (rest : List Char) : Cursor :=
  let stepped := { k with offset := k.offset + c.utf8Size, rest }
  if endsLine c rest then { stepped with line := k.line + 1, column := 0 }
  else { stepped with column := k.column + 1 }

/-- Walks over the characters that end at or before the target. -/
def walk (target : Nat) (k : Cursor) : List Char → Cursor
  | [] => k
  | c :: rest => if k.offset + c.utf8Size ≤ target then walk target (k.step c rest) rest else k

/-- The cursor moved to an offset; from the start when it is already past it. -/
def seek (k : Cursor) (offset : Nat) : Cursor :=
  let base := if offset < k.offset then start k.text else k
  walk offset base base.rest

/-- The position at an offset, and the cursor left there. -/
def position (k : Cursor) (offset : Nat) : Position × Cursor :=
  let there := k.seek offset
  let inside := there.offset < offset && !there.rest.isEmpty
  let position : Position :=
    { line := there.line
      column := if inside then none else some there.column
      offset := if inside then offset else there.offset }
  (position, there)

/-- How many characters stand after the last line feed or carriage return. -/
def columnAfter (before : List Char) : Nat :=
  (before.reverse.takeWhile fun c => c != '\n' && c != '\r').length

/-- A cursor that already stands at a known position. -/
def startingAt (text : List Char) (position : Position) : Cursor :=
  let there := walk position.offset (start text) text
  let before := text.take (text.length - there.rest.length)
  { there with line := position.line, column := columnAfter before }

end Cursor

/-- Line and column as a reader counts them, from one. -/
def text (p : Position) : String :=
  let line := toString (p.line + 1)
  match p.column with
  | some column => line ++ ":" ++ toString (column + 1)
  | none => line

/-- The position of a byte of a text. -/
def ofOffset (text : List Char) (offset : Nat) : Position :=
  ((Cursor.start text).position offset).1

end Position

/-- A stretch of a text, from its first byte to just past its last. -/
structure Span where
  start : Position
  stop : Position
deriving DecidableEq, Inhabited

end ResourceLint
