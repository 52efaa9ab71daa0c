/-
Where an attribute is written.

A parsed attribute does not know its place.  The range is found by a
search in the element's own stretch of text for a blank, the name, an
equals sign and a quoted value; the first such assignment to the name
decides.
-/
import ResourceLint.Location
import ResourceLint.Xml.Document

namespace ResourceLint.Xml

/-- The characters that a searched name consists of. -/
def isNameChar (c : Char) : Bool :=
  !(Text.isBlank c || c == '=' || c == '/' || c == '>')

/-- An assignment found at a place: its name, and the texts that begin at
the name and after the closing quote. -/
structure Assignment where
  name : List Char
  fromName : List Char
  after : List Char

/-- The assignment whose name `s` begins with. -/
def assignment? (s : List Char) : Option Assignment :=
  let name := s.takeWhile isNameChar
  if name.isEmpty then none
  else
    match (s.dropWhile isNameChar).dropWhile Text.isBlank with
    | '=' :: value =>
      match value.dropWhile Text.isBlank with
      | quote :: content =>
        if quote == '"' || quote == '\'' then
          match content.dropWhile (· != quote) with
          | _ :: after => some { name, fromName := s, after }
          | [] => none
        else none
      | [] => none
    | _ => none

theorem length_of_assignment? {s : List Char} {a : Assignment} (h : assignment? s = some a) :
    a.after.length < s.length := by
  simp only [assignment?] at h
  split at h
  · cases h
  · split at h
    · rename_i value hvalue
      have h₁ := (List.dropWhile_sublist Text.isBlank (l := s.dropWhile isNameChar)).length_le
      have h₂ := (List.dropWhile_sublist isNameChar (l := s)).length_le
      rw [hvalue] at h₁
      split at h
      · rename_i quote content hquote
        have h₃ := (List.dropWhile_sublist Text.isBlank (l := value)).length_le
        rw [hquote] at h₃
        split at h
        · split at h
          · rename_i last after hafter
            have h₄ := (List.dropWhile_sublist (· != quote) (l := content)).length_le
            rw [hafter] at h₄
            simp only [Option.some.injEq] at h
            subst h
            simp only [List.length_cons] at *
            omega
          · cases h
        · cases h
      · cases h
    · cases h

/-- The first assignment to a name, searched from the left; the search
goes on after each assignment to another name. -/
def findAssignment? (name : List Char) (s : List Char) : Option Assignment :=
  match s with
  | [] => none
  | c :: rest =>
    if Text.isBlank c then
      match _h : assignment? rest with
      | some a => if a.name == name then some a else findAssignment? name a.after
      | none => findAssignment? name rest
    else findAssignment? name rest
termination_by s.length
decreasing_by
  · have := length_of_assignment? _h
    simp only [List.length_cons]
    omega
  · simp
  · simp

/-- The characters that take up the given number of bytes at most. -/
def takeBytes : Nat → List Char → List Char
  | _, [] => []
  | n, c :: rest => if c.utf8Size ≤ n then c :: takeBytes (n - c.utf8Size) rest else []

/-- The characters that are left when the given number of bytes is gone. -/
def dropBytes : Nat → List Char → List Char
  | _, [] => []
  | n, c :: rest => if c.utf8Size ≤ n then dropBytes (n - c.utf8Size) rest else c :: rest

/-- The stretch of a text that a span covers. -/
def Span.cut (span : Span) (source : List Char) : List Char :=
  takeBytes (span.stop.offset - span.start.offset) (dropBytes span.start.offset source)

/-- The range of the attribute written with this name, name and value. -/
def attributeRange? (source : List Char) (span : Span) (name : String) : Option Span :=
  (findAssignment? name.toList (Span.cut span source)).map fun a =>
    let stop := span.stop.offset
    let cursor := Position.Cursor.startingAt source span.start
    let (first, cursor) := cursor.position (stop - Text.byteSize a.fromName)
    let (last, _) := cursor.position (stop - Text.byteSize a.after)
    ⟨first, last⟩

namespace Document

/-- The range of an attribute of an element of this document. -/
def attributeRange? (d : Document) (e : Element) (name : String) : Option Span :=
  Xml.attributeRange? d.source.toList e.span name

/-- The place of an attribute, or of its element where it is not found. -/
def attributePlace (d : Document) (file : Path) (e : Element) (name : String) : Place :=
  .ofSpan file ((d.attributeRange? e name).getD e.span)

end Document

end ResourceLint.Xml
