/-
The document of a markup text.

The pieces of the text are taken in order by a builder: a store of nodes, the
numbers of the open elements with what these declare, and the run of text that
the next tag will end.  A text that has something before its first tag, a
byte order mark for instance, is read again from its first `<`; positions
are those of the whole text either way.
-/
import ResourceLint.Xml.Document
import ResourceLint.Xml.Lexeme

namespace ResourceLint.Xml

/-- What is wrong at a place in a text that is not well formed. -/
inductive Malformation
  | markup (fault : MarkupFault)
  | tag (fault : Tag.Fault)
  | entity (fault : EntityFault)
  | endTagUnopened (name : String)
  | endTagMismatch (expected found : String)
  | afterRoot
  | secondRoot
  /-- an element is closed and none is open -/
  | unexpectedEnd
deriving DecidableEq

def Malformation.message : Malformation → String
  | .markup fault => fault.message
  | .tag fault => fault.message
  | .entity fault => fault.message
  | .endTagUnopened name =>
    "ill-formed document: close tag `</" ++ name ++ ">` does not match any open tag"
  | .endTagMismatch expected found =>
    "ill-formed document: expected `</" ++ expected ++ ">`, but `</" ++ found ++ ">` was found"
  | .afterRoot => "Content is not allowed in trailing section"
  | .secondRoot =>
    "The markup in the document following the root element must be well-formed"
  | .unexpectedEnd => "Unexpected end tag"

/-- Why a text has no document. -/
inductive ParseError
  | malformed (position : Position) (what : Malformation)
  /-- something other than markup before the first element -/
  | prolog (position : Position)
  /-- no element, or one that is still open at the end -/
  | unfinished (position : Position)
deriving DecidableEq

namespace ParseError

def position : ParseError → Position
  | .malformed position _ => position
  | .prolog position => position
  | .unfinished position => position

def message : ParseError → String
  | .malformed position what =>
    "XML parse error at line " ++ toString (position.line + 1) ++ ": " ++ what.message
  | .prolog _ => "Content is not allowed in prolog"
  | .unfinished _ => "XML document structures must start and end within the same entity"

end ParseError

/-- A run of text that no tag has ended yet. -/
structure Pending where
  content : List Char
  start : Nat
  stop : Nat

/-- Where the last `<` of a tag stands that ends at byte `stop`. -/
def tagStart (content : List Char) (stop : Nat) : Nat :=
  stop - 2 - Text.byteSize (content.reverse.takeWhile (· != '<'))

namespace Arena

/-- A store that is being filled. -/
structure Builder where
  cursor : Position.Cursor
  entries : Array Entry
  /-- the numbers of the open elements, innermost first -/
  stack : List Nat
  /-- what the open elements declare, innermost first -/
  namespaces : List (List (String × String))
  root : Option Nat
  pending : Option Pending

namespace Builder

def start (source : List Char) : Builder :=
  { cursor := .start source, entries := #[], stack := [], namespaces := [], root := none,
    pending := none }

/-- The position of a byte of the text. -/
def locate (b : Builder) (offset : Nat) : Position × Builder :=
  let (position, cursor) := b.cursor.position offset
  (position, { b with cursor })

def fail {α : Type} (b : Builder) (offset : Nat) (what : Malformation) : Except ParseError α :=
  .error (.malformed (b.locate offset).1 what)

/-- Adds a node to the innermost open element, and gives its number. -/
def pushNode (b : Builder) (node : NodeKind) (start : Position) : Nat × Builder :=
  let number := b.entries.size
  let entries := b.entries.push
    { node, parent := b.stack.head?, children := [], start, stop? := none }
  match b.stack with
  | [] => (number, { b with entries })
  | parent :: _ => (number, { b with entries := entries.modify parent (·.link number) })

/-- Gives a node its end. -/
def endNode (b : Builder) (number : Nat) (stop : Position) : Builder :=
  { b with entries := b.entries.modify number (·.ended stop) }

/-- Makes the pending run of text a node. -/
def flush (b : Builder) : Builder :=
  match b.pending with
  | none => b
  | some run =>
    let (start, b) := { b with pending := none }.locate run.start
    let (stop, b) := b.locate run.stop
    let (number, b) := b.pushNode (.text (String.ofList run.content)) start
    b.endNode number stop

/-- Opens an element whose tag has the given content, its final slash
aside, and begins at byte `offset`. -/
def openElement (b : Builder) (content : List Char) (offset : Nat) :
    Except ParseError Builder := do
  if b.stack.isEmpty && b.root.isSome then b.fail offset .secondRoot
  let (start, b) := b.locate offset
  let attributes ← match Tag.readAttributes content with
    | .ok attributes => pure attributes
    | .error fault => b.fail offset (.tag fault)
  -- a tag is in the scope of its own declarations
  let namespaces := Tag.declarations attributes :: b.namespaces
  let tag := Tag.ofWritten namespaces (String.ofList (Tag.nameOf content)) attributes
  let (number, b) := b.pushNode (.element tag) start
  pure { b with namespaces, root := b.root.or (some number), stack := number :: b.stack }

/-- Closes the innermost element just before byte `stop`. -/
def closeElement (b : Builder) (stop : Nat) : Except ParseError Builder :=
  match b.stack with
  | [] => b.fail stop .unexpectedEnd
  | number :: stack =>
    let (stop, b) := { b with stack, namespaces := b.namespaces.tail }.locate stop
    .ok (b.endNode number stop)

/-- Adds text, which outside of the outermost element has to be blank. -/
def addText (b : Builder) (content : List Char) (start stop : Nat) : Except ParseError Builder :=
  if b.stack.isEmpty then
    match Text.trimStart content with
    | [] => .ok b
    | visible =>
      let offset := start + (Text.byteSize content - Text.byteSize visible)
      if b.root.isNone then .error (.prolog (b.locate offset).1)
      else b.fail offset .afterRoot
  else
    let run := match b.pending with
      | some run => { run with content := run.content ++ content, stop }
      | none => { content, start, stop }
    .ok { b with pending := some run }

/-- The name of the innermost open element. -/
def openName? (b : Builder) : Option String :=
  match b.stack.head?.bind (b.entries[·]?) with
  | some { node := .element tag, .. } => some tag.name
  | _ => none

/-- Takes the next piece. -/
def take (b : Builder) (piece : Placed) : Except ParseError Builder :=
  match piece.lexeme with
  | .text raw =>
    match expand raw with
    | .ok content => b.addText content piece.start piece.stop
    | .error fault => b.fail piece.start (.entity fault)
  | .literal content => b.addText content piece.start piece.stop
  | .aside => .ok b
  | .tag content =>
    let offset := tagStart content piece.stop
    if content.getLast? = some '/' then
      (b.flush.openElement content.dropLast offset).bind (·.closeElement piece.stop)
    else b.flush.openElement content offset
  | .endTag name =>
    match b.openName? with
    | none => b.fail piece.start (.endTagUnopened (String.ofList name))
    | some expected =>
      if expected = String.ofList name then b.flush.closeElement piece.stop
      else b.fail piece.start (.endTagMismatch expected (String.ofList name))

/-- Takes pieces in order, up to the first that does not fit. -/
def takeAll (b : Builder) (pieces : List Placed) : Except ParseError Builder :=
  pieces.foldlM take b

/-- The finished store, where an element was opened and all were closed. -/
def finish (source : List Char) (b : Builder) : Except ParseError Arena :=
  let b := b.flush
  if b.stack.isEmpty && b.root.isSome then .ok { entries := b.entries, root := b.root }
  else .error (.unfinished (b.locate (Text.byteSize source)).1)

end Builder

/-- The nodes of `source` read from `input` on, the end of it that begins at
byte `skip`. -/
def readFrom (source : List Char) (skip : Nat) (input : List Char) : Except ParseError Arena := do
  let builder := Builder.start source
  match Text.trimStart input with
  | [] => pure ()
  | c :: visible =>
    if c != '<' then
      let leading := Text.byteSize input - Text.byteSize (c :: visible)
      throw (.prolog (builder.locate (skip + leading)).1)
  let pieces := scan skip input
  let builder ← builder.takeAll pieces.pieces
  match pieces.fault with
  | some (fault, offset) => builder.fail offset (.markup fault)
  | none => builder.finish source

/-- The nodes of a text; something in front of its first `<` is passed over. -/
def read (source : List Char) : Except ParseError Arena :=
  match readFrom source 0 source with
  | .error (.prolog position) =>
    let junk := source.takeWhile (· != '<')
    match source.dropWhile (· != '<') with
    | [] => .error (.prolog position)
    | input =>
      if junk.isEmpty then .error (.prolog position)
      else readFrom source (Text.byteSize junk) input
  | outcome => outcome

end Arena

/-- The document of a text. -/
def Document.parse (source : String) : Except ParseError Document := do
  let arena ← Arena.read source.toList
  match h : arena.root? with
  | some content => pure { source, arena, content, root?_arena := h }
  | none => throw (.unfinished (.ofOffset source.toList (Text.byteSize source.toList)))

end ResourceLint.Xml
