/-
A tree that grows while its text is read.

The reader of a text fills a store and knows nodes by their numbers.  What is
said of documents is said of trees, and so the text is read a second time
here, into a tree: a stack of open elements, each with the nodes it has so
far.  Both readers take the same pieces and stop at the same faults, and the
store is the tree laid out (`Arena.read_eq`, in `Mirroring`).
-/
import ResourceLint.Xml.Parse

namespace ResourceLint.Xml

/-- An element whose end tag has not come yet. -/
structure Open where
  tag : Tag
  declared : List (String × String)
  start : Position
  /-- the nodes so far, last first -/
  children : List Node

/-- A tree that is being built. -/
structure Builder where
  cursor : Position.Cursor
  opened : List Open
  root : Option Content
  pending : Option Pending

namespace Builder

def start (source : List Char) : Builder :=
  { cursor := .start source, opened := [], root := none, pending := none }

/-- The position of a byte of the text. -/
def locate (b : Builder) (offset : Nat) : Position × Builder :=
  let (position, cursor) := b.cursor.position offset
  (position, { b with cursor })

def fail {α : Type} (b : Builder) (offset : Nat) (what : Malformation) : Except ParseError α :=
  .error (.malformed (b.locate offset).1 what)

/-- Adds a node to the innermost open element. -/
def addNode (b : Builder) (node : Node) : Builder :=
  match b.opened with
  | [] => b
  | inner :: outer => { b with opened := { inner with children := node :: inner.children } :: outer }

/-- Makes the pending run of text a node. -/
def flush (b : Builder) : Builder :=
  match b.pending with
  | none => b
  | some run =>
    let (start, b) := b.locate run.start
    let (stop, b) := b.locate run.stop
    { b.addNode (.text (String.ofList run.content) ⟨start, stop⟩) with pending := none }

/-- Opens an element whose tag has the given content, its final slash
aside, and begins at byte `offset`. -/
def openElement (b : Builder) (content : List Char) (offset : Nat) :
    Except ParseError Builder := do
  if b.opened.isEmpty && b.root.isSome then b.fail offset .secondRoot
  let (start, b) := b.locate offset
  let attributes ← match Tag.readAttributes content with
    | .ok attributes => pure attributes
    | .error fault => b.fail offset (.tag fault)
  let declared := Tag.declarations attributes
  let scopes := declared :: b.opened.map (·.declared)
  let tag := Tag.ofWritten scopes (String.ofList (Tag.nameOf content)) attributes
  pure { b with opened := { tag, declared, start, children := [] } :: b.opened }

/-- Closes the innermost element just before byte `stop`. -/
def closeElement (b : Builder) (stop : Nat) : Builder :=
  match b.opened with
  | [] => b
  | inner :: outer =>
    let (stop, b) := { b with opened := outer }.locate stop
    let children := inner.children.reverse
    let span : Span := ⟨inner.start, stop⟩
    match outer with
    | [] => { b with root := some ⟨inner.tag, span, children⟩ }
    | _ => b.addNode (.element inner.tag span children)

/-- Adds text, which outside of the outermost element has to be blank. -/
def addText (b : Builder) (content : List Char) (start stop : Nat) : Except ParseError Builder :=
  if b.opened.isEmpty then
    match Text.trimStart content with
    | [] => .ok b
    | visible =>
      let offset := start + (Text.byteSize content - Text.byteSize visible)
      if b.root.isNone then .error (.prolog (b.locate offset).1)
      else b.fail offset .afterRoot
  else
    let run := match b.pending with
      | some run => { run with content := run.content ++ content, stop }
      | none => { content, start, stop }
    .ok { b with pending := some run }

/-- Takes the next piece. -/
def take (b : Builder) (piece : Placed) : Except ParseError Builder :=
  match piece.lexeme with
  | .text raw =>
    match expand raw with
    | .ok content => b.addText content piece.start piece.stop
    | .error fault => b.fail piece.start (.entity fault)
  | .literal content => b.addText content piece.start piece.stop
  | .aside => .ok b
  | .tag content =>
    let offset := tagStart content piece.stop
    if content.getLast? = some '/' then
      (b.flush.openElement content.dropLast offset).map (·.closeElement piece.stop)
    else b.flush.openElement content offset
  | .endTag name =>
    match b.opened with
    | [] => b.fail piece.start (.endTagUnopened (String.ofList name))
    | inner :: _ =>
      if inner.tag.name = String.ofList name then .ok (b.flush.closeElement piece.stop)
      else b.fail piece.start (.endTagMismatch inner.tag.name (String.ofList name))

/-- Takes pieces in order, up to the first that does not fit. -/
def takeAll (b : Builder) (pieces : List Placed) : Except ParseError Builder :=
  pieces.foldlM take b

/-- The finished tree, where one element was opened and all were closed. -/
def finish (source : List Char) (b : Builder) : Except ParseError Content :=
  match b.opened, b.root with
  | [], some root => .ok root
  | _, _ => .error (.unfinished (b.locate (Text.byteSize source)).1)

end Builder

/-- The tree of `source` read from `input` on, the end of it that begins at
byte `skip`. -/
def treeFrom (source : List Char) (skip : Nat) (input : List Char) : Except ParseError Content := do
  let builder := Builder.start source
  match Text.trimStart input with
  | [] => pure ()
  | c :: visible =>
    if c != '<' then
      let leading := Text.byteSize input - Text.byteSize (c :: visible)
      throw (.prolog (builder.locate (skip + leading)).1)
  let pieces := scan skip input
  let builder ← builder.takeAll pieces.pieces
  match pieces.fault with
  | some (fault, offset) => builder.fail offset (.markup fault)
  | none => builder.finish source

/-- The tree of a text; something in front of its first `<` is passed over. -/
def tree (source : List Char) : Except ParseError Content :=
  match treeFrom source 0 source with
  | .error (.prolog position) =>
    let junk := source.takeWhile (· != '<')
    match source.dropWhile (· != '<') with
    | [] => .error (.prolog position)
    | input =>
      if junk.isEmpty then .error (.prolog position)
      else treeFrom source (Text.byteSize junk) input
  | outcome => outcome

end ResourceLint.Xml
