/-
The document of a markup text, every node with the stretch of text it takes.

The nodes are kept in a store, the `Arena`.  A node is known by its number,
which is its place in the store; it names the node that holds it and lists
those that it holds, and as long as its end tag has not come it has no end.
`Arena.root?` is the tree that the numbers describe, and a document has both.

An element is looked at in its place: `Element` holds the elements around
it, so that its parent can be asked for.  `Document.elements` lists the
elements in the order of their start tags.
-/
import ResourceLint.Xml.Tag
import ResourceLint.Position

namespace ResourceLint.Xml

/-- An element with what it contains, or a run of text. -/
inductive Node
  | element (tag : Tag) (span : Span) (children : List Node)
  | text (content : String) (span : Span)

/-- An element without its surroundings. -/
structure Content where
  tag : Tag
  span : Span
  children : List Node

-- ============================================================== the store

/-- What a node is, apart from what it holds. -/
inductive NodeKind
  | element (tag : Tag)
  | text (content : String)
deriving DecidableEq

/-- A node in a store. -/
structure Entry where
  node : NodeKind
  /-- the number of the node that holds it -/
  parent : Option Nat
  /-- the numbers of the nodes that it holds -/
  children : List Nat
  start : Position
  stop? : Option Position
deriving DecidableEq

namespace Entry

/-- The node with one more that it holds. -/
def link (entry : Entry) (child : Nat) : Entry :=
  { entry with children := entry.children ++ [child] }

/-- The node with an end. -/
def ended (entry : Entry) (stop : Position) : Entry := { entry with stop? := some stop }

def isElement (entry : Entry) : Bool :=
  match entry.node with
  | .element _ => true
  | .text _ => false

end Entry

/-- The nodes of a text, and the number of its outermost element. -/
structure Arena where
  entries : Array Entry
  root : Option Nat

namespace Arena

/-- Whether an element has this number. -/
def isElement (a : Arena) (number : Nat) : Bool := (a.entries[number]?).any (·.isElement)

/-- The numbers of the elements, in the order of the store. -/
def elements (a : Arena) : List Nat := (List.range a.entries.size).filter a.isElement

/-- The numbers of the elements that a node holds. -/
def childElements (a : Arena) (number : Nat) : List Nat :=
  match a.entries[number]? with
  | some entry => entry.children.filter a.isElement
  | none => []

/-- The node with this number and what it holds, so many levels deep. -/
def node? (a : Arena) : Nat → Nat → Option Node
  | 0, _ => none
  | depth + 1, number => do
    let entry ← a.entries[number]?
    let stop ← entry.stop?
    match entry.node with
    | .element tag =>
      some (.element tag ⟨entry.start, stop⟩ (entry.children.filterMap (a.node? depth)))
    | .text content => some (.text content ⟨entry.start, stop⟩)

/-- The outermost element with all that it holds. -/
def root? (a : Arena) : Option Content :=
  match a.root.bind (a.node? a.entries.size) with
  | some (.element tag span children) => some { tag, span, children }
  | _ => none

end Arena

/-- The nodes of a text, and the tree that they are. -/
structure Document where
  source : String
  arena : Arena
  content : Content
  root?_arena : arena.root? = some content

namespace Document

/-- The nodes in the order of their numbers. -/
def entries (d : Document) : List Entry := d.arena.entries.toList

@[reducible]
def tag (d : Document) : Tag := d.content.tag

@[reducible]
def span (d : Document) : Span := d.content.span

@[reducible]
def children (d : Document) : List Node := d.content.children

end Document

-- =============================================================== elements

/-- An element in its place, with the elements around it, innermost first. -/
structure Element extends Content where
  around : List Content

namespace Element

/-- The element that a child of this one is. -/
def enter (e : Element) (tag : Tag) (span : Span) (children : List Node) : Element :=
  { tag, span, children, around := e.toContent :: e.around }

def name (e : Element) : String := e.tag.name

def attributes (e : Element) : List Attribute := e.tag.attributes

/-- The value of the attribute with this name as written. -/
def attribute? (e : Element) (name : String) : Option String :=
  (e.attributes.find? (·.name == name)).map (·.value)

/-- The value of the attribute with this namespace and local name. -/
def attributeIn? (e : Element) (uri localName : String) : Option String :=
  (e.attributes.find? fun a => a.localName == localName && a.uri == some uri).map (·.value)

def hasAttributeIn (e : Element) (uri localName : String) : Bool :=
  (e.attributeIn? uri localName).isSome

/-- The element that holds this one. -/
def parent? (e : Element) : Option Element :=
  match e.around with
  | [] => none
  | outer :: around => some { outer with around }

/-- Whether no element holds this one. -/
def isRoot (e : Element) : Bool := e.around.isEmpty

/-- The children that are elements. -/
def childElements (e : Element) : List Element :=
  e.children.filterMap fun
    | .element tag span children => some (e.enter tag span children)
    | .text .. => none

/-- The children that are text, joined. -/
def text (e : Element) : String :=
  String.join (e.children.filterMap fun
    | .text content _ => some content
    | .element .. => none)

end Element

/-- The outermost element. -/
def Document.root (d : Document) : Element :=
  { tag := d.tag, span := d.span, children := d.children, around := [] }

-- ====================================================== document order

mutual

/-- The elements of a node, in document order. -/
def Node.elements (around : List Content) : Node → List Element
  | .element tag span children =>
    { tag, span, children, around : Element }
      :: elementsOfAll (⟨tag, span, children⟩ :: around) children
  | .text .. => []

/-- The elements of some nodes side by side, in document order. -/
def elementsOfAll (around : List Content) : List Node → List Element
  | [] => []
  | node :: more => node.elements around ++ elementsOfAll around more

end

/-- All elements, in the order of their start tags. -/
def Document.elements (d : Document) : List Element :=
  (Node.element d.tag d.span d.children).elements []

/-- The elements with this name, in document order. -/
def Document.elementsNamed (d : Document) (name : String) : List Element :=
  d.elements.filter (·.name == name)

mutual

/-- The runs of text in a node, each with the element that holds it. -/
def Node.texts (around : List Content) : Node → List (Option Element × String)
  | .element tag span children => textsOfAll (⟨tag, span, children⟩ :: around) children
  | .text content _ =>
    match around with
    | [] => [(none, content)]
    | outer :: beyond => [(some { outer with around := beyond }, content)]

def textsOfAll (around : List Content) : List Node → List (Option Element × String)
  | [] => []
  | node :: more => node.texts around ++ textsOfAll around more

end

/-- The runs of text, in document order, each with the element that holds it. -/
def Document.texts (d : Document) : List (Option Element × String) :=
  (Node.element d.tag d.span d.children).texts []

end ResourceLint.Xml
