/-
Which calls a document makes to which detectors.

The detectors of a run are known by their places in its list.  A visitor
is made once for a kind of file and says, for each name, who wants to see
it; the calls for a document follow from it and from the document alone.
-/
import ResourceLint.Registry

namespace ResourceLint

/-- Who wants to see what. -/
structure Visitor where
  /-- everyone who wants files of this kind -/
  all : List Nat
  /-- those who want documents -/
  documents : List Nat
  /-- those who want elements of a name -/
  elements : List (String × Nat)
  allElements : List Nat
  /-- those who want attributes of a local name -/
  attributes : List (String × Nat)
  allAttributes : List Nat
deriving DecidableEq

namespace Visitor

def empty : Visitor := ⟨[], [], [], [], [], []⟩

/-- Enters an interest into a table of names and a list of those who want all. -/
def enter (who : Nat) (interest : Interest) (table : List (String × Nat)) (everything : List Nat) :
    List (String × Nat) × List Nat :=
  match interest with
  | .nothing => (table, everything)
  | .all => (table, everything ++ [who])
  | .names names => (table ++ names.map (·, who), everything)

/-- Adds a detector under its place in the list. -/
def add (v : Visitor) (who : Nat) (d : Detector) : Visitor :=
  let (elements, allElements) := enter who d.elements v.elements v.allElements
  let (attributes, allAttributes) := enter who d.attributes v.attributes v.allAttributes
  let documents :=
    if d.elements = .nothing ∧ d.attributes = .nothing then v.documents ++ [who] else v.documents
  { all := v.all ++ [who], documents, elements, allElements, attributes, allAttributes }

/-- Whether a detector wants files in a folder of this type; every one
wants the manifest, which is in none. -/
def wants (folder : Option FolderType) (d : Detector) : Bool :=
  folder.all d.appliesToFolder

/-- The visitor of the candidates that want files of a kind. -/
def new (candidates : List (ActiveDetector × Nat)) (folder : Option FolderType) : Visitor :=
  (candidates.filter fun (active, _) => wants folder active.detector).foldl
    (fun v (active, who) => v.add who active.detector) empty

def isEmpty (v : Visitor) : Bool := v.all.isEmpty

/-- The issues of everyone who wants files of this kind. -/
def issueIds (v : Visitor) (active : List ActiveDetector) : List String :=
  v.all.flatMap fun who => ((active[who]?).map (·.issues)).getD []

/-- Those who want a name: by name first, then those who want all. -/
def interested (table : List (String × Nat)) (everything : List Nat) (name : String) : List Nat :=
  (table.filter (·.1 == name)).map (·.2) ++ everything

def forElement (v : Visitor) (e : Xml.Element) : List Nat :=
  interested v.elements v.allElements e.name

def forAttribute (v : Visitor) (a : Xml.Attribute) : List Nat :=
  interested v.attributes v.allAttributes a.localName

/-- Whether anyone asks for attributes. -/
def readsAttributes (v : Visitor) : Bool :=
  !v.attributes.isEmpty || !v.allAttributes.isEmpty

/-- Whether anyone asks for elements or attributes. -/
def walksElements (v : Visitor) : Bool :=
  !v.elements.isEmpty || !v.allElements.isEmpty || v.readsAttributes

/-- The calls for the attributes of an element, in order; where nobody asks
for attributes, they are not looked at. -/
def attributeCalls (v : Visitor) (d : Xml.Document) (e : Xml.Element) : List (Nat × Call) :=
  if v.readsAttributes then
    e.attributes.flatMap fun a => (v.forAttribute a).map (·, .attribute d e a)
  else []

mutual

/-- The calls for a node: the element, its attributes, its children, and
the element again. -/
def nodeCalls (v : Visitor) (d : Xml.Document) (around : List Xml.Content) :
    Xml.Node → List (Nat × Call)
  | .element tag span children =>
    let e : Xml.Element := { tag, span, children, around }
    (v.forElement e).map (·, .element d e)
      ++ v.attributeCalls d e
      ++ nodesCalls v d (⟨tag, span, children⟩ :: around) children
      ++ (v.forElement e).map (·, .elementEnd d e)
  | .text .. => []

def nodesCalls (v : Visitor) (d : Xml.Document) (around : List Xml.Content) :
    List Xml.Node → List (Nat × Call)
  | [] => []
  | node :: more => nodeCalls v d around node ++ nodesCalls v d around more

end

/-- The calls for a document, in the order they are made; the tree is walked
where anyone asks for what is in it. -/
def calls (v : Visitor) (d : Xml.Document) : List (Nat × Call) :=
  v.all.map (·, .beforeFile)
    ++ v.documents.map (·, .document d)
    ++ (if v.walksElements then v.nodeCalls d [] (.element d.tag d.span d.children) else [])
    ++ v.all.map (·, .afterFile)

end Visitor

end ResourceLint
