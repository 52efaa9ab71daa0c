/-
Resources that are declared and never mentioned.

Declarations are the named children of a values file and the other
resource files themselves; mentions are references `@type/name` in any
attribute or text, and the parents of styles.  A dot in a name stands for
an underscore.
-/
import ResourceLint.Assoc
import ResourceLint.Detector

namespace ResourceLint.UnusedResources

def issue : Issue :=
  Issue.disabledByDefault
    (.new "UnusedResources" "Looks for unused resources"
      ("Unused resources make applications larger and slow down builds. Only references from XML "
        ++ "resources and the manifest are considered, so resources used only from code are "
        ++ "reported too; enable this check explicitly when that is acceptable.")
      .performance 3 .warning (.union .allResourceFilesOnly .manifestOnly))

/-- The order in which declarations are reported. -/
def order (a b : ResourceKey) : Ordering := (compare a.1 b.1).then (compare a.2 b.2)

/-- The key of a resource as it is written. -/
def keyOf (kind name : String) : ResourceKey :=
  (kind, String.ofList (name.toList.map fun c => if c == '.' then '_' else c))

/-- Remembers a declaration; the first for a key counts. -/
def declare (memory : Memory) (kind name : String) (place : Place) : Memory :=
  { memory with defined := Assoc.insertNew order (keyOf kind name) place memory.defined }

/-- Remembers a mention. -/
def mention (memory : Memory) (key : ResourceKey) : Memory :=
  if memory.mentioned.contains key then memory
  else { memory with mentioned := key :: memory.mentioned }

-- ========================================================== references

def isKindChar (c : Char) : Bool := 'a' ≤ c && c ≤ 'z'

def isNameChar (c : Char) : Bool :=
  ('a' ≤ c && c ≤ 'z') || ('A' ≤ c && c ≤ 'Z') || ('0' ≤ c && c ≤ '9') || c == '_' || c == '.'

/-- The kind, the name and what follows them, after an at sign. -/
def reference? (s : List Char) : Option (String × String × List Char) :=
  let s := match s with
    | '+' :: rest => rest
    | s => s
  let kind := s.takeWhile isKindChar
  match s.dropWhile isKindChar with
  | '/' :: rest =>
    let name := rest.takeWhile isNameChar
    if kind.isEmpty || name.isEmpty then none
    else some (String.ofList kind, String.ofList name, rest.dropWhile isNameChar)
  | _ => none

theorem length_of_reference? {s rest : List Char} {kind name : String}
    (h : reference? s = some (kind, name, rest)) : rest.length < s.length := by
  have drop_le : ∀ (p : Char → Bool) (l : List Char), (l.dropWhile p).length ≤ l.length :=
    fun p l => (List.dropWhile_sublist p (l := l)).length_le
  have key : ∀ t : List Char,
      (match t.dropWhile isKindChar with
        | '/' :: rest =>
          let name := rest.takeWhile isNameChar
          if (t.takeWhile isKindChar).isEmpty || name.isEmpty then none
          else some (String.ofList (t.takeWhile isKindChar), String.ofList name,
            rest.dropWhile isNameChar)
        | _ => none) = some (kind, name, rest) → rest.length < t.length := by
    intro t ht
    split at ht
    · rename_i more hmore
      simp only at ht
      split at ht
      · cases ht
      · simp only [Option.some.injEq, Prod.mk.injEq] at ht
        have h₁ := drop_le isKindChar t
        have h₂ := drop_le isNameChar more
        rw [hmore] at h₁
        rw [← ht.2.2]
        simp only [List.length_cons] at h₁
        omega
    · cases ht
  unfold reference? at h
  split at h
  · have := key _ h
    simp only [List.length_cons]
    omega
  · exact key _ h

/-- The references in a text, from the left; the search goes on after each. -/
def references (s : List Char) : List ResourceKey :=
  match s with
  | [] => []
  | c :: rest =>
    if c == '@' then
      match _h : reference? rest with
      | some (kind, name, after) => keyOf kind name :: references after
      | none => references rest
    else references rest
termination_by s.length
decreasing_by
  · have := length_of_reference? _h
    simp only [List.length_cons]
    omega
  · simp
  · simp

/-- Remembers all references of a text. -/
def mentionAll (memory : Memory) (text : String) : Memory :=
  (references text.toList).foldl mention memory

-- ======================================================== declarations

/-- The kind of resource that a child of a values file declares. -/
def kindOf? (element : Xml.Element) : Option String :=
  match element.name with
  | "item" => element.attribute? "type"
  | "string-array" | "integer-array" => some "array"
  | "declare-styleable" | "eat-comment" | "skip" => none
  | name => some name

/-- A text without the marks of a style reference it begins with. -/
def dropStyleMarks (s : List Char) : List Char :=
  match _h : Text.strip? "@style/".toList s with
  | some rest => dropStyleMarks rest
  | none => s
termination_by s.length
decreasing_by
  have := Text.strip?_eq_some_iff.mp _h
  subst this
  simp only [List.length_append]
  have : 0 < "@style/".toList.length := by decide
  omega

/-- The style that a style builds on: its parent if it names one, and
otherwise what its own name has before the last dot. -/
def styleParent? (element : Xml.Element) (name : String) : Option String :=
  match (element.attribute? "parent").filter (· != "") with
  | some parent =>
    let bare := dropStyleMarks parent.toList
    if bare.head? == some '@' || "android:".toList.isPrefixOf bare then none
    else some (String.ofList bare)
  | none => (Text.cutLast? '.' name.toList).map fun (parent, _) => String.ofList parent

/-- Remembers what a child of a values file declares. -/
def declareValue (context : Context) (memory : Memory) (element : Xml.Element) : Memory :=
  match element.attribute? "name", kindOf? element with
  | some name, some kind =>
    let memory := declare memory kind name (context.elementPlace element)
    if kind == "style" then
      match styleParent? element name with
      | some parent => mention memory (keyOf "style" parent)
      | none => memory
    else memory
  | _, _ => memory

/-- Remembers what a file declares; the manifest declares nothing. -/
def declareFile (context : Context) (memory : Memory) (document : Xml.Document) : Memory :=
  match context.folder with
  | some .values => document.root.childElements.foldl (declareValue context) memory
  | some folder =>
    let name := (context.file.fileName?.getD "").toList.takeWhile (· != '.')
    if name.isEmpty then memory
    else declare memory folder.name (String.ofList name) context.filePlace
  | none => memory

def visitDocument (memory : Memory) (context : Context) (document : Xml.Document) : Memory :=
  let memory := declareFile context memory document
  let values := document.elements.flatMap fun element => element.attributes.map (·.value)
  let texts := document.texts.map (·.2)
  (values ++ texts).foldl mentionAll memory

def react (memory : Memory) (context : Context) : Call → Memory × List Emission
  | .beforeProject => ({ memory with defined := [], mentioned := [] }, [])
  | .document document => (visitDocument memory context document, [])
  | .afterProject =>
    let unused := memory.defined.filter fun (key, _) => !memory.mentioned.contains key
    (memory, unused.map fun ((kind, name), place) =>
      .report (.at place issue.id
        ("The resource R." ++ kind ++ "." ++ name ++ " appears to be unused")))
  | _ => (memory, [])

def detector : Detector :=
  { Detector.silent "UnusedResourceDetector" with react }

end ResourceLint.UnusedResources
