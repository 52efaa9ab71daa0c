/-
The report that is written as markup is read back.

Whatever the findings say, the report about them is a document, and what they
say can be taken from it again.  The text is followed through three readers:
it is divided into pieces as it was put together (`reads_render`), every tag
says what was written in it (`Tag.Writable`), and the pieces build one element
that holds an element for each finding (`builds_body`).  The induction is on
the findings, and what it carries is the list of the elements so far.
-/
import Mathlib.Data.List.Forall2
import ResourceLint.Proofs.Building
import ResourceLint.Report.Xml

namespace ResourceLint.Report.Xml

open ResourceLint.Xml (Builder Document Element Lexeme Node Reads Said Tag expand_blank)

variable {w : Warning} {found : List Warning}

-- ================================================================ tags

/-- An attribute stands on a line of its own. -/
def newLine : List Char := "\n        ".toList

/-- The content of the tag of a finding, up to its slash. -/
def content (w : Warning) : List Char :=
  Tag.contentText newLine "issue" (attributesOf w) [' ']

/-- The content of the outermost tag. -/
def rootContent : List Char := Tag.contentText [' '] "issues" [("format", "1")] []

/-- The names of the attributes of a finding, in order; some are left out
where nothing is known. -/
def keysOf (w : Warning) : List String :=
  ["id", "severity", "message", "category", "priority", "summary"]
    ++ (w.path.map fun _ => "file").toList ++ (w.line.map fun _ => "line").toList
    ++ (w.column.map fun _ => "column").toList

theorem map_attributesOf (w : Warning) : (attributesOf w).map (·.1) = keysOf w := by
  unfold attributesOf keysOf
  cases w.path <;> cases w.line <;> cases w.column <;> rfl

/-- All attributes that a finding may have. -/
theorem keysOf_sublist (w : Warning) : (keysOf w).Sublist
    ["id", "severity", "message", "category", "priority", "summary", "file", "line", "column"] := by
  have hoption : ∀ {α : Type} (o : Option α) (key : String),
      (o.map fun _ => key).toList.Sublist [key] := by
    intro α o key
    cases o with
    | none => exact List.nil_sublist _
    | some _ => exact .refl _
  exact (((List.Sublist.refl _).append (hoption w.path "file")).append
    (hoption w.line "line")).append (hoption w.column "column")

/-- A finding can be written as an element with its attributes. -/
theorem writable_finding (w : Warning) : Tag.Writable newLine "issue" (attributesOf w) where
  name := by decide
  lead := by decide
  keys := by
    intro a ha
    have hkey : a.1 ∈ keysOf w := map_attributesOf w ▸ List.mem_map_of_mem ha
    have hall : ∀ key ∈ ["id", "severity", "message", "category", "priority", "summary", "file",
        "line", "column"], Tag.isKey key := by decide
    exact hall _ ((keysOf_sublist w).subset hkey)
  nodup := by
    rw [map_attributesOf]
    exact (keysOf_sublist w).nodup (by decide)

theorem writable_root : Tag.Writable [' '] "issues" [("format", "1")] where
  name := by decide
  lead := by decide
  keys := by decide
  nodup := by decide

/-- The tag of a finding says its name and its attributes. -/
theorem read_content (w : Warning) : String.ofList (Tag.nameOf (content w)) = "issue"
    ∧ Tag.readAttributes (content w) = .ok (attributesOf w) :=
  ⟨(writable_finding w).nameOf_contentText (by decide),
    (writable_finding w).readAttributes_contentText (by decide)⟩

/-- So does the outermost tag. -/
theorem read_rootContent : String.ofList (Tag.nameOf rootContent) = "issues"
    ∧ Tag.readAttributes rootContent = .ok [("format", "1")] :=
  ⟨writable_root.nameOf_contentText (by decide),
    writable_root.readAttributes_contentText (by decide)⟩

-- =============================================================== pieces

/-- The text behind the outermost tag. -/
def body (found : List Warning) : List Char :=
  '\n' :: ((found.map warningText).flatMap String.toList ++ "</issues>\n".toList)

/-- The pieces of the body. -/
def bodyPieces : List Warning → List Lexeme
  | [] => [.text ['\n'], .endTag "issues".toList, .text ['\n']]
  | w :: found => .text "\n    ".toList :: .tag (content w ++ ['/']) :: bodyPieces found

theorem toList_attributeText (a : String × String) :
    (attributeText a).toList = Tag.attributeText newLine a := by
  unfold attributeText Tag.attributeText newLine
  simp

/-- The text of a finding is an indented empty tag. -/
theorem toList_warningText (w : Warning) :
    (warningText w).toList = "    ".toList ++ '<' :: content w ++ '/' :: '>' :: ['\n'] := by
  have hattributes : (String.join ((attributesOf w).map attributeText)).toList
      = (attributesOf w).flatMap (Tag.attributeText newLine) := by
    rw [String.toList_join, List.flatMap_map]
    exact List.flatMap_congr fun a _ => toList_attributeText a
  unfold warningText content Tag.contentText
  rw [String.toList_append, String.toList_append, hattributes]
  simp

/-- The line feed that ends a finding begins the text behind it. -/
theorem body_cons (w : Warning) (found : List Warning) :
    body (w :: found) = "\n    ".toList ++ ('<' :: (content w ++ ['/']) ++ '>' :: body found) := by
  unfold body
  rw [List.map_cons, List.flatMap_cons, toList_warningText]
  simp

/-- A report is its declaration, its root and its findings. -/
theorem toList_render (found : List Warning) :
    (render found).toList = '<' :: '?' :: "xml version=\"1.0\" encoding=\"UTF-8\"".toList
      ++ '?' :: '>' :: ("\n".toList ++ ('<' :: rootContent ++ '>' :: body found)) := by
  unfold render body rootContent
  rw [String.toList_append, String.toList_append, String.toList_join]
  rfl

/-- What stands in the tag of a finding is written as any tag is. -/
theorem content_append (w : Warning) :
    content w ++ ['/'] = Tag.contentText newLine "issue" (attributesOf w) [' ', '/'] := by
  unfold content Tag.contentText
  simp

/-- The body is divided into pieces as it was put together. -/
theorem reads_body (found : List Warning) : Reads (body found) (bodyPieces found) := by
  induction found with
  | nil =>
      have hend : Reads (['\n'] ++ []) [.text ['\n']] :=
        Reads.text (by decide) (by decide) (Or.inl rfl) Reads.nil
      show Reads (['\n'] ++ ('<' :: '/' :: "issues".toList ++ '>' :: ['\n'])) _
      exact Reads.text (by decide) (by decide) (Or.inr rfl)
        (Reads.endTag (by decide) (by decide) (by decide) hend)
  | cons w found ih =>
      rw [body_cons, bodyPieces, content_append]
      refine Reads.text (by decide) (by decide) (Or.inr rfl) (Reads.tag ?_ ?_ ih)
      · exact (writable_finding w).encloses (.of_isPlain (by decide))
      · exact (writable_finding w).head?

/-- So is the whole report. -/
theorem reads_render (found : List Warning) : Reads (render found).toList
    (.aside :: .text ['\n'] :: .tag rootContent :: bodyPieces found) := by
  rw [toList_render]
  refine Reads.instruction (by decide) ⟨'x', rfl, by decide⟩ ?_
  refine Reads.text (by decide) (by decide) (Or.inr rfl) (Reads.tag ?_ ?_ (reads_body found))
  · exact writable_root.encloses .nil
  · exact writable_root.head?

-- ================================================================ tree

/-- What is written of the outermost element. -/
def rootSaid : Said := ("issues", [("format", "1")])

/-- What is written of a finding, and what its element holds. -/
def said (w : Warning) : Said × List Node := (("issue", attributesOf w), [])

/-- Behind the outermost tag, each finding adds its element to those before
it, until the end tag comes. -/
theorem builds_body (found : List Warning) {b : Builder}
    {elements : List (Said × List Node)} (h : b.Inside rootSaid elements) :
    b.Builds (bodyPieces found) (·.Closed rootSaid (elements ++ found.map said)) := by
  induction found generalizing b elements with
  | nil =>
      rw [List.map_nil, List.append_nil]
      refine .cons (h.text (expand_blank (by decide))) fun b h => ?_
      refine .cons (h.endTag rfl) fun b h => ?_
      refine .cons (fun start stop => ⟨b, ?_, h⟩) fun b h => .nil h
      exact Builder.take_blank h.opened (expand_blank (by decide)) (by decide) start stop
  | cons w found ih =>
      refine .cons (h.text (expand_blank (by decide))) fun b h => ?_
      refine .cons (h.emptyTag (read_content w).2) fun b h => ?_
      rw [(read_content w).1] at h
      have hrest := ih h
      rw [List.append_assoc] at hrest
      exact hrest

/-- The pieces of a report build its tree. -/
theorem builds_render (source : List Char) (found : List Warning) :
    (Builder.start source).Builds (.aside :: .text ['\n'] :: .tag rootContent :: bodyPieces found)
      (·.Closed rootSaid (found.map said)) := by
  have hstart : (Builder.start source).Fresh := ⟨rfl, rfl⟩
  refine .cons hstart.aside fun b h => ?_
  refine .cons (fun start stop => ⟨b, ?_, h⟩) fun b h => ?_
  · exact Builder.take_blank h.opened (expand_blank (by decide)) (by decide) start stop
  · refine .cons (h.tag (by decide) read_rootContent.2) fun b h => ?_
    rw [read_rootContent.1] at h
    exact builds_body found h

-- ============================================================== report

/-- An element says what a finding says, and nothing else. -/
structure Shows (e : Element) (w : Warning) : Prop where
  name : e.name = "issue"
  keys : e.attributes.map (·.name) = keysOf w
  id : e.attribute? "id" = some w.issue.id
  severity : e.attribute? "severity" = some w.severity.description
  message : e.attribute? "message" = some w.message
  category : e.attribute? "category" = some w.issue.category.fullName
  priority : e.attribute? "priority" = some (toString w.issue.priority)
  summary : e.attribute? "summary" = some w.issue.summary
  file : e.attribute? "file" = w.path
  line : e.attribute? "line" = w.line.map fun line => toString (line + 1)
  column : e.attribute? "column" = w.column.map fun column => toString (column + 1)
  children : e.children = []

/-- A value is looked up among those that are written. -/
theorem attribute?_eq {e : Element} {name : String}
    {attributes : List (String × String)} (h : e.tag.said = (name, attributes)) (key : String) :
    e.attribute? key = (attributes.find? (·.1 == key)).map (·.2) := by
  have hattributes : attributes = e.tag.attributes.map fun a => (a.name, a.value) :=
    (congrArg Prod.snd h).symm
  rw [hattributes, List.find?_map, Option.map_map]
  rfl

/-- The value that is written of a finding under a key. -/
def lookup (w : Warning) (key : String) : Option String :=
  ((attributesOf w).find? (·.1 == key)).map (·.2)

/-- The place is written where it is known. -/
theorem lookup_place (w : Warning) : lookup w "file" = w.path
    ∧ lookup w "line" = w.line.map (fun line => toString (line + 1))
    ∧ lookup w "column" = w.column.map (fun column => toString (column + 1)) := by
  unfold lookup attributesOf
  cases w.path <;> cases w.line <;> cases w.column <;> exact ⟨rfl, rfl, rfl⟩

/-- An element in which a finding is written shows it. -/
theorem shows_of_said {e : Element} (h : (e.tag.said, e.children) = said w) :
    Shows e w := by
  obtain ⟨htag, hchildren⟩ := Prod.mk.inj h
  have hname := congrArg Prod.fst htag
  have hattributes : (e.tag.attributes.map fun a => (a.name, a.value)) = attributesOf w :=
    congrArg Prod.snd htag
  have hkeys : e.attributes.map (·.name) = keysOf w := by
    rw [← map_attributesOf, ← hattributes, List.map_map]
    rfl
  have hlookup : ∀ key, e.attribute? key = lookup w key := attribute?_eq htag
  exact
    { name := hname
      keys := hkeys
      id := hlookup "id"
      severity := hlookup "severity"
      message := hlookup "message"
      category := hlookup "category"
      priority := hlookup "priority"
      summary := hlookup "summary"
      file := (hlookup "file").trans (lookup_place w).1
      line := (hlookup "line").trans (lookup_place w).2.1
      column := (hlookup "column").trans (lookup_place w).2.2
      children := hchildren }

/-- The report about any findings is read back.  It is a document; its
outermost element holds one element for each finding, in order, and this one
says what the finding says. -/
theorem parse_render (found : List Warning) :
    ∃ document, Document.parse (render found) = .ok document
      ∧ document.root.name = "issues"
      ∧ List.Forall₂ Shows document.root.childElements found := by
  obtain ⟨document, hparse, hsaid, helements⟩ := Document.parse_eq_ok
    (toList_render found) (reads_render found) (builds_render _ found)
  refine ⟨document, hparse, congrArg Prod.fst hsaid, ?_⟩
  rw [← List.forall₂_eq_eq_eq, List.forall₂_map_left_iff, List.forall₂_map_right_iff] at helements
  exact helements.imp fun e w h => shows_of_said h

end ResourceLint.Report.Xml
