/-
The ways to write a tree.

A tree can be written in many ways: a character as it is or as an entity, a
run of text in one piece or with literal sections and comments in it, an
element without children by one tag or by two.  `Markup` is what is written
inside of an element, with each of these choices made; it has a text
(`Markup.text`), it says which nodes are written (`Markup.trees`), and where
the elements begin and end (`Markup.places`).  A `Rendering` is a whole
document, with comments, instructions and blanks around its element.

Every markup says a list of nodes in which no two texts are side by side and
none is empty: what stands between two tags is one text.
-/
import Mathlib.Data.List.Infix
import ResourceLint.Proofs.Building

namespace ResourceLint.Xml

-- =================================================================== trees

/-- What a document says, places and namespaces aside. -/
inductive Tree
  | element (name : String) (attributes : List (String × String)) (children : List Tree)
  | text (content : String)

mutual

/-- What a node says. -/
def Node.tree : Node → Tree
  | .element tag _ children => .element tag.said.1 tag.said.2 (treesOf children)
  | .text content _ => .text content

def treesOf : List Node → List Tree
  | [] => []
  | node :: more => node.tree :: treesOf more

end

mutual

/-- The first byte of each element in a node and the one behind its last. -/
def Node.places : Node → List (Nat × Nat)
  | .element _ span children => (span.start.offset, span.stop.offset) :: placesOf children
  | .text .. => []

def placesOf : List Node → List (Nat × Nat)
  | [] => []
  | node :: more => node.places ++ placesOf more

end

/-- What a document says. -/
def Document.tree (d : Document) : Tree := (Node.element d.tag d.span d.children).tree

-- ============================================================= single parts

/-- A character, and whether it is written as an entity where there is one
for it. -/
structure Letter where
  char : Char
  escaped : Bool

def Letter.text (l : Letter) : List Char := if l.escaped then escapeChar l.char else [l.char]

/-- How a text is written. -/
abbrev Spelling := List Letter

namespace Spelling

def chars (s : Spelling) : List Char := s.map (·.char)

def text (s : Spelling) : List Char := s.flatMap Letter.text

/-- None of these characters is written as it is. -/
def hides (special : List Char) (s : Spelling) : Bool :=
  s.all fun l => l.escaped || !special.contains l.char

end Spelling

/-- A name that can stand in a tag.  It may hold more than the grammar of
names allows. -/
def isName (name : String) : Bool := Tag.isKey name && name.toList.all (· != '<')

/-- An attribute behind some white space, its value in quotes. -/
structure WrittenAttribute where
  lead : List Char
  key : String
  quote : Char
  value : Spelling

namespace WrittenAttribute

def spelled (a : WrittenAttribute) : Tag.Spelled := ⟨a.lead, a.key, a.quote, a.value.text⟩

def isValid (a : WrittenAttribute) : Bool :=
  !a.lead.isEmpty && a.lead.all Text.isMarkupSpace && isName a.key
    && (a.quote == '"' || a.quote == '\'') && a.value.hides ['<', '&', a.quote]

/-- The name and the value that are written. -/
def said (a : WrittenAttribute) : String × String := (a.key, String.ofList a.value.chars)

end WrittenAttribute

/-- What stands in a tag, and the white space at its end. -/
structure WrittenTag where
  name : String
  attributes : List WrittenAttribute
  tail : List Char

namespace WrittenTag

def text (t : WrittenTag) : List Char :=
  Tag.spelledText t.name (t.attributes.map (·.spelled)) t.tail

def startText (t : WrittenTag) : List Char := '<' :: t.text ++ ['>']

def emptyText (t : WrittenTag) : List Char := '<' :: (t.text ++ ['/']) ++ ['>']

def endText (t : WrittenTag) : List Char := '<' :: '/' :: t.name.toList ++ ['>']

def isValid (t : WrittenTag) : Bool :=
  isName t.name && t.attributes.all (·.isValid) && decide (t.attributes.map (·.key)).Nodup
    && t.tail.all Text.isMarkupSpace

/-- The element with this tag. -/
def tree (t : WrittenTag) (children : List Tree) : Tree :=
  .element t.name (t.attributes.map (·.said)) children

end WrittenTag

def literalText (content : List Char) : List Char :=
  "<![CDATA[".toList ++ (content ++ "]]>".toList)

def commentText (content : List Char) : List Char := "<!--".toList ++ (content ++ "-->".toList)

def instructionText (content : List Char) : List Char := '<' :: '?' :: content ++ ['?', '>']

-- ================================================================== markup

/-- What is written inside of an element.  Before each part, and at the end,
stands a run of text, which may be empty. -/
inductive Markup
  | last (run : Spelling)
  | literal (run : Spelling) (content : List Char) (more : Markup)
  | comment (run : Spelling) (content : List Char) (more : Markup)
  /-- an element written by an empty tag -/
  | empty (run : Spelling) (tag : WrittenTag) (more : Markup)
  /-- an element written by a start tag and an end tag -/
  | element (run : Spelling) (tag : WrittenTag) (inner more : Markup)

namespace Markup

def text : Markup → List Char
  | last run => run.text
  | literal run content more => run.text ++ (literalText content ++ more.text)
  | comment run content more => run.text ++ (commentText content ++ more.text)
  | empty run tag more => run.text ++ (tag.emptyText ++ more.text)
  | element run tag inner more =>
    run.text ++ (tag.startText ++ (inner.text ++ (tag.endText ++ more.text)))

/-- The parts can be told apart.  Text shows no bracket and no ampersand, a
literal section is not empty and does not show its own end, and a comment
holds no hyphen. -/
def isValid : Markup → Bool
  | last run => run.hides ['<', '&']
  | literal run content more =>
    run.hides ['<', '&'] && !content.isEmpty && decide ¬ "]]>".toList <:+: content && more.isValid
  | comment run content more =>
    run.hides ['<', '&'] && content.all (· != '-') && more.isValid
  | empty run tag more => run.hides ['<', '&'] && tag.isValid && more.isValid
  | element run tag inner more =>
    run.hides ['<', '&'] && tag.isValid && inner.isValid && more.isValid

end Markup

/-- The node that some text is, if it is any. -/
def textTrees (said : List Char) : List Tree :=
  if said.isEmpty then [] else [.text (String.ofList said)]

namespace Markup

/-- The nodes that are written, where `said` is the text before. -/
def trees (said : List Char) : Markup → List Tree
  | last run => textTrees (said ++ run.chars)
  | literal run content more => more.trees (said ++ run.chars ++ content)
  | comment run _ more => more.trees (said ++ run.chars)
  | empty run tag more => textTrees (said ++ run.chars) ++ tag.tree [] :: more.trees []
  | element run tag inner more =>
    textTrees (said ++ run.chars) ++ tag.tree (inner.trees []) :: more.trees []

/-- The byte of each opening bracket and the one behind the closing bracket,
in document order, when the first byte of the text is `at'`. -/
def places (at' : Nat) : Markup → List (Nat × Nat)
  | last _ => []
  | literal run content more =>
    more.places (at' + Text.byteSize run.text + Text.byteSize (literalText content))
  | comment run content more =>
    more.places (at' + Text.byteSize run.text + Text.byteSize (commentText content))
  | empty run tag more =>
    let start := at' + Text.byteSize run.text
    let stop := start + Text.byteSize tag.emptyText
    (start, stop) :: more.places stop
  | element run tag inner more =>
    let start := at' + Text.byteSize run.text
    let inside := start + Text.byteSize tag.startText
    let stop := inside + Text.byteSize inner.text + Text.byteSize tag.endText
    (start, stop) :: (inner.places inside ++ more.places stop)

end Markup

-- =============================================================== documents

/-- What may stand outside of the outermost element. -/
inductive Note
  | comment (content : List Char)
  | instruction (content : List Char)

namespace Note

def text : Note → List Char
  | comment content => commentText content
  | instruction content => instructionText content

/-- A comment holds no hyphen; an instruction, as the declaration at the
beginning is one, holds no question mark and does not begin with its end. -/
def isValid : Note → Bool
  | comment content => content.all (· != '-')
  | instruction content => content.all (· != '?') && content.head?.any (· != '>')

end Note

/-- Notes with blanks before each of them, and the blanks behind the last. -/
structure Surroundings where
  notes : List (List Char × Note)
  tail : List Char

namespace Surroundings

def text (around : Surroundings) : List Char :=
  around.notes.flatMap (fun (blank, note) => blank ++ note.text) ++ around.tail

def isValid (around : Surroundings) : Bool :=
  around.notes.all (fun (blank, note) => blank.all Text.isBlank && note.isValid)
    && around.tail.all Text.isBlank

end Surroundings

/-- A whole document: its element, which is written by an empty tag where it
has no markup in it, and what is around it. -/
structure Rendering where
  before : Surroundings
  tag : WrittenTag
  inner : Option Markup
  after : Surroundings

namespace Rendering

/-- The text of the element. -/
def rootText (w : Rendering) : List Char :=
  match w.inner with
  | none => w.tag.emptyText
  | some inner => w.tag.startText ++ (inner.text ++ w.tag.endText)

def text (w : Rendering) : List Char := w.before.text ++ (w.rootText ++ w.after.text)

def isValid (w : Rendering) : Bool :=
  w.before.isValid && w.tag.isValid && w.inner.all (·.isValid) && w.after.isValid

/-- The tree that is written. -/
def tree (w : Rendering) : Tree :=
  w.tag.tree ((w.inner.map (·.trees [])).getD [])

/-- The first byte of each element and the one behind its last, in document
order. -/
def places (w : Rendering) : List (Nat × Nat) :=
  let start := Text.byteSize w.before.text
  (start, start + Text.byteSize w.rootText)
    :: (w.inner.map (·.places (start + Text.byteSize w.tag.startText))).getD []

/-- The document writes the tree. -/
def Renders (w : Rendering) (t : Tree) : Prop := w.isValid ∧ w.tree = t

end Rendering

-- =========================================================== reading a part

variable {c : Char} {special : List Char} {s : Spelling}

namespace Spelling

/-- What is written of a text is read as the text. -/
theorem expandFrom_text (h : s.hides special) (hspecial : '&' ∈ special) (size offset : Nat) :
    expandFrom size offset s.text = .ok s.chars := by
  induction s generalizing offset with
  | nil =>
      show expandFrom size offset [] = _
      rw [expandFrom]
      rfl
  | cons l s ih =>
      unfold hides at h
      rw [List.all_cons, Bool.and_eq_true] at h
      obtain ⟨hl, hs⟩ := h
      show expandFrom size offset (l.text ++ text s) = _
      unfold Letter.text
      by_cases hescaped : l.escaped
      · obtain ⟨next, hnext⟩ := expandFrom_escapeChar size offset l.char (text s)
        rw [if_pos hescaped, hnext, ih hs]
        rfl
      · have hne : l.char ≠ '&' := by
          intro heq
          rw [heq, List.contains_iff_mem.mpr hspecial] at hl
          simp [hescaped] at hl
        rw [if_neg hescaped]
        show expandFrom size offset (l.char :: text s) = _
        rw [expandFrom_cons hne, ih hs]
        rfl

/-- A text that spells what is special is expanded to its characters. -/
theorem expand_text (h : s.hides special) (hspecial : '&' ∈ special) :
    expand s.text = .ok s.chars := expandFrom_text h hspecial _ 0

/-- What is hidden is not in the text, the ampersand aside. -/
theorem notMem_text (h : s.hides special) (hc : c ∈ special) (hne : c ≠ '&')
    (hentity : isSpecial c) : c ∉ s.text := by
  intro hmem
  obtain ⟨l, hl, hmem⟩ := List.mem_flatMap.mp hmem
  have hhides := List.all_eq_true.mp h l hl
  unfold Letter.text at hmem
  by_cases hescaped : l.escaped
  · rw [if_pos hescaped] at hmem
    rcases ne_of_mem_escapeChar hmem with heq | hplain
    · exact hne heq
    · rw [hentity] at hplain
      cases hplain
  · rw [if_neg hescaped, List.mem_singleton] at hmem
    rw [← hmem, List.contains_iff_mem.mpr hc] at hhides
    simp [hescaped] at hhides

end Spelling

-- ========================================================== reading a tag

/-- A name is a key without `<`. -/
theorem isName_iff {name : String} :
    isName name ↔ Tag.isKey name ∧ '<' ∉ name.toList := by
  unfold isName
  rw [Bool.and_eq_true, List.all_eq_true]
  refine and_congr_right fun _ => ⟨fun h hmem => by simpa using h _ hmem, fun h c hc => ?_⟩
  simp only [bne_iff_ne]
  rintro rfl
  exact h hc

/-- A character that is no blank is not among blanks. -/
theorem notMem_of_isMarkupSpace {blank : List Char} (h : blank.all Text.isMarkupSpace)
    (hc : Text.isMarkupSpace c = false) : c ∉ blank := by
  intro hmem
  rw [List.all_eq_true.mp h c hmem] at hc
  cases hc

/-- Two texts that do not end in a character do not end in it together. -/
theorem getLast?_append_ne {front back : List Char} (hfront : front.getLast? ≠ some c)
    (hback : back.getLast? ≠ some c) : (front ++ back).getLast? ≠ some c := by
  rw [List.getLast?_append]
  cases hlast : back.getLast? with
  | none => exact hfront
  | some d =>
      rw [hlast] at hback
      exact hback

namespace WrittenAttribute

variable {a : WrittenAttribute}

/-- What a valid attribute is made of. -/
theorem of_isValid (h : a.isValid) :
    (a.lead ≠ [] ∧ a.lead.all Text.isMarkupSpace) ∧ (Tag.isKey a.key ∧ '<' ∉ a.key.toList)
      ∧ (a.quote = '"' ∨ a.quote = '\'') ∧ a.value.hides ['<', '&', a.quote] := by
  unfold isValid at h
  simp only [Bool.and_eq_true, Bool.or_eq_true, beq_iff_eq, Bool.not_eq_true',
    List.isEmpty_eq_false_iff, isName_iff] at h
  obtain ⟨⟨⟨⟨hne, hlead⟩, hkey⟩, hquote⟩, hvalue⟩ := h
  exact ⟨⟨hne, hlead⟩, hkey, hquote, hvalue⟩

/-- A valid attribute can be read back. -/
theorem isLegible (h : a.isValid) : a.spelled.IsLegible := by
  obtain ⟨hlead, hkey, hquote, hvalue⟩ := of_isValid h
  refine ⟨hlead, hkey.1, hquote, fun c hc heq => ?_⟩
  refine Spelling.notMem_text hvalue ?_ ?_ ?_ (heq ▸ hc)
  · exact List.mem_cons_of_mem _ (List.mem_cons_of_mem _ List.mem_cons_self)
  · show a.quote ≠ '&'
    rcases hquote with hquote | hquote <;> rw [hquote] <;> decide
  · show isSpecial a.quote = true
    rcases hquote with hquote | hquote <;> rw [hquote] <;> decide

theorem expand_value (h : a.isValid) : expand a.value.text = .ok a.value.chars :=
  Spelling.expand_text (of_isValid h).2.2.2 (List.mem_cons_of_mem _ List.mem_cons_self)

theorem notMem_text (h : a.isValid) : '<' ∉ a.spelled.text := by
  obtain ⟨hlead, hkey, hquote, hvalue⟩ := of_isValid h
  have hne : '<' ≠ a.quote := by
    rcases hquote with hquote | hquote <;> rw [hquote] <;> decide
  have hinner : '<' ∉ a.value.text :=
    Spelling.notMem_text hvalue List.mem_cons_self (by decide) (by decide)
  have hspace : '<' ∉ a.lead := notMem_of_isMarkupSpace hlead.2 (by decide)
  unfold Tag.Spelled.text spelled
  simp [hne, hinner, hspace, hkey.2]

end WrittenAttribute

namespace WrittenTag

variable {t : WrittenTag} {rest : List Char}

/-- What a valid tag is made of. -/
theorem of_isValid (h : t.isValid) :
    (Tag.isKey t.name ∧ '<' ∉ t.name.toList) ∧ (∀ a ∈ t.attributes, a.isValid)
      ∧ (t.attributes.map (·.key)).Nodup ∧ t.tail.all Text.isMarkupSpace := by
  unfold isValid at h
  simp only [Bool.and_eq_true, decide_eq_true_eq, isName_iff] at h
  obtain ⟨⟨⟨hname, hattributes⟩, hnodup⟩, htail⟩ := h
  exact ⟨hname, List.all_eq_true.mp hattributes, hnodup, htail⟩

/-- A valid tag can be read back. -/
theorem legible (h : t.isValid) : Tag.Legible t.name (t.attributes.map (·.spelled)) := by
  obtain ⟨hname, hattributes, hnodup, -⟩ := of_isValid h
  refine ⟨hname.1, fun a ha => ?_, ?_⟩
  · obtain ⟨b, hb, rfl⟩ := List.mem_map.mp ha
    exact WrittenAttribute.isLegible (hattributes b hb)
  · rw [List.map_map]
    exact hnodup

theorem nameOf_text (h : t.isValid) : String.ofList (Tag.nameOf t.text) = t.name :=
  (legible h).nameOf_spelledText (of_isValid h).2.2.2

/-- The values of valid attributes are expanded to what was meant. -/
theorem expandValues_map {attributes : List WrittenAttribute} (h : ∀ a ∈ attributes, a.isValid) :
    Tag.expandValues (attributes.map (·.spelled.raw)) none = .ok (attributes.map (·.said)) := by
  induction attributes with
  | nil => rfl
  | cons a attributes ih =>
      have hvalue : expand a.spelled.raw.value = .ok a.value.chars :=
        WrittenAttribute.expand_value (h a List.mem_cons_self)
      rw [List.map_cons, Tag.expandValues, hvalue, ih fun b hb => h b (List.mem_cons_of_mem _ hb)]
      show Except.ok ((String.ofList a.key.toList, _) :: attributes.map (·.said)) = _
      rw [String.ofList_toList]
      rfl

/-- The attributes that are written are read. -/
theorem readAttributes_text (h : t.isValid) :
    Tag.readAttributes t.text = .ok (t.attributes.map (·.said)) := by
  unfold Tag.readAttributes text
  rw [(legible h).rawAttributes_spelledText (of_isValid h).2.2.2, List.map_map]
  exact expandValues_map (of_isValid h).2.1

/-- No bracket opens inside of a tag. -/
theorem notMem_text (h : t.isValid) : '<' ∉ t.text := by
  obtain ⟨hname, hattributes, -, htail⟩ := of_isValid h
  unfold text Tag.spelledText
  simp only [List.mem_append, not_or]
  refine ⟨hname.2, fun hmem => ?_, notMem_of_isMarkupSpace htail (by decide)⟩
  obtain ⟨spelled, hspelled, hmem⟩ := List.mem_flatMap.mp hmem
  obtain ⟨a, ha, rfl⟩ := List.mem_map.mp hspelled
  exact WrittenAttribute.notMem_text (hattributes a ha) hmem

/-- A start tag does not end like an empty one. -/
theorem getLast?_text (h : t.isValid) : t.text.getLast? ≠ some '/' := by
  obtain ⟨hname, hattributes, -, htail⟩ := of_isValid h
  have hkey : '/' ∉ t.name.toList := fun hmem =>
    (Tag.ne_of_isKeyChar (Tag.isKeyChar_of_isKey hname.1 _ hmem)).2.2 rfl
  have hspace : '/' ∉ t.tail := notMem_of_isMarkupSpace htail (by decide)
  unfold text Tag.spelledText
  refine getLast?_append_ne (mt List.mem_of_getLast? hkey)
    (getLast?_append_ne ?_ (mt List.mem_of_getLast? hspace))
  generalize t.attributes = attributes at hattributes
  induction attributes with
  | nil => simp
  | cons a attributes ih =>
      rw [List.map_cons, List.flatMap_cons]
      refine getLast?_append_ne ?_ (ih fun b hb => hattributes b (List.mem_cons_of_mem _ hb))
      -- an attribute ends with its quote
      obtain ⟨-, -, hquote, -⟩ := WrittenAttribute.of_isValid (hattributes a List.mem_cons_self)
      unfold Tag.Spelled.text
      rw [List.getLast?_concat]
      show some a.quote ≠ some '/'
      rcases hquote with hquote | hquote <;> rw [hquote] <;> decide

/-- The blanks at its end enclose. -/
theorem encloses_tail (h : t.isValid) : Encloses t.tail := .blank (of_isValid h).2.2.2

/-- A start tag is cut off behind its bracket. -/
theorem cuts_startText (h : t.isValid) : Cuts (t.startText ++ rest) (.tag t.text) rest := by
  have hcut := @Cuts.tag rest t.text ((legible h).encloses (encloses_tail h)) (legible h).head?
  unfold startText
  simpa using hcut

/-- An empty tag is, with its slash. -/
theorem cuts_emptyText (h : t.isValid) :
    Cuts (t.emptyText ++ rest) (.tag (t.text ++ ['/'])) rest := by
  have htext : t.text ++ ['/']
      = Tag.spelledText t.name (t.attributes.map (·.spelled)) (t.tail ++ ['/']) := by
    unfold text Tag.spelledText
    simp
  have hslash : Encloses (t.tail ++ ['/']) :=
    (encloses_tail h).append (.singleton (by decide))
  have hcut := @Cuts.tag rest _ ((legible h).encloses hslash) (legible h).head?
  rw [← htext] at hcut
  unfold emptyText
  simpa using hcut

theorem cuts_endText (h : t.isValid) : Cuts (t.endText ++ rest) (.endTag t.name.toList) rest := by
  have hkey := (of_isValid h).1.1
  have hblank : t.name.toList.all (!Text.isMarkupSpace ·) :=
    List.all_eq_true.mpr fun c hc => by
      rw [Tag.isMarkupSpace_of_isKeyChar (Tag.isKeyChar_of_isKey hkey c hc)]
      rfl
  have hcut := @Cuts.endTag rest t.name.toList (Tag.ne_nil_of_isKey hkey)
    (Tag.all_isPlain_of_isKey hkey) hblank
  unfold endText
  simpa using hcut

end WrittenTag

-- ======================================================== reading other parts

variable {content rest : List Char}

/-- A literal section ends at the mark behind it, where it does not hold the
mark. -/
theorem cut?_of_not_inside (h : ¬ "]]>".toList <:+: content) :
    Text.cut? "]]>".toList (content ++ ("]]>".toList ++ rest)) = some (content, rest) := by
  induction content with
  | nil => simp [Text.cut?, Text.strip?]
  | cons c content ih =>
      have hrest : ¬ "]]>".toList <:+: content := fun hinside =>
        h (hinside.trans (List.suffix_cons c content).isInfix)
      have hmark : Text.strip? "]]>".toList (c :: content ++ ("]]>".toList ++ rest)) = none := by
        cases hstrip : Text.strip? "]]>".toList (c :: content ++ ("]]>".toList ++ rest)) with
        | none => rfl
        | some after =>
            exfalso
            have heq := Text.strip?_eq_some_iff.mp hstrip
            -- the mark would have to end in the first two brackets of the next one
            rcases content with - | ⟨d, - | ⟨e, content⟩⟩
            · simp at heq
            · simp at heq
            · refine h ⟨[], content, ?_⟩
              simp at heq
              simp [heq.1, heq.2.1, heq.2.2.1]
      rw [List.cons_append] at hmark ⊢
      rw [Text.cut?, hmark, ih hrest]
      rfl

/-- A literal section is cut off at its first end mark, which its content has
not. -/
theorem cuts_literalText (h : ¬ "]]>".toList <:+: content) :
    Cuts (literalText content ++ rest) (Lexeme.literal content) rest := by
  have hmark : '[' :: ("CDATA[".toList ++ ((content ++ "]]>".toList) ++ rest))
      = "[CDATA[".toList ++ (content ++ ("]]>".toList ++ rest)) := by
    rw [List.append_assoc]
    rfl
  unfold literalText
  refine ⟨'<', _, rfl, ?_⟩
  show nextDeclaration ('[' :: ("CDATA[".toList ++ ((content ++ "]]>".toList) ++ rest))) = _
  unfold nextDeclaration
  simp only [Text.strip?_eq_some_iff.mpr hmark, Option.bind_some, cut?_of_not_inside h]

/-- A comment is cut off at its end. -/
theorem cuts_commentText (h : content.all (· != '-')) :
    Cuts (commentText content ++ rest) .aside rest := Cuts.comment h

/-- Comments and instructions are passed over. -/
theorem Note.cuts {note : Note} (h : note.isValid) : Cuts (note.text ++ rest) .aside rest := by
  cases note with
  | comment content => exact cuts_commentText h
  | instruction content =>
      unfold isValid at h
      rw [Bool.and_eq_true] at h
      obtain ⟨c, hc, hne⟩ := (Option.any_eq_true _ _).mp h.2
      have hcut := @Cuts.instruction rest content h.1 ⟨c, hc, by simpa using hne⟩
      unfold text instructionText
      simpa using hcut

-- ================================================ every tree can be written

/-- The characters that the grammar of names lists. -/
def nameRanges : List (Nat × Nat) :=
  [(0x2D, 0x2E), (0x30, 0x3A), (0x41, 0x5A), (0x5F, 0x5F), (0x61, 0x7A), (0xB7, 0xB7),
    (0xC0, 0xD6), (0xD8, 0xF6), (0xF8, 0x37D), (0x37F, 0x1FFF), (0x200C, 0x200D),
    (0x203F, 0x2040), (0x2070, 0x218F), (0x2C00, 0x2FEF), (0x3001, 0xD7FF), (0xF900, 0xFDCF),
    (0xFDF0, 0xFFFD), (0x10000, 0xEFFFF)]

/-- A character that the grammar allows in a name. -/
def isGrammatical (c : Char) : Bool :=
  nameRanges.any fun range => decide (range.1 ≤ c.toNat) && decide (c.toNat ≤ range.2)

/-- Every name of the grammar can stand in a tag. -/
theorem isName_of_grammar {name : String} (hne : name ≠ "") (h : name.toList.all isGrammatical) :
    isName name := by
  have hmarks : ['>', '"', '\'', '=', ' ', '\t', '\r', '\n', '!', '?', '/', '<'].all
      (!isGrammatical ·) := by decide
  have hother : ∀ c ∈ name.toList,
      c ∉ ['>', '"', '\'', '=', ' ', '\t', '\r', '\n', '!', '?', '/', '<'] := by
    intro c hc hmem
    have hmark := List.all_eq_true.mp hmarks c hmem
    rw [List.all_eq_true.mp h c hc] at hmark
    cases hmark
  refine isName_iff.mpr ⟨?_, fun hmem => hother _ hmem (by decide)⟩
  unfold Tag.isKey
  rw [Bool.and_eq_true]
  refine ⟨by simpa using hne, List.all_eq_true.mpr fun c hc => ?_⟩
  have hc := hother c hc
  simp only [List.mem_cons, not_or] at hc
  simp [Tag.isKeyChar, isPlain, Text.isMarkupSpace, hc]

/-- Whether the first of some nodes is a text. -/
def beginsWithText : List Tree → Bool
  | .text _ :: _ => true
  | _ => false

mutual

/-- Names can stand in a tag, attributes have names of their own, no text is
empty, and no two are side by side. -/
def Tree.isProper : Tree → Bool
  | .element name attributes children =>
    isName name && attributes.all (fun a => isName a.1) && decide (attributes.map (·.1)).Nodup
      && areProper children
  | .text content => !content.toList.isEmpty

def areProper : List Tree → Bool
  | [] => true
  | .text content :: more =>
    (Tree.text content).isProper && !beginsWithText more && areProper more
  | .element name attributes children :: more =>
    (Tree.element name attributes children).isProper && areProper more

end

/-- A text with every entity that there is for its characters. -/
def spell (content : String) : Spelling := content.toList.map fun c => ⟨c, true⟩

/-- A text is spelled out as itself. -/
theorem chars_spell (content : String) : (spell content).chars = content.toList := by
  unfold spell Spelling.chars
  rw [List.map_map]
  exact List.map_id _

/-- The spelling hides whatever is special. -/
theorem hides_spell (content : String) : (spell content).hides special := by
  unfold spell Spelling.hides
  rw [List.all_map]
  exact List.all_eq_true.mpr fun _ _ => rfl

/-- A tag with a space before each attribute. -/
def tagOf (name : String) (attributes : List (String × String)) : WrittenTag :=
  ⟨name, attributes.map fun a => ⟨[' '], a.1, '"', spell a.2⟩, []⟩

/-- The markup of nodes behind a run of text, every element by two tags. -/
def markupOf (run : Spelling) : List Tree → Markup
  | [] => .last run
  | .text content :: more => markupOf (run ++ spell content) more
  | .element name attributes children :: more =>
    .element run (tagOf name attributes) (markupOf [] children) (markupOf [] more)
termination_by trees => sizeOf trees

/-- An element that is proper is written by a valid tag, which reads as the
element. -/
theorem tagOf_spec {name : String} {attributes : List (String × String)} {children : List Tree}
    (h : (Tree.element name attributes children).isProper) :
    (tagOf name attributes).isValid ∧ areProper children
      ∧ ∀ trees, (tagOf name attributes).tree trees = .element name attributes trees := by
  rw [Tree.isProper] at h
  simp only [Bool.and_eq_true, decide_eq_true_eq] at h
  obtain ⟨⟨⟨hname, hattributes⟩, hnodup⟩, hchildren⟩ := h
  refine ⟨?_, hchildren, fun trees => ?_⟩
  · have hmap : (attributes.map fun a => (⟨[' '], a.1, '"', spell a.2⟩ : WrittenAttribute)).map
        (·.key) = attributes.map (·.1) := List.map_map
    have hall : (attributes.map fun a => (⟨[' '], a.1, '"', spell a.2⟩ : WrittenAttribute)).all
        (·.isValid) := by
      rw [List.all_map]
      refine List.all_eq_true.mpr fun a ha => ?_
      have hkey := List.all_eq_true.mp hattributes a ha
      show WrittenAttribute.isValid _ = true
      unfold WrittenAttribute.isValid
      rw [hkey, hides_spell]
      rfl
    unfold tagOf WrittenTag.isValid
    simp only [hname, hall, hmap, hnodup]
    rfl
  · unfold tagOf WrittenTag.tree
    rw [List.map_map]
    refine congrArg (Tree.element name · trees) ?_
    have hsaid : ∀ a : String × String,
        (WrittenAttribute.mk [' '] a.1 '"' (spell a.2)).said = a := fun a => by
      unfold WrittenAttribute.said
      rw [chars_spell, String.ofList_toList]
    exact (List.map_congr_left fun a _ => hsaid a).trans (List.map_id _)

/-- Proper nodes are what their markup says. -/
theorem markupOf_spec (run : Spelling) (trees : List Tree) (hrun : run.hides ['<', '&'])
    (hproper : areProper trees) (hstart : run = [] ∨ beginsWithText trees = false) :
    (markupOf run trees).isValid
      ∧ (markupOf run trees).trees [] = textTrees run.chars ++ trees := by
  induction run, trees using markupOf.induct with
  | case1 run =>
      rw [markupOf]
      exact ⟨hrun, (List.append_nil _).symm⟩
  | case2 run content more ih =>
      rw [areProper, Tree.isProper] at hproper
      simp only [Bool.and_eq_true, Bool.not_eq_true'] at hproper
      obtain ⟨⟨hne, hapart⟩, hmore⟩ := hproper
      obtain rfl : run = [] := by
        rcases hstart with hnil | htext
        · exact hnil
        · cases htext
      rw [List.nil_append] at ih
      obtain ⟨hvalid, htrees⟩ := ih (hides_spell content) hmore (Or.inr hapart)
      rw [markupOf, List.nil_append]
      refine ⟨hvalid, htrees.trans ?_⟩
      unfold textTrees
      rw [chars_spell, hne, String.ofList_toList]
      rfl
  | case3 run name attributes children more ihchildren ihmore =>
      rw [areProper] at hproper
      rw [Bool.and_eq_true] at hproper
      obtain ⟨htag, hchildren, htree⟩ := tagOf_spec hproper.1
      obtain ⟨hinner, hinside⟩ := ihchildren rfl hchildren (Or.inl rfl)
      obtain ⟨hvalid, htrees⟩ := ihmore rfl hproper.2 (Or.inl rfl)
      rw [markupOf, Markup.isValid, Markup.trees, htree, hinside, htrees]
      refine ⟨?_, rfl⟩
      simp only [Bool.and_eq_true]
      exact ⟨⟨⟨hrun, htag⟩, hinner⟩, hvalid⟩

/-- Every proper tree can be written. -/
theorem exists_renders {name : String} {attributes : List (String × String)}
    {children : List Tree} (h : (Tree.element name attributes children).isProper) :
    ∃ w : Rendering, w.Renders (.element name attributes children) := by
  obtain ⟨htag, hchildren, htree⟩ := tagOf_spec h
  obtain ⟨hvalid, htrees⟩ := markupOf_spec [] children rfl hchildren (Or.inl rfl)
  refine ⟨⟨⟨[], []⟩, tagOf name attributes, some (markupOf [] children), ⟨[], []⟩⟩, ?_, ?_⟩
  · unfold Rendering.isValid
    simp only [Bool.and_eq_true]
    exact ⟨⟨⟨rfl, htag⟩, hvalid⟩, rfl⟩
  · show (tagOf name attributes).tree ((markupOf [] children).trees []) = _
    rw [htrees, htree]
    rfl

end ResourceLint.Xml
