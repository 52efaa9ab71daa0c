/-
How a tree is built of pieces.

The builder takes one piece after another, and each piece makes it pass from
one state to another: before the outermost element (`Fresh`), inside of it
(`Inside`), and behind it (`Closed`).  The states say what has been read, a
list of elements that only grows at its end, and leave aside where it stood:
the cursor and the spans of the nodes are never looked at.

A run is put together of steps.  `Builds` says that from one state the pieces
lead to another, whatever their places are.
-/
import Mathlib.Data.List.Basic
import ResourceLint.Proofs.Mirroring
import ResourceLint.Proofs.Reading

namespace ResourceLint.Xml

/-- What is written in a tag: its name, and its attributes with their values. -/
abbrev Said := String × List (String × String)

/-- What a tag says, its namespaces aside. -/
def Tag.said (tag : Tag) : Said := (tag.name, tag.attributes.map fun a => (a.name, a.value))

theorem Tag.said_ofWritten (scopes : List (List (String × String))) (name : String)
    (attributes : List (String × String)) :
    (Tag.ofWritten scopes name attributes).said = (name, attributes) := by
  unfold Tag.said Tag.ofWritten
  rw [List.map_map]
  exact congrArg (Prod.mk name) (List.map_id _)

/-- The elements among some nodes: what is written in their tags, and what
they hold. -/
def elementsIn (nodes : List Node) : List (Said × List Node) :=
  nodes.filterMap fun
    | .element tag _ children => some (tag.said, children)
    | .text .. => none

theorem elementsIn_append (a b : List Node) :
    elementsIn (a ++ b) = elementsIn a ++ elementsIn b := List.filterMap_append

/-- Children are looked at in their place, but they are the elements among
the nodes. -/
theorem Element.map_childElements (e : Element) :
    e.childElements.map (fun child => (child.tag.said, child.children))
      = elementsIn e.children := by
  unfold Element.childElements elementsIn
  rw [List.map_filterMap]
  refine List.filterMap_congr fun node _ => ?_
  cases node <;> rfl

namespace Builder

variable {b : Builder} {said : Said} {elements : List (Said × List Node)}

-- ============================================================== states

/-- No element has been opened. -/
structure Fresh (b : Builder) : Prop where
  opened : b.opened = []
  root : b.root = none

/-- The outermost element is open, and it alone. -/
structure Inside (b : Builder) (said : Said) (elements : List (Said × List Node)) : Prop where
  opened : ∃ o, b.opened = [o] ∧ o.tag.said = said ∧ elementsIn o.children.reverse = elements
  root : b.root = none

/-- The outermost element is closed. -/
structure Closed (b : Builder) (said : Said) (elements : List (Said × List Node)) : Prop where
  opened : b.opened = []
  root : ∃ content, b.root = some content ∧ content.tag.said = said
    ∧ elementsIn content.children = elements

/-- From here the pieces lead to a state of the given kind. -/
def Builds (b : Builder) (pieces : List Lexeme) (state : Builder → Prop) : Prop :=
  ∀ placed : List Placed, placed.map (·.lexeme) = pieces →
    ∃ after, b.takeAll placed = .ok after ∧ state after

theorem Builds.nil {state : Builder → Prop} (h : state b) : b.Builds [] state := by
  intro placed hplaced
  rw [List.map_eq_nil_iff.mp hplaced]
  exact ⟨b, rfl, h⟩

/-- A run is a step and what comes after it. -/
theorem Builds.cons {between state : Builder → Prop} {piece : Lexeme} {pieces : List Lexeme}
    (hstep : ∀ start stop, ∃ after, b.take ⟨piece, start, stop⟩ = .ok after ∧ between after)
    (hrest : ∀ after, between after → after.Builds pieces state) :
    b.Builds (piece :: pieces) state := by
  intro placed hplaced
  obtain ⟨⟨lexeme, start, stop⟩, more, rfl, rfl, hmore⟩ := List.map_eq_cons_iff.mp hplaced
  obtain ⟨after, hafter, hbetween⟩ := hstep start stop
  obtain ⟨last, hlast, hstate⟩ := hrest after hbetween more hmore
  refine ⟨last, ?_, hstate⟩
  unfold takeAll at hlast ⊢
  rw [List.foldlM_cons, hafter]
  exact hlast

-- =============================================================== steps

/-- What is not part of the tree changes nothing. -/
theorem Fresh.aside (h : b.Fresh) (start stop : Nat) :
    ∃ after, b.take ⟨.aside, start, stop⟩ = .ok after ∧ after.Fresh := ⟨b, rfl, h⟩

/-- Outside of the outermost element, blanks change nothing. -/
theorem take_blank {raw content : List Char} (hopened : b.opened = [])
    (hraw : expand raw = .ok content) (hblank : content.all Text.isBlank)
    (start stop : Nat) : b.take ⟨.text raw, start, stop⟩ = .ok b :=
  take_blank_of_said (Lexeme.said?_text hraw) hopened
    (List.dropWhile_eq_nil_iff.mpr (List.all_eq_true.mp hblank))

theorem Fresh.flush (h : b.Fresh) : b.flush.Fresh := by
  unfold Builder.flush
  cases b.pending with
  | none => exact h
  | some run =>
      simp only [locate, addNode, h.opened]
      exact ⟨rfl, h.root⟩

/-- Pending text becomes a node, which is no element. -/
theorem Inside.flush (h : b.Inside said elements) : b.flush.Inside said elements := by
  obtain ⟨o, ho, hsaid, helements⟩ := h.opened
  unfold Builder.flush
  cases b.pending with
  | none => exact h
  | some run =>
      simp only [locate, addNode, ho]
      refine ⟨⟨_, rfl, hsaid, ?_⟩, h.root⟩
      dsimp only
      rw [List.reverse_cons, elementsIn_append, helements]
      exact List.append_nil _

/-- Inside of the outermost element, text waits for the next tag. -/
theorem Inside.text (h : b.Inside said elements) {raw content : List Char}
    (hraw : expand raw = .ok content) (start stop : Nat) :
    ∃ after, b.take ⟨.text raw, start, stop⟩ = .ok after ∧ after.Inside said elements := by
  obtain ⟨o, ho, hsaid, helements⟩ := h.opened
  have hopened : b.opened ≠ [] := by
    rw [ho]
    exact List.cons_ne_nil _ _
  exact ⟨_, take_text (Lexeme.said?_text hraw) hopened, ⟨o, ho, hsaid, helements⟩, h.root⟩

/-- A start tag opens an element, where that may stand. -/
theorem openElement_eq {content : List Char} {attributes : List (String × String)}
    (hroot : b.root = none) (hread : Tag.readAttributes content = .ok attributes) (offset : Nat) :
    ∃ o cursor, b.openElement content offset = .ok { b with cursor, opened := o :: b.opened }
      ∧ o.tag.said = (String.ofList (Tag.nameOf content), attributes) ∧ o.children = [] := by
  have hfirst : (b.opened.isEmpty && b.root.isSome) = false := by
    rw [hroot, Option.isSome_none, Bool.and_false]
  unfold openElement
  rw [hfirst, hread]
  let declared := Tag.declarations attributes
  let tag := Tag.ofWritten (declared :: b.opened.map (·.declared))
    (String.ofList (Tag.nameOf content)) attributes
  exact ⟨{ tag, declared, start := (b.locate offset).1, children := [] },
    (b.locate offset).2.cursor, rfl, Tag.said_ofWritten .., rfl⟩

/-- A start tag opens the outermost element. -/
theorem Fresh.tag (h : b.Fresh) {content : List Char} {attributes : List (String × String)}
    (hslash : content.getLast? ≠ some '/') (hread : Tag.readAttributes content = .ok attributes)
    (start stop : Nat) :
    ∃ after, b.take ⟨.tag content, start, stop⟩ = .ok after
      ∧ after.Inside (String.ofList (Tag.nameOf content), attributes) [] := by
  obtain ⟨o, cursor, hopen, hsaid, hchildren⟩ :=
    openElement_eq h.flush.root hread (tagStart content stop)
  unfold take
  simp only [if_neg hslash]
  refine ⟨_, hopen, ⟨o, ?_, hsaid, ?_⟩, h.flush.root⟩
  · rw [h.flush.opened]
  · rw [hchildren]
    rfl

/-- An empty tag adds an element that holds nothing. -/
theorem Inside.emptyTag (h : b.Inside said elements) {content : List Char}
    {attributes : List (String × String)}
    (hread : Tag.readAttributes content = .ok attributes) (start stop : Nat) :
    ∃ after, b.take ⟨.tag (content ++ ['/']), start, stop⟩ = .ok after
      ∧ after.Inside said
        (elements ++ [((String.ofList (Tag.nameOf content), attributes), [])]) := by
  obtain ⟨outer, houter, hsaid, helements⟩ := h.flush.opened
  obtain ⟨o, cursor, hopen, hwritten, hchildren⟩ :=
    openElement_eq h.flush.root hread (tagStart (content ++ ['/']) stop)
  unfold take
  simp only [List.getLast?_concat, if_true, List.dropLast_concat, hopen]
  refine ⟨_, rfl, ?_⟩
  unfold closeElement
  simp only [houter, locate, addNode]
  refine ⟨⟨_, rfl, hsaid, ?_⟩, h.flush.root⟩
  dsimp only
  rw [List.reverse_cons, elementsIn_append, helements, hchildren]
  exact congrArg (fun said => elements ++ [(said, [])]) hwritten

/-- The end tag closes the outermost element. -/
theorem Inside.endTag (h : b.Inside said elements) {name : List Char}
    (hname : said.1 = String.ofList name) (start stop : Nat) :
    ∃ after, b.take ⟨.endTag name, start, stop⟩ = .ok after ∧ after.Closed said elements := by
  obtain ⟨inner, hinner, hsaid, -⟩ := h.opened
  obtain ⟨o, ho, hwritten, helements⟩ := h.flush.opened
  have hmatch : inner.tag.name = String.ofList name := by
    rw [← hname, ← hsaid]
    rfl
  unfold take
  simp only [hinner, if_pos hmatch]
  refine ⟨_, rfl, ?_⟩
  unfold closeElement
  simp only [ho, locate]
  exact ⟨rfl, _, rfl, hwritten, helements⟩

/-- What is closed is finished. -/
theorem Closed.finish (h : b.Closed said elements) (source : List Char) :
    ∃ content, b.finish source = .ok content ∧ content.tag.said = said
      ∧ elementsIn content.children = elements := by
  obtain ⟨content, hroot, hcontent⟩ := h.root
  refine ⟨content, ?_, hcontent⟩
  unfold Builder.finish
  rw [h.opened, hroot]

end Builder

-- ============================================================ documents

variable {source : String} {rest : List Char} {pieces : List Lexeme}
  {said : Said} {elements : List (Said × List Node)}

/-- A text whose first visible character is a bracket has the tree that its
pieces were built to. -/
theorem tree_eq_of_takeAll {source : List Char} {b : Builder} {root : Content}
    (hfront : ∃ more, Text.trimStart source = '<' :: more) (hfault : (scan 0 source).fault = none)
    (hb : (Builder.start source).takeAll (scan 0 source).pieces = .ok b)
    (hfinish : b.finish source = .ok root) : tree source = .ok root := by
  obtain ⟨more, hvisible⟩ := hfront
  have htree : treeFrom source 0 source = .ok root := by
    unfold treeFrom
    simp only [hvisible]
    show (Builder.start source).takeAll _ >>= _ = _
    rw [hb]
    simp only [bind, Except.bind, hfault]
    exact hfinish
  unfold tree
  rw [htree]

/-- A text that begins with a bracket has a tree when its pieces build one. -/
theorem tree_eq_ok (hfront : source.toList = '<' :: rest) (hreads : Reads source.toList pieces)
    (hbuilds : (Builder.start source.toList).Builds pieces (·.Closed said elements)) :
    ∃ content, tree source.toList = .ok content ∧ content.tag.said = said
      ∧ elementsIn content.children = elements := by
  obtain ⟨hpieces, hfault⟩ := hreads 0
  obtain ⟨b, hb, hclosed⟩ := hbuilds _ hpieces
  obtain ⟨content, hcontent, hsays⟩ := hclosed.finish source.toList
  refine ⟨content, tree_eq_of_takeAll ⟨rest, ?_⟩ hfault hb hcontent, hsays⟩
  rw [hfront]
  rfl

/-- So it is a document. -/
theorem Document.parse_eq_ok (hfront : source.toList = '<' :: rest)
    (hreads : Reads source.toList pieces)
    (hbuilds : (Builder.start source.toList).Builds pieces (·.Closed said elements)) :
    ∃ document, Document.parse source = .ok document ∧ document.root.tag.said = said
      ∧ document.root.childElements.map (fun child => (child.tag.said, child.children))
        = elements := by
  obtain ⟨content, hcontent, hsaid, helements⟩ := tree_eq_ok hfront hreads hbuilds
  rw [Document.parse_eq, hcontent]
  exact ⟨_, rfl, hsaid, (Element.map_childElements _).trans helements⟩

end ResourceLint.Xml
