/-
What every document has that was read from a text.

What the nodes in its store say of each other is true (`Arena.Numbered`); each
has an end, and its stretch lies in the text and in that of the node around it
(`Arena.Spanned`); the text is one element, blanks and comments aside
(`Document.Single`); and the elements have ascending numbers in the order in
which a walk from the outermost comes to them.

The store is a tree laid out, by `Document.parse_eq_ok_iff`, so all that is
said of numbers comes from `Numbering`.  Where the nodes lie in the text is
known from the pieces that the tree was built of.
-/
import ResourceLint.Proofs.DocumentOrder
import ResourceLint.Proofs.Mirroring
import ResourceLint.Proofs.Numbering
import ResourceLint.Proofs.TopLevel

namespace ResourceLint.Xml

/-- The stretch of text that a node takes, once it has an end. -/
def Entry.span? (e : Entry) : Option Span := e.stop?.map fun stop => ⟨e.start, stop⟩

namespace Arena

/-- What an entry says of others is true: it names an earlier one that lists
it, and lists, in order, those that name it; only the outermost names none. -/
structure Numbered (a : Arena) : Prop where
  parent_lt : ∀ (i : Nat) (e : Entry) (p : Nat), a.entries[i]? = some e → e.parent = some p → p < i
  children_pairwise : ∀ (i : Nat) (e : Entry), a.entries[i]? = some e → e.children.Pairwise (· < ·)
  mem_children_iff : ∀ (i : Nat) (e : Entry), a.entries[i]? = some e →
    ∀ k, k ∈ e.children ↔ ∃ c, a.entries[k]? = some c ∧ c.parent = some i
  parent_eq_none_iff : ∀ (i : Nat) (e : Entry), a.entries[i]? = some e →
    (e.parent = none ↔ a.root = some i)

/-- Every node takes a stretch of a text that has so many bytes; it lies in the
stretch of the parent, and those of siblings lie side by side. -/
structure Spanned (a : Arena) (size : Nat) : Prop where
  bounds : ∀ (i : Nat) (e : Entry), a.entries[i]? = some e →
    ∃ span, e.span? = some span ∧ span.start.offset ≤ span.stop.offset ∧ span.stop.offset ≤ size
  inside : ∀ (i : Nat) (e : Entry) (p : Nat) (holder : Entry),
    a.entries[i]? = some e → e.parent = some p → a.entries[p]? = some holder →
      ∃ span around, e.span? = some span ∧ holder.span? = some around
        ∧ around.start.offset ≤ span.start.offset ∧ span.stop.offset ≤ around.stop.offset
  apart : ∀ (i : Nat) (e : Entry), a.entries[i]? = some e → e.children.Pairwise fun k l =>
    ∀ b c : Entry, a.entries[k]? = some b → a.entries[l]? = some c →
      ∃ before behind, b.span? = some before ∧ c.span? = some behind
        ∧ before.stop.offset ≤ behind.start.offset

-- ============================================================ trees laid out

section Laid

variable {root : Content} {e : Entry} {i : Nat}

/-- The numbered entries of a tree are those of its arena, under their
indices. -/
theorem mem_numbered_iff :
    (e, i) ∈ root.node.numbered none 0 ↔ (ofTree root).entries[i]? = some e := by
  unfold Node.numbered
  rw [List.mk_mem_zipIdx_iff_getElem?, ofTree, List.getElem?_toArray]

/-- Every entry heads a part of the tree. -/
theorem exists_heads (h : (ofTree root).entries[i]? = some e) :
    ∃ part, Heads (root.node.numbered none 0) e i part
      ∧ ∀ lo hi, root.node.Fits lo hi → part.Fits lo hi :=
  root.node.exists_heads none 0 (mem_numbered_iff.mpr h)

/-- Every entry but the root is listed by its parent. -/
theorem listed (h : (ofTree root).entries[i]? = some e) :
    (e.parent = none ∧ i = 0) ∨ IsListed (root.node.numbered none 0) e i :=
  root.node.listed_of_mem_numbered none 0 (mem_numbered_iff.mpr h)

/-- What is an entry of a node under a number is what lies there. -/
theorem eq_of_isEntryOf {k parent : Nat} {node : Node}
    (h : IsEntryOf (root.node.numbered none 0) parent k node)
    (he : (ofTree root).entries[k]? = some e) : e = node.entry (some parent) k :=
  Option.some.inj (he.symm.trans (mem_numbered_iff.mp h))

/-- An entry spans what the part of the tree does that it heads. -/
theorem span?_of_heads {entries : List (Entry × Nat)} {part : Node}
    (h : Heads entries e i part) : e.span? = some part.span := by
  rw [h.entry]
  rfl

/-- The arena of a tree is numbered as it is to be. -/
theorem numbered_ofTree (root : Content) : (ofTree root).Numbered := by
  have hlt : ∀ (i : Nat) (e : Entry) (p : Nat),
      (ofTree root).entries[i]? = some e → e.parent = some p → p < i := by
    intro i e p he hp
    rcases listed he with ⟨hnone, -⟩ | ⟨holder, q, -, hlt, hparent, -⟩
    · rw [hp] at hnone
      cases hnone
    · rw [hp] at hparent
      cases hparent
      exact hlt
  refine ⟨hlt, fun i e he => ?_, fun i e he k => ⟨fun hk => ?_, ?_⟩, fun i e he => ⟨?_, ?_⟩⟩
  · obtain ⟨part, hheads, -⟩ := exists_heads he
    rw [hheads.entry]
    exact pairwise_numbersOf _ _
  · obtain ⟨part, hheads, -⟩ := exists_heads he
    obtain ⟨node, -, hnode⟩ := exists_of_forall₂ hheads.forall₂ hk
    exact ⟨_, mem_numbered_iff.mp hnode, rfl⟩
  · rintro ⟨c, hc, hparent⟩
    rcases listed hc with ⟨hnone, -⟩ | ⟨holder, p, hholder, -, hp, hlisted⟩
    · rw [hparent] at hnone
      cases hnone
    · -- two entries with one number are the same
      rw [hparent] at hp
      cases hp
      have hsame := mem_numbered_iff.mp hholder
      rw [he] at hsame
      cases hsame
      exact hlisted
  · intro hnone
    rcases listed he with ⟨-, rfl⟩ | ⟨holder, p, -, -, hp, -⟩
    · rfl
    · rw [hnone] at hp
      cases hp
  · intro hroot
    cases hroot
    cases hparent : e.parent with
    | none => rfl
    | some p => exact absurd (hlt 0 e p he hparent) (Nat.not_lt_zero p)

/-- The stretches lie as they should where the outermost element fits. -/
theorem spanned_ofTree {size : Nat} (h : root.node.Fits 0 size) : (ofTree root).Spanned size := by
  refine ⟨fun i e he => ?_, fun i e p holder he hparent hholder => ?_, fun i e he => ?_⟩
  · obtain ⟨part, hheads, hfits⟩ := exists_heads he
    exact ⟨part.span, span?_of_heads hheads, (hfits _ _ h).bounds.2⟩
  · obtain ⟨part, hheads, hfits⟩ := exists_heads hholder
    have hlisted := ((numbered_ofTree root).mem_children_iff p holder hholder i).mpr ⟨e, he, hparent⟩
    obtain ⟨node, hinner, hnode⟩ := exists_of_forall₂ hheads.forall₂ hlisted
    have hbounds := ((hfits _ _ h).inner.of_mem hinner).bounds
    rw [eq_of_isEntryOf hnode he]
    exact ⟨node.span, part.span, rfl, span?_of_heads hheads, hbounds.1, hbounds.2.2⟩
  · obtain ⟨part, hheads, hfits⟩ := exists_heads he
    refine (pairwise_of_forall₂ hheads.forall₂ (hfits _ _ h).inner.pairwise).imp ?_
    rintro k l ⟨x, y, hx, hy, hle⟩ b c hb hc
    rw [eq_of_isEntryOf hx hb, eq_of_isEntryOf hy hc]
    exact ⟨x.span, y.span, rfl, rfl, hle⟩

/-- The elements of an arena are those of its whole stretch. -/
theorem elements_ofTree (root : Content) :
    (ofTree root).elements = (ofTree root).elementsIn 0 root.node.size := by
  unfold elements elementsIn
  rw [size_ofTree, List.range_eq_range']

/-- The elements have ascending numbers in document order. -/
theorem forall₂_shows_ofTree (root : Content) :
    List.Forall₂ (ofTree root).Shows (ofTree root).elements (root.node.elements []) := by
  rw [elements_ofTree]
  exact forall₂_shows none 0 [] root.node (holds_ofTree root)

/-- A walk from the outermost element comes to all of them, in that order. -/
theorem walk_ofTree (root : Content) : (ofTree root).Walk 0 (ofTree root).elements := by
  have helement : (ofTree root).isElement 0 := by
    have hroot := holds_ofTree root
    rw [Node.laid_eq] at hroot
    exact isElement_of_holds hroot
  rw [elements_ofTree]
  exact walk_of_holds none 0 root.node (holds_ofTree root) helement

end Laid

end Arena

namespace Document

/-- Behind something without brackets, the pieces of the text are one element,
which takes the span of the outermost, and idle pieces around it. -/
def Single (d : Document) : Prop :=
  ∃ junk input, d.source.toList = junk ++ input ∧ junk.all (· != '<')
    ∧ (scan (Text.byteSize junk) input).fault = none
    ∧ ∃ before element last first close,
      Frames (scan (Text.byteSize junk) input).pieces before element last first close
        ∧ first.start ≤ d.span.start.offset ∧ d.span.start.offset < first.stop
        ∧ d.span.stop.offset = close.stop

/-- Numbers, stretches and orders are as they should be. -/
structure WellFormed (d : Document) : Prop where
  numbered : d.arena.Numbered
  spanned : d.arena.Spanned (Text.byteSize d.source.toList)
  single : d.Single
  /-- the node that names no other is the outermost element -/
  root : ∃ number, d.arena.root = some number ∧ d.arena.Shows number d.root
    ∧ d.arena.Walk number d.arena.elements
  /-- the elements come in the order of their numbers -/
  elements_arena : List.Forall₂ d.arena.Shows d.arena.elements d.elements
  /-- they come in the order of a walk from the outermost element -/
  elements_walk : d.elements = d.root.walk
  /-- and a visitor meets them in that order -/
  visited : ∀ v : Visitor, Visitor.elementCalls (v.calls d) = d.root.walk.flatMap v.sightings

variable {d : Document}

/-- Every document that was read from a text is well formed. -/
theorem wellFormed_of_parse {source : String} (h : parse source = .ok d) :
    d.source = source ∧ d.WellFormed := by
  obtain ⟨root, htree, rfl⟩ := parse_eq_ok_iff.mp h
  have hshows := Arena.forall₂_shows_ofTree root
  refine ⟨rfl, Arena.numbered_ofTree root, Arena.spanned_ofTree (fits_of_tree htree),
    frames_of_tree htree, ⟨0, rfl, ?_, Arena.walk_ofTree root⟩, hshows, elements_eq_walk _,
    fun v => ?_⟩
  · have hroot := Arena.holds_ofTree root
    rw [Node.laid_eq] at hroot
    have hentry := hroot.head
    rw [Array.getElem?_toList] at hentry
    exact ⟨_, hentry, rfl, rfl, rfl⟩
  · rw [← elements_eq_walk]
    exact v.elementCalls_calls _

/-- A document with a byte order mark before it and a line feed behind it,
whose last run of text has a comment and a literal section in it. -/
theorem wellFormed_merged :
    ∃ d, parse "\uFEFF<a>x<b/>y<!-- c --><![CDATA[z]]></a>\n" = .ok d
      ∧ (d.source = "\uFEFF<a>x<b/>y<!-- c --><![CDATA[z]]></a>\n" ∧ d.WellFormed)
      ∧ d.entries.map (fun e =>
          (e.parent, e.children, e.start.offset, e.stop?.map (·.offset)))
        = [(none, [1, 2, 3], 3, some 39), (some 0, [], 6, some 7), (some 0, [], 7, some 11),
          (some 0, [], 11, some 35)] := by
  have hentries : (parse "\uFEFF<a>x<b/>y<!-- c --><![CDATA[z]]></a>\n").toOption.map (fun d =>
      d.entries.map fun e =>
        (e.parent, e.children, e.start.offset, e.stop?.map (·.offset)))
      = some [(none, [1, 2, 3], 3, some 39), (some 0, [], 6, some 7), (some 0, [], 7, some 11),
        (some 0, [], 11, some 35)] := by decide +kernel
  obtain ⟨d, hparse, hd⟩ := exists_parse_of_map hentries
  exact ⟨d, hparse, wellFormed_of_parse hparse, hd⟩

end Document

end ResourceLint.Xml
