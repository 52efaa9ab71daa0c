/-
What an element owes to its tag and to the elements around it.

A tag makes an element, and it does so inside of others: the qualifiers in it
stand for what is declared there and in the tag itself (`Makes`).  While a
tree is built, the elements around are those that are open, and each of them
keeps its declarations; in the tree that is built they are looked up again,
by what the tags of the elements say.  `Everywhere` is how a property of
elements that depends on the tags around them is carried through a tree, and
`Rooted` how it is carried through the elements that are open.  A piece keeps
both, so every element was `Made` by a tag of the text (`Document.made_of_mem`).

An element ends where its tag does or behind that, and between two
characters.  So its stretch of text begins with what is left of its tag and
can be measured in bytes.  It is one tag only that begins where the element
does (`eq_of_tagStart_eq`), since pieces lie side by side.
-/
import ResourceLint.Proofs.StartTags

namespace ResourceLint

/-- A byte of a text that a character begins with, or the end. -/
def Text.IsBoundary (text : List Char) (n : Nat) : Prop :=
  ∃ front back, text = front ++ back ∧ byteSize front = n

namespace Xml

open Position (Cursor)

variable {source s : List Char} {n m hi start : Nat} {P : List Tag → Tag → Span → Prop}
  {around : List Tag} {nodes : List Node} {node : Node} {p q piece : Placed}
  {pieces : List Placed} {t : StartTag} {b after : Builder} {inner : Open}
  {opened outer : List Open}

-- ================================================ properties of all elements

mutual

/-- Every element of a node is as a property says, given the tags around it,
innermost first. -/
def Node.Everywhere (P : List Tag → Tag → Span → Prop) (around : List Tag) : Node → Prop
  | .element tag span children => P around tag span ∧ EverywhereIn P (tag :: around) children
  | .text .. => True

def EverywhereIn (P : List Tag → Tag → Span → Prop) (around : List Tag) : List Node → Prop
  | [] => True
  | node :: more => node.Everywhere P around ∧ EverywhereIn P around more

end

/-- What holds everywhere in nodes holds everywhere in each of them. -/
theorem everywhereIn_iff :
    EverywhereIn P around nodes ↔ ∀ node ∈ nodes, node.Everywhere P around := by
  induction nodes with
  | nil =>
      rw [EverywhereIn]
      exact iff_of_true trivial fun node hnode => by cases hnode
  | cons node more ih => rw [EverywhereIn, ih, List.forall_mem_cons]

mutual

/-- What holds everywhere in a node holds of its elements, with the tags around
them. -/
theorem Node.Everywhere.of_mem {e : Element} :
    ∀ {node : Node} {around : List Content}, node.Everywhere P (around.map (·.tag)) →
      e ∈ node.elements around → P (e.around.map (·.tag)) e.tag e.span
  | .element tag span children, around, h, he => by
      rw [Node.Everywhere] at h
      rw [Node.elements] at he
      rcases List.mem_cons.mp he with rfl | he
      · exact h.1
      · have hinside : EverywhereIn P
            ((⟨tag, span, children⟩ :: around).map (·.tag)) children := h.2
        exact hinside.of_mem he
  | .text .., around, h, he => by
      rw [Node.elements] at he
      cases he

/-- What holds everywhere in nodes holds of their elements, with the tags around
them. -/
theorem EverywhereIn.of_mem {e : Element} :
    ∀ {nodes : List Node} {around : List Content}, EverywhereIn P (around.map (·.tag)) nodes →
      e ∈ elementsOfAll around nodes → P (e.around.map (·.tag)) e.tag e.span
  | [], around, h, he => by
      rw [elementsOfAll] at he
      cases he
  | node :: more, around, h, he => by
      rw [EverywhereIn] at h
      rw [elementsOfAll] at he
      exact (List.mem_append.mp he).elim h.1.of_mem h.2.of_mem

end

-- ============================================================ what a tag makes

/-- The qualifiers that a tag declares, with their namespaces, in order. -/
def Tag.declared (tag : Tag) : List (String × String) := Tag.declarations tag.said.2

/-- A tag of a text makes an element inside of others, whose tags are given,
innermost first. -/
structure Makes (source : List Char) (around : List Tag) (t : StartTag) (tag : Tag)
    (start : Position) : Prop where
  tag : ∃ attributes, Tag.readAttributes t.bare = .ok attributes
    ∧ tag = Tag.ofWritten (Tag.declarations attributes :: around.map Tag.declared) t.name attributes
  start : start = Position.ofOffset source (tagStart t.content t.stop)

/-- A tag of the text made the element, which ends with the tag or behind it. -/
def Made (source : List Char) (around : List Tag) (tag : Tag) (span : Span) : Prop :=
  ∃ t ∈ startTags source, Makes source around t tag span.start
    ∧ ∃ n, t.stop ≤ n ∧ Text.IsBoundary source n ∧ span.stop = Position.ofOffset source n

/-- A tag of the text, up to the byte `n`, made the element that is still open. -/
structure Open.IsMade (source : List Char) (n : Nat) (outer : List Open) (o : Open) : Prop where
  declared : o.declared = o.tag.declared
  made : ∃ t ∈ startTags source, Makes source (outer.map (·.tag)) t o.tag o.start ∧ t.stop ≤ n

/-- Each of the elements that are open was made by a tag, and so was what it
holds. -/
def Rooted (source : List Char) (n : Nat) : List Open → Prop
  | [] => True
  | inner :: outer =>
    inner.IsMade source n outer
      ∧ EverywhereIn (Made source) (inner.tag :: outer.map (·.tag)) inner.children
      ∧ Rooted source n outer

namespace Rooted

theorem mono (h : Rooted source n opened) (hle : n ≤ m) : Rooted source m opened := by
  induction opened with
  | nil => trivial
  | cons inner outer ih =>
      obtain ⟨⟨hdeclared, t, ht, hmakes, hstop⟩, hchildren, houter⟩ := h
      exact ⟨⟨hdeclared, t, ht, hmakes, Nat.le_trans hstop hle⟩, hchildren, ih houter⟩

/-- A node that was made may be added. -/
theorem grown (h : Rooted source n opened)
    (hnode : node.Everywhere (Made source) (opened.map (·.tag))) :
    Rooted source n (grown node opened) := by
  cases opened with
  | nil => trivial
  | cons inner outer =>
      obtain ⟨hmade, hchildren, houter⟩ := h
      refine ⟨⟨hmade.declared, hmade.made⟩, ?_, houter⟩
      show EverywhereIn _ _ (node :: inner.children)
      rw [EverywhereIn]
      exact ⟨hnode, hchildren⟩

/-- Text that becomes a node has no elements in it. -/
theorem settled (h : Rooted source n b.opened) : Rooted source n (b.settled source) := by
  unfold Builder.settled
  cases b.pending with
  | none => exact h
  | some run =>
      refine h.grown ?_
      rw [Pending.node, Node.Everywhere]
      trivial

/-- The open elements keep what their tags declare. -/
theorem map_declared (h : Rooted source n opened) :
    opened.map (·.declared) = (opened.map (·.tag)).map Tag.declared := by
  induction opened with
  | nil => rfl
  | cons inner outer ih => simp only [List.map_cons, h.1.declared, ih h.2.2]

/-- A tag makes an element inside of those that are open. -/
theorem ofTag (h : Rooted source n opened) (ht : t ∈ startTags source) (hle : n ≤ t.stop)
    {attributes : List (String × String)} (hread : Tag.readAttributes t.bare = .ok attributes) :
    Rooted source t.stop
      (Open.ofTag source opened t.bare attributes (tagStart t.content t.stop)
        :: opened) := by
  refine ⟨⟨?_, t, ht, ⟨⟨attributes, hread, ?_⟩, rfl⟩, Nat.le_refl _⟩, ?_, h.mono hle⟩
  · show Tag.declarations attributes = Tag.declarations (Tag.said (Tag.ofWritten _ _ _)).2
    rw [Tag.said_ofWritten]
  · rw [← h.map_declared]
    rfl
  · show EverywhereIn _ _ []
    rw [EverywhereIn]
    trivial

/-- What is closed was made, with all it holds. -/
theorem shut (h : Rooted source n (inner :: outer)) (hn : Text.IsBoundary source n) :
    (inner.shut (Position.ofOffset source n)).node.Everywhere (Made source)
      (outer.map (·.tag)) := by
  obtain ⟨⟨-, t, ht, hmakes, hstop⟩, hchildren, -⟩ := h
  show Node.Everywhere _ _ (.element inner.tag _ inner.children.reverse)
  rw [Node.Everywhere]
  refine ⟨⟨t, ht, hmakes, n, hstop, hn, rfl⟩, everywhereIn_iff.mpr fun node hnode => ?_⟩
  exact everywhereIn_iff.mp hchildren node (List.mem_reverse.mp hnode)

end Rooted

-- ================================================================ the builder

/-- The tree that is being built of the text before the byte `n` was made by
the tags of the text. -/
structure MadeUpTo (source : List Char) (n : Nat) (b : Builder) : Prop where
  opened : Rooted source n b.opened
  root : ∀ root, b.root = some root → root.node.Everywhere (Made source) []

namespace MadeUpTo

/-- Closing an element makes a node of it. -/
theorem closed (h : MadeUpTo source m b) (hrooted : Rooted source n (inner :: outer))
    (hn : Text.IsBoundary source n) {cursor : Cursor} :
    MadeUpTo source n (b.closed (inner.shut (Position.ofOffset source n)) outer cursor) := by
  refine ⟨hrooted.2.2.grown (hrooted.shut hn), fun root hroot => ?_⟩
  unfold Builder.closed at hroot
  by_cases houter : outer = []
  · subst houter
    rw [if_pos rfl] at hroot
    cases hroot
    exact hrooted.shut hn
  · rw [if_neg houter] at hroot
    exact h.root root hroot

/-- A piece, where it is a tag, makes an element, and another one may be
closed with it. -/
theorem takes (h : MadeUpTo source n b) (hle : n ≤ piece.stop)
    (htag : ∀ t, piece.startTag? = some t → t ∈ startTags source ∧ t.stop = piece.stop)
    (hend : Text.IsBoundary source piece.stop) (htakes : Takes source b piece after) :
    MadeUpTo source piece.stop after := by
  cases htakes with
  | aside | blank | text => exact ⟨h.opened.mono hle, h.root⟩
  | @tag content attributes cursor hpiece hslash hplace hread hcursor =>
      obtain ⟨ht, hstop⟩ := htag _ (startTag?_of_tag hpiece)
      have hbare : (StartTag.mk piece.start content).bare = content := if_neg hslash
      have hnew := h.opened.settled.ofTag ht (by omega) (hbare.symm ▸ hread)
      rw [hbare, hstop] at hnew
      exact ⟨hnew, h.root⟩
  | @emptyTag content attributes cursor hpiece hplace hread hcursor =>
      obtain ⟨ht, hstop⟩ := htag _ (startTag?_of_tag hpiece)
      have hbare := StartTag.bare_slash piece.start content
      have hnew := h.opened.settled.ofTag ht (by omega) (hbare.symm ▸ hread)
      rw [hbare, hstop] at hnew
      exact h.closed hnew hend
  | @endTag name inner outer cursor hpiece hopened hname hcursor =>
      exact h.closed ((hopened ▸ h.opened.settled).mono hle) hend

/-- All pieces keep what is built made from the text. -/
theorem takesAll (h : MadeUpTo source n b) (hrow : InRow n hi pieces)
    (htags : ∀ p ∈ pieces, ∀ t, p.startTag? = some t → t ∈ startTags source ∧ t.stop = p.stop)
    (hends : ∀ p ∈ pieces, Text.IsBoundary source p.stop)
    (htakes : TakesAll source b pieces after) : ∃ m, MadeUpTo source m after := by
  induction htakes generalizing n with
  | nil => exact ⟨n, h⟩
  | cons hstep hrest ih =>
      obtain ⟨rfl, hle, -, hmore⟩ := hrow
      have hnext := h.takes hle (htags _ List.mem_cons_self) (hends _ List.mem_cons_self) hstep
      exact ih hnext hmore (fun p hp => htags p (List.mem_cons_of_mem _ hp))
        fun p hp => hends p (List.mem_cons_of_mem _ hp)

end MadeUpTo

-- ================================================================== the pieces

/-- A piece ends between two characters. -/
theorem exists_append_of_mem_scan (hp : p ∈ (scan start s).pieces) :
    ∃ front back, s = front ++ back ∧ p.stop = start + Text.byteSize front := by
  induction start, s using scan.induct with
  | case1 start =>
      rw [scan] at hp
      cases hp
  | case2 start c rest fault hnext =>
      rw [scan] at hp
      split at hp
      · cases hp
      · next hother =>
          rw [hnext] at hother
          cases hother
  | case3 start c rest lexeme after hnext stop ih =>
      -- a piece stops where what it takes off the text ends
      obtain ⟨taken, htaken⟩ := (of_next hnext).1.trans (List.suffix_cons c rest)
      have hstop : stop = start + Text.byteSize taken := by
        show start + (Text.byteSize (c :: rest) - Text.byteSize after) = _
        rw [← htaken, Text.byteSize_append, Nat.add_sub_cancel]
      rw [scan] at hp
      split at hp
      · next hother =>
          rw [hnext] at hother
          cases hother
      · next hother =>
          rw [hnext] at hother
          cases hother
          rcases List.mem_cons.mp hp with rfl | hp
          · exact ⟨taken, after, htaken.symm, hstop⟩
          · obtain ⟨front, back, hafter, hpiece⟩ := ih hp
            refine ⟨taken ++ front, back, ?_, ?_⟩
            · rw [← htaken, hafter, List.append_assoc]
            · rw [hpiece, hstop, Text.byteSize_append, Nat.add_assoc]

/-- Every element of a tree was made by a tag of the text. -/
theorem everywhere_of_tree {root : Content} (h : tree source = .ok root) :
    root.node.Everywhere (Made source) [] := by
  obtain ⟨junk, input, rfl, hjunk, -, b, htakes, -, hroot⟩ := takesAll_of_tree h
  have hrow := inRow_scan (Text.byteSize junk) input
  have hstart : MadeUpTo (junk ++ input) (Text.byteSize junk) (Builder.start (junk ++ input)) :=
    ⟨trivial, fun root hroot => by cases hroot⟩
  have htags : ∀ p ∈ (scan (Text.byteSize junk) input).pieces, ∀ t, p.startTag? = some t →
      t ∈ startTags (junk ++ input) ∧ t.stop = p.stop := fun p hp t ht => by
    obtain ⟨hlexeme, hbegin⟩ := startTag?_eq_some ht
    refine ⟨?_, ?_⟩
    · rw [startTags_append hjunk]
      exact List.mem_filterMap.mpr ⟨p, hp, ht⟩
    · rw [(hrow.of_mem hp).2 _ hlexeme, StartTag.stop, hbegin]
  have hends : ∀ p ∈ (scan (Text.byteSize junk) input).pieces,
      Text.IsBoundary (junk ++ input) p.stop := fun p hp => by
    obtain ⟨front, back, hinput, hstop⟩ := exists_append_of_mem_scan hp
    refine ⟨junk ++ front, back, ?_, ?_⟩
    · rw [hinput, List.append_assoc]
    · rw [hstop, Text.byteSize_append]
  obtain ⟨m, hgrows⟩ := hstart.takesAll hrow htags hends htakes
  exact hgrows.root root hroot

/-- Every element of a document is made from its text, and so is what stands
around it. -/
theorem Document.made_of_mem {text : String} {d : Document} (h : Document.parse text = .ok d)
    {e : Element} (he : e ∈ d.elements) :
    Made text.toList (e.around.map (·.tag)) e.tag e.span := by
  obtain ⟨root, htree, rfl⟩ := Document.parse_eq_ok_iff.mp h
  exact (everywhere_of_tree htree).of_mem he

/-- A piece of a row begins in it. -/
theorem InRow.le_start (h : InRow n hi pieces) (hp : p ∈ pieces) : n ≤ p.start := by
  induction pieces generalizing n with
  | nil => cases hp
  | cons first more ih =>
      obtain ⟨rfl, hle, -, hmore⟩ := h
      rcases List.mem_cons.mp hp with rfl | hp
      · exact Nat.le_refl _
      · exact Nat.le_trans hle (ih hmore hp)

/-- Pieces in a row have no byte in common. -/
theorem InRow.eq_of_mem (h : InRow n hi pieces) (hp : p ∈ pieces) (hq : q ∈ pieces)
    (hbyte : p.start ≤ m ∧ m < p.stop) (hbyte' : q.start ≤ m ∧ m < q.stop) : p = q := by
  induction pieces generalizing n with
  | nil => cases hp
  | cons first more ih =>
      obtain ⟨-, -, -, hmore⟩ := h
      rcases List.mem_cons.mp hp with hfirst | hp <;> rcases List.mem_cons.mp hq with hfirst' | hq
      · rw [hfirst, hfirst']
      · have hlater := hmore.le_start hq
        rw [hfirst] at hbyte
        omega
      · have hlater := hmore.le_start hp
        rw [hfirst'] at hbyte'
        omega
      · exact ih hmore hp hq

/-- No two tags of a text have their last brackets in one place. -/
theorem eq_of_tagStart_eq {t' : StartTag} (ht : t ∈ startTags source) (ht' : t' ∈ startTags source)
    (h : tagStart t.content t.stop = tagStart t'.content t'.stop) : t = t' := by
  obtain ⟨p, hp, htag⟩ := List.mem_filterMap.mp ht
  obtain ⟨q, hq, htag'⟩ := List.mem_filterMap.mp ht'
  have hrow := inRow_scan 0 source
  have hbounds : ∀ {r : Placed} {u : StartTag}, r ∈ (scan 0 source).pieces →
      r.startTag? = some u → r.start ≤ tagStart u.content u.stop
        ∧ tagStart u.content u.stop < r.stop := fun {r u} hr hu => by
    obtain ⟨hlexeme, hbegin⟩ := startTag?_eq_some hu
    have hstop : r.stop = r.start + Text.byteSize u.content + 2 := (hrow.of_mem hr).2 _ hlexeme
    have hsame : u.stop = r.stop := by rw [hstop, StartTag.stop, hbegin]
    rw [hsame]
    exact tagStart_bounds hstop
  have hsame := hrow.eq_of_mem hp hq (hbounds hp htag) (h ▸ hbounds hq htag')
  rw [hsame, htag'] at htag
  exact (Option.some.inj htag).symm

end Xml

end ResourceLint
