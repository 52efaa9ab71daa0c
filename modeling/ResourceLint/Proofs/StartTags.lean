/-
Where an element begins, and where its tag does.

The tags of a text open the elements of its document, one for one and in
document order (`forall₂_opens`).  A builder keeps this with every piece: a
tag adds an element behind all others, and no other piece adds one
(`Takes.openings`).

An element is said to begin at the last `<` of its tag.  That is the bracket
that the tag begins with, unless there is another one between the brackets.
Nothing that reads a text minds one there, neither in a quoted value nor in a
name.  So elements begin where their tags do, with their names behind the
bracket, exactly as far as the tags have no second bracket
(`forall₂_beginsWith_iff`).
-/
import Mathlib.Data.List.Forall2
import Mathlib.Data.List.Infix
import ResourceLint.Proofs.Building
import ResourceLint.Proofs.Pieces

namespace ResourceLint.Xml

open Position (Cursor)

-- ======================================================= the tags of a text

/-- A start tag or an empty tag in a text: the byte it begins at, and what
stands between its brackets. -/
structure StartTag where
  start : Nat
  content : List Char
deriving DecidableEq

namespace StartTag

/-- The byte behind the tag. -/
def stop (t : StartTag) : Nat := t.start + Text.byteSize t.content + 2

/-- What stands between the brackets, the slash of an empty tag aside. -/
def bare (t : StartTag) : List Char :=
  if t.content.getLast? = some '/' then t.content.dropLast else t.content

/-- An empty tag is bare without its slash. -/
theorem bare_slash (start : Nat) (content : List Char) :
    bare ⟨start, content ++ ['/']⟩ = content := by
  unfold bare
  rw [if_pos List.getLast?_concat, List.dropLast_concat]

/-- The name of the element that the tag opens. -/
def name (t : StartTag) : String := String.ofList (Tag.nameOf t.bare)

end StartTag

/-- The tag that a piece is, where it opens an element. -/
def Placed.startTag? (p : Placed) : Option StartTag :=
  match p.lexeme with
  | .tag content => some ⟨p.start, content⟩
  | .text _ | .literal _ | .endTag _ | .aside => none

/-- The tags that open elements, in the order of the text. -/
def startTags (source : List Char) : List StartTag :=
  (scan 0 source).pieces.filterMap Placed.startTag?

variable {source s junk content : List Char} {start n : Nat} {p piece : Placed}
  {pieces : List Placed} {t : StartTag} {b after : Builder}

theorem startTag?_eq_some (h : p.startTag? = some t) :
    p.lexeme = .tag t.content ∧ p.start = t.start := by
  unfold Placed.startTag? at h
  split at h
  · next content hcontent =>
      cases h
      exact ⟨hcontent, rfl⟩
  all_goals cases h

/-- A tag is a start tag, -/
theorem startTag?_of_tag (h : p.lexeme = .tag content) :
    p.startTag? = some ⟨p.start, content⟩ := by
  unfold Placed.startTag?
  rw [h]

theorem startTag?_of_not_isTag (h : ¬ p.lexeme.IsTag) : p.startTag? = none := by
  unfold Placed.startTag?
  cases hp : p.lexeme with
  | tag content =>
      rw [hp] at h
      exact absurd trivial h
  | text | literal | endTag | aside => rfl

/-- What says text is no tag. -/
theorem Lexeme.not_isTag_of_said? {lexeme : Lexeme} {said : List Char}
    (h : lexeme.said? = some said) : ¬ lexeme.IsTag := by
  cases lexeme with
  | text | literal | aside => exact id
  | tag | endTag => cases h

/-- A tag stands in the text as it was taken from it. -/
theorem exists_of_mem_scan (hp : p ∈ (scan start s).pieces) (htag : p.lexeme = .tag content) :
    ∃ front back, s = front ++ ('<' :: content ++ '>' :: back)
      ∧ p.start = start + Text.byteSize front := by
  induction start, s using scan.induct with
  | case1 start =>
      rw [scan] at hp
      cases hp
  | case2 start c rest fault hnext =>
      rw [scan] at hp
      split at hp
      · cases hp
      · next hother =>
          rw [hnext] at hother
          cases hother
  | case3 start c rest lexeme after hnext stop ih =>
      obtain ⟨hsuffix, hwhole⟩ := of_next hnext
      rw [scan] at hp
      split at hp
      · next hother =>
          rw [hnext] at hother
          cases hother
      · next hother =>
          rw [hnext] at hother
          cases hother
          rcases List.mem_cons.mp hp with rfl | hp
          · exact ⟨[], after, hwhole content htag, rfl⟩
          · obtain ⟨front, back, hafter, hstart⟩ := ih hp
            obtain ⟨taken, htaken⟩ := hsuffix.trans (List.suffix_cons c rest)
            refine ⟨taken ++ front, back, ?_, ?_⟩
            · rw [← htaken, hafter, List.append_assoc]
            · -- what was taken is what the piece is long
              have hsize : stop = start + Text.byteSize taken := by
                show start + (Text.byteSize (c :: rest) - Text.byteSize after) = _
                rw [← htaken, Text.byteSize_append, Nat.add_sub_cancel]
              rw [hstart, hsize, Text.byteSize_append, Nat.add_assoc]

/-- What follows the text before the first bracket begins with it. -/
theorem head?_dropWhile_bracket (s : List Char) :
    s.dropWhile (· != '<') = [] ∨ (s.dropWhile (· != '<')).head? = some '<' := by
  have hhead := List.head?_dropWhile_not (· != '<') s
  cases hback : s.dropWhile (· != '<') with
  | nil => exact Or.inl rfl
  | cons c back =>
      rw [hback] at hhead
      exact Or.inr (congrArg some (by simpa using hhead))

/-- Text before the first bracket has no tags in it. -/
theorem filterMap_scan_dropWhile (n : Nat) (s : List Char) :
    (scan n s).pieces.filterMap Placed.startTag?
      = (scan (n + Text.byteSize (s.takeWhile (· != '<')))
          (s.dropWhile (· != '<'))).pieces.filterMap Placed.startTag? := by
  have hsplit := List.takeWhile_append_dropWhile (p := (· != '<')) (l := s)
  have hplain : (s.takeWhile (· != '<')).all (· != '<') := List.all_takeWhile
  by_cases hrun : s.takeWhile (· != '<') = []
  · rw [hrun, List.nil_append] at hsplit
    rw [hrun, hsplit]
    rfl
  · have hcut := Cuts.text hrun hplain (head?_dropWhile_bracket s)
    have hscan := hcut.scan_eq n
    rw [Text.byteSize_append, Nat.add_sub_cancel, hsplit] at hscan
    rw [hscan]
    exact List.filterMap_cons_none (startTag?_of_not_isTag id)

/-- Nor does it matter how much of it is passed over. -/
theorem startTags_append (hjunk : junk.all (· != '<')) (input : List Char) :
    startTags (junk ++ input)
      = (scan (Text.byteSize junk) input).pieces.filterMap Placed.startTag? := by
  have hall : ∀ c ∈ junk, (c != '<') = true := List.all_eq_true.mp hjunk
  unfold startTags
  rw [filterMap_scan_dropWhile 0, filterMap_scan_dropWhile (Text.byteSize junk),
    List.takeWhile_append_of_pos hall, List.dropWhile_append_of_pos hall, Text.byteSize_append,
    Nat.zero_add]

-- ================================================ the elements of a document

mutual

/-- The tags of the elements of a node and where they begin, in document
order. -/
def Node.openings : Node → List (Tag × Position)
  | .element tag span children => (tag, span.start) :: openingsOfAll children
  | .text .. => []

def openingsOfAll : List Node → List (Tag × Position)
  | [] => []
  | node :: more => node.openings ++ openingsOfAll more

end

mutual

/-- The elements of a node begin where its tags stand, in the order of the
text. -/
theorem Node.map_elements_openings (around : List Content) :
    ∀ node : Node, (node.elements around).map (fun e => (e.tag, e.span.start)) = node.openings
  | .element tag span children => by
      rw [Node.elements, Node.openings, List.map_cons,
        map_elementsOfAll_openings (⟨tag, span, children⟩ :: around) children]
  | .text .. => by
      rw [Node.elements, Node.openings]
      rfl

theorem map_elementsOfAll_openings (around : List Content) :
    ∀ nodes, (elementsOfAll around nodes).map (fun e => (e.tag, e.span.start))
      = openingsOfAll nodes
  | [] => by
      rw [elementsOfAll, openingsOfAll]
      rfl
  | node :: more => by
      rw [elementsOfAll, openingsOfAll, List.map_append, Node.map_elements_openings around node,
        map_elementsOfAll_openings around more]

end

/-- One more node has the last tags. -/
theorem openingsOfAll_concat (nodes : List Node) (node : Node) :
    openingsOfAll (nodes ++ [node]) = openingsOfAll nodes ++ node.openings := by
  induction nodes with
  | nil =>
      rw [List.nil_append, openingsOfAll, openingsOfAll, List.nil_append]
      exact List.append_nil _
  | cons first more ih =>
      rw [List.cons_append, openingsOfAll, openingsOfAll, ih, List.append_assoc]

/-- The elements that are open, with those that were closed in them. -/
def openingsOfOpened : List Open → List (Tag × Position)
  | [] => []
  | inner :: outer =>
    openingsOfOpened outer ++ (inner.tag, inner.start) :: openingsOfAll inner.children.reverse

/-- A node that is added to an open element comes behind all its tags. -/
theorem openingsOfOpened_grown {opened : List Open} (h : opened ≠ []) (node : Node) :
    openingsOfOpened (grown node opened) = openingsOfOpened opened ++ node.openings := by
  cases opened with
  | nil => exact absurd rfl h
  | cons inner outer =>
      show openingsOfOpened outer
          ++ (inner.tag, inner.start) :: openingsOfAll (node :: inner.children).reverse = _
      rw [List.reverse_cons, openingsOfAll_concat, openingsOfOpened, List.append_assoc,
        List.cons_append]

/-- Pending text has no tag. -/
theorem openingsOfOpened_settled :
    openingsOfOpened (b.settled source) = openingsOfOpened b.opened := by
  unfold Builder.settled
  cases b.pending with
  | none => rfl
  | some run =>
      cases hopened : b.opened with
      | nil => rfl
      | cons inner outer =>
          rw [openingsOfOpened_grown (List.cons_ne_nil _ _)]
          exact List.append_nil _

theorem Builder.opened_ne_nil_of_settled {inner : Open} {outer : List Open}
    (h : b.settled source = inner :: outer) : b.opened ≠ [] := fun hnil => by
  rw [Builder.settled_eq_nil_iff.mpr hnil] at h
  cases h

/-- The elements that a builder has so far. -/
def Builder.openings (b : Builder) : List (Tag × Position) :=
  (b.root.map (·.node.openings)).getD [] ++ openingsOfOpened b.opened

/-- Before the root is closed, all tags are those of open elements. -/
theorem Builder.openings_of_root_none (h : b.root = none) :
    b.openings = openingsOfOpened b.opened := by
  unfold Builder.openings
  rw [h]
  rfl

/-- An element that is closed is counted once, wherever it is now. -/
theorem Builder.openings_closed (hroot : b.root = none) {inner : Open} {outer : List Open}
    {stop : Position} {cursor : Cursor} :
    (b.closed (inner.shut stop) outer cursor).openings = openingsOfOpened (inner :: outer) := by
  have hnode : (inner.shut stop).node.openings
      = (inner.tag, inner.start) :: openingsOfAll inner.children.reverse := by
    show Node.openings (.element _ _ _) = _
    rw [Node.openings]
    rfl
  unfold Builder.openings Builder.closed
  by_cases houter : outer = []
  · subst houter
    rw [if_pos rfl]
    show (inner.shut stop).node.openings ++ [] = _
    rw [hnode, List.append_nil]
    rfl
  · rw [if_neg houter, hroot]
    show [] ++ openingsOfOpened (grown _ outer) = _
    rw [openingsOfOpened_grown houter, hnode]
    rfl

-- ============================================================ what tags open

/-- A tag opens an element: the element says what the tag does, and it begins
where the last bracket of the tag was found. -/
structure Opens (source : List Char) (t : StartTag) (opening : Tag × Position) : Prop where
  said : ∃ attributes, Tag.readAttributes t.bare = .ok attributes
    ∧ opening.1.said = (t.name, attributes)
  start : opening.2 = Position.ofOffset source (tagStart t.content t.stop)

/-- The element that a piece opens is what its tag opens. -/
theorem forall₂_opens_ofTag {content : List Char} (h : piece.lexeme = .tag content)
    (hstop : piece.stop = piece.start + Text.byteSize content + 2)
    {attributes : List (String × String)} (opened : List Open) {o : Open}
    (hread : Tag.readAttributes (StartTag.mk piece.start content).bare = .ok attributes)
    (ho : o = Open.ofTag source opened (StartTag.mk piece.start content).bare attributes
      (tagStart content piece.stop)) :
    List.Forall₂ (Opens source) piece.startTag?.toList [(o.tag, o.start)] := by
  subst ho
  rw [startTag?_of_tag h]
  refine .cons ⟨⟨attributes, hread, Tag.said_ofWritten _ _ _⟩, ?_⟩ .nil
  rw [StartTag.stop, ← hstop]
  rfl

/-- There is no root while an element is open. -/
theorem Takes.root_of_opened (h : Takes source b piece after)
    (hinside : b.opened ≠ [] → b.root = none) (hafter : after.opened ≠ []) : after.root = none := by
  cases h with
  | aside | blank | text => exact hinside hafter
  | tag h hslash hplace hread hcursor => exact hplace.elim hinside id
  | emptyTag h hplace hread hcursor =>
      exact (if_neg (mt grown_eq_nil_iff.mpr hafter)).trans (hplace.elim hinside id)
  | endTag h hopened hname hcursor =>
      have hopen : b.opened ≠ [] := Builder.opened_ne_nil_of_settled hopened
      exact (if_neg (mt grown_eq_nil_iff.mpr hafter)).trans (hinside hopen)

/-- What a piece adds is what it opens. -/
theorem Takes.openings (h : Takes source b piece after)
    (htag : ∀ content, piece.lexeme = .tag content →
      piece.stop = piece.start + Text.byteSize content + 2)
    (hinside : b.opened ≠ [] → b.root = none) :
    ∃ added, after.openings = b.openings ++ added
      ∧ List.Forall₂ (Opens source) piece.startTag?.toList added := by
  have hsettled := @openingsOfOpened_settled source b
  -- a piece that is no tag opens nothing
  have hnothing : ¬ piece.lexeme.IsTag → b.openings = b.openings ++ []
      ∧ List.Forall₂ (Opens source) piece.startTag?.toList [] := fun hpiece => by
    rw [startTag?_of_not_isTag hpiece]
    exact ⟨(List.append_nil _).symm, .nil⟩
  cases h with
  | aside h => exact ⟨[], hnothing (h ▸ id)⟩
  | blank h _ _ => exact ⟨[], hnothing (Lexeme.not_isTag_of_said? h)⟩
  | text h _ => exact ⟨[], hnothing (Lexeme.not_isTag_of_said? h)⟩
  | @tag content attributes cursor h hslash hplace hread hcursor =>
      have hroot := hplace.elim hinside id
      have hbare : (StartTag.mk piece.start content).bare = content := if_neg hslash
      refine ⟨_, ?_, forall₂_opens_ofTag h (htag _ h) (b.settled source) (hbare.symm ▸ hread) rfl⟩
      rw [hbare, Builder.openings_of_root_none hroot, ← hsettled]
      exact Builder.openings_of_root_none hroot
  | @emptyTag content attributes cursor h hplace hread hcursor =>
      have hroot := hplace.elim hinside id
      have hbare := StartTag.bare_slash piece.start content
      refine ⟨_, ?_, forall₂_opens_ofTag h (htag _ h) (b.settled source) (hbare.symm ▸ hread) rfl⟩
      rw [hbare, Builder.openings_closed hroot, Builder.openings_of_root_none hroot, ← hsettled]
      rfl
  -- the element that is closed was opened before and stays where it is
  | @endTag name inner outer cursor h hopened hname hcursor =>
      have hroot := hinside (Builder.opened_ne_nil_of_settled hopened)
      refine ⟨[], ?_, ?_⟩
      · rw [Builder.openings_closed hroot, Builder.openings_of_root_none hroot, ← hsettled,
          hopened, List.append_nil]
      · unfold Placed.startTag?
        rw [h]
        exact .nil

/-- Every start tag that is taken opens an element, in order. -/
theorem TakesAll.openings {hi : Nat} (h : TakesAll source b pieces after)
    (hrow : InRow n hi pieces) (hinside : b.opened ≠ [] → b.root = none) :
    ∃ added, after.openings = b.openings ++ added
      ∧ List.Forall₂ (Opens source) (pieces.filterMap Placed.startTag?) added := by
  induction h generalizing n with
  | nil b => exact ⟨[], (List.append_nil _).symm, .nil⟩
  | @cons b between after piece pieces hstep hrest ih =>
      obtain ⟨-, -, htag, hmore⟩ := hrow
      obtain ⟨first, hfirst, hopens⟩ := hstep.openings htag hinside
      obtain ⟨more, hbehind, hrest⟩ := ih hmore (hstep.root_of_opened hinside)
      refine ⟨first ++ more, by rw [hbehind, hfirst, List.append_assoc], ?_⟩
      have hsplit : (piece :: pieces).filterMap Placed.startTag?
          = piece.startTag?.toList ++ pieces.filterMap Placed.startTag? := by
        cases hpiece : piece.startTag? with
        | none => exact List.filterMap_cons_none hpiece
        | some t => exact List.filterMap_cons_some hpiece
      rw [hsplit]
      exact List.rel_append hopens hrest

/-- The tags of a text open the elements of its tree, in document order. -/
theorem forall₂_opens {root : Content} (h : tree source = .ok root) :
    List.Forall₂ (Opens source) (startTags source) root.node.openings := by
  obtain ⟨junk, input, rfl, hjunk, -, b, htakes, hopened, hroot⟩ := takesAll_of_tree h
  obtain ⟨added, hadded, hopens⟩ := htakes.openings (inRow_scan _ _) fun h => absurd rfl h
  have hall : b.openings = root.node.openings := by
    unfold Builder.openings
    rw [hroot, hopened]
    exact List.append_nil _
  rw [startTags_append hjunk, ← hall, hadded]
  exact hopens

theorem Document.forall₂_opens_elements {text : String} {d : Document}
    (h : Document.parse text = .ok d) :
    List.Forall₂ (fun t e => Opens text.toList t (e.tag, e.span.start))
      (startTags text.toList) d.elements := by
  obtain ⟨root, htree, rfl⟩ := Document.parse_eq_ok_iff.mp h
  have hopens := forall₂_opens htree
  rw [← Node.map_elements_openings [] root.node, List.forall₂_map_right_iff] at hopens
  exact hopens

-- ============================================================ where tags begin

/-- The text goes on from a byte with a bracket and a name, and the name ends
there. -/
def Announces (source : List Char) (offset : Nat) (name : String) : Prop :=
  ∃ front c back, source = front ++ '<' :: (name.toList ++ c :: back)
    ∧ Text.byteSize front = offset ∧ (Text.isMarkupSpace c ∨ c = '/' ∨ c = '>')

/-- A name goes up to a space or to the end. -/
theorem exists_of_nameOf (s : List Char) :
    s = Tag.nameOf s ∨ ∃ c back, s = Tag.nameOf s ++ c :: back ∧ Text.isMarkupSpace c := by
  have hsplit := List.takeWhile_append_dropWhile (p := fun c => !Text.isMarkupSpace c) (l := s)
  cases hback : s.dropWhile fun c => !Text.isMarkupSpace c with
  | nil =>
      rw [hback, List.append_nil] at hsplit
      exact Or.inl hsplit.symm
  | cons c back =>
      rw [hback] at hsplit
      refine Or.inr ⟨c, back, hsplit.symm, ?_⟩
      have hhead := List.head?_dropWhile_not (fun c => !Text.isMarkupSpace c) s
      rw [hback] at hhead
      simpa using hhead

/-- A tag announces the name of the element that it opens. -/
theorem announces_of_mem (h : t ∈ startTags source) :
    Announces source t.start t.name ∧ t.stop ≤ Text.byteSize source := by
  obtain ⟨p, hp, htag⟩ := List.mem_filterMap.mp h
  obtain ⟨hlexeme, hstart⟩ := startTag?_eq_some htag
  obtain ⟨front, back, hsource, hfront⟩ := exists_of_mem_scan hp hlexeme
  rw [Nat.zero_add, hstart] at hfront
  have hopen : '<'.utf8Size = 1 := by decide
  have hclose : '>'.utf8Size = 1 := by decide
  refine ⟨?_, ?_⟩
  · have hname : t.name.toList = Tag.nameOf t.bare := String.toList_ofList
    -- a slash at the end of the content is behind the name, as a bracket is
    have hcontent : ∃ c more, (c = '/' ∨ c = '>')
        ∧ t.content ++ '>' :: back = t.bare ++ c :: more := by
      unfold StartTag.bare
      split
      · next hslash =>
          obtain ⟨short, hshort⟩ := List.getLast?_eq_some_iff.mp hslash
          refine ⟨'/', '>' :: back, Or.inl rfl, ?_⟩
          rw [hshort, List.dropLast_concat, List.append_assoc]
          rfl
      · exact ⟨'>', back, Or.inr rfl, rfl⟩
    obtain ⟨c, more, hc, hcontent⟩ := hcontent
    rw [List.cons_append, hcontent] at hsource
    rcases exists_of_nameOf t.bare with hall | ⟨d, behind, hsplit, hd⟩
    · refine ⟨front, c, more, ?_, hfront.symm, Or.inr hc⟩
      rw [hname, ← hall]
      exact hsource
    · refine ⟨front, d, behind ++ c :: more, ?_, hfront.symm, Or.inl hd⟩
      rw [hname, hsource]
      conv => lhs; rw [hsplit]
      simp
  · rw [hsource]
    unfold StartTag.stop
    simp only [Text.byteSize_append, List.cons_append, Text.byteSize_cons, hopen, hclose]
    omega

/-- The last bracket of a tag is the one it begins with where there is no
other. -/
theorem tagStart_eq_start_iff (t : StartTag) :
    tagStart t.content t.stop = t.start ↔ '<' ∉ t.content := by
  have hsize := byteSize_reverse t.content
  have hsplit := List.takeWhile_append_dropWhile (p := (· != '<')) (l := t.content.reverse)
  have hbytes := congrArg Text.byteSize hsplit
  rw [Text.byteSize_append, hsize] at hbytes
  unfold tagStart StartTag.stop
  rcases head?_dropWhile_bracket t.content.reverse with hback | hback
  · rw [hback, Text.byteSize_nil] at hbytes
    refine iff_of_true (by omega) fun hmem => ?_
    have hnone := List.dropWhile_eq_nil_iff.mp hback '<' (List.mem_reverse.mpr hmem)
    exact absurd hnone (by decide)
  · obtain ⟨back, hback⟩ := List.head?_eq_some_iff.mp hback
    have hopen : '<'.utf8Size = 1 := by decide
    rw [hback, Text.byteSize_cons, hopen] at hbytes
    refine iff_of_false (by omega) fun hnone => hnone ?_
    rw [← List.mem_reverse, ← hsplit, hback]
    exact List.mem_append_right _ List.mem_cons_self

/-- An element begins with a tag: at the bracket of the tag, from where the
text goes on with the name of the element. -/
def Element.BeginsWith (source : List Char) (t : StartTag) (e : Element) : Prop :=
  e.span.start.offset = t.start ∧ Announces source e.span.start.offset e.name

/-- The tags of a text open the elements of its document, one for one and in
document order: an element has the name and the attributes of its tag, and
begins with the tag exactly where no second bracket is in it. -/
theorem Document.forall₂_beginsWith_iff {text : String} {d : Document}
    (h : Document.parse text = .ok d) :
    List.Forall₂
      (fun t e =>
        (∃ attributes, Tag.readAttributes t.bare = .ok attributes
          ∧ e.tag.said = (t.name, attributes))
        ∧ Announces text.toList t.start e.name
        ∧ (e.BeginsWith text.toList t ↔ '<' ∉ t.content))
      (startTags text.toList) d.elements := by
  refine ((List.forall₂_and_left _ _).mpr ⟨fun t ht => ht, forall₂_opens_elements h⟩).imp
    fun t e h => ?_
  obtain ⟨hmem, ⟨attributes, hread, hsaid⟩, hstart⟩ := h
  obtain ⟨hannounces, hstop⟩ := announces_of_mem hmem
  have hname : e.name = t.name := congrArg Prod.fst hsaid
  have hbounds := @tagStart_bounds t.content t.start t.stop rfl
  have hoffset : e.span.start.offset = tagStart t.content t.stop :=
    (congrArg Position.offset hstart).trans (Position.offset_ofOffset_of_le (by omega))
  rw [← hname] at hannounces
  refine ⟨⟨attributes, hread, hsaid⟩, hannounces, ?_⟩
  rw [← tagStart_eq_start_iff, ← hoffset]
  exact ⟨And.left, fun hsame => ⟨hsame, hsame.symm ▸ hannounces⟩⟩

/-- The outer of two elements has a bracket in a value and begins there; the
inner one begins with its tag. -/
theorem Document.beginsWith_nested :
    ∃ d, parse "<a b='x<y'><c/></a>" = .ok d
      ∧ List.Forall₂
        (fun t e =>
          (∃ attributes, Tag.readAttributes t.bare = .ok attributes
            ∧ e.tag.said = (t.name, attributes))
          ∧ Announces "<a b='x<y'><c/></a>".toList t.start e.name
          ∧ (e.BeginsWith "<a b='x<y'><c/></a>".toList t ↔ '<' ∉ t.content))
        (startTags "<a b='x<y'><c/></a>".toList) d.elements
      ∧ startTags "<a b='x<y'><c/></a>".toList
        = [⟨0, "a b='x<y'".toList⟩, ⟨11, "c/".toList⟩]
      ∧ d.elements.map (·.span.start.offset) = [7, 11] := by
  have hstarts : (parse "<a b='x<y'><c/></a>").toOption.map (fun d =>
      d.elements.map (·.span.start.offset)) = some [7, 11] := by decide +kernel
  cases hparse : parse "<a b='x<y'><c/></a>" with
  | error e =>
      rw [hparse] at hstarts
      cases hstarts
  | ok d =>
      rw [hparse] at hstarts
      exact ⟨d, rfl, forall₂_beginsWith_iff hparse, by decide +kernel, Option.some.inj hstarts⟩

/-- So the text does not go on with the name of an element from where the
element is said to begin. -/
theorem Document.not_announces_quotedBracket :
    ¬ ∀ text d, parse text = .ok d →
        ∀ e ∈ d.elements, Announces text.toList e.span.start.offset e.name := by
  intro h
  have hfirst : (parse "<a b=\"<\"/>").toOption.map (fun d =>
      d.elements.map fun e => (e.span.start.offset, e.name)) = some [(6, "a")] := by
    decide +kernel
  cases hparse : parse "<a b=\"<\"/>" with
  | error e =>
      rw [hparse] at hfirst
      cases hfirst
  | ok d =>
      rw [hparse] at hfirst
      have hall : d.elements.map (fun e => (e.span.start.offset, e.name)) = [(6, "a")] :=
        Option.some.inj hfirst
      obtain ⟨e, he, heq⟩ := List.mem_map.mp (hall ▸ List.mem_singleton_self (6, "a"))
      obtain ⟨hoffset, hname⟩ := Prod.mk.inj heq
      obtain ⟨front, c, back, htext, hsize, -⟩ := h _ d hparse e he
      rw [hoffset] at hsize
      rw [hname] at htext
      -- behind the bracket in the value stands a quote
      have hbehind : ∀ before ∈ "<a b=\"<\"/>".toList.inits, Text.byteSize before = 6 →
          ("<a b=\"<\"/>".toList.drop before.length).take 2 ≠ ['<', 'a'] := by decide +kernel
      refine hbehind front ((List.mem_inits _ _).mpr ⟨_, htext.symm⟩) hsize ?_
      rw [htext, List.drop_left]
      rfl

end ResourceLint.Xml
