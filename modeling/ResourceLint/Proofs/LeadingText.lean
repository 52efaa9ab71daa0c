/-
What stands before the first bracket changes nothing but places.

A text with something before its first bracket is read as what follows is,
only that every place lies so many bytes behind, on the line and in the
column that this byte has in the whole text (`Document.parse_append`).  That
goes for faults as well, and for the attributes of an element.

Two ways lead there.  Blanks are a piece of the text, which is passed over;
with anything else in front, the text is read again from its first bracket.
Either way the pieces are those of what follows, moved (`scan_add`), and two
builders take them in step: one of what follows alone, and one of the whole
text.  They stand side by side (`Beside`) after every piece, with everything
placed in the one as in the other, moved; or both fail there (`Abreast`).
-/
import ResourceLint.Proofs.Places
import ResourceLint.Proofs.RoundTrip

namespace ResourceLint

-- =================================================================== moving

/-- Where a place of `source` is when `junk` stands before it: so many bytes
behind, on the line and in the column of that byte. -/
def Position.behind (junk source : List Char) (p : Position) : Position :=
  { ofOffset (junk ++ source) (Text.byteSize junk + p.offset) with
    offset := Text.byteSize junk + p.offset }

/-- The place of a byte behind the junk is the place of that byte in the whole
text, also at and past the end. -/
theorem Position.behind_ofOffset (junk source : List Char) (n : Nat) :
    (ofOffset source n).behind junk source
      = ofOffset (junk ++ source) (Text.byteSize junk + n) := by
  have hsize : Text.byteSize (junk ++ source) = Text.byteSize junk + Text.byteSize source :=
    Text.byteSize_append junk source
  -- offsets past the end stop there, so only those within the text are to be told
  have hplace : ofOffset (junk ++ source) (Text.byteSize junk + min n (Text.byteSize source))
      = ofOffset (junk ++ source) (Text.byteSize junk + n) := by
    by_cases hn : n ≤ Text.byteSize source
    · rw [Nat.min_eq_left hn]
    · have hend : Text.byteSize (junk ++ source) ≤ Text.byteSize junk + n := by omega
      rw [Nat.min_eq_right (by omega), ← hsize, ← ofOffset_of_byteSize_le hend]
  have hoffset : Text.byteSize junk + min n (Text.byteSize source)
      = (ofOffset (junk ++ source) (Text.byteSize junk + n)).offset := by
    rw [offset_ofOffset, hsize]
    omega
  unfold behind
  rw [offset_ofOffset, hplace, hoffset]

variable (f : Position → Position) (k : Nat)

def Span.moved (span : Span) : Span := ⟨f span.start, f span.stop⟩

namespace Xml

mutual

/-- A node in another place. -/
def Node.moved : Node → Node
  | .element tag span children => .element tag (span.moved f) (movedAll children)
  | .text content span => .text content (span.moved f)

def movedAll : List Node → List Node
  | [] => []
  | node :: more => node.moved :: movedAll more

end

/-- Nodes are moved one by one. -/
theorem movedAll_eq_map (nodes : List Node) : movedAll f nodes = nodes.map (·.moved f) := by
  induction nodes with
  | nil => rw [movedAll, List.map_nil]
  | cons node more ih => rw [movedAll, List.map_cons, ih]

def Content.moved (content : Content) : Content :=
  { content with span := content.span.moved f, children := movedAll f content.children }

theorem Content.node_moved (content : Content) :
    (content.moved f).node = content.node.moved f := by
  unfold Content.node Content.moved
  rw [Node.moved]

def Element.moved (e : Element) : Element :=
  { e.toContent.moved f with around := e.around.map (·.moved f) }

def Open.moved (o : Open) : Open :=
  { o with start := f o.start, children := movedAll f o.children }

def Pending.behind (run : Pending) : Pending :=
  { run with start := k + run.start, stop := k + run.stop }

def Placed.behind (p : Placed) : Placed := { p with start := k + p.start, stop := k + p.stop }

/-- The same fault in another place. -/
def ParseError.moved : ParseError → ParseError
  | .malformed position what => .malformed (f position) what
  | .prolog position => .prolog (f position)
  | .unfinished position => .unfinished (f position)

theorem ParseError.position_moved (e : ParseError) : (e.moved f).position = f e.position := by
  cases e <;> rfl

/-- A node of a store in another place. -/
def Entry.moved (e : Entry) : Entry := { e with start := f e.start, stop? := e.stop?.map f }

/-- A store with every node in another place. -/
def Arena.moved (a : Arena) : Arena := { a with entries := a.entries.map (·.moved f) }

variable {f k}

-- =================================================================== stores

mutual

/-- Moving a node changes no number of nodes. -/
theorem Node.size_moved : ∀ node : Node, (node.moved f).size = node.size
  | .element tag span children => by
      rw [Node.moved, Node.size, Node.size, sizeOfAll_movedAll children]
  | .text content span => by
      rw [Node.moved, Node.size, Node.size]

theorem sizeOfAll_movedAll : ∀ nodes : List Node, sizeOfAll (movedAll f nodes) = sizeOfAll nodes
  | [] => by
      rw [movedAll]
  | node :: more => by
      rw [movedAll, sizeOfAll, sizeOfAll, Node.size_moved node, sizeOfAll_movedAll more]

end

/-- Moved nodes are numbered as before: their sizes are the same. -/
theorem numbersOf_movedAll (first : Nat) (nodes : List Node) :
    numbersOf first (movedAll f nodes) = numbersOf first nodes := by
  induction nodes generalizing first with
  | nil => rw [movedAll]
  | cons node more ih => rw [movedAll, numbersOf, numbersOf, Node.size_moved, ih]

/-- An entry is moved in its span alone; its parent and its children are
numbers. -/
theorem Node.entry_moved (parent : Option Nat) (number : Nat) (node : Node) :
    (node.moved f).entry parent number = (node.entry parent number).moved f := by
  cases node with
  | element tag span children =>
      rw [Node.moved]
      unfold Node.entry Entry.moved
      rw [Node.inner, numbersOf_movedAll]
      rfl
  | text content span =>
      rw [Node.moved]
      rfl

mutual

/-- What is laid out for a moved node are the moved entries. -/
theorem Node.laid_moved (parent : Option Nat) (number : Nat) : ∀ node : Node,
    (node.moved f).laid parent number = (node.laid parent number).map (·.moved f)
  | .element tag span children => by
      rw [Node.laid_eq, Node.laid, List.map_cons, Node.entry_moved, Node.moved, Node.inner,
        laidAll_movedAll number (number + 1) children]
  | .text content span => by
      rw [Node.laid_eq, Node.laid, Node.entry_moved, Node.moved, Node.inner, laidAll]
      rfl

theorem laidAll_movedAll (parent first : Nat) : ∀ nodes : List Node,
    laidAll parent first (movedAll f nodes) = (laidAll parent first nodes).map (·.moved f)
  | [] => by
      rw [movedAll, laidAll]
      rfl
  | node :: more => by
      rw [movedAll, laidAll, laidAll, List.map_append, Node.laid_moved (some parent) first node,
        Node.size_moved, laidAll_movedAll parent (first + node.size) more]

end

namespace Arena

/-- A tree in another place is laid out as the tree was. -/
theorem ofTree_moved (root : Content) : ofTree (root.moved f) = (ofTree root).moved f := by
  unfold ofTree moved
  rw [Content.node_moved, Node.laid_moved, List.map_toArray]

variable (a : Arena)

/-- What a number describes is the same node, in another place. -/
theorem node?_moved (depth number : Nat) :
    (a.moved f).node? depth number = (a.node? depth number).map (·.moved f) := by
  induction depth generalizing number with
  | zero => rfl
  | succ depth ih =>
      have hentry : (a.moved f).entries[number]? = a.entries[number]?.map (·.moved f) :=
        Array.getElem?_map
      have hinner : (a.moved f).node? depth = fun number => (a.node? depth number).map (·.moved f) :=
        funext ih
      rw [node?, node?, hentry, hinner]
      cases a.entries[number]? with
      | none => rfl
      | some entry =>
          obtain ⟨kind, parent, children, start, _ | stop⟩ := entry
          · rfl
          · cases kind with
            | text content => rfl
            | element tag =>
                simp only [Option.map_some, Entry.moved, bind, Option.bind, Node.moved,
                  movedAll_eq_map, List.map_filterMap]
                rfl

/-- Reading a moved arena back gives the moved tree. -/
theorem root?_moved : (a.moved f).root? = a.root?.map (·.moved f) := by
  have hroot : (a.moved f).root.bind ((a.moved f).node? (a.moved f).entries.size)
      = (a.root.bind (a.node? a.entries.size)).map (·.moved f) := by
    have hsize : (a.moved f).entries.size = a.entries.size := Array.size_map
    have hnode : (a.moved f).node? a.entries.size
        = fun number => (a.node? a.entries.size number).map (·.moved f) :=
      funext (a.node?_moved a.entries.size)
    rw [hsize, hnode]
    cases h : a.root with
    | none =>
        show a.root.bind _ = _
        rw [h]
        rfl
    | some number =>
        show a.root.bind _ = _
        rw [h]
        rfl
  unfold root?
  rw [hroot]
  cases a.root.bind (a.node? a.entries.size) with
  | none => rfl
  | some node =>
      cases node with
      | element tag span children =>
          simp only [Option.map_some, Node.moved, Content.moved]
      | text content span =>
          simp only [Option.map_some, Node.moved, Option.map_none]

end Arena

namespace Document

/-- The document of a text when something stands before the text. -/
def behind (junk : String) (d : Document) : Document :=
  let f := Position.behind junk.toList d.source.toList
  { source := junk ++ d.source, arena := d.arena.moved f, content := d.content.moved f
    root?_arena := by rw [Arena.root?_moved, d.root?_arena, Option.map_some] }

/-- The arena of a tree behind junk is that of the moved tree. -/
theorem behind_ofTree (junk source : String) (root : Content) :
    (ofTree source root).behind junk
      = ofTree (junk ++ source) (root.moved (Position.behind junk.toList source.toList)) := by
  unfold behind ofTree
  simp only [Arena.ofTree_moved]

end Document

-- ================================================================= elements

mutual

/-- The elements of a moved node are the moved elements, each with what stands
around it. -/
theorem Node.elements_moved (around : List Content) : ∀ node : Node,
    (node.moved f).elements (around.map (·.moved f)) = (node.elements around).map (·.moved f)
  | .element tag span children => by
      rw [Node.moved, Node.elements, Node.elements, List.map_cons]
      congr 1
      exact elementsOfAll_moved (⟨tag, span, children⟩ :: around) children
  | .text content span => by
      rw [Node.moved, Node.elements, Node.elements]
      rfl

theorem elementsOfAll_moved (around : List Content) : ∀ nodes : List Node,
    elementsOfAll (around.map (·.moved f)) (movedAll f nodes)
      = (elementsOfAll around nodes).map (·.moved f)
  | [] => by
      rw [movedAll, elementsOfAll, elementsOfAll]
      rfl
  | node :: more => by
      rw [movedAll, elementsOfAll, elementsOfAll, List.map_append,
        Node.elements_moved around node, elementsOfAll_moved around more]

end

/-- The elements are the same, in the same order. -/
theorem Document.elements_behind (junk : String) (d : Document) :
    (d.behind junk).elements
      = d.elements.map (·.moved (Position.behind junk.toList d.source.toList)) := by
  have hroot := Node.elements_moved (f := Position.behind junk.toList d.source.toList) []
    (.element d.tag d.span d.children)
  rw [Node.moved] at hroot
  exact hroot

-- =================================================================== pieces

open Position (Cursor)

variable {junk source s content : List Char} {n lo hi : Nat} {p : Placed}
  {pieces : List Placed} {b b' : Builder}

/-- A fault that is met at once ends the pieces. -/
theorem scan_eq_of_error {c : Char} {rest : List Char} {fault : MarkupFault}
    (h : next c rest = .error fault) (start : Nat) :
    scan start (c :: rest) = { pieces := [], fault := some (fault, start + fault.shift) } := by
  rw [scan]
  split
  · next hfault =>
      cases h.symm.trans hfault
      rfl
  · next hstep => cases h.symm.trans hstep

/-- The pieces of a text do not depend on where it begins, but for their
places. -/
theorem scan_add (k n : Nat) (s : List Char) :
    scan (k + n) s
      = { pieces := (scan n s).pieces.map (·.behind k)
          fault := (scan n s).fault.map fun (fault, offset) => (fault, k + offset) } := by
  induction n, s using scan.induct with
  | case1 n =>
      rw [scan, scan]
      rfl
  | case2 n c rest fault hnext =>
      rw [scan_eq_of_error hnext, scan_eq_of_error hnext, Nat.add_assoc]
      rfl
  | case3 n c rest piece after hnext stop ih =>
      have hcut : Cuts (c :: rest) piece after := ⟨c, rest, rfl, hnext⟩
      rw [hcut.scan_eq, hcut.scan_eq, Nat.add_assoc]
      exact congrArg (fun more : Scan => Scan.mk (_ :: more.pieces) more.fault) ih

/-- The start of a tag is searched in its own text, so what stands before that
moves it as a whole. -/
theorem tagStart_add (k : Nat) (h : hi = lo + Text.byteSize content + 2) :
    tagStart content (k + hi) = k + tagStart content hi := by
  obtain ⟨x, y, -, hplace⟩ := exists_of_tagStart content
  have hmoved := hplace (k + lo)
  rw [h, hplace lo, ← Nat.add_assoc, ← Nat.add_assoc, hmoved, Nat.add_assoc]

-- ======================================================== two builders

/-- Two builders, one of a text and one of it with something before it, that
have taken the same pieces. -/
structure Beside (junk source : List Char) (b b' : Builder) : Prop where
  sees : Cursor.Sees source b.cursor
  sees' : Cursor.Sees (junk ++ source) b'.cursor
  opened : b'.opened = b.opened.map (·.moved (Position.behind junk source))
  root : b'.root = b.root.map (·.moved (Position.behind junk source))
  pending : b'.pending = b.pending.map (·.behind (Text.byteSize junk))

/-- Two outcomes, both good or both the same fault; a fault is at a byte of
its text. -/
inductive Abreast (junk source : List Char) {α : Type} (R : α → α → Prop) :
    Except ParseError α → Except ParseError α → Prop
  | ok {a a' : α} (h : R a a') : Abreast junk source R (.ok a) (.ok a')
  | error {e : ParseError} {n : Nat} (h : e.position = Position.ofOffset source n) :
      Abreast junk source R (.error e) (.error (e.moved (Position.behind junk source)))

namespace Abreast

variable {α β : Type} {R : α → α → Prop} {S : β → β → Prop} {x x' : Except ParseError α}

/-- Good outcomes are gone on with, and faults stay as they are. -/
theorem bind (h : Abreast junk source R x x') {g g' : α → Except ParseError β}
    (hg : ∀ a a', R a a' → Abreast junk source S (g a) (g' a')) :
    Abreast junk source S (x >>= g) (x' >>= g') := by
  cases h with
  | ok h => exact hg _ _ h
  | error h => exact .error h

/-- Results abreast stay so under functions that fit. -/
theorem map (h : Abreast junk source R x x') {g g' : α → β}
    (hg : ∀ a a', R a a' → S (g a) (g' a')) :
    Abreast junk source S (x.map g) (x'.map g') := by
  cases h with
  | ok h => exact .ok (hg _ _ h)
  | error h => exact .error h

theorem mono (h : Abreast junk source R x x') {R' : α → α → Prop}
    (hR : ∀ a a', R a a' → R' a a') : Abreast junk source R' x x' := by
  cases h with
  | ok h => exact .ok (hR _ _ h)
  | error h => exact .error h

/-- Either fault is at a byte of its text. -/
theorem position_left {e : ParseError} (h : Abreast junk source R (.error e) x') :
    ∃ n, e.position = Position.ofOffset source n := by
  cases h with
  | error h => exact ⟨_, h⟩

/-- An error in the longer text has a place in it. -/
theorem position_right {e : ParseError} (h : Abreast junk source R x (.error e)) :
    ∃ n, e.position = Position.ofOffset (junk ++ source) n := by
  cases h with
  | error h => exact ⟨_, by rw [ParseError.position_moved, h, Position.behind_ofOffset]⟩

end Abreast

namespace Beside

/-- Before the first piece both builders have seen nothing. -/
theorem start (junk source : List Char) :
    Beside junk source (.start source) (.start (junk ++ source)) :=
  ⟨Cursor.sees_start _, Cursor.sees_start _, rfl, rfl, rfl⟩

/-- Both builders locate a byte at corresponding places, and stay beside each
other. -/
theorem locate (h : Beside junk source b b') (n : Nat) :
    (b.locate n).1 = Position.ofOffset source n
      ∧ (b'.locate (Text.byteSize junk + n)).1 = (b.locate n).1.behind junk source
      ∧ Beside junk source (b.locate n).2 (b'.locate (Text.byteSize junk + n)).2 := by
  obtain ⟨hplace, cursor, hcursor, hafter⟩ := Builder.locate_eq h.sees n
  obtain ⟨hplace', cursor', hcursor', hafter'⟩ :=
    Builder.locate_eq h.sees' (Text.byteSize junk + n)
  refine ⟨hplace, ?_, ?_⟩
  · rw [hplace', hplace, Position.behind_ofOffset]
  · rw [hafter, hafter']
    exact ⟨hcursor, hcursor', h.opened, h.root, h.pending⟩

theorem fail (h : Beside junk source b b') (n : Nat) (what : Malformation) {α : Type}
    {R : α → α → Prop} :
    Abreast junk source R (b.fail n what) (b'.fail (Text.byteSize junk + n) what) := by
  obtain ⟨hplace, hmoved, -⟩ := h.locate n
  unfold Builder.fail
  rw [hmoved]
  exact .error (e := .malformed (b.locate n).1 what) hplace

theorem isEmpty_opened (h : Beside junk source b b') : b'.opened.isEmpty = b.opened.isEmpty := by
  rw [h.opened, List.isEmpty_map]

theorem isSome_root (h : Beside junk source b b') : b'.root.isSome = b.root.isSome := by
  rw [h.root, Option.isSome_map]

/-- A node is moved before or after it is added to the open element. -/
theorem map_grown (f : Position → Position) (node : Node) (opened : List Open) :
    (grown node opened).map (·.moved f) = grown (node.moved f) (opened.map (·.moved f)) := by
  cases opened with
  | nil => rfl
  | cons inner outer =>
      show Open.moved f (inner.add node) :: _ = (inner.moved f).add (node.moved f) :: _
      unfold Open.moved Open.add
      rw [movedAll]

/-- Text that is pending becomes the same node in both. -/
theorem settled (h : Beside junk source b b') :
    b'.settled (junk ++ source)
      = (b.settled source).map (·.moved (Position.behind junk source)) := by
  unfold Builder.settled
  rw [h.pending]
  cases b.pending with
  | none => exact h.opened
  | some run =>
      have hnode : (run.behind (Text.byteSize junk)).node (junk ++ source)
          = (run.node source).moved (Position.behind junk source) := by
        unfold Pending.node Pending.behind Node.moved Span.moved
        simp only [Position.behind_ofOffset]
      show grown ((run.behind (Text.byteSize junk)).node (junk ++ source)) b'.opened = _
      rw [hnode, h.opened, map_grown]

/-- After the pending text is flushed, both have none. -/
theorem flush (h : Beside junk source b b') :
    Beside junk source b.flush b'.flush ∧ b.flush.pending = none := by
  obtain ⟨cursor, hcursor, hflush⟩ := Builder.flush_eq h.sees
  obtain ⟨cursor', hcursor', hflush'⟩ := Builder.flush_eq h.sees'
  rw [hflush, hflush']
  exact ⟨⟨hcursor, hcursor', h.settled, h.root, rfl⟩, rfl⟩

/-- A tag opens corresponding elements: the names in force above are the
same. -/
theorem ofTag (opened : List Open) (content : List Char) (attributes : List (String × String))
    (n : Nat) :
    Open.ofTag (junk ++ source) (opened.map (·.moved (Position.behind junk source))) content
        attributes (Text.byteSize junk + n)
      = (Open.ofTag source opened content attributes n).moved
          (Position.behind junk source) := by
  have hdeclared : (opened.map (·.moved (Position.behind junk source))).map (·.declared)
      = opened.map (·.declared) := by
    rw [List.map_map]
    rfl
  unfold Open.ofTag
  rw [hdeclared, ← Position.behind_ofOffset]
  unfold Open.moved
  rw [movedAll]

end Beside

/-- Outside of the outermost element, a second one is a fault. -/
theorem Builder.openElement_secondRoot (h : b.opened.isEmpty && b.root.isSome) (n : Nat) :
    b.openElement content n = b.fail n .secondRoot := by
  unfold openElement
  rw [if_pos h]
  rfl

/-- So is a tag that cannot be read. -/
theorem Builder.openElement_fault {fault : Tag.Fault}
    (h : ¬ (b.opened.isEmpty && b.root.isSome))
    (hread : Tag.readAttributes content = .error fault) (n : Nat) :
    b.openElement content n = (b.locate n).2.fail n (.tag fault) := by
  unfold openElement
  rw [if_neg h, hread]
  rfl

namespace Beside

/-- Opening an element fails in both or in neither. -/
theorem openElement (h : Beside junk source b b') (content : List Char) (n : Nat) :
    Abreast junk source
      (fun after after' => Beside junk source after after' ∧ after.pending = b.pending)
      (b.openElement content n) (b'.openElement content (Text.byteSize junk + n)) := by
  -- each of the two faults is met by both
  by_cases hsecond : b.opened.isEmpty && b.root.isSome
  · have hsecond' : b'.opened.isEmpty && b'.root.isSome := by
      rw [h.isEmpty_opened, h.isSome_root, hsecond]
    rw [Builder.openElement_secondRoot hsecond, Builder.openElement_secondRoot hsecond']
    exact h.fail n .secondRoot
  · have hsecond' : ¬ (b'.opened.isEmpty && b'.root.isSome) := by
      rwa [h.isEmpty_opened, h.isSome_root]
    cases hread : Tag.readAttributes content with
    | error fault =>
        rw [Builder.openElement_fault hsecond hread, Builder.openElement_fault hsecond' hread]
        exact (h.locate n).2.2.fail n (.tag fault)
    | ok attributes =>
        have hplace : ∀ {b : Builder}, ¬ (b.opened.isEmpty && b.root.isSome) →
            b.opened ≠ [] ∨ b.root = none := by
          intro b hb
          by_cases hopened : b.opened = []
          · refine Or.inr (Option.not_isSome_iff_eq_none.mp fun hroot => hb ?_)
            rw [hopened, hroot]
            rfl
          · exact Or.inl hopened
        obtain ⟨cursor, hcursor, hopen⟩ :=
          Builder.openElement_eq_ok h.sees (hplace hsecond) hread n
        obtain ⟨cursor', hcursor', hopen'⟩ :=
          Builder.openElement_eq_ok h.sees' (hplace hsecond') hread (Text.byteSize junk + n)
        rw [hopen, hopen']
        refine .ok ⟨⟨hcursor, hcursor', ?_, h.root, h.pending⟩, rfl⟩
        dsimp only
        rw [h.opened, ofTag, List.map_cons]

/-- Closing the innermost element is no failure, and adds corresponding
nodes. -/
theorem closeElement (h : Beside junk source b b') (hpending : b.pending = none) (n : Nat) :
    Beside junk source (b.closeElement n) (b'.closeElement (Text.byteSize junk + n)) := by
  have hpending' : b'.pending = none := by
    rw [h.pending, hpending]
    rfl
  cases hopened : b.opened with
  | nil =>
      have hopened' : b'.opened = [] := by
        rw [h.opened, hopened]
        rfl
      unfold Builder.closeElement
      rw [hopened, hopened']
      exact h
  | cons inner outer =>
      have hopened' : b'.opened = inner.moved (Position.behind junk source)
          :: outer.map (·.moved (Position.behind junk source)) := by
        rw [h.opened, hopened]
        rfl
      obtain ⟨cursor, hcursor, hclose⟩ := Builder.closeElement_eq h.sees hpending hopened n
      obtain ⟨cursor', hcursor', hclose'⟩ :=
        Builder.closeElement_eq h.sees' hpending' hopened' (Text.byteSize junk + n)
      -- the end tag ends corresponding spans
      have hshut : (inner.moved (Position.behind junk source)).shut
            (Position.ofOffset (junk ++ source) (Text.byteSize junk + n))
          = (inner.shut (Position.ofOffset source n)).moved (Position.behind junk source) := by
        unfold Open.shut Content.moved Open.moved Span.moved
        simp only [Position.behind_ofOffset, movedAll_eq_map, List.map_reverse]
      rw [hclose, hclose', hshut]
      unfold Builder.closed
      refine ⟨hcursor, hcursor', ?_, ?_, rfl⟩
      · dsimp only
        rw [map_grown, Content.node_moved]
      · simp only [List.map_eq_nil_iff, h.root]
        split <;> rfl

/-- Text that may not stand where it is stops both. -/
theorem addText (h : Beside junk source b b') (content : List Char) (start stop : Nat) :
    Abreast junk source (Beside junk source) (b.addText content start stop)
      (b'.addText content (Text.byteSize junk + start) (Text.byteSize junk + stop)) := by
  unfold Builder.addText
  rw [h.isEmpty_opened]
  split
  · split
    · exact .ok h
    · next visible =>
        have hnone : b'.root.isNone = b.root.isNone := by
          rw [h.root, Option.isNone_map]
        rw [Nat.add_assoc, hnone]
        dsimp only
        split
        · obtain ⟨hplace, hmoved, -⟩ :=
            h.locate (start + (Text.byteSize content - Text.byteSize (Text.trimStart content)))
          rw [hmoved]
          exact .error (e := .prolog _) hplace
        · exact h.fail _ .afterRoot
  · refine .ok ⟨h.sees, h.sees', h.opened, h.root, ?_⟩
    dsimp only
    rw [h.pending]
    cases b.pending <;> rfl

/-- A piece leaves them side by side, or is the same fault for both. -/
theorem take (h : Beside junk source b b')
    (htag : ∀ content, p.lexeme = .tag content →
      p.stop = p.start + Text.byteSize content + 2) :
    Abreast junk source (Beside junk source) (b.take p)
      (b'.take (p.behind (Text.byteSize junk))) := by
  obtain ⟨lexeme, start, stop⟩ := p
  unfold Builder.take Placed.behind
  cases lexeme with
  | text raw =>
      dsimp only
      cases expand raw with
      | ok content => exact h.addText content start stop
      | error fault => exact h.fail start (.entity fault)
  | literal content => exact h.addText content start stop
  | aside => exact .ok h
  | tag content =>
      dsimp only
      obtain ⟨hflush, hpending⟩ := h.flush
      rw [tagStart_add _ (htag content rfl)]
      split
      · refine (hflush.openElement content.dropLast _).map fun after after' hopen => ?_
        exact hopen.1.closeElement (hopen.2.trans hpending) stop
      · exact (hflush.openElement content _).mono fun after after' hopen => hopen.1
  -- names are not moved, so both accept the end tag or both refuse it
  | endTag name =>
      obtain ⟨hflush, hpending⟩ := h.flush
      dsimp only
      rw [h.opened]
      cases b.opened with
      | nil => exact h.fail start _
      | cons inner outer =>
          dsimp only [List.map_cons]
          show Abreast junk source _ _ (if inner.tag.name = String.ofList name then _ else _)
          split
          · exact .ok (hflush.closeElement hpending stop)
          · exact h.fail start _

/-- All pieces keep the builders beside each other, or stop both at
corresponding places. -/
theorem takeAll (h : Beside junk source b b') (hrow : InRow lo hi pieces) :
    Abreast junk source (Beside junk source) (b.takeAll pieces)
      (b'.takeAll (pieces.map (·.behind (Text.byteSize junk)))) := by
  induction pieces generalizing b b' lo with
  | nil => exact .ok h
  | cons p pieces ih =>
      obtain ⟨-, -, htag, hmore⟩ := hrow
      unfold Builder.takeAll at ih ⊢
      rw [List.map_cons, List.foldlM_cons, List.foldlM_cons]
      exact (h.take htag).bind fun after after' hafter => ih hafter hmore

/-- At the end both have a root, or both fail. -/
theorem finish (h : Beside junk source b b') :
    Abreast junk source (fun root root' => root' = root.moved (Position.behind junk source))
      (b.finish source) (b'.finish (junk ++ source)) := by
  have hunfinished : Abreast junk source
      (fun root root' => root' = Content.moved (Position.behind junk source) root)
      (.error (.unfinished (b.locate (Text.byteSize source)).1))
      (.error (.unfinished (b'.locate (Text.byteSize (junk ++ source))).1)) := by
    obtain ⟨hplace, hmoved, -⟩ := h.locate (Text.byteSize source)
    rw [Text.byteSize_append, hmoved]
    exact .error (e := .unfinished _) hplace
  unfold Builder.finish
  rw [h.opened, h.root]
  cases b.opened with
  | nil =>
      cases b.root with
      | none => exact hunfinished
      | some root => exact .ok rfl
  | cons inner outer => exact hunfinished

end Beside

-- ================================================================ two texts

/-- The tree that is built of the pieces of a text. -/
def build (source : List Char) (skip : Nat) (input : List Char) : Except ParseError Content :=
  (Builder.start source).takeAll (scan skip input).pieces >>= fun b =>
    match (scan skip input).fault with
    | some (fault, offset) => b.fail offset (.markup fault)
    | none => b.finish source

/-- Pieces are taken of a text that begins with a bracket, blanks aside. -/
theorem treeFrom_eq_build {skip : Nat} {input : List Char}
    (h : ∀ c ∈ (Text.trimStart input).head?, c = '<') :
    treeFrom source skip input = build source skip input := by
  unfold treeFrom
  split
  · rfl
  · next c visible hvisible =>
      rw [hvisible] at h
      rw [if_neg (by rw [h c rfl]; decide)]
      rfl

/-- Any other text has something in front of its first element. -/
theorem treeFrom_eq_prolog {skip : Nat} {input visible : List Char} {c : Char}
    (h : Text.trimStart input = c :: visible) (hc : c ≠ '<') :
    treeFrom source skip input
      = .error (.prolog ((Builder.start source).locate
          (skip + (Text.byteSize input - Text.byteSize (c :: visible)))).1) := by
  unfold treeFrom
  rw [h]
  dsimp only
  rw [if_pos (bne_iff_ne.mpr hc)]
  rfl

/-- Its pieces build what they would with something before the text. -/
theorem abreast_build (junk source : List Char) :
    Abreast junk source (fun root root' => root' = root.moved (Position.behind junk source))
      (build source 0 source) (build (junk ++ source) (Text.byteSize junk) source) := by
  have hscan := scan_add (Text.byteSize junk) 0 source
  rw [Nat.add_zero] at hscan
  unfold build
  rw [hscan]
  refine ((Beside.start junk source).takeAll (inRow_scan 0 source)).bind fun b b' h => ?_
  dsimp only
  cases (scan 0 source).fault with
  | some fault => exact h.fail _ _
  | none => exact h.finish

/-- A text is read as it would be with something before it. -/
theorem abreast_treeFrom (junk source : List Char) :
    Abreast junk source (fun root root' => root' = root.moved (Position.behind junk source))
      (treeFrom source 0 source) (treeFrom (junk ++ source) (Text.byteSize junk) source) := by
  by_cases hbracket : ∀ c ∈ (Text.trimStart source).head?, c = '<'
  · rw [treeFrom_eq_build hbracket, treeFrom_eq_build hbracket]
    exact abreast_build junk source
  · cases hvisible : Text.trimStart source with
    | nil =>
        rw [hvisible] at hbracket
        exact absurd (fun c hc => by cases hc) hbracket
    | cons c visible =>
        have hc : c ≠ '<' := by
          rintro rfl
          rw [hvisible] at hbracket
          exact hbracket fun c hc => (Option.some.inj hc).symm
        obtain ⟨hplace, hmoved, -⟩ := (Beside.start junk source).locate
          (Text.byteSize source - Text.byteSize (c :: visible))
        rw [treeFrom_eq_prolog hvisible hc, treeFrom_eq_prolog hvisible hc, Nat.zero_add, hmoved]
        exact .error (e := .prolog _) hplace

/-- A fault in a text is at one of its bytes, or at its end. -/
theorem exists_position_of_tree {e : ParseError} (h : tree source = .error e) :
    ∃ n, e.position = Position.ofOffset source n := by
  have hfirst : ∀ fault, treeFrom source 0 source = .error fault →
      ∃ n, fault.position = Position.ofOffset source n := fun fault hfault => by
    have hplaced := abreast_treeFrom [] source
    rw [hfault] at hplaced
    exact hplaced.position_left
  unfold tree at h
  split at h
  · -- the text was read twice, with and without what is before the bracket
    next position hprolog =>
      have hsplit := List.takeWhile_append_dropWhile (p := (· != '<')) (l := source)
      split at h
      · cases h
        exact hfirst _ hprolog
      · dsimp only at h
        split at h
        · cases h
          exact hfirst _ hprolog
        · have hagain :=
            abreast_treeFrom (source.takeWhile (· != '<')) (source.dropWhile (· != '<'))
          rw [hsplit, h] at hagain
          have hplaced := hagain.position_right
          rwa [hsplit] at hplaced
  · exact hfirst e h

/-- A parse error points at a byte of the text. -/
theorem Document.exists_position_of_parse {text : String} {e : ParseError}
    (h : Document.parse text = .error e) :
    ∃ n, e.position = Position.ofOffset text.toList n :=
  exists_position_of_tree (parse_eq_error_iff.mp h)

/-- What is not blank before the first bracket is in the way of the first
reading. -/
theorem treeFrom_append_of_not_blank (source : List Char) (hjunk : junk.all (· != '<'))
    (hblank : ¬ junk.all Text.isBlank) :
    ∃ position, treeFrom (junk ++ source) 0 (junk ++ source) = .error (.prolog position) := by
  obtain ⟨c, visible, hvisible⟩ : ∃ c visible, Text.trimStart junk = c :: visible := by
    refine List.exists_cons_of_ne_nil fun hnil => hblank ?_
    exact List.all_eq_true.mpr (List.dropWhile_eq_nil_iff.mp hnil)
  have hc : c ≠ '<' := by
    have hmem : c ∈ junk := (List.dropWhile_sublist Text.isBlank).subset
      (show c ∈ Text.trimStart junk by rw [hvisible]; exact List.mem_cons_self)
    exact bne_iff_ne.mp (List.all_eq_true.mp hjunk c hmem)
  have hwhole : Text.trimStart (junk ++ source) = c :: (visible ++ source) := by
    unfold Text.trimStart at hvisible ⊢
    rw [List.dropWhile_append, hvisible]
    rfl
  exact ⟨_, treeFrom_eq_prolog hwhole hc⟩

section Front

variable (hsource : source.head? = some '<')

include hsource

/-- Junk without `<` is what stands before the first `<` of the whole text. -/
theorem takeWhile_dropWhile_append (hjunk : junk.all (· != '<')) :
    (junk ++ source).takeWhile (· != '<') = junk
      ∧ (junk ++ source).dropWhile (· != '<') = source := by
  obtain ⟨more, rfl⟩ := List.head?_eq_some_iff.mp hsource
  have hall := List.all_eq_true.mp hjunk
  rw [List.takeWhile_append_of_pos hall, List.dropWhile_append_of_pos hall]
  exact ⟨List.append_nil junk, rfl⟩

/-- Blanks before the first bracket are passed over. -/
theorem build_blank (hblank : junk.all Text.isBlank) :
    build (junk ++ source) 0 (junk ++ source)
      = build (junk ++ source) (Text.byteSize junk) source := by
  have hruns := runs_blank (b := .start (junk ++ source)) rfl hblank (Or.inr hsource) 0
  rw [Nat.zero_add] at hruns
  obtain ⟨hpieces, hfault⟩ := hruns.scan_eq
  unfold build
  rw [hpieces, hfault]

/-- A text with something in front is read again from its first bracket. -/
theorem tree_eq_retry (hjunk : junk.all (· != '<')) {position : Position}
    (h : treeFrom (junk ++ source) 0 (junk ++ source) = .error (.prolog position)) :
    tree (junk ++ source)
      = if junk.isEmpty then .error (.prolog position)
        else treeFrom (junk ++ source) (Text.byteSize junk) source := by
  obtain ⟨hfront, hback⟩ := takeWhile_dropWhile_append hsource hjunk
  obtain ⟨more, rfl⟩ := List.head?_eq_some_iff.mp hsource
  unfold tree
  simp only [h, hfront, hback]

/-- Blanks in front are read over. -/
theorem treeFrom_append_blank (hblank : junk.all Text.isBlank) :
    treeFrom (junk ++ source) 0 (junk ++ source)
      = treeFrom (junk ++ source) (Text.byteSize junk) source := by
  have hvisible : Text.trimStart (junk ++ source) = Text.trimStart source :=
    List.dropWhile_append_of_pos (List.all_eq_true.mp hblank)
  have hbracket : ∀ c ∈ (Text.trimStart source).head?, c = '<' := by
    obtain ⟨more, rfl⟩ := List.head?_eq_some_iff.mp hsource
    exact fun c hc => (Option.some.inj hc).symm
  rw [treeFrom_eq_build (hvisible ▸ hbracket), treeFrom_eq_build hbracket,
    build_blank hsource hblank]

/-- Either way the tree is that of what begins with the bracket. -/
theorem tree_append (hjunk : junk.all (· != '<')) :
    tree (junk ++ source) = treeFrom (junk ++ source) (Text.byteSize junk) source := by
  -- blank junk is read as white space; any other junk is a fault, and reading begins again
  -- behind it
  by_cases hblank : junk.all Text.isBlank
  · rw [← treeFrom_append_blank hsource hblank]
    cases houtcome : treeFrom (junk ++ source) 0 (junk ++ source) with
    | error e =>
        cases e with
        | prolog position =>
            rw [tree_eq_retry hsource hjunk houtcome, ← treeFrom_append_blank hsource hblank,
              houtcome, ite_self]
        | malformed position what =>
            unfold tree
            rw [houtcome]
        | unfinished position =>
            unfold tree
            rw [houtcome]
    | ok root =>
        unfold tree
        rw [houtcome]
  · obtain ⟨position, houtcome⟩ := treeFrom_append_of_not_blank source hjunk hblank
    have hne : junk.isEmpty = false := by
      cases junk with
      | nil => exact absurd rfl hblank
      | cons _ _ => rfl
    rw [tree_eq_retry hsource hjunk houtcome, hne]
    rfl

/-- The tree of a text is read from its beginning. -/
theorem tree_eq_treeFrom : tree source = treeFrom source 0 source :=
  @tree_append [] source hsource rfl

end Front

-- ================================================================ documents

/-- An attribute is found in the same stretch of text. -/
theorem attributeRange?_append {span : Span} (name : String)
    (h : (Cursor.startingAt source span.start).Sees source)
    (h' : (Cursor.startingAt (junk ++ source) (span.start.behind junk source)).Sees
      (junk ++ source)) :
    attributeRange? (junk ++ source) (span.moved (Position.behind junk source)) name
      = (attributeRange? source span name).map (·.moved (Position.behind junk source)) := by
  have hcut : Span.cut (span.moved (Position.behind junk source)) (junk ++ source)
      = Span.cut span source := by
    show takeBytes (Text.byteSize junk + span.stop.offset
        - (Text.byteSize junk + span.start.offset)) (dropBytes (Text.byteSize junk
        + span.start.offset) (junk ++ source)) = _
    rw [dropBytes_add, Nat.add_sub_add_left]
    rfl
  rw [attributeRange?_eq h, attributeRange?_eq h', hcut, Option.map_map]
  cases hfound : findAssignment? name.toList (Span.cut span source) with
  | none => rfl
  | some a =>
      obtain ⟨hfrom, hafter⟩ := byteSize_of_findAssignment? hfound
      have hstop : (span.moved (Position.behind junk source)).stop.offset
          = Text.byteSize junk + span.stop.offset := rfl
      simp only [Option.map_some, Function.comp_apply, hstop, Nat.add_sub_assoc hfrom,
        Nat.add_sub_assoc hafter, ← Position.behind_ofOffset]
      rfl

/-- The range found for an attribute moves with the document. -/
theorem Document.attributeRange?_behind {d : Document} {text : String}
    (h : Document.parse text = .ok d) (junk : String) {e : Element} (he : e ∈ d.elements)
    (name : String) :
    (d.behind junk).attributeRange? (e.moved (Position.behind junk.toList text.toList)) name
      = (d.attributeRange? e name).map (·.moved (Position.behind junk.toList text.toList)) := by
  have htext : d.source = text := by
    obtain ⟨root, -, rfl⟩ := parse_eq_ok_iff.mp h
    rfl
  obtain ⟨front, back, hsource, hstart⟩ := exists_bracket h he
  have hsees' : (Cursor.startingAt (junk.toList ++ text.toList)
      (e.span.start.behind junk.toList text.toList)).Sees (junk.toList ++ text.toList) := by
    rw [hstart, Position.behind_ofOffset, hsource, ← List.append_assoc, ← Text.byteSize_append]
    exact Cursor.sees_startingAt fun hhead => by cases hhead
  have hrange := attributeRange?_append name (sees_startingAt h he) hsees'
  unfold Document.attributeRange?
  rw [htext, ← hrange, ← String.toList_append, ← htext]
  rfl

/-- A text is read as it is with something before its first bracket: the
document is the same, with its elements and their attributes, and so is the
fault where there is none; only the places are so many bytes behind. -/
theorem Document.parse_append {junk source : String} (hjunk : '<' ∉ junk.toList)
    (hsource : source.toList.head? = some '<') :
    (∀ d, parse source = .ok d →
      parse (junk ++ source) = .ok (d.behind junk)
        ∧ (d.behind junk).elements
          = d.elements.map (·.moved (Position.behind junk.toList source.toList))
        ∧ ∀ e ∈ d.elements, ∀ name,
            (d.behind junk).attributeRange?
                (e.moved (Position.behind junk.toList source.toList)) name
              = (d.attributeRange? e name).map
                  (·.moved (Position.behind junk.toList source.toList)))
    ∧ ∀ e, parse source = .error e →
        parse (junk ++ source)
          = .error (e.moved (Position.behind junk.toList source.toList)) := by
  -- the tree of the whole text is the tree of the source behind the junk
  have hplain : junk.toList.all (· != '<') :=
    List.all_eq_true.mpr fun c hc => bne_iff_ne.mpr fun heq => hjunk (heq ▸ hc)
  have htree := abreast_treeFrom junk.toList source.toList
  rw [← tree_append hsource hplain, ← tree_eq_treeFrom hsource, ← String.toList_append] at htree
  refine ⟨fun d hd => ⟨?_, ?_, fun e he name => attributeRange?_behind hd junk he name⟩,
    fun e he => ?_⟩
  · obtain ⟨root, hroot, rfl⟩ := parse_eq_ok_iff.mp hd
    rw [hroot] at htree
    generalize houtcome : Xml.tree (junk ++ source).toList = outcome at htree
    cases htree with
    | ok hmoved => exact parse_eq_ok_iff.mpr ⟨_, houtcome, hmoved ▸ behind_ofTree junk source root⟩
  · obtain ⟨root, -, rfl⟩ := parse_eq_ok_iff.mp hd
    exact elements_behind junk _
  · rw [parse_eq_error_iff.mp he] at htree
    generalize houtcome : Xml.tree (junk ++ source).toList = outcome at htree
    cases htree with
    | error hplace => exact parse_eq_error_iff.mpr houtcome

/-- A byte order mark and an empty line before a document, and before the
beginning of one. -/
theorem Document.parse_byteOrderMark :
    (∃ d, parse "<a b='1'/>" = .ok d
      ∧ parse ("\uFEFF\n" ++ "<a b='1'/>") = .ok (d.behind "\uFEFF\n")
      ∧ (d.behind "\uFEFF\n").elements.map (·.span) = [⟨⟨1, some 0, 4⟩, ⟨1, some 10, 14⟩⟩])
    ∧ parse ("\uFEFF\n" ++ "<a>") = .error (.unfinished ⟨1, some 3, 7⟩) := by
  have hread := @parse_append "\uFEFF\n" "<a b='1'/>" (by decide) (by decide)
  have hfault := @parse_append "\uFEFF\n" "<a>" (by decide) (by decide)
  refine ⟨?_, hfault.2 (.unfinished ⟨0, some 3, 3⟩) ?_⟩
  · have hspans : (parse "<a b='1'/>").toOption.map (fun d =>
        (d.behind "\uFEFF\n").elements.map (·.span))
          = some [⟨⟨1, some 0, 4⟩, ⟨1, some 10, 14⟩⟩] := by decide +kernel
    cases hparse : parse "<a b='1'/>" with
    | error e =>
        rw [hparse] at hspans
        cases hspans
    | ok d =>
        rw [hparse] at hspans
        exact ⟨d, rfl, (hread.1 d hparse).1, Option.some.inj hspans⟩
  · have hopen : (match parse "<a>" with
        | .ok _ => none
        | .error e => some e) = some (.unfinished ⟨0, some 3, 3⟩) := by decide +kernel
    cases hparse : parse "<a>" with
    | error e =>
        rw [hparse] at hopen
        exact congrArg Except.error (Option.some.inj hopen)
    | ok d =>
        rw [hparse] at hopen
        cases hopen

end Xml

end ResourceLint
