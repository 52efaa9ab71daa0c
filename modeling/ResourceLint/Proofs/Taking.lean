/-
What the builder of a tree makes of one piece.

There are six things that can happen when a piece is taken, and `Takes` lists
them, each with its condition and with the builder it leads to; nothing else
leads anywhere (`takes_of_take`).  What holds of every tree is an induction
over the pieces with these six cases.

The builder's cursor is moved by almost everything and means nothing: it
answers every request as if it were the first (`Cursor.Sees`).  So each case
leaves it open which cursor there is, and gives positions as those of the
text.
-/
import ResourceLint.Proofs.Cursor
import ResourceLint.Proofs.Growing

namespace ResourceLint.Xml

open Position (Cursor)

/-- The text of a piece of character data or of a literal section. -/
def Lexeme.said? : Lexeme → Option (List Char)
  | .text raw => (expand raw).toOption
  | .literal content => some content
  | .tag _ | .endTag _ | .aside => none

theorem Lexeme.said?_text {raw content : List Char} (h : expand raw = .ok content) :
    (Lexeme.text raw).said? = some content := by
  rw [Lexeme.said?, h]
  rfl

/-- The node that an element is. -/
def Content.node (content : Content) : Node :=
  .element content.tag content.span content.children

namespace Open

/-- An open element with another node at its end. -/
def add (o : Open) (node : Node) : Open := { o with children := node :: o.children }

/-- The element that an open one becomes when it is closed. -/
def shut (o : Open) (stop : Position) : Content := ⟨o.tag, ⟨o.start, stop⟩, o.children.reverse⟩

/-- An element that has just been opened inside of others. -/
def ofTag (source : List Char) (outer : List Open) (content : List Char)
    (attributes : List (String × String)) (offset : Nat) : Open :=
  { tag := Tag.ofWritten (Tag.declarations attributes :: outer.map (·.declared))
      (String.ofList (Tag.nameOf content)) attributes
    declared := Tag.declarations attributes
    start := Position.ofOffset source offset
    children := [] }

end Open

/-- The node that a run of text becomes. -/
def Pending.node (source : List Char) (run : Pending) : Node :=
  .text (String.ofList run.content)
    ⟨Position.ofOffset source run.start, Position.ofOffset source run.stop⟩

/-- The open elements after a node was added to the innermost. -/
def grown (node : Node) : List Open → List Open
  | [] => []
  | inner :: outer => inner.add node :: outer

/-- Adding a node opens nothing. -/
theorem grown_eq_nil_iff {node : Node} {opened : List Open} :
    grown node opened = [] ↔ opened = [] := by
  cases opened <;> simp [grown]

namespace Builder

variable {source content : List Char} {b after : Builder} {piece : Placed}
  {attributes : List (String × String)}

/-- The open elements after the run of text was made a node. -/
def settled (source : List Char) (b : Builder) : List Open :=
  match b.pending with
  | none => b.opened
  | some run => grown (run.node source) b.opened

theorem settled_eq_nil_iff : b.settled source = [] ↔ b.opened = [] := by
  unfold settled
  cases b.pending with
  | none => rfl
  | some run => exact grown_eq_nil_iff

/-- Text that becomes a node does not change which element is the innermost. -/
theorem exists_of_settled_eq_cons {inner : Open} {outer : List Open}
    (h : b.settled source = inner :: outer) :
    ∃ o more, b.opened = o :: more ∧ o.tag = inner.tag := by
  unfold settled at h
  cases hpending : b.pending with
  | none =>
      rw [hpending] at h
      exact ⟨inner, outer, h, rfl⟩
  | some run =>
      rw [hpending] at h
      cases hopened : b.opened with
      | nil =>
          rw [hopened] at h
          cases h
      | cons o more =>
          rw [hopened] at h
          cases h
          exact ⟨o, _, rfl, rfl⟩

/-- The run of text, with more of it. -/
def running (b : Builder) (content : List Char) (start stop : Nat) : Pending :=
  match b.pending with
  | some run => { run with content := run.content ++ content, stop }
  | none => { content, start, stop }

/-- The builder after an element was closed that stands in these. -/
def closed (b : Builder) (content : Content) (outer : List Open) (cursor : Cursor) : Builder :=
  { b with
    cursor, pending := none
    opened := grown content.node outer
    root := if outer = [] then some content else b.root }

/-- What the builder is like then, it knows from its root only. -/
theorem closed_congr {b b' : Builder} (h : b.root = b'.root) {content : Content}
    {outer : List Open} {cursor : Cursor} :
    b.closed content outer cursor = b'.closed content outer cursor := by
  unfold closed
  rw [h]

-- ============================================================== the parts

/-- A request moves the cursor and nothing else. -/
theorem locate_eq (hb : Cursor.Sees source b.cursor) (offset : Nat) :
    (b.locate offset).1 = Position.ofOffset source offset
      ∧ ∃ cursor, Cursor.Sees source cursor ∧ (b.locate offset).2 = { b with cursor } := by
  obtain ⟨hposition, hsees⟩ := hb.position offset
  exact ⟨hposition, _, hsees, rfl⟩

/-- The run of text is made a node of the innermost element. -/
theorem flush_eq (hb : Cursor.Sees source b.cursor) :
    ∃ cursor, Cursor.Sees source cursor
      ∧ b.flush = { b with cursor, opened := b.settled source, pending := none } := by
  obtain ⟨cursor, opened, root, _ | run⟩ := b
  · exact ⟨cursor, hb, rfl⟩
  · obtain ⟨hstart, hsees⟩ := hb.position run.start
    obtain ⟨hstop, hlast⟩ := hsees.position run.stop
    refine ⟨_, hlast, ?_⟩
    show _ = Builder.mk _ (grown (.text _ ⟨Position.ofOffset source run.start,
      Position.ofOffset source run.stop⟩) opened) root none
    rw [← hstart, ← hstop]
    cases opened <;> rfl

/-- A tag that can be read opens an element, where one may stand. -/
theorem openElement_eq_ok (hb : Cursor.Sees source b.cursor)
    (hplace : b.opened ≠ [] ∨ b.root = none) (hread : Tag.readAttributes content = .ok attributes)
    (offset : Nat) :
    ∃ cursor, Cursor.Sees source cursor ∧ b.openElement content offset
      = .ok { b with
          cursor, opened := Open.ofTag source b.opened content attributes offset :: b.opened } := by
  obtain ⟨hstart, cursor, hcursor, hafter⟩ := locate_eq hb offset
  refine ⟨cursor, hcursor, ?_⟩
  have hfirst : (b.opened.isEmpty && b.root.isSome) = false := by
    rcases hplace with hopened | hroot
    · rw [List.isEmpty_eq_false_iff.mpr hopened, Bool.false_and]
    · rw [hroot, Option.isSome_none, Bool.and_false]
  unfold openElement Open.ofTag
  rw [hfirst, hread, ← hstart]
  simp only [Bool.false_eq_true, if_false, hafter]
  rfl

/-- Where an element was opened, one may stand, and its tag could be read. -/
theorem of_openElement_eq_ok {offset : Nat} (h : b.openElement content offset = .ok after) :
    (b.opened ≠ [] ∨ b.root = none)
      ∧ ∃ attributes, Tag.readAttributes content = .ok attributes := by
  unfold openElement at h
  by_cases hfirst : b.opened.isEmpty && b.root.isSome
  · rw [if_pos hfirst] at h
    cases h
  · refine ⟨?_, ?_⟩
    · by_cases hopened : b.opened = []
      · cases hroot : b.root with
        | none => exact Or.inr rfl
        | some root =>
            rw [hopened, hroot] at hfirst
            exact absurd rfl hfirst
      · exact Or.inl hopened
    · cases hread : Tag.readAttributes content with
      | ok attributes => exact ⟨attributes, rfl⟩
      | error fault =>
          rw [if_neg hfirst, hread] at h
          cases h

/-- The innermost element is closed. -/
theorem closeElement_eq (hb : Cursor.Sees source b.cursor) (hpending : b.pending = none)
    {inner : Open} {outer : List Open} (hopened : b.opened = inner :: outer) (stop : Nat) :
    ∃ cursor, Cursor.Sees source cursor ∧ b.closeElement stop
      = b.closed (inner.shut (Position.ofOffset source stop)) outer cursor := by
  obtain ⟨hstop, cursor, hcursor, hafter⟩ :=
    @locate_eq source { b with opened := outer } hb stop
  refine ⟨cursor, hcursor, ?_⟩
  unfold closeElement closed
  rw [hopened]
  simp only [hstop, hafter, ← hpending]
  cases outer <;> rfl

-- ============================================================== the pieces

/-- What is passed over changes nothing. -/
theorem take_aside (h : piece.lexeme = .aside) : b.take piece = .ok b := by
  unfold take
  rw [h]

/-- Text is added by what it says. -/
theorem take_of_said (h : piece.lexeme.said? = some content) :
    b.take piece = b.addText content piece.start piece.stop := by
  unfold take
  cases hpiece : piece.lexeme with
  | text raw =>
      rw [hpiece] at h
      cases hexpand : expand raw with
      | error fault =>
          rw [Lexeme.said?, hexpand] at h
          cases h
      | ok said =>
          rw [Lexeme.said?, hexpand] at h
          cases h
          simp only [hexpand]
  | literal said =>
      rw [hpiece] at h
      cases h
      rfl
  | tag _ => rw [hpiece] at h; cases h
  | endTag _ => rw [hpiece] at h; cases h
  | aside => rw [hpiece] at h; cases h

/-- Inside of an element, text waits for the next tag. -/
theorem take_text (h : piece.lexeme.said? = some content) (hopened : b.opened ≠ []) :
    b.take piece = .ok { b with pending := some (b.running content piece.start piece.stop) } := by
  rw [take_of_said h]
  unfold addText running
  rw [List.isEmpty_eq_false_iff.mpr hopened]
  rfl

/-- Outside of all elements, blank text is passed over. -/
theorem take_blank_of_said (h : piece.lexeme.said? = some content) (hopened : b.opened = [])
    (hblank : Text.trimStart content = []) : b.take piece = .ok b := by
  rw [take_of_said h]
  unfold addText
  rw [hopened, hblank]
  rfl

variable (hb : Cursor.Sees source b.cursor)

include hb

/-- The run of text ends where an element is opened. -/
theorem flush_openElement (hplace : b.opened ≠ [] ∨ b.root = none)
    (hread : Tag.readAttributes content = .ok attributes) (offset : Nat) :
    ∃ cursor, Cursor.Sees source cursor ∧ b.flush.openElement content offset = .ok { b with
      cursor, pending := none
      opened := Open.ofTag source (b.settled source) content attributes offset
        :: b.settled source } := by
  obtain ⟨cursor, hcursor, hflush⟩ := flush_eq hb
  rw [hflush]
  exact @openElement_eq_ok source content
    { b with cursor, opened := b.settled source, pending := none } attributes hcursor
    (hplace.imp_left (mt settled_eq_nil_iff.mp)) hread offset

/-- Where the run of text ended and an element was opened, one may stand. -/
theorem of_flush_openElement {offset : Nat} (h : b.flush.openElement content offset = .ok after) :
    (b.opened ≠ [] ∨ b.root = none)
      ∧ ∃ attributes, Tag.readAttributes content = .ok attributes := by
  obtain ⟨cursor, -, hflush⟩ := flush_eq hb
  rw [hflush] at h
  obtain ⟨hplace, hread⟩ := of_openElement_eq_ok h
  exact ⟨hplace.imp_left (mt settled_eq_nil_iff.mpr), hread⟩

/-- A start tag opens an element. -/
theorem take_tag (h : piece.lexeme = .tag content) (hslash : content.getLast? ≠ some '/')
    (hplace : b.opened ≠ [] ∨ b.root = none)
    (hread : Tag.readAttributes content = .ok attributes) :
    ∃ cursor, Cursor.Sees source cursor ∧ b.take piece = .ok { b with
      cursor, pending := none
      opened := Open.ofTag source (b.settled source) content attributes
        (tagStart content piece.stop) :: b.settled source } := by
  obtain ⟨cursor, hcursor, hopen⟩ := flush_openElement hb hplace hread (tagStart content piece.stop)
  refine ⟨cursor, hcursor, ?_⟩
  unfold take
  rw [h]
  simp only [if_neg hslash]
  exact hopen

/-- An empty tag adds an element that holds nothing. -/
theorem take_emptyTag (h : piece.lexeme = .tag (content ++ ['/']))
    (hplace : b.opened ≠ [] ∨ b.root = none)
    (hread : Tag.readAttributes content = .ok attributes) :
    ∃ cursor, Cursor.Sees source cursor ∧ b.take piece = .ok (b.closed
      ((Open.ofTag source (b.settled source) content attributes
        (tagStart (content ++ ['/']) piece.stop)).shut (Position.ofOffset source piece.stop))
      (b.settled source) cursor) := by
  obtain ⟨between, hbetween, hopen⟩ :=
    flush_openElement hb hplace hread (tagStart (content ++ ['/']) piece.stop)
  obtain ⟨last, hlast, hclose⟩ := @closeElement_eq source { b with
      cursor := between, pending := none
      opened := Open.ofTag source (b.settled source) content attributes
        (tagStart (content ++ ['/']) piece.stop) :: b.settled source }
    hbetween rfl _ _ rfl piece.stop
  refine ⟨last, hlast, ?_⟩
  unfold take
  rw [h]
  simp only [List.getLast?_concat, if_true, List.dropLast_concat]
  rw [hopen]
  exact congrArg Except.ok hclose

/-- An end tag closes the element that it names. -/
theorem take_endTag {name : List Char} (h : piece.lexeme = .endTag name) {inner : Open}
    {outer : List Open} (hopened : b.settled source = inner :: outer)
    (hname : inner.tag.name = String.ofList name) :
    ∃ cursor, Cursor.Sees source cursor ∧ b.take piece
      = .ok (b.closed (inner.shut (Position.ofOffset source piece.stop)) outer cursor) := by
  obtain ⟨cursor, hcursor, hflush⟩ := flush_eq hb
  obtain ⟨last, hlast, hclose⟩ := @closeElement_eq source
    { b with cursor, opened := b.settled source, pending := none } hcursor rfl inner outer hopened
      piece.stop
  refine ⟨last, hlast, ?_⟩
  obtain ⟨o, more, ho, htag⟩ := exists_of_settled_eq_cons hopened
  unfold take
  rw [h]
  simp only [ho, htag, hname, if_true]
  rw [hflush]
  exact congrArg Except.ok hclose

end Builder

-- ================================================================ inversion

/-- What taking a piece leads to. -/
inductive Takes (source : List Char) (b : Builder) (piece : Placed) : Builder → Prop
  /-- comments and the like are passed over -/
  | aside (h : piece.lexeme = .aside) : Takes source b piece b
  /-- so is blank text outside of all elements -/
  | blank {content : List Char} (h : piece.lexeme.said? = some content) (hopened : b.opened = [])
      (hblank : Text.trimStart content = []) : Takes source b piece b
  /-- text inside of an element waits -/
  | text {content : List Char} (h : piece.lexeme.said? = some content) (hopened : b.opened ≠ []) :
      Takes source b piece
        { b with pending := some (b.running content piece.start piece.stop) }
  /-- a start tag opens an element -/
  | tag {content : List Char} {attributes : List (String × String)} {cursor : Cursor}
      (h : piece.lexeme = .tag content) (hslash : content.getLast? ≠ some '/')
      (hplace : b.opened ≠ [] ∨ b.root = none)
      (hread : Tag.readAttributes content = .ok attributes) (hcursor : Cursor.Sees source cursor) :
      Takes source b piece { b with
        cursor, pending := none
        opened := Open.ofTag source (b.settled source) content attributes
          (tagStart content piece.stop) :: b.settled source }
  /-- an empty tag adds an element -/
  | emptyTag {content : List Char} {attributes : List (String × String)} {cursor : Cursor}
      (h : piece.lexeme = .tag (content ++ ['/'])) (hplace : b.opened ≠ [] ∨ b.root = none)
      (hread : Tag.readAttributes content = .ok attributes) (hcursor : Cursor.Sees source cursor) :
      Takes source b piece (b.closed
        ((Open.ofTag source (b.settled source) content attributes
          (tagStart (content ++ ['/']) piece.stop)).shut
            (Position.ofOffset source piece.stop))
        (b.settled source) cursor)
  /-- an end tag closes the innermost element -/
  | endTag {name : List Char} {inner : Open} {outer : List Open} {cursor : Cursor}
      (h : piece.lexeme = .endTag name) (hopened : b.settled source = inner :: outer)
      (hname : inner.tag.name = String.ofList name) (hcursor : Cursor.Sees source cursor) :
      Takes source b piece
        (b.closed (inner.shut (Position.ofOffset source piece.stop)) outer cursor)

variable {source content : List Char} {b after : Builder} {piece : Placed} {pieces : List Placed}

open Builder

/-- Text was taken inside of an element, or it was blank. -/
theorem takes_of_take_said (hsaid : piece.lexeme.said? = some content)
    (h : b.take piece = .ok after) : Takes source b piece after := by
  by_cases hopened : b.opened = []
  · cases htrim : Text.trimStart content with
    | nil =>
        rw [take_blank_of_said hsaid hopened htrim] at h
        cases h
        exact .blank hsaid hopened htrim
    | cons c visible =>
        rw [take_of_said hsaid] at h
        unfold addText at h
        rw [hopened, htrim] at h
        cases hroot : b.root <;> rw [hroot] at h <;> cases h
  · rw [take_text hsaid hopened] at h
    cases h
    exact .text hsaid hopened

/-- A start tag was taken where an element may stand. -/
theorem takes_of_take_startTag (hb : Cursor.Sees source b.cursor)
    (hpiece : piece.lexeme = .tag content) (hslash : content.getLast? ≠ some '/')
    (h : b.take piece = .ok after) : Takes source b piece after := by
  obtain ⟨hplace, attributes, hread⟩ :
      (b.opened ≠ [] ∨ b.root = none)
        ∧ ∃ attributes, Tag.readAttributes content = .ok attributes := by
    unfold take at h
    rw [hpiece] at h
    simp only [if_neg hslash] at h
    exact of_flush_openElement hb h
  obtain ⟨cursor, hcursor, htake⟩ := take_tag hb hpiece hslash hplace hread
  rw [htake] at h
  cases h
  exact .tag hpiece hslash hplace hread hcursor

/-- So was an empty tag. -/
theorem takes_of_take_emptyTag (hb : Cursor.Sees source b.cursor)
    (hpiece : piece.lexeme = .tag (content ++ ['/'])) (h : b.take piece = .ok after) :
    Takes source b piece after := by
  obtain ⟨hplace, attributes, hread⟩ :
      (b.opened ≠ [] ∨ b.root = none)
        ∧ ∃ attributes, Tag.readAttributes content = .ok attributes := by
    unfold take at h
    rw [hpiece] at h
    simp only [List.getLast?_concat, if_true, List.dropLast_concat] at h
    cases hopen : b.flush.openElement content (tagStart (content ++ ['/']) piece.stop) with
    | error fault =>
        rw [hopen] at h
        cases h
    | ok between => exact of_flush_openElement hb hopen
  obtain ⟨cursor, hcursor, htake⟩ := take_emptyTag hb hpiece hplace hread
  rw [htake] at h
  cases h
  exact .emptyTag hpiece hplace hread hcursor

/-- An end tag was taken inside of an element that it names. -/
theorem takes_of_take_endTag {name : List Char} (hb : Cursor.Sees source b.cursor)
    (hpiece : piece.lexeme = .endTag name) (h : b.take piece = .ok after) :
    Takes source b piece after := by
  cases hopened : b.settled source with
  | nil =>
      unfold take at h
      rw [hpiece] at h
      simp only [settled_eq_nil_iff.mp hopened] at h
      cases h
  | cons inner outer =>
      obtain ⟨o, more, ho, htag⟩ := exists_of_settled_eq_cons hopened
      by_cases hname : inner.tag.name = String.ofList name
      · obtain ⟨cursor, hcursor, htake⟩ := take_endTag hb hpiece hopened hname
        rw [htake] at h
        cases h
        exact .endTag hpiece hopened hname hcursor
      · unfold take at h
        rw [hpiece] at h
        simp only [ho, htag, if_neg hname] at h
        cases h

/-- Nothing else leads anywhere. -/
theorem takes_of_take (hb : Cursor.Sees source b.cursor) (h : b.take piece = .ok after) :
    Takes source b piece after := by
  cases hpiece : piece.lexeme with
  | text raw =>
      cases hexpand : expand raw with
      | ok content =>
          have hsaid : piece.lexeme.said? = some content := by
            rw [hpiece, Lexeme.said?_text hexpand]
          exact takes_of_take_said hsaid h
      | error fault =>
          unfold take at h
          rw [hpiece] at h
          simp only [hexpand] at h
          cases h
  | literal content =>
      have hsaid : piece.lexeme.said? = some content := by
        rw [hpiece]
        rfl
      exact takes_of_take_said hsaid h
  | tag content =>
      by_cases hslash : content.getLast? = some '/'
      · -- a slash before the bracket closes the element at once
        obtain ⟨front, rfl⟩ := List.getLast?_eq_some_iff.mp hslash
        exact takes_of_take_emptyTag hb hpiece h
      · exact takes_of_take_startTag hb hpiece hslash h
  | endTag name => exact takes_of_take_endTag hb hpiece h
  | aside =>
      rw [take_aside hpiece] at h
      cases h
      exact .aside hpiece

-- ===================================================================== runs

/-- Taking a piece keeps the cursor on the text. -/
theorem Takes.sees (h : Takes source b piece after) (hb : Cursor.Sees source b.cursor) :
    Cursor.Sees source after.cursor := by
  cases h with
  | aside | blank | text => exact hb
  | tag h hslash hplace hread hcursor => exact hcursor
  | emptyTag h hplace hread hcursor => exact hcursor
  | endTag h hopened hname hcursor => exact hcursor

/-- What taking pieces in order leads to. -/
inductive TakesAll (source : List Char) : Builder → List Placed → Builder → Prop
  | nil (b : Builder) : TakesAll source b [] b
  | cons {b between after : Builder} {piece : Placed} {pieces : List Placed}
      (hstep : Takes source b piece between) (hrest : TakesAll source between pieces after) :
      TakesAll source b (piece :: pieces) after

/-- Pieces that are taken at once are taken one by one. -/
theorem takesAll_of_takeAll (hb : Cursor.Sees source b.cursor)
    (h : b.takeAll pieces = .ok after) : TakesAll source b pieces after := by
  induction pieces generalizing b with
  | nil =>
      cases h
      exact .nil _
  | cons piece pieces ih =>
      unfold Builder.takeAll at h
      rw [List.foldlM_cons] at h
      cases hstep : b.take piece with
      | error fault =>
          rw [hstep] at h
          cases h
      | ok between =>
          rw [hstep] at h
          have htakes := takes_of_take hb hstep
          exact .cons htakes (ih (htakes.sees hb) h)

/-- A text has a tree where its pieces were all taken. -/
theorem finish_of_treeFrom {skip : Nat} {input : List Char} {root : Content}
    (h : treeFrom source skip input = .ok root) :
    ∃ b, (Builder.start source).takeAll (scan skip input).pieces = .ok b
      ∧ (scan skip input).fault = none ∧ b.finish source = .ok root := by
  unfold treeFrom at h
  cases htake : (Builder.start source).takeAll (scan skip input).pieces with
  | error fault =>
      simp only [htake] at h
      repeat' split at h
      all_goals cases h
  | ok b =>
      refine ⟨b, rfl, ?_⟩
      -- a fault of the scan comes up last
      cases hfault : (scan skip input).fault with
      | some fault =>
          simp only [htake, hfault] at h
          repeat' split at h
          all_goals cases h
      | none =>
          refine ⟨rfl, ?_⟩
          simp only [htake, hfault] at h
          split at h
          · exact h
          · split at h
            · cases h
            · exact h

/-- A tree that was built had all its pieces taken, without a fault, and ends
with nothing open. -/
theorem takesAll_of_treeFrom {skip : Nat} {input : List Char} {root : Content}
    (h : treeFrom source skip input = .ok root) :
    (scan skip input).fault = none
      ∧ ∃ b, TakesAll source (Builder.start source) (scan skip input).pieces b
        ∧ b.opened = [] ∧ b.root = some root := by
  obtain ⟨b, htake, hfault, hfinish⟩ := finish_of_treeFrom h
  refine ⟨hfault, b, takesAll_of_takeAll (Cursor.sees_start source) htake, ?_⟩
  unfold Builder.finish at hfinish
  split at hfinish
  · next hopened hroot =>
      cases hfinish
      exact ⟨hopened, hroot⟩
  · cases hfinish

/-- A tree of a text was built of the pieces that follow something without
brackets, and at the end every element was closed. -/
theorem takesAll_of_tree {root : Content} (h : tree source = .ok root) :
    ∃ junk input, source = junk ++ input ∧ junk.all (· != '<')
      ∧ (scan (Text.byteSize junk) input).fault = none
      ∧ ∃ b, TakesAll source (Builder.start source) (scan (Text.byteSize junk) input).pieces b
        ∧ b.opened = [] ∧ b.root = some root := by
  unfold tree at h
  split at h
  · split at h
    · cases h
    · dsimp only at h
      split at h
      · cases h
      · exact ⟨source.takeWhile (· != '<'), source.dropWhile (· != '<'),
          List.takeWhile_append_dropWhile.symm, List.all_takeWhile, takesAll_of_treeFrom h⟩
  · exact ⟨[], source, rfl, rfl, takesAll_of_treeFrom h⟩

end ResourceLint.Xml
