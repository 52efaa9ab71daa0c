/-
A text is read into a store as it is read into a tree.

The reader that fills a store and the one that lets a tree grow take the same
pieces.  After each piece the store is what has grown, laid out (`Mirrors`),
and where a piece does not fit, both stop at the same fault (`Agree`).  There
is one lemma for each thing a reader does, then the piece, the run and the
text.

At the end every element is closed, and the store holds the tree that its
numbers describe.  So a text has a document where it has a tree, and the
document is that tree (`Document.parse_eq_ok_iff`).
-/
import ResourceLint.Proofs.Layout

namespace ResourceLint.Xml

open Position (Cursor)

-- ============================================================= two outcomes

/-- Two computations end in the same fault, or both have results. -/
inductive Agree {α β : Type} (R : α → β → Prop) : Except ParseError α → Except ParseError β → Prop
  | ok {a : α} {b : β} (h : R a b) : Agree R (.ok a) (.ok b)
  | error (e : ParseError) : Agree R (.error e) (.error e)

namespace Agree

variable {α β α' β' : Type} {R : α → β → Prop} {R' : α' → β' → Prop}
  {x : Except ParseError α} {y : Except ParseError β}

/-- Computations that agree may go on with others that do. -/
theorem bind (h : Agree R x y) {f : α → Except ParseError α'} {g : β → Except ParseError β'}
    (hfg : ∀ a b, R a b → Agree R' (f a) (g b)) : Agree R' (x >>= f) (y >>= g) := by
  cases h with
  | ok h => exact hfg _ _ h
  | error e => exact .error e

theorem mono {S : α → β → Prop} (h : Agree R x y) (hRS : ∀ a b, R a b → S a b) : Agree S x y := by
  cases h with
  | ok h => exact .ok (hRS _ _ h)
  | error e => exact .error e

/-- One computation is the other, seen through a function. -/
theorem eq_map {f : β → α} (h : Agree (fun a b => a = f b) x y) : x = y.map f := by
  cases h with
  | ok h =>
      rw [h]
      rfl
  | error e => rfl

end Agree

-- ============================================================== the readers

/-- What a tree that grows is in a store. -/
def Builder.laid (b : Builder) : List Entry :=
  match b.root with
  | some root => root.node.laid none 0
  | none => laidOpen [] b.opened

/-- The store of a reader is what has grown, and all else that it keeps is
about the same elements. -/
structure Mirrors (source : List Char) (a : Arena.Builder) (b : Builder) : Prop where
  cursor : a.cursor = b.cursor
  sees : Cursor.Sees source b.cursor
  pending : a.pending = b.pending
  stack : a.stack = openNumbers b.opened
  namespaces : a.namespaces = b.opened.map (·.declared)
  entries : a.entries.toList = b.laid
  root : a.root = if b.opened = [] ∧ b.root = none then none else some 0
  /-- the outermost element is closed only once nothing is open -/
  closed : b.opened = [] ∨ b.root = none
  /-- outside of it no text waits -/
  idle : b.opened = [] → b.pending = none

variable {source content : List Char} {a : Arena.Builder} {b : Builder} {inner : Open}
  {outer : List Open} {piece : Placed} {pieces : List Placed}

/-- There is a number for each open element. -/
theorem openNumbers_eq_nil_iff {opened : List Open} : openNumbers opened = [] ↔ opened = [] := by
  cases opened <;> simp [openNumbers]

namespace Mirrors

theorem start (source : List Char) : Mirrors source (.start source) (.start source) :=
  ⟨rfl, Cursor.sees_start source, rfl, rfl, rfl, rfl, rfl, Or.inl rfl, fun _ => rfl⟩

/-- Both give the same positions. -/
theorem locate (h : Mirrors source a b) (offset : Nat) :
    (a.locate offset).1 = (b.locate offset).1
      ∧ Mirrors source (a.locate offset).2 (b.locate offset).2 := by
  have hposition : a.cursor.position offset = b.cursor.position offset := by rw [h.cursor]
  refine ⟨congrArg Prod.fst hposition, ?_⟩
  exact { h with cursor := congrArg Prod.snd hposition, sees := (h.sees.position offset).2 }

/-- Both fail at the same place. -/
theorem fail (h : Mirrors source a b) (offset : Nat) (what : Malformation) {α β : Type}
    {R : α → β → Prop} : Agree R (a.fail offset what) (b.fail offset what) := by
  unfold Arena.Builder.fail Builder.fail
  rw [(h.locate offset).1]
  exact .error _

/-- The stack is empty in one when it is in the other. -/
theorem isEmpty_stack (h : Mirrors source a b) : a.stack.isEmpty = b.opened.isEmpty := by
  rw [h.stack]
  cases b.opened <;> rfl

/-- Where nothing is open, there is an outermost element in both or in none. -/
theorem isSome_root (h : Mirrors source a b) (hopened : b.opened = []) :
    a.root.isSome = b.root.isSome := by
  rw [h.root]
  cases b.root <;> simp [hopened]

/-- In an element, the store is what is open. -/
theorem entries_of_ne_nil (h : Mirrors source a b) (hopened : b.opened ≠ []) :
    b.root = none ∧ a.root = some 0 ∧ a.entries.toList = laidOpen [] b.opened := by
  have hroot := h.closed.resolve_left hopened
  have hlaid := h.entries
  unfold Builder.laid at hlaid
  rw [hroot] at hlaid
  refine ⟨hroot, ?_, hlaid⟩
  rw [h.root, if_neg fun hboth => hopened hboth.1]

end Mirrors

-- ================================================================ the steps

/-- A new node lies behind everything, and the innermost element lists it. -/
theorem exists_pushNode {opened : List Open} (hstack : a.stack = openNumbers opened)
    (hentries : a.entries.toList = laidOpen [] opened) (node : NodeKind) (start : Position) :
    ∃ entries, a.pushNode node start = (extent opened, { a with entries })
      ∧ entries.toList = laidOpen [extent opened] opened
        ++ [{ node, parent := (openNumbers opened).head?, children := [], start, stop? := none }] := by
  have hnumber : a.entries.size = extent opened := by
    rw [← Array.length_toList, hentries, length_laidOpen]
  unfold Arena.Builder.pushNode
  rw [hstack, hnumber]
  cases opened with
  | nil =>
      refine ⟨_, rfl, ?_⟩
      rw [Array.toList_push, hentries]
      rfl
  | cons inner outer =>
      refine ⟨_, rfl, ?_⟩
      rw [Array.toList_modify, Array.toList_push, hentries]
      exact link_laidOpen _ inner outer _

/-- The last node gets its end. -/
theorem modify_concat (entries : List Entry) (entry : Entry) (change : Entry → Entry) :
    (entries ++ [entry]).modify entries.length change = entries ++ [change entry] :=
  List.modifyTailIdx_add _ 0 entries [entry]

/-- A store that text waits for pushes it as a node and ends the node at
once. -/
theorem flush_of_pending {run : Pending} {number : Nat} {entries : Array Entry}
    (hrun : a.pending = some run)
    (hpush : Arena.Builder.pushNode
        { a with cursor := ((a.locate run.start).2.locate run.stop).2.cursor, pending := none }
        (.text (String.ofList run.content)) (a.locate run.start).1
      = (number, { a with
          cursor := ((a.locate run.start).2.locate run.stop).2.cursor, pending := none, entries })) :
    a.flush = Arena.Builder.endNode
      { a with
        cursor := ((a.locate run.start).2.locate run.stop).2.cursor, pending := none, entries }
      number ((a.locate run.start).2.locate run.stop).1 := by
  unfold Arena.Builder.flush
  rw [hrun]
  exact congrArg (fun pushed : Nat × Arena.Builder => pushed.2.endNode pushed.1 _) hpush

/-- An element that may be opened and whose attributes can be read is pushed
as a node. -/
theorem openElement_of_readAttributes {offset number : Nat} {entries : Array Entry}
    {attributes : List (String × String)} (hfirst : ¬ (a.stack.isEmpty && a.root.isSome))
    (hread : Tag.readAttributes content = .ok attributes)
    (hpush : (a.locate offset).2.pushNode
        (.element (Tag.ofWritten (Tag.declarations attributes :: a.namespaces)
          (String.ofList (Tag.nameOf content)) attributes)) (a.locate offset).1
      = (number, { (a.locate offset).2 with entries })) :
    a.openElement content offset = .ok { (a.locate offset).2 with
      entries
      namespaces := Tag.declarations attributes :: a.namespaces
      root := a.root.or (some number)
      stack := number :: a.stack } := by
  unfold Arena.Builder.openElement
  rw [if_neg hfirst, hread]
  exact congrArg (fun pushed : Nat × Arena.Builder =>
    (Except.ok { pushed.2 with
      namespaces := Tag.declarations attributes :: a.namespaces
      root := pushed.2.root.or (some pushed.1)
      stack := pushed.1 :: pushed.2.stack } : Except ParseError Arena.Builder)) hpush

namespace Mirrors

theorem flush_eq_self (h : a.pending = none) : a.flush = a := by
  rw [Arena.Builder.flush, h]

variable (h : Mirrors source a b)

include h

/-- A run of text that was pushed and ended is a node that the innermost
element has grown by. -/
theorem pushText (hopened : b.opened = inner :: outer) {text : String} {start stop : Position}
    {entries : Array Entry}
    (hentries : entries.toList = laidOpen [extent (inner :: outer)] (inner :: outer)
      ++ [{ node := .text text, parent := (openNumbers (inner :: outer)).head?, children := []
            start, stop? := none }]) :
    Mirrors source
      (Arena.Builder.endNode { a with pending := none, entries } (extent (inner :: outer)) stop)
      { b with pending := none, opened := grown (.text text ⟨start, stop⟩) (inner :: outer) } := by
  obtain ⟨hroot, hzero, -⟩ := h.entries_of_ne_nil (by simp [hopened])
  refine ⟨h.cursor, h.sees, rfl, ?_, ?_, ?_, ?_, Or.inr hroot, fun hnil => ?_⟩
  · exact h.stack.trans (by rw [hopened]; rfl)
  · exact h.namespaces.trans (by rw [hopened]; rfl)
  · have hend := modify_concat (laidOpen [extent (inner :: outer)] (inner :: outer))
      { node := .text text, parent := (openNumbers (inner :: outer)).head?, children := []
        start, stop? := none } (·.ended stop)
    rw [length_laidOpen, ← hentries] at hend
    unfold Builder.laid
    simp only [hroot]
    rw [laidOpen_grown]
    show (entries.modify _ _).toList = _
    rw [Array.toList_modify, hend, Node.laid]
    rfl
  · rw [if_neg fun hboth => List.cons_ne_nil _ _ hboth.1]
    exact hzero
  · cases hnil

/-- Text that waits becomes a node in both. -/
theorem flush : Mirrors source a.flush b.flush := by
  cases hrun : b.pending with
  | none =>
      rw [flush_eq_self (h.pending.trans hrun), show b.flush = b by rw [Builder.flush, hrun]]
      exact h
  | some run =>
      cases hopened : b.opened with
      | nil =>
          -- outside of the root no text waits
          rw [h.idle hopened] at hrun
          cases hrun
      | cons inner outer =>
          obtain ⟨-, -, hentries⟩ := h.entries_of_ne_nil (by simp [hopened])
          rw [hopened] at hentries
          obtain ⟨hstart, hbetween⟩ := h.locate run.start
          obtain ⟨hstop, hafter⟩ := hbetween.locate run.stop
          obtain ⟨entries, hpush, hlist⟩ := @exists_pushNode
            { a with cursor := ((a.locate run.start).2.locate run.stop).2.cursor, pending := none }
            (inner :: outer) (h.stack.trans (by rw [hopened])) hentries
            (.text (String.ofList run.content)) (a.locate run.start).1
          have hb : b.flush = { b with
              cursor := ((b.locate run.start).2.locate run.stop).2.cursor, pending := none
              opened := grown (.text (String.ofList run.content)
                ⟨(b.locate run.start).1, ((b.locate run.start).2.locate run.stop).1⟩)
                (inner :: outer) } := by
            unfold Builder.flush
            rw [hrun]
            unfold Builder.addNode Builder.locate
            simp only [hopened]
            rfl
          rw [flush_of_pending (h.pending.trans hrun) hpush, hb, ← hstart, ← hstop]
          exact hafter.pushText hopened hlist

/-- An outermost element that is not the first is seen by both. -/
theorem isSecond_eq :
    (a.stack.isEmpty && a.root.isSome) = (b.opened.isEmpty && b.root.isSome) := by
  rw [h.isEmpty_stack]
  cases hopened : b.opened with
  | nil => rw [h.isSome_root hopened]
  | cons => rfl

/-- A new entry behind the others, listed by the innermost element, is an
element that has just been opened. -/
theorem pushOpen (hroot : b.root = none) {tag : Tag} {declared : List (String × String)}
    {start : Position} {entries : Array Entry}
    (hentries : entries.toList = laidOpen [extent b.opened] b.opened
      ++ [{ node := .element tag, parent := (openNumbers b.opened).head?, children := [], start
            stop? := none }]) :
    Mirrors source
      { a with
        entries, namespaces := declared :: a.namespaces, root := a.root.or (some (extent b.opened))
        stack := extent b.opened :: a.stack }
      { b with opened := { tag, declared, start, children := [] } :: b.opened } := by
  refine ⟨h.cursor, h.sees, h.pending, ?_, ?_, ?_, ?_, Or.inr hroot, fun hnil => ?_⟩
  · exact congrArg (extent b.opened :: ·) h.stack
  · exact congrArg (declared :: ·) h.namespaces
  · unfold Builder.laid
    simp only [hroot]
    rw [laidOpen_open rfl, hentries]
    rfl
  · -- the first element is the outermost one, and stays it
    rw [if_neg fun hboth => List.cons_ne_nil _ _ hboth.1]
    show a.root.or _ = _
    rw [h.root]
    by_cases hopened : b.opened = []
    · rw [if_pos ⟨hopened, hroot⟩, hopened]
      rfl
    · rw [if_neg fun hboth => hopened hboth.1]
      rfl
  · cases hnil

/-- An element is opened in both, or in neither. -/
theorem openElement (content : List Char) (offset : Nat) :
    Agree (fun a' b' => Mirrors source a' b' ∧ b'.opened ≠ [] ∧ b'.pending = b.pending)
      (a.openElement content offset) (b.openElement content offset) := by
  obtain ⟨hstart, hafter⟩ := h.locate offset
  by_cases hsecond : b.opened.isEmpty && b.root.isSome
  · unfold Arena.Builder.openElement Builder.openElement
    rw [h.isSecond_eq, if_pos hsecond, if_pos hsecond]
    exact h.fail offset .secondRoot
  cases hread : Tag.readAttributes content with
  | error fault =>
      unfold Arena.Builder.openElement Builder.openElement
      rw [h.isSecond_eq, if_neg hsecond, if_neg hsecond, hread]
      exact hafter.fail offset (.tag fault)
  | ok attributes =>
      -- the outermost element is not closed yet, so the store is what is open
      have hroot : b.root = none := by
        rcases h.closed with hopened | hroot
        · simpa [hopened] using hsecond
        · exact hroot
      have hlaid := h.entries
      unfold Builder.laid at hlaid
      simp only [hroot] at hlaid
      obtain ⟨entries, hpush, hlist⟩ := @exists_pushNode (a.locate offset).2 b.opened h.stack hlaid
        (.element (Tag.ofWritten (Tag.declarations attributes :: a.namespaces)
          (String.ofList (Tag.nameOf content)) attributes)) (a.locate offset).1
      have hb : b.openElement content offset = .ok { (b.locate offset).2 with
          opened :=
            { tag := Tag.ofWritten (Tag.declarations attributes :: b.opened.map (·.declared))
                (String.ofList (Tag.nameOf content)) attributes
              declared := Tag.declarations attributes
              start := (b.locate offset).1, children := [] } :: b.opened } := by
        unfold Builder.openElement
        rw [if_neg hsecond, hread]
        rfl
      rw [openElement_of_readAttributes (by rwa [h.isSecond_eq]) hread hpush, hb, ← hstart,
        ← h.namespaces]
      exact .ok ⟨hafter.pushOpen hroot hlist, List.cons_ne_nil _ _, rfl⟩

/-- The innermost element is closed in both. -/
theorem exists_closeElement (hpending : b.pending = none) (hopened : b.opened = inner :: outer)
    (stop : Nat) :
    ∃ a', a.closeElement stop = .ok a' ∧ Mirrors source a' (b.closeElement stop) := by
  obtain ⟨hroot, hzero, hentries⟩ := h.entries_of_ne_nil (by simp [hopened])
  rw [hopened] at hentries
  obtain ⟨hstop, hafter⟩ := h.locate stop
  have hstack : a.stack = extent outer :: openNumbers outer := h.stack.trans (by rw [hopened]; rfl)
  have ha : a.closeElement stop = .ok (Arena.Builder.endNode
      { a with
        cursor := (a.locate stop).2.cursor, stack := openNumbers outer
        namespaces := a.namespaces.tail }
      (extent outer) (a.locate stop).1) := by
    unfold Arena.Builder.closeElement
    simp only [hstack]
    rfl
  have hb : b.closeElement stop
      = b.closed (inner.shut (b.locate stop).1) outer (b.locate stop).2.cursor := by
    unfold Builder.closeElement Builder.closed
    rw [hopened]
    simp only [← hpending]
    cases outer <;> rfl
  -- ending the innermost entry turns its open layout into that of a whole node
  have hlist : (a.entries.modify (extent outer) (·.ended (a.locate stop).1)).toList
      = laidOpen [extent outer] outer
        ++ (inner.shut (b.locate stop).1).node.laid (openNumbers outer).head? (extent outer) := by
    rw [Array.toList_modify, hentries, hstop, laidOpen_shut]
  refine ⟨_, ha, ?_⟩
  rw [hb]
  refine ⟨hafter.cursor, hafter.sees, h.pending.trans hpending, ?_, ?_, ?_, ?_, ?_, fun _ => rfl⟩
  · show openNumbers outer = openNumbers (grown _ outer)
    cases outer <;> rfl
  · show a.namespaces.tail = (grown _ outer).map _
    rw [h.namespaces, hopened]
    cases outer <;> rfl
  · show (a.entries.modify _ _).toList = _
    rw [hlist]
    unfold Builder.laid Builder.closed
    cases outer with
    | nil => rfl
    | cons next beyond =>
        simp only [hroot, if_neg (List.cons_ne_nil _ _)]
        rw [laidOpen_grown]
        rfl
  · show a.root = _
    unfold Builder.closed
    cases outer with
    | nil => simpa using hzero
    | cons next beyond => simpa [grown] using hzero
  · unfold Builder.closed
    cases outer with
    | nil => exact Or.inl rfl
    | cons next beyond => exact Or.inr hroot

/-- Text waits in both, or is passed over, or is a fault. -/
theorem addText (content : List Char) (start stop : Nat) :
    Agree (Mirrors source) (a.addText content start stop) (b.addText content start stop) := by
  unfold Arena.Builder.addText Builder.addText
  rw [h.isEmpty_stack, h.pending]
  by_cases hopened : b.opened = []
  · rw [if_pos (List.isEmpty_iff.mpr hopened), if_pos (List.isEmpty_iff.mpr hopened)]
    cases Text.trimStart content with
    | nil => exact .ok h
    | cons c visible =>
        have hsame : a.root.isNone = b.root.isNone := by
          rw [← Option.not_isSome, h.isSome_root hopened, Option.not_isSome]
        simp only [hsame]
        cases b.root with
        | none =>
            rw [(h.locate _).1]
            exact .error _
        | some root => exact h.fail _ .afterRoot
  · rw [if_neg (mt List.isEmpty_iff.mp hopened), if_neg (mt List.isEmpty_iff.mp hopened)]
    exact .ok { h with pending := rfl, idle := fun hnil => absurd hnil hopened }

/-- Both know the innermost element by the same name. -/
theorem openName?_eq : a.openName? = b.opened.head?.map (·.tag.name) := by
  unfold Arena.Builder.openName?
  rw [h.stack]
  cases hopened : b.opened with
  | nil => rfl
  | cons inner outer =>
      obtain ⟨-, -, hentries⟩ := h.entries_of_ne_nil (by simp [hopened])
      have hentry : a.entries[extent outer]? = some (inner.entry outer []) := by
        rw [← Array.getElem?_toList, hentries, hopened, getElem?_laidOpen]
      have hinner : (openNumbers (inner :: outer)).head?.bind (a.entries[·]?)
          = some (inner.entry outer []) := hentry
      rw [hinner]
      rfl

/-- No text waits once it was made a node. -/
theorem pending_flush : b.flush.pending = none := by
  obtain ⟨cursor, -, hflush⟩ := Builder.flush_eq h.sees
  rw [hflush]

/-- Flushing neither opens nor closes. -/
theorem opened_flush_eq_nil_iff : b.flush.opened = [] ↔ b.opened = [] := by
  obtain ⟨cursor, -, hflush⟩ := Builder.flush_eq h.sees
  rw [hflush]
  exact Builder.settled_eq_nil_iff

-- =============================================================== the pieces

/-- A piece makes the same of both. -/
theorem take (piece : Placed) : Agree (Mirrors source) (a.take piece) (b.take piece) := by
  unfold Arena.Builder.take Builder.take
  cases piece.lexeme with
  | text raw =>
      cases hexpand : expand raw with
      | ok content =>
          simp only [hexpand]
          exact h.addText content piece.start piece.stop
      | error fault =>
          simp only [hexpand]
          exact h.fail piece.start (.entity fault)
  | literal content => exact h.addText content piece.start piece.stop
  | aside => exact .ok h
  | tag content =>
      by_cases hslash : content.getLast? = some '/'
      · simp only [if_pos hslash]
        have hopen := h.flush.openElement content.dropLast (tagStart content piece.stop)
        generalize a.flush.openElement content.dropLast (tagStart content piece.stop) = x at hopen
        generalize b.flush.openElement content.dropLast (tagStart content piece.stop) = y at hopen
        cases hopen with
        | error e => exact .error e
        | @ok a' b' hpair =>
            obtain ⟨hmirrors, hinside, hpending⟩ := hpair
            obtain ⟨inner, outer, hopened⟩ := List.exists_cons_of_ne_nil hinside
            obtain ⟨last, hlast, hclosed⟩ := hmirrors.exists_closeElement
              (hpending.trans h.pending_flush) hopened piece.stop
            show Agree _ (a'.closeElement piece.stop) _
            rw [hlast]
            exact .ok hclosed
      · simp only [if_neg hslash]
        exact (h.flush.openElement content _).mono fun _ _ hpair => hpair.1
  -- the name is looked up in the arena on one side and in the open element on the other
  | endTag name =>
      simp only [h.openName?_eq]
      cases hopened : b.opened with
      | nil => exact h.fail piece.start _
      | cons inner outer =>
          by_cases hname : inner.tag.name = String.ofList name
          · obtain ⟨innermost, others, hflushed⟩ :=
              List.exists_cons_of_ne_nil (mt h.opened_flush_eq_nil_iff.mp (by simp [hopened]))
            obtain ⟨last, hlast, hclosed⟩ :=
              h.flush.exists_closeElement h.pending_flush hflushed piece.stop
            simp only [List.head?_cons, Option.map_some, if_pos hname]
            rw [hlast]
            exact .ok hclosed
          · simp only [List.head?_cons, Option.map_some, if_neg hname]
            exact h.fail piece.start _

/-- So do all pieces in order. -/
theorem takeAll (pieces : List Placed) :
    Agree (Mirrors source) (a.takeAll pieces) (b.takeAll pieces) := by
  unfold Arena.Builder.takeAll Builder.takeAll
  induction pieces generalizing a b with
  | nil => exact .ok h
  | cons piece pieces ih =>
      rw [List.foldlM_cons, List.foldlM_cons]
      exact (h.take piece).bind fun _ _ => ih

end Mirrors

-- ================================================================ the texts

/-- Both are finished, or an element is open in both, or there is none. -/
theorem Mirrors.finish (h : Mirrors source a b) :
    Agree (fun arena root => arena = Arena.ofTree root) (a.finish source) (b.finish source) := by
  have hflush := h.flush
  have hunfinished : Agree (fun arena root => arena = Arena.ofTree root)
      (.error (.unfinished (a.flush.locate (Text.byteSize source)).1))
      (.error (.unfinished (b.locate (Text.byteSize source)).1)) := by
    rw [(hflush.locate _).1, (Builder.locate_eq hflush.sees _).1, (Builder.locate_eq h.sees _).1]
    exact .error _
  unfold Arena.Builder.finish Builder.finish
  cases hopened : b.opened with
  | cons inner outer =>
      have hstack : a.flush.stack.isEmpty = false := by
        rw [hflush.isEmpty_stack, List.isEmpty_eq_false_iff]
        exact mt h.opened_flush_eq_nil_iff.mp (by simp [hopened])
      simp only [hstack, Bool.false_and, Bool.false_eq_true, if_false]
      exact hunfinished
  -- nothing is open, so no text waits and the root is there or is missing in both
  | nil =>
      have hidle := h.pending.trans (h.idle hopened)
      rw [flush_eq_self hidle] at hunfinished ⊢
      simp only [h.isEmpty_stack, h.isSome_root hopened, hopened, List.isEmpty_nil, Bool.true_and]
      cases hroot : b.root with
      | none => exact hunfinished
      | some root =>
          have hentries := h.entries
          unfold Builder.laid at hentries
          simp only [hroot] at hentries
          have hzero : a.root = some 0 := by
            rw [h.root, if_neg fun hboth => by simp [hroot] at hboth]
          refine .ok ?_
          rw [hzero, Arena.ofTree, ← hentries, Array.toArray_toList]

/-- A text is read into a store as it is read into a tree. -/
theorem agree_readFrom (source : List Char) (skip : Nat) (input : List Char) :
    Agree (fun arena root => arena = Arena.ofTree root) (Arena.readFrom source skip input)
      (treeFrom source skip input) := by
  have htaken := (Mirrors.start source).takeAll (scan skip input).pieces
  unfold Arena.readFrom treeFrom
  cases Text.trimStart input with
  | nil =>
      refine htaken.bind fun a b h => ?_
      cases (scan skip input).fault with
      | none => exact h.finish
      | some fault => exact h.fail _ _
  | cons c visible =>
      by_cases hbracket : c != '<'
      · simp only [hbracket, if_true]
        exact .error _
      · simp only [hbracket, Bool.false_eq_true, if_false]
        refine htaken.bind fun a b h => ?_
        cases (scan skip input).fault with
        | none => exact h.finish
        | some fault => exact h.fail _ _

/-- So is a text that is read again from its first bracket. -/
theorem Arena.read_eq (source : List Char) : read source = (tree source).map .ofTree := by
  unfold read tree
  rw [(agree_readFrom source 0 source).eq_map]
  cases treeFrom source 0 source with
  | ok root => rfl
  | error e =>
      cases e with
      | malformed position what => rfl
      | unfinished position => rfl
      | prolog position =>
          have hretry := fun skip input => (agree_readFrom source skip input).eq_map
          simp only [Except.map, hretry]
          cases source.dropWhile (· != '<') with
          | nil => rfl
          | cons c rest =>
              cases (source.takeWhile (· != '<')).isEmpty with
              | true => rfl
              | false => rfl

namespace Document

/-- A text has a document where it has a tree, and the document is that tree. -/
theorem parse_eq (source : String) :
    parse source = (tree source.toList).map (.ofTree source) := by
  unfold parse
  rw [Arena.read_eq]
  cases tree source.toList with
  | error e => rfl
  | ok root =>
      have hroot := Arena.root?_ofTree root
      simp only [Except.map, bind, Except.bind]
      split
      · next content hcontent =>
          cases hcontent.symm.trans hroot
          rfl
      · next hnone => cases hnone.symm.trans hroot

/-- A text is parsed to the arena of its tree, and to nothing else. -/
theorem parse_eq_ok_iff {text : String} {d : Document} :
    parse text = .ok d ↔ ∃ root, tree text.toList = .ok root ∧ d = .ofTree text root := by
  rw [parse_eq]
  cases tree text.toList with
  | error e => simp [Except.map]
  | ok root => simp [Except.map, eq_comm]

/-- A text cannot be parsed when its tree cannot be built, for the same
reason. -/
theorem parse_eq_error_iff {text : String} {e : ParseError} :
    parse text = .error e ↔ tree text.toList = .error e := by
  rw [parse_eq]
  cases tree text.toList <;> simp [Except.map]

/-- A text of which something is known once it is parsed can be parsed. -/
theorem exists_parse_of_map {α : Type} {text : String} {f : Document → α} {value : α}
    (h : (parse text).toOption.map f = some value) :
    ∃ d, parse text = .ok d ∧ f d = value := by
  cases hparse : parse text with
  | error e =>
      rw [hparse] at h
      cases h
  | ok d =>
      rw [hparse] at h
      exact ⟨d, rfl, Option.some.inj h⟩

end Document

end ResourceLint.Xml
