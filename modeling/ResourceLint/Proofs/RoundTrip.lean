/-
What is written is read.

Reading goes from left to right, a piece at a time, and what is written is
put together of pieces in that order.  So the reader is followed along the
text (`Runs`), and each part of a rendering is a stretch of the way.

Inside of an element a builder holds the nodes so far and a text that waits
(`Within`), and a part of the markup adds to both: the nodes that are closed
by it are new children of the innermost element (`Grows`), and the text that
it ends with waits for what comes next.  The induction is on the markup
(`isRead`).  An element in it is met twice there, by the induction hypothesis
for what is in it and as one more node of what is around it, and the latter
is the same for the outermost element of a document (`Writes`).
-/
import ResourceLint.Proofs.DocumentOrder
import ResourceLint.Proofs.Pieces
import ResourceLint.Proofs.Rendering
import ResourceLint.Proofs.Taking

namespace ResourceLint.Xml

open Position (Cursor)

variable {source s left rest written said content : List Char} {b between after : Builder}
  {at' n : Nat} {lexeme : Lexeme}

-- ==================================================================== runs

/-- From a builder at a byte, with some text left, the pieces lead to another. -/
inductive Runs : Builder → Nat → List Char → Builder → Nat → List Char → Prop
  | refl (b : Builder) (at' : Nat) (s : List Char) : Runs b at' s b at' s
  | step {b between after : Builder} {at' n : Nat} {s left rest : List Char} {piece : Lexeme}
      (hcut : Cuts s piece left)
      (htake : b.take ⟨piece, at', at' + (Text.byteSize s - Text.byteSize left)⟩ = .ok between)
      (hmore : Runs between (at' + (Text.byteSize s - Text.byteSize left)) left after n rest) :
      Runs b at' s after n rest

/-- Runs may follow each other. -/
theorem Runs.trans {m : Nat} (h : Runs b at' s between m left)
    (hmore : Runs between m left after n rest) : Runs b at' s after n rest := by
  induction h with
  | refl => exact hmore
  | step hcut htake _ ih => exact .step hcut htake (ih hmore)

/-- One piece is taken. -/
theorem Runs.piece (hcut : Cuts (written ++ rest) lexeme rest)
    (htake : b.take ⟨lexeme, at', at' + Text.byteSize written⟩ = .ok after) :
    Runs b at' (written ++ rest) after (at' + Text.byteSize written) rest := by
  have hsize : Text.byteSize (written ++ rest) - Text.byteSize rest = Text.byteSize written := by
    rw [Text.byteSize_append, Nat.add_sub_cancel]
  refine .step hcut (hsize ▸ htake) ?_
  rw [hsize]
  exact .refl _ _ _

/-- What is left of the text is left of its pieces. -/
theorem Runs.scan_eq (h : Runs b at' s after n rest) :
    b.takeAll (scan at' s).pieces = after.takeAll (scan n rest).pieces
      ∧ (scan at' s).fault = (scan n rest).fault := by
  induction h with
  | refl => exact ⟨rfl, rfl⟩
  | step hcut htake _ ih =>
      obtain ⟨hpieces, hfault⟩ := ih
      rw [hcut.scan_eq]
      refine ⟨?_, hfault⟩
      unfold Builder.takeAll at hpieces ⊢
      rw [List.foldlM_cons, htake]
      exact hpieces

/-- Where nothing is left, all pieces of the text were taken. -/
theorem Runs.takeAll_scan (h : Runs b at' s after n rest) (hrest : rest = []) :
    (scan at' s).fault = none ∧ b.takeAll (scan at' s).pieces = .ok after := by
  obtain ⟨hpieces, hfault⟩ := h.scan_eq
  rw [hpieces, hfault, hrest, scan]
  exact ⟨rfl, rfl⟩

-- ================================================================== growing

/-- The trees of nodes are told one after the other. -/
theorem treesOf_append (a b : List Node) : treesOf (a ++ b) = treesOf a ++ treesOf b := by
  induction a with
  | nil =>
      rw [treesOf]
      rfl
  | cons node a ih => rw [List.cons_append, treesOf, treesOf, ih, List.cons_append]

theorem placesOf_append (a b : List Node) : placesOf (a ++ b) = placesOf a ++ placesOf b := by
  induction a with
  | nil =>
      rw [placesOf]
      rfl
  | cons node a ih => rw [List.cons_append, placesOf, placesOf, ih, List.append_assoc]

theorem treesOf_singleton (node : Node) : treesOf [node] = [node.tree] := by
  rw [treesOf, treesOf]

theorem placesOf_singleton (node : Node) : placesOf [node] = node.places := by
  rw [placesOf, placesOf, List.append_nil]

/-- An open element with some nodes more, which say these trees and have
elements at these places. -/
structure Grows (o o' : Open) (trees : List Tree) (places : List (Nat × Nat)) : Prop where
  tag : o'.tag = o.tag
  start : o'.start = o.start
  trees : treesOf o'.children.reverse = treesOf o.children.reverse ++ trees
  places : placesOf o'.children.reverse = placesOf o.children.reverse ++ places

variable {o o' o'' : Open} {outer : List Open} {trees trees' : List Tree}
  {places places' : List (Nat × Nat)}

/-- An element grows by nothing. -/
theorem Grows.refl (o : Open) : Grows o o [] [] :=
  ⟨rfl, rfl, (List.append_nil _).symm, (List.append_nil _).symm⟩

theorem Grows.trans (h : Grows o o' trees places) (h' : Grows o' o'' trees' places') :
    Grows o o'' (trees ++ trees') (places ++ places') := by
  refine ⟨h'.tag.trans h.tag, h'.start.trans h.start, ?_, ?_⟩
  · rw [h'.trees, h.trees, List.append_assoc]
  · rw [h'.places, h.places, List.append_assoc]

theorem Grows.add (o : Open) (node : Node) : Grows o (o.add node) [node.tree] node.places := by
  refine ⟨rfl, rfl, ?_, ?_⟩
  · show treesOf (node :: o.children).reverse = _
    rw [List.reverse_cons, treesOf_append, treesOf_singleton]
  · show placesOf (node :: o.children).reverse = _
    rw [List.reverse_cons, placesOf_append, placesOf_singleton]

-- ================================================================= the text

/-- Inside of an element, with a text that waits unless it is empty. -/
structure Within (source : List Char) (b : Builder) (o : Open) (outer : List Open)
    (said : List Char) : Prop where
  sees : Cursor.Sees source b.cursor
  opened : b.opened = o :: outer
  root : b.root = none
  waits : (said = [] ∧ b.pending = none)
    ∨ (said ≠ [] ∧ ∃ start stop, b.pending = some ⟨said, start, stop⟩)

/-- Inside of an element something is open. -/
theorem Within.opened_ne_nil (h : Within source b o outer said) : b.opened ≠ [] := by
  rw [h.opened]
  exact List.cons_ne_nil _ _

/-- The text that waits becomes a node. -/
theorem Within.settled (h : Within source b o outer said) :
    ∃ o', b.settled source = o' :: outer ∧ Grows o o' (textTrees said) [] := by
  unfold Builder.settled
  rw [h.opened]
  rcases h.waits with ⟨rfl, hnone⟩ | ⟨hne, start, stop, hsome⟩
  · rw [hnone]
    exact ⟨o, rfl, Grows.refl o⟩
  · rw [hsome]
    refine ⟨_, rfl, ?_⟩
    have hgrows := Grows.add o (Pending.node source ⟨said, start, stop⟩)
    have htree : textTrees said = [(Pending.node source ⟨said, start, stop⟩).tree] := by
      unfold textTrees Pending.node
      rw [List.isEmpty_eq_false_iff.mpr hne, Node.tree]
      rfl
    have hplaces : (Pending.node source ⟨said, start, stop⟩).places = [] := by
      unfold Pending.node
      rw [Node.places]
    rw [htree]
    rw [hplaces] at hgrows
    exact hgrows

/-- A piece of text is added to the text that waits. -/
theorem Within.take (h : Within source b o outer said) (hsaid : lexeme.said? = some content)
    (hne : content ≠ []) (start stop : Nat) :
    ∃ after, b.take ⟨lexeme, start, stop⟩ = .ok after
      ∧ Within source after o outer (said ++ content) := by
  refine ⟨_, Builder.take_text hsaid h.opened_ne_nil, h.sees, h.opened, h.root, Or.inr ⟨?_, ?_⟩⟩
  · intro hnil
    exact hne (List.append_eq_nil_iff.mp hnil).2
  · unfold Builder.running
    rcases h.waits with ⟨rfl, hnone⟩ | ⟨-, first, last, hsome⟩
    · rw [hnone]
      exact ⟨_, _, rfl⟩
    · rw [hsome]
      exact ⟨_, _, rfl⟩

/-- Every spelling of a character is some text. -/
theorem Letter.text_ne_nil (l : Letter) : l.text ≠ [] := by
  unfold Letter.text
  split
  · cases hspecial : isSpecial l.char with
    | false =>
        rw [escapeChar_of_not_isSpecial hspecial]
        exact List.cons_ne_nil _ _
    | true =>
        obtain ⟨name, hname, -⟩ := escapeChar_of_isSpecial hspecial
        rw [hname]
        exact List.cons_ne_nil _ _
  · exact List.cons_ne_nil _ _

/-- A run of text is one piece, or none. -/
theorem Within.run (h : Within source b o outer said) {run : Spelling}
    (hrun : run.hides ['<', '&']) (hrest : rest.head? = some '<') (at' : Nat) :
    ∃ after, Runs b at' (run.text ++ rest) after (at' + Text.byteSize run.text) rest
      ∧ Within source after o outer (said ++ run.chars) := by
  cases run with
  | nil =>
      refine ⟨b, .refl _ _ _, ?_⟩
      show Within source b o outer (said ++ [])
      rw [List.append_nil]
      exact h
  | cons l run =>
      have hsaid : (Lexeme.text (Spelling.text (l :: run))).said?
          = some (Spelling.chars (l :: run)) :=
        Lexeme.said?_text (Spelling.expand_text hrun (by simp))
      -- the run is one piece since it hides its brackets
      have hbracket : '<' ∉ Spelling.text (l :: run) :=
        Spelling.notMem_text hrun List.mem_cons_self (by decide) (by decide)
      have hne : Spelling.text (l :: run) ≠ [] := fun hnil =>
        l.text_ne_nil (List.append_eq_nil_iff.mp hnil).1
      obtain ⟨after, htake, hafter⟩ := h.take hsaid (List.cons_ne_nil _ _) at'
        (at' + Text.byteSize (Spelling.text (l :: run)))
      refine ⟨after, .piece (.text hne ?_ (Or.inr hrest)) htake, hafter⟩
      exact List.all_eq_true.mpr fun c hc => by
        rw [bne_iff_ne]
        rintro rfl
        exact hbracket hc

-- ================================================================= elements

variable {tag : WrittenTag}

/-- A tag without brackets in it begins where it was written. -/
theorem tagStart_eq (h : '<' ∉ content) (at' : Nat) :
    tagStart content (at' + Text.byteSize ('<' :: content ++ ['>'])) = at' := by
  have hall : content.reverse.takeWhile (· != '<') = content.reverse :=
    List.takeWhile_eq_self_iff.mpr fun c hc => by
      rw [bne_iff_ne]
      rintro rfl
      exact h (List.mem_reverse.mp hc)
  have hopen : '<'.utf8Size = 1 := by decide
  have hclose : '>'.utf8Size = 1 := by decide
  unfold tagStart
  rw [hall, byteSize_reverse, List.cons_append, Text.byteSize_cons, Text.byteSize_append,
    Text.byteSize_cons, Text.byteSize_nil, hopen, hclose]
  omega

/-- An element that is closed says what its tag does and what it has grown by. -/
theorem tree_shut (htag : tag.isValid) {opened : List Open} {offset : Nat}
    (hgrows : Grows (Open.ofTag source opened tag.text (tag.attributes.map (·.said)) offset) o trees
      places) (stop : Position) :
    (o.shut stop).node.tree = tag.tree trees
      ∧ (o.shut stop).node.places
        = ((Position.ofOffset source offset).offset, stop.offset) :: places := by
  have hsaid : o.tag.said = (tag.name, tag.attributes.map (·.said)) := by
    rw [hgrows.tag]
    show (Tag.ofWritten _ _ _).said = _
    rw [Tag.said_ofWritten, WrittenTag.nameOf_text htag]
  have htrees : treesOf o.children.reverse = trees := by
    rw [hgrows.trees]
    show treesOf [] ++ trees = _
    rw [treesOf, List.nil_append]
  have hplaces : placesOf o.children.reverse = places := by
    rw [hgrows.places]
    show placesOf [] ++ places = _
    rw [placesOf, List.nil_append]
  refine ⟨?_, ?_⟩
  · show Node.tree (.element o.tag ⟨o.start, stop⟩ o.children.reverse) = _
    rw [Node.tree, hsaid, htrees]
    rfl
  · show Node.places (.element o.tag ⟨o.start, stop⟩ o.children.reverse) = _
    rw [Node.places, hplaces, hgrows.start]
    rfl

/-- The text is an element, which is added to what was there. -/
def Writes (source : List Char) (b : Builder) (at' : Nat) (text rest : List Char) (tree : Tree)
    (places : List (Nat × Nat)) : Prop :=
  ∃ cursor content, Cursor.Sees source cursor
    ∧ Runs b at' (text ++ rest) (b.closed content (b.settled source) cursor)
        (at' + Text.byteSize text) rest
    ∧ content.node.tree = tree ∧ content.node.places = places

/-- An element is written by an empty tag. -/
theorem writes_empty (htag : tag.isValid) (hsees : Cursor.Sees source b.cursor)
    (hroot : b.root = none)
    (hsize : at' + Text.byteSize tag.emptyText ≤ Text.byteSize source) :
    Writes source b at' tag.emptyText rest (tag.tree [])
      [(at', at' + Text.byteSize tag.emptyText)] := by
  have hbracket : '<' ∉ tag.text ++ ['/'] := by
    intro hmem
    rcases List.mem_append.mp hmem with hmem | hmem
    · exact WrittenTag.notMem_text htag hmem
    · cases List.mem_singleton.mp hmem
  obtain ⟨cursor, hcursor, htake⟩ := @Builder.take_emptyTag source tag.text b
    ⟨.tag (tag.text ++ ['/']), at', at' + Text.byteSize tag.emptyText⟩ _ hsees rfl (Or.inr hroot)
    (WrittenTag.readAttributes_text htag)
  have hstart : tagStart (tag.text ++ ['/']) (at' + Text.byteSize tag.emptyText) = at' :=
    tagStart_eq hbracket at'
  dsimp only at htake
  rw [hstart] at htake
  have hgrows := Grows.refl (Open.ofTag source (b.settled source) tag.text
    (tag.attributes.map (·.said)) at')
  obtain ⟨htree, hplaces⟩ :=
    tree_shut htag hgrows (Position.ofOffset source (at' + Text.byteSize tag.emptyText))
  rw [Position.offset_ofOffset_of_le hsize, Position.offset_ofOffset_of_le (by omega)] at hplaces
  exact ⟨cursor, _, hcursor, .piece (WrittenTag.cuts_emptyText htag) htake, htree, hplaces⟩

/-- What is written inside of an element is added to its nodes. -/
def Markup.IsRead (source : List Char) (m : Markup) : Prop :=
  ∀ (b : Builder) (o : Open) (outer : List Open) (said : List Char) (at' : Nat)
    (rest : List Char), Within source b o outer said → rest.head? = some '<' →
      at' + Text.byteSize m.text ≤ Text.byteSize source →
      ∃ after o' said' trees, Runs b at' (m.text ++ rest) after (at' + Text.byteSize m.text) rest
        ∧ Within source after o' outer said' ∧ Grows o o' trees (m.places at')
        ∧ trees ++ textTrees said' = m.trees said

/-- A start tag leads into a new element. -/
theorem exists_within_startTag (htag : tag.isValid) (hsees : Cursor.Sees source b.cursor)
    (hroot : b.root = none) (at' : Nat) (rest : List Char) :
    ∃ inside, Runs b at' (tag.startText ++ rest) inside (at' + Text.byteSize tag.startText) rest
      ∧ Within source inside
        (Open.ofTag source (b.settled source) tag.text (tag.attributes.map (·.said)) at')
        (b.settled source) [] := by
  obtain ⟨cursor, hcursor, hopen⟩ := @Builder.take_tag source tag.text b
    ⟨.tag tag.text, at', at' + Text.byteSize tag.startText⟩ _ hsees rfl
    (WrittenTag.getLast?_text htag) (Or.inr hroot) (WrittenTag.readAttributes_text htag)
  have hstart : tagStart tag.text (at' + Text.byteSize tag.startText) = at' :=
    tagStart_eq (WrittenTag.notMem_text htag) at'
  dsimp only at hopen
  rw [hstart] at hopen
  exact ⟨_, .piece (WrittenTag.cuts_startText htag) hopen, hcursor, rfl, hroot, Or.inl ⟨rfl, rfl⟩⟩

/-- An end tag leads out of an element of its name, with the text that waits. -/
theorem exists_closed_endTag (htag : tag.isValid) (h : Within source b o outer said)
    (hname : o.tag.name = tag.name) (at' : Nat) (rest : List Char) :
    ∃ cursor o', Cursor.Sees source cursor ∧ Grows o o' (textTrees said) []
      ∧ Runs b at' (tag.endText ++ rest)
        (b.closed (o'.shut (Position.ofOffset source (at' + Text.byteSize tag.endText))) outer
          cursor)
        (at' + Text.byteSize tag.endText) rest := by
  obtain ⟨o', hsettled, hgrows⟩ := h.settled
  have hsame : o'.tag.name = String.ofList tag.name.toList := by
    rw [hgrows.tag, hname, String.ofList_toList]
  obtain ⟨cursor, hcursor, hclose⟩ := @Builder.take_endTag source b
    ⟨.endTag tag.name.toList, at', at' + Text.byteSize tag.endText⟩ h.sees _ rfl _ _ hsettled hsame
  exact ⟨cursor, o', hcursor, hgrows, .piece (WrittenTag.cuts_endText htag) hclose⟩

/-- An element is written by two tags with what is in it between them. -/
theorem writes_element {inner : Markup} (htag : tag.isValid) (hinner : inner.IsRead source)
    (hsees : Cursor.Sees source b.cursor) (hroot : b.root = none)
    (hsize : at' + Text.byteSize (tag.startText ++ (inner.text ++ tag.endText))
      ≤ Text.byteSize source) :
    Writes source b at' (tag.startText ++ (inner.text ++ tag.endText)) rest
      (tag.tree (inner.trees []))
      ((at', at' + Text.byteSize (tag.startText ++ (inner.text ++ tag.endText)))
        :: inner.places (at' + Text.byteSize tag.startText)) := by
  have htext : tag.startText ++ (inner.text ++ tag.endText) ++ rest
      = tag.startText ++ (inner.text ++ (tag.endText ++ rest)) := by simp
  have hplace : at' + Text.byteSize (tag.startText ++ (inner.text ++ tag.endText))
      = at' + Text.byteSize tag.startText + Text.byteSize inner.text
        + Text.byteSize tag.endText := by
    simp only [Text.byteSize_append]
    omega
  rw [hplace] at hsize ⊢
  -- the tag opens, the inside grows, and the end tag closes what was opened
  obtain ⟨first, hopen, hinside⟩ :=
    exists_within_startTag htag hsees hroot at' (inner.text ++ (tag.endText ++ rest))
  obtain ⟨last, o, said, trees, hruns, hwithin, hgrows, htrees⟩ :=
    hinner _ _ _ _ (at' + Text.byteSize tag.startText) (tag.endText ++ rest) hinside rfl (by omega)
  have hname : o.tag.name = tag.name := hgrows.tag ▸ WrittenTag.nameOf_text htag
  obtain ⟨cursor, o', hcursor, hgrows', hclose⟩ := exists_closed_endTag htag hwithin hname
    (at' + Text.byteSize tag.startText + Text.byteSize inner.text) rest
  rw [Builder.closed_congr (hwithin.root.trans hroot.symm)] at hclose
  have hall := hgrows.trans hgrows'
  rw [htrees, List.append_nil] at hall
  obtain ⟨htree, hplaces⟩ := tree_shut htag hall (Position.ofOffset source
    (at' + Text.byteSize tag.startText + Text.byteSize inner.text + Text.byteSize tag.endText))
  rw [Position.offset_ofOffset_of_le hsize, Position.offset_ofOffset_of_le (by omega)] at hplaces
  refine ⟨cursor, _, hcursor, ?_, htree, hplaces⟩
  rw [htext, hplace]
  exact hopen.trans (hruns.trans hclose)

/-- A new element is one more node of the innermost. -/
theorem Within.writes (h : Within source b o outer said) {text : List Char} {tree : Tree}
    (hwrites : Writes source b at' text rest tree places) :
    ∃ after o', Runs b at' (text ++ rest) after (at' + Text.byteSize text) rest
      ∧ Within source after o' outer [] ∧ Grows o o' (textTrees said ++ [tree]) places := by
  obtain ⟨cursor, content, hcursor, hruns, rfl, rfl⟩ := hwrites
  obtain ⟨o', hsettled, hgrows⟩ := h.settled
  refine ⟨_, o'.add content.node, hruns, ⟨hcursor, ?_, ?_, Or.inl ⟨rfl, rfl⟩⟩, ?_⟩
  · show grown content.node (b.settled source) = _
    rw [hsettled]
    rfl
  · refine (if_neg ?_).trans h.root
    rw [hsettled]
    exact List.cons_ne_nil _ _
  · have hadd := hgrows.trans (Grows.add o' content.node)
    rwa [List.nil_append] at hadd

/-- A run of text, a part that begins with a bracket, and more: what the part
adds comes before what the rest does. -/
theorem Markup.IsRead.behind {more : Markup} (hmore : more.IsRead source)
    (h : Within source b o outer said) {run : Spelling} (hrun : run.hides ['<', '&'])
    {part : List Char} (hfront : part.head? = some '<') {said' : List Char}
    (hpart : ∀ between, Within source between o outer (said ++ run.chars) →
      ∃ after o', Runs between (at' + Text.byteSize run.text) (part ++ (more.text ++ rest)) after
          (at' + Text.byteSize run.text + Text.byteSize part) (more.text ++ rest)
        ∧ Within source after o' outer said' ∧ Grows o o' trees places)
    (hrest : rest.head? = some '<')
    (hsize : at' + Text.byteSize (run.text ++ (part ++ more.text)) ≤ Text.byteSize source) :
    ∃ after o' said'' trees', Runs b at' (run.text ++ (part ++ more.text) ++ rest) after
        (at' + Text.byteSize (run.text ++ (part ++ more.text))) rest
      ∧ Within source after o' outer said''
      ∧ Grows o o' (trees ++ trees')
        (places ++ more.places (at' + Text.byteSize run.text + Text.byteSize part))
      ∧ trees' ++ textTrees said'' = more.trees said' := by
  have htext : run.text ++ (part ++ more.text) ++ rest
      = run.text ++ (part ++ (more.text ++ rest)) := by simp
  have hplace : at' + Text.byteSize (run.text ++ (part ++ more.text))
      = at' + Text.byteSize run.text + Text.byteSize part + Text.byteSize more.text := by
    simp only [Text.byteSize_append]
    omega
  have hbracket : (part ++ (more.text ++ rest)).head? = some '<' := by
    rw [List.head?_append, hfront]
    rfl
  rw [htext, hplace]
  rw [hplace] at hsize
  -- the run, the part and the rest, one after the other
  obtain ⟨between, hfirst, hbetween⟩ := h.run hrun hbracket at'
  obtain ⟨last, o₁, hsecond, hlast, hgrows⟩ := hpart between hbetween
  obtain ⟨after, o₂, said'', trees', hthird, hafter, hgrows', htrees⟩ :=
    hmore last o₁ outer said' _ rest hlast hrest hsize
  exact ⟨after, o₂, said'', trees', hfirst.trans (hsecond.trans hthird), hafter,
    hgrows.trans hgrows', htrees⟩

/-- A run of text alone is read as it is written. -/
theorem Markup.isRead_last {run : Spelling} (hm : (last run).isValid) :
    (last run).IsRead source := by
  intro b o outer said at' rest h hrest _
  obtain ⟨after, hruns, hafter⟩ := h.run hm hrest at'
  exact ⟨after, o, _, [], hruns, hafter, Grows.refl o, rfl⟩

/-- So is a literal section, which joins the text around it. -/
theorem Markup.isRead_literal {run : Spelling} {content : List Char} {more : Markup}
    (hm : (literal run content more).isValid) (ih : more.isValid → more.IsRead source) :
    (literal run content more).IsRead source := by
  intro b o outer said at' rest h hrest hsize
  unfold isValid at hm
  simp only [Bool.and_eq_true, decide_eq_true_eq, Bool.not_eq_true',
    List.isEmpty_eq_false_iff] at hm
  obtain ⟨⟨⟨hrun, hne⟩, hmark⟩, hmore⟩ := hm
  have hsaid : (Lexeme.literal content).said? = some content := rfl
  obtain ⟨after, o', said', trees', hruns, hafter, hgrows, htrees⟩ :=
    (ih hmore).behind h hrun rfl (fun between hbetween => by
      obtain ⟨after, htake, hafter⟩ := hbetween.take hsaid hne _ _
      exact ⟨after, o, .piece (cuts_literalText hmark) htake, hafter, Grows.refl o⟩) hrest hsize
  exact ⟨after, o', said', _, hruns, hafter, hgrows, htrees⟩

/-- A comment says nothing. -/
theorem Markup.isRead_comment {run : Spelling} {content : List Char} {more : Markup}
    (hm : (comment run content more).isValid) (ih : more.isValid → more.IsRead source) :
    (comment run content more).IsRead source := by
  intro b o outer said at' rest h hrest hsize
  unfold isValid at hm
  simp only [Bool.and_eq_true] at hm
  obtain ⟨⟨hrun, hmark⟩, hmore⟩ := hm
  obtain ⟨after, o', said', trees', hruns, hafter, hgrows, htrees⟩ :=
    (ih hmore).behind h hrun rfl (fun between hbetween =>
      ⟨between, o, .piece (cuts_commentText hmark) (Builder.take_aside rfl), hbetween,
        Grows.refl o⟩) hrest hsize
  exact ⟨after, o', said', _, hruns, hafter, hgrows, htrees⟩

/-- An empty tag adds an element without children. -/
theorem Markup.isRead_empty {run : Spelling} {tag : WrittenTag} {more : Markup}
    (hm : (empty run tag more).isValid) (ih : more.isValid → more.IsRead source) :
    (empty run tag more).IsRead source := by
  intro b o outer said at' rest h hrest hsize
  unfold isValid at hm
  simp only [Bool.and_eq_true] at hm
  obtain ⟨⟨hrun, htag⟩, hmore⟩ := hm
  have hfits : at' + Text.byteSize run.text + Text.byteSize tag.emptyText
      ≤ Text.byteSize source := by
    simp only [text, Text.byteSize_append] at hsize
    omega
  obtain ⟨after, o', said', trees', hruns, hafter, hgrows, htrees⟩ :=
    (ih hmore).behind h hrun rfl (fun between hbetween => hbetween.writes
      (writes_empty htag hbetween.sees hbetween.root hfits)) hrest hsize
  refine ⟨after, o', said', _, hruns, hafter, hgrows, ?_⟩
  rw [List.append_assoc, htrees, trees, List.append_assoc]
  rfl

/-- Two tags add an element with what is read between them. -/
theorem Markup.isRead_element {run : Spelling} {tag : WrittenTag} {inner more : Markup}
    (hm : (element run tag inner more).isValid) (ihinner : inner.isValid → inner.IsRead source)
    (ih : more.isValid → more.IsRead source) : (element run tag inner more).IsRead source := by
  intro b o outer said at' rest h hrest hsize
  unfold isValid at hm
  simp only [Bool.and_eq_true] at hm
  obtain ⟨⟨⟨hrun, htag⟩, hinner⟩, hmore⟩ := hm
  have htext : (element run tag inner more).text
      = run.text ++ (tag.startText ++ (inner.text ++ tag.endText) ++ more.text) := by
    rw [text]
    simp
  rw [htext] at hsize ⊢
  -- the place of the element is in the text, so its offsets are exact
  have hfits : at' + Text.byteSize run.text
      + Text.byteSize (tag.startText ++ (inner.text ++ tag.endText))
      ≤ Text.byteSize source := by
    rw [Text.byteSize_append, Text.byteSize_append] at hsize
    omega
  obtain ⟨after, o', said', trees', hruns, hafter, hgrows, htrees⟩ :=
    (ih hmore).behind h hrun rfl (fun between hbetween => hbetween.writes
      (writes_element htag (ihinner hinner) hbetween.sees hbetween.root hfits)) hrest hsize
  have hstop : at' + Text.byteSize run.text
      + Text.byteSize (tag.startText ++ (inner.text ++ tag.endText))
      = at' + Text.byteSize run.text + Text.byteSize tag.startText + Text.byteSize inner.text
        + Text.byteSize tag.endText := by
    simp only [Text.byteSize_append]
    omega
  rw [hstop] at hgrows
  refine ⟨after, o', said', _, hruns, hafter, hgrows, ?_⟩
  rw [List.append_assoc, htrees, trees, List.append_assoc]
  rfl

/-- Every markup is read as it is written. -/
theorem Markup.isRead (m : Markup) (hm : m.isValid) : m.IsRead source := by
  induction m with
  | last run => exact isRead_last hm
  | literal run content more ih => exact isRead_literal hm ih
  | comment run content more ih => exact isRead_comment hm ih
  | empty run tag more ih => exact isRead_empty hm ih
  | element run tag inner more ihinner ih => exact isRead_element hm ihinner ih

-- =============================================================== documents

theorem isSpecial_of_isBlank {c : Char} (h : Text.isBlank c) : isSpecial c = false := by
  cases hspecial : isSpecial c with
  | false => rfl
  | true =>
      simp only [isSpecial, Bool.or_eq_true, beq_iff_eq] at hspecial
      rcases hspecial with (((rfl | rfl) | rfl) | rfl) | rfl <;> cases h

variable {blank : List Char}

/-- Blanks outside of all elements change nothing. -/
theorem runs_blank (hopened : b.opened = []) (hblank : blank.all Text.isBlank)
    (hrest : rest = [] ∨ rest.head? = some '<') (at' : Nat) :
    Runs b at' (blank ++ rest) b (at' + Text.byteSize blank) rest := by
  by_cases hnil : blank = []
  · subst hnil
    exact .refl _ _ _
  · have hplain : ∀ c ∈ blank, isSpecial c = false := fun c hc =>
      isSpecial_of_isBlank (List.all_eq_true.mp hblank c hc)
    have hexpand : expand blank = .ok blank :=
      expand_eq_self (List.all_eq_true.mpr fun c hc => by
        rw [hplain c hc]
        rfl)
    have hbracket : blank.all (· != '<') := List.all_eq_true.mpr fun c hc => by
      rw [bne_iff_ne]
      rintro rfl
      cases hplain _ hc
    exact .piece (.text hnil hbracket hrest) (Builder.take_blank hopened hexpand hblank _ _)

/-- Comments and instructions begin with a bracket. -/
theorem Note.head?_text (note : Note) : note.text.head? = some '<' := by
  cases note <;> rfl

/-- So do comments and instructions. -/
theorem Surroundings.runs {around : Surroundings} (h : around.isValid) (hopened : b.opened = [])
    (hrest : rest = [] ∨ rest.head? = some '<') (at' : Nat) :
    Runs b at' (around.text ++ rest) b (at' + Text.byteSize around.text) rest := by
  obtain ⟨notes, tail⟩ := around
  unfold isValid at h
  rw [Bool.and_eq_true] at h
  obtain ⟨hnotes, htail⟩ := h
  induction notes generalizing at' with
  | nil => exact runs_blank hopened htail hrest at'
  | cons first notes ih =>
      obtain ⟨blank, note⟩ := first
      rw [List.all_cons, Bool.and_eq_true, Bool.and_eq_true] at hnotes
      obtain ⟨⟨hblank, hnote⟩, hnotes⟩ := hnotes
      have htext : (Surroundings.mk ((blank, note) :: notes) tail).text
          = blank ++ (note.text ++ (Surroundings.mk notes tail).text) := by
        unfold text
        rw [List.flatMap_cons]
        simp
      have hplace : at' + Text.byteSize (blank ++ (note.text ++ (Surroundings.mk notes tail).text))
          = at' + Text.byteSize blank + Text.byteSize note.text
            + Text.byteSize (Surroundings.mk notes tail).text := by
        simp only [Text.byteSize_append]
        omega
      have hbracket : (note.text ++ ((Surroundings.mk notes tail).text ++ rest)).head?
          = some '<' := by
        rw [List.head?_append, note.head?_text]
        rfl
      rw [htext, hplace, List.append_assoc, List.append_assoc]
      -- blank text, the note itself, and what is behind it
      exact (runs_blank hopened hblank (Or.inr hbracket) at').trans
        ((Runs.piece (Note.cuts hnote) (Builder.take_aside rfl)).trans (ih _ hnotes htail))

/-- What is visible of a document begins with a bracket. -/
theorem Surroundings.trimStart_text {around : Surroundings} (h : around.isValid)
    (hrest : rest.head? = some '<') :
    ∃ more, Text.trimStart (around.text ++ rest) = '<' :: more := by
  have hfront : ∀ blank s : List Char, blank.all Text.isBlank → s.head? = some '<' →
      ∃ more, Text.trimStart (blank ++ s) = '<' :: more := by
    intro blank s hblank hs
    obtain ⟨more, rfl⟩ := List.head?_eq_some_iff.mp hs
    refine ⟨more, ?_⟩
    unfold Text.trimStart
    rw [List.dropWhile_append_of_pos (List.all_eq_true.mp hblank)]
    rfl
  obtain ⟨notes, tail⟩ := around
  unfold isValid at h
  rw [Bool.and_eq_true] at h
  -- the first bracket is that of a note, or of what is behind all notes
  cases notes with
  | nil => exact hfront tail rest h.2 hrest
  | cons first notes =>
      have hfirst := List.all_eq_true.mp h.1 first List.mem_cons_self
      rw [Bool.and_eq_true] at hfirst
      unfold text
      rw [List.flatMap_cons, List.append_assoc, List.append_assoc, List.append_assoc]
      refine hfront _ _ hfirst.1 ?_
      rw [List.head?_append, first.2.head?_text]
      rfl

namespace Rendering

variable {w : Rendering}

/-- The outermost element is written like any other. -/
theorem writes (h : w.isValid) (hsees : Cursor.Sees source b.cursor) (hroot : b.root = none)
    (hsize : Text.byteSize w.before.text + Text.byteSize w.rootText ≤ Text.byteSize source) :
    Writes source b (Text.byteSize w.before.text) w.rootText rest w.tree w.places := by
  obtain ⟨before, tag, inner, after⟩ := w
  unfold isValid at h
  simp only [Bool.and_eq_true] at h
  obtain ⟨⟨⟨-, htag⟩, hinner⟩, -⟩ := h
  cases inner with
  | none => exact writes_empty htag hsees hroot hsize
  | some inner => exact writes_element htag (Markup.isRead inner hinner) hsees hroot hsize

theorem head?_rootText (w : Rendering) : w.rootText.head? = some '<' := by
  obtain ⟨before, tag, inner, after⟩ := w
  cases inner <;> rfl

/-- A text that renders a tree is read as the tree, each element where it was
written. -/
theorem tree_text (h : w.isValid) :
    ∃ content, Xml.tree w.text = .ok content ∧ content.node.tree = w.tree
      ∧ content.node.places = w.places := by
  obtain ⟨⟨⟨hbefore, -⟩, -⟩, hafter⟩ :
      ((w.before.isValid ∧ w.tag.isValid) ∧ w.inner.all (·.isValid)) ∧ w.after.isValid := by
    unfold isValid at h
    simpa only [Bool.and_eq_true] using h
  have hbracket : (w.rootText ++ w.after.text).head? = some '<' := by
    rw [List.head?_append, w.head?_rootText]
    rfl
  have hsize : Text.byteSize w.before.text + Text.byteSize w.rootText ≤ Text.byteSize w.text := by
    unfold text
    rw [Text.byteSize_append, Text.byteSize_append]
    omega
  let start := Builder.start w.text
  have hfirst := @Surroundings.runs _ start _ hbefore rfl (Or.inr hbracket) 0
  rw [Nat.zero_add] at hfirst
  obtain ⟨cursor, content, -, hsecond, htree, hplaces⟩ :=
    @writes w.text w.after.text start w h (Cursor.sees_start _) rfl hsize
  -- what is behind the root finds no element open
  have hthird := @Surroundings.runs [] (start.closed content [] cursor) w.after hafter rfl
    (Or.inl rfl) (Text.byteSize w.before.text + Text.byteSize w.rootText)
  rw [List.append_nil] at hthird
  obtain ⟨hfault, htake⟩ := (hfirst.trans (hsecond.trans hthird)).takeAll_scan rfl
  refine ⟨content, ?_, htree, hplaces⟩
  exact tree_eq_of_takeAll (Surroundings.trimStart_text hbefore hbracket) hfault htake rfl

end Rendering

mutual

/-- The places of the elements, in document order. -/
theorem Node.map_elements (around : List Content) :
    ∀ node : Node, (node.elements around).map (fun e => (e.span.start.offset, e.span.stop.offset))
      = node.places
  | .element tag span children => by
      rw [Node.elements, Node.places, List.map_cons,
        map_elementsOfAll (⟨tag, span, children⟩ :: around) children]
  | .text .. => by
      rw [Node.elements, Node.places]
      rfl

/-- The elements of nodes stand where the nodes were placed. -/
theorem map_elementsOfAll (around : List Content) :
    ∀ nodes, (elementsOfAll around nodes).map
      (fun e => (e.span.start.offset, e.span.stop.offset)) = placesOf nodes
  | [] => by
      rw [elementsOfAll, placesOf]
      rfl
  | node :: more => by
      rw [elementsOfAll, placesOf, List.map_append, Node.map_elements around node,
        map_elementsOfAll around more]

end

/-- However a tree is written, it is read: the names, the attributes, the
order of the children and the texts are those of the tree, and each element
begins at the bracket that opens it and ends behind the one that closes it. -/
theorem Document.parse_of_renders {t : Tree} {w : Rendering} (h : w.Renders t) :
    ∃ d, Document.parse (String.ofList w.text) = .ok d ∧ d.tree = t
      ∧ d.elements.map (fun e => (e.span.start.offset, e.span.stop.offset)) = w.places := by
  obtain ⟨hvalid, rfl⟩ := h
  obtain ⟨content, hcontent, htree, hplaces⟩ := Rendering.tree_text hvalid
  rw [Document.parse_eq, String.toList_ofList, hcontent]
  exact ⟨_, rfl, htree, (Node.map_elements [] _).trans hplaces⟩

/-- A declaration, a comment and blanks around an element, in which text,
entities, a literal section, a comment and elements of both forms stand. -/
def noteRendering : Rendering where
  before := ⟨[([], .instruction "xml version='1.0'".toList), (['\n'], .comment " c ".toList)],
    ['\n']⟩
  tag := ⟨"a", [⟨[' '], "k", '\'', [⟨'<', true⟩, ⟨'"', false⟩]⟩], []⟩
  inner := some (.literal [⟨'x', false⟩, ⟨'&', true⟩] ['<', 'y', '>']
    (.comment [] " c ".toList
      (.empty [⟨'z', false⟩] ⟨"b", [], [' ']⟩
        (.element [] ⟨"c", [], []⟩ (.last []) (.last [⟨'é', false⟩])))))
  after := ⟨[], ['\n']⟩

/-- The text before the element `b` is one node, though it is written in
three parts. -/
theorem Document.parse_note :
    noteRendering.text = ("<?xml version='1.0'?>\n<!-- c -->\n<a k='&lt;\"'>"
        ++ "x&amp;<![CDATA[<y>]]><!-- c -->z<b /><c></c>é</a>\n").toList
      ∧ ∃ d, Document.parse (String.ofList noteRendering.text) = .ok d
        ∧ d.tree = .element "a" [("k", "<\"")]
          [.text "x&<y>z", .element "b" [] [], .element "c" [] [], .text "é"]
        ∧ d.elements.map (fun e => (e.span.start.offset, e.span.stop.offset))
          = [(33, 96), (78, 83), (83, 90)] := by
  have hplaces : noteRendering.places = [(33, 96), (78, 83), (83, 90)] := by decide +kernel
  refine ⟨by decide +kernel, ?_⟩
  rw [← hplaces]
  exact Document.parse_of_renders ⟨by decide, rfl⟩

end ResourceLint.Xml
