/-
What a page accounts for.

A page has a section for each issue, and the section has an occurrence for
each finding of the issue (`IsSection`).  In full mode the occurrences from
the ninth on are in a block that is hidden, under a button that says how many
they are.  The table of contents has a row for each section with the number
of its occurrences; where the findings are sorted, the rows stand under one
heading for each category (`Accounts`).

All of this is said of the page as it is read.  The parts of a page are found
by their tags, so that for each kind of part it is enough to look at the
pieces that are made with this tag.
-/
import Mathlib.Data.List.Forall2
import ResourceLint.Proofs.Grouping
import ResourceLint.Proofs.PageOutline

namespace ResourceLint

namespace Html

variable {t : Template} {tag : String} {attributes : List HtmlAttribute} {children more : List Html}

/-- What is in an element that is not of the kind. -/
theorem select_element (h : t.fits tag (attributes.map written) = false) :
    select t (nodesOfAll (.element tag attributes children :: more))
      = select t (nodesOfAll children) ++ select t (nodesOfAll more) := by
  rw [nodesOfAll, nodes, List.singleton_append, select, Node.select, h]
  rfl

/-- An element of the kind, and what is in it. -/
theorem select_element_self (h : t.fits tag (attributes.map written)) :
    select t (nodesOfAll (.element tag attributes children :: more))
      = .element tag (attributes.map written) (nodesOfAll children)
        :: (select t (nodesOfAll children) ++ select t (nodesOfAll more)) := by
  rw [nodesOfAll, nodes, List.singleton_append, select, Node.select, h]
  rfl

theorem select_nil : select t (nodesOfAll []) = [] := rfl

theorem select_fixed (s : String) :
    select t (nodesOfAll (.fixed s :: more)) = select t (nodesOfAll more) := by
  rw [nodesOfAll, nodes, select_append, select_chars, List.nil_append]

theorem select_text (s : String) :
    select t (nodesOfAll (.text s :: more)) = select t (nodesOfAll more) := by
  rw [nodesOfAll, nodes, select_append, select_chars, List.nil_append]

/-- An element with a text says this text. -/
theorem text_element (tag : String) (attributes : List (String × String)) (s : String) :
    (Node.element tag attributes (nodesOfAll [.text s])).text = s := by
  rw [Node.text, Node.chars, nodesOfAll, nodes, nodesOfAll, List.append_nil, charsOf_chars,
    unescape_escape, String.ofList_toList]

/-- The text of an element with nothing but plain text in it is that text. -/
theorem text_element_fixed (tag : String) (attributes : List (String × String)) {s : String}
    (h : '&' ∉ s.toList) : (Node.element tag attributes (nodesOfAll [.fixed s])).text = s := by
  rw [Node.text, Node.chars, nodesOfAll, nodes, nodesOfAll, List.append_nil, charsOf_chars,
    unescape_of_not_mem h, String.ofList_toList]

end Html

namespace Report

open Html Warning

-- ================================================================ occurrences

/-- A block that is the occurrence of a finding, and says its message. -/
def Shows (options : PageOptions) (w : Warning) (block : Node) : Prop :=
  (∃ copies, nodes (occurrence options copies w).1 = [block])
    ∧ (block.select messageTag).map Node.text = [w.message]

/-- A block is one node, and the only occurrence in it. -/
theorem IsBlock.exists_node {message : String} {block : Html} (h : IsBlock message block) :
    ∃ node, nodes block = [node] ∧ node.select occurrenceTag = [node]
      ∧ (node.select messageTag).map Node.text = [message] := by
  obtain ⟨before, after, rfl, hbefore, hafter⟩ := h
  have hoccurrence : ∀ pieces : List Html,
      allUse (locationTags ++ messageTags ++ codeTags ++ imageTags) pieces →
        select occurrenceTag (nodesOfAll pieces) = [] := select_eq_nil (by decide)
  have hmessage : ∀ pieces : List Html,
      allUse (locationTags ++ messageTags ++ codeTags ++ imageTags) pieces →
        select messageTag (nodesOfAll pieces) = [] := select_eq_nil (by decide)
  refine ⟨_, rfl, ?_, ?_⟩
  · have hself : occurrenceTag.fits "div" ([attr "class" "occurrence"].map written) := rfl
    rw [Node.select, if_pos hself, nodesOfAll_append, select_append, hoccurrence before hbefore,
      classed, select_element rfl, hoccurrence after hafter, select_text]
    rfl
  · have hother : ¬ messageTag.fits "div" ([attr "class" "occurrence"].map written) := nofun
    rw [Node.select, if_neg hother, nodesOfAll_append, select_append, hmessage before hbefore,
      classed, select_element_self rfl, hmessage after hafter, select_text, List.nil_append,
      List.nil_append]
    exact congrArg (fun text => [text]) (text_element _ _ message)

/-- Blocks of occurrences. -/
def AreBlocks (blocks : List Html) : Prop := ∀ block ∈ blocks, ∃ message, IsBlock message block

section Blocks

variable {block : Html} {blocks : List Html}

/-- The occurrences of an issue are blocks. -/
theorem areBlocks_occurrences (options : PageOptions) (copies : Copies) (found : List Warning) :
    AreBlocks (occurrences options copies found).1 := by
  induction found generalizing copies with
  | nil => exact nofun
  | cons w found ih =>
      exact List.forall_mem_cons.mpr ⟨⟨_, isBlock_occurrence options copies w⟩, ih _⟩

/-- Every block is one node, an occurrence. -/
theorem AreBlocks.exists_node (h : AreBlocks blocks) (hmem : block ∈ blocks) :
    ∃ node, nodes block = [node] ∧ node.select occurrenceTag = [node] := by
  obtain ⟨message, hmessage⟩ := h block hmem
  obtain ⟨node, hnode, hselect, -⟩ := hmessage.exists_node
  exact ⟨node, hnode, hselect⟩

theorem AreBlocks.allUse (h : AreBlocks blocks) : allUse (occurrenceTag :: blockTags) blocks := by
  rw [allUse_iff]
  intro block hblock
  obtain ⟨message, hmessage⟩ := h block hblock
  exact hmessage.uses

/-- Blocks hold no further occurrences. -/
theorem AreBlocks.select (h : AreBlocks blocks) :
    select occurrenceTag (nodesOfAll blocks) = nodesOfAll blocks := by
  induction blocks with
  | nil => rfl
  | cons block blocks ih =>
      obtain ⟨node, hnode, hselect⟩ := h.exists_node List.mem_cons_self
      rw [nodesOfAll, hnode, List.singleton_append, Html.select, hselect,
        ih (List.forall_mem_cons.mp h).2]
      rfl

/-- There is one node for each block. -/
theorem AreBlocks.length (h : AreBlocks blocks) : (nodesOfAll blocks).length = blocks.length := by
  induction blocks with
  | nil => rfl
  | cons block blocks ih =>
      obtain ⟨node, hnode, -⟩ := h.exists_node List.mem_cons_self
      rw [nodesOfAll, hnode, List.singleton_append, List.length_cons, List.length_cons,
        ih (List.forall_mem_cons.mp h).2]

/-- The nodes of the first blocks are the first nodes. -/
theorem AreBlocks.nodes_take (h : AreBlocks blocks) (n : Nat) :
    nodesOfAll (blocks.take n) = (nodesOfAll blocks).take n := by
  induction blocks generalizing n with
  | nil => simp [nodesOfAll]
  | cons block blocks ih =>
      obtain ⟨node, hnode, -⟩ := h.exists_node List.mem_cons_self
      cases n with
      | zero => rfl
      | succ n =>
          rw [List.take_succ_cons, nodesOfAll, nodesOfAll, hnode, ih (List.forall_mem_cons.mp h).2]
          rfl

theorem AreBlocks.nodes_drop (h : AreBlocks blocks) (n : Nat) :
    nodesOfAll (blocks.drop n) = (nodesOfAll blocks).drop n := by
  induction blocks generalizing n with
  | nil => simp [nodesOfAll]
  | cons block blocks ih =>
      obtain ⟨node, hnode, -⟩ := h.exists_node List.mem_cons_self
      cases n with
      | zero => rfl
      | succ n =>
          rw [List.drop_succ_cons, nodesOfAll, hnode, ih (List.forall_mem_cons.mp h).2]
          rfl

/-- Line ends between blocks are no nodes that anybody selects. -/
theorem select_onLines (t : Template) (blocks : List Html) :
    Html.select t (nodesOfAll (onLines blocks)) = Html.select t (nodesOfAll blocks) := by
  induction blocks with
  | nil => rfl
  | cons block blocks ih =>
      rw [onLines, List.flatMap_cons, ← onLines, List.cons_append, List.singleton_append,
        nodesOfAll, select_append, lineEnd, select_fixed, ih, nodesOfAll, select_append]

end Blocks

/-- Each finding has its block, in order. -/
theorem shows_occurrences (options : PageOptions) (copies : Copies) (found : List Warning) :
    List.Forall₂ (Shows options) found (nodesOfAll (occurrences options copies found).1) := by
  induction found generalizing copies with
  | nil => exact .nil
  | cons w found ih =>
      obtain ⟨node, hnode, -, hmessage⟩ := (isBlock_occurrence options copies w).exists_node
      rw [occurrences, nodesOfAll, hnode]
      exact .cons ⟨⟨copies, hnode⟩, hmessage⟩ (ih _)

-- ==================================================================== folding

/-- Nodes that hold the occurrences of an issue, with some of them hidden. -/
structure Folds (simple : Bool) (blocks nodes : List Node) : Prop where
  all : select occurrenceTag nodes = blocks
  /-- nothing is hidden in simple mode, or up to the limit -/
  plain : simple ∨ blocks.length ≤ 8 → select hiddenTag nodes = [] ∧ select buttonTag nodes = []
  folded : simple = false → 8 < blocks.length →
    select occurrenceTag (prune hiddenTag nodes) = blocks.take 8
      ∧ (∃ hidden, select hiddenTag nodes = [hidden]
        ∧ hidden.select occurrenceTag = blocks.drop 8)
      ∧ (select buttonTag nodes).map Node.text
        = ["+ " ++ toString (blocks.length - 8) ++ " More Occurrences..."]

/-- The button that shows what is hidden. -/
def buttonOf (id : String) (n : Nat) : Html :=
  element "button" [⟨"id", "", id, "Link"⟩, ⟨"onclick", "reveal('", id, "');"⟩]
    [fixed ("+ " ++ toString n ++ " More Occurrences...")]

/-- What is hidden. -/
def hiddenOf (id : String) (blocks : List Html) : Html :=
  element "div" [attr "id" id, attr "style" "display: none"] (lineEnd :: onLines blocks)

/-- The button says how many are hidden, and nothing else on it is of note. -/
theorem exists_buttonOf (id : String) (n : Nat) : ∃ node, nodes (buttonOf id n) = [node]
    ∧ node.select buttonTag = [node] ∧ node.select hiddenTag = [] ∧ node.select occurrenceTag = []
    ∧ node.prune hiddenTag = [node] ∧ node.text = "+ " ++ toString n ++ " More Occurrences..." := by
  have hplain : '&' ∉ ("+ " ++ toString n ++ " More Occurrences...").toList := by
    rw [String.toList_append, String.toList_append, List.mem_append, List.mem_append, not_or, not_or]
    exact ⟨⟨by decide, notMem_toString rfl n⟩, by decide⟩
  have hselect : ∀ t, select t (nodesOfAll [fixed ("+ " ++ toString n ++ " More Occurrences...")])
      = [] := fun t => select_fixed _
  have hprune : prune hiddenTag
      (nodesOfAll [fixed ("+ " ++ toString n ++ " More Occurrences...")])
        = nodesOfAll [fixed ("+ " ++ toString n ++ " More Occurrences...")] := by
    rw [nodesOfAll, nodes, prune_append, prune_chars]
    rfl
  refine ⟨_, rfl, ?_, ?_, ?_, ?_, text_element_fixed _ _ hplain⟩
  · rw [Node.select, hselect]
    rfl
  · rw [Node.select, hselect]
    rfl
  · rw [Node.select, hselect]
    rfl
  · rw [Node.prune, hprune]
    rfl

/-- What is hidden holds its blocks, and no button. -/
theorem exists_hiddenOf (id : String) {blocks : List Html} (h : AreBlocks blocks) :
    ∃ node, nodes (hiddenOf id blocks) = [node]
      ∧ node.select hiddenTag = [node] ∧ node.select buttonTag = []
      ∧ node.select occurrenceTag = nodesOfAll blocks ∧ node.prune hiddenTag = [] := by
  have hinside : ∀ t, select t (nodesOfAll (lineEnd :: onLines blocks))
      = select t (nodesOfAll blocks) := fun t => by rw [lineEnd, select_fixed, select_onLines]
  refine ⟨_, rfl, ?_, ?_, ?_, rfl⟩
  · rw [Node.select, hinside, select_eq_nil (by decide) _ h.allUse]
    rfl
  · rw [Node.select, hinside, select_eq_nil (by decide) _ h.allUse]
    rfl
  · rw [Node.select, hinside, h.select]
    rfl

/-- Few occurrences stand one after the other. -/
theorem folds_onLines {simple : Bool} {blocks : List Html} (h : AreBlocks blocks)
    (hfew : simple ∨ blocks.length ≤ splitLimit) :
    Folds simple (nodesOfAll blocks) (nodesOfAll (onLines blocks)) := by
  refine ⟨by rw [select_onLines, h.select], fun _ => ?_, fun hsimple hlong => ?_⟩
  · rw [select_onLines, select_onLines]
    exact ⟨select_eq_nil (by decide) _ h.allUse, select_eq_nil (by decide) _ h.allUse⟩
  · rw [h.length] at hlong
    rcases hfew with htrue | hshort
    · exact absurd htrue (by simp [hsimple])
    · exact absurd hlong (Nat.not_lt.mpr hshort)

/-- Of many occurrences those behind the limit are hidden, below a button. -/
theorem folds_hidden {simple : Bool} (id : String) {blocks : List Html} (h : AreBlocks blocks)
    (hmany : ¬(simple ∨ blocks.length ≤ splitLimit)) :
    Folds simple (nodesOfAll blocks) (nodesOfAll (onLines (blocks.take splitLimit)
      ++ [buttonOf id (blocks.length - splitLimit), lineEnd,
        hiddenOf id (blocks.drop splitLimit), lineEnd])) := by
  have htake : AreBlocks (blocks.take splitLimit) := fun b hb => h b (List.mem_of_mem_take hb)
  have hdrop : AreBlocks (blocks.drop splitLimit) := fun b hb => h b (List.mem_of_mem_drop hb)
  obtain ⟨button, hbutton, hb1, hb2, hb3, hb4, htext⟩ :=
    exists_buttonOf id (blocks.length - splitLimit)
  obtain ⟨hidden, hhidden, hh1, hh2, hh3, hh4⟩ := exists_hiddenOf id hdrop
  have hnodes : nodesOfAll (onLines (blocks.take splitLimit)
        ++ [buttonOf id (blocks.length - splitLimit), lineEnd,
          hiddenOf id (blocks.drop splitLimit), lineEnd])
      = nodesOfAll (onLines (blocks.take splitLimit))
        ++ [button, .char '\n', hidden, .char '\n'] := by
    rw [nodesOfAll_append, nodesOfAll, nodesOfAll, nodesOfAll, hbutton, hhidden]
    rfl
  -- whatever is selected is in the shown blocks, in the button or in what is hidden
  have hselect : ∀ t, select t (nodesOfAll (onLines (blocks.take splitLimit))
        ++ [button, .char '\n', hidden, .char '\n'])
      = select t (nodesOfAll (blocks.take splitLimit)) ++ (button.select t ++ hidden.select t) := by
    intro t
    rw [select_append, select_onLines]
    simp [select, Node.select]
  have hnone : ∀ t, (occurrenceTag :: blockTags).all t.isApart →
      select t (nodesOfAll (blocks.take splitLimit)) = [] := fun t hapart =>
    select_eq_nil hapart _ htake.allUse
  rw [hnodes]
  refine ⟨?_, fun hfew => ?_, fun _ _ => ⟨?_, ⟨hidden, ?_, ?_⟩, ?_⟩⟩
  · rw [hselect, htake.select, hb3, hh3, List.nil_append, ← nodesOfAll_append,
      List.take_append_drop]
  · rw [h.length] at hfew
    exact absurd hfew hmany
  · -- cutting the hidden part away leaves the shown blocks and the button
    have hshown : prune hiddenTag (nodesOfAll (onLines (blocks.take splitLimit)))
        = nodesOfAll (onLines (blocks.take splitLimit)) :=
      prune_eq_self (by decide) _ (allUse_onLines htake.allUse)
    have hrest : prune hiddenTag [button, .char '\n', hidden, .char '\n']
        = [button, .char '\n', .char '\n'] := by
      simp [prune, Node.prune, hb4, hh4]
    rw [prune_append, hshown, hrest, select_append, select_onLines, htake.select,
      h.nodes_take]
    simp [select, Node.select, hb3, splitLimit]
  · rw [hselect, hnone _ (by decide), hb2, hh1]
    rfl
  · rw [hh3, h.nodes_drop]
    rfl
  · rw [hselect, hnone _ (by decide), hb1, hh2, h.length]
    exact congrArg (fun text => [text]) htext

/-- The loop over the blocks shows the first of them and hides the others behind
one button. -/
theorem folds_foldedBlocks {blocks : List Html} (simple : Bool) (id : String)
    (h : AreBlocks blocks) :
    Folds simple (nodesOfAll blocks) (nodesOfAll (foldedBlocks simple id blocks)) := by
  have hguard : (simple || blocks.length ≤ splitLimit) = true
      ↔ simple ∨ blocks.length ≤ splitLimit := by simp
  rw [foldedBlocks_eq]
  split
  · next hfew => exact folds_onLines h (hguard.mp hfew)
  · next hmany => exact folds_hidden id h (mt hguard.mpr hmany)

-- =================================================================== sections

/-- The node of a section that shows some findings under an id. -/
structure IsSection (options : PageOptions) (shown : List Warning) (id : String) (node : Node) :
    Prop where
  heading : (node.select idTag).map Node.text = [id]
  blocks : ∃ blocks, List.Forall₂ (Shows options) shown blocks
    ∧ Folds options.simple blocks [node]

/-- The list of occurrences in a section. -/
def listOf (inside : List Html) : Html :=
  element "div" [attr "class" "warningslist"] (lineEnd :: inside)

/-- A section with a list of occurrences in it. -/
def sectionOf (lead inside rest : List Html) : Html :=
  element "section" [attr "class" "issue"] (lead ++ listOf inside :: rest)

section Frame

variable {lead inside rest : List Html} (hlead : allUse frameTags lead) (hrest : allUse frameTags rest)

include hlead hrest

/-- What is looked for in a section is in its list, unless it is around it. -/
theorem select_sectionOf {t : Template}
    (hapart : (sectionTag :: listTag :: frameTags).all t.isApart) :
    select t (nodes (sectionOf lead inside rest)) = select t (nodesOfAll inside) := by
  have hframe : frameTags.all t.isApart := by
    rw [List.all_cons, List.all_cons, Bool.and_eq_true, Bool.and_eq_true] at hapart
    exact hapart.2.2
  have hsection : t.fits "section" ([attr "class" "issue"].map written) = false :=
    Template.fits_eq_false (List.all_eq_true.mp hapart sectionTag List.mem_cons_self) rfl
  have hlist : t.fits "div" ([attr "class" "warningslist"].map written) = false :=
    Template.fits_eq_false (List.all_eq_true.mp hapart listTag
      (List.mem_cons_of_mem _ List.mem_cons_self)) rfl
  have hcontent : select t (nodesOfAll (lead ++ listOf inside :: rest))
      = select t (nodesOfAll inside) := by
    rw [nodesOfAll_append, select_append, select_eq_nil hframe _ hlead, listOf,
      select_element hlist, select_eq_nil hframe _ hrest, lineEnd, select_fixed, List.nil_append,
      List.append_nil]
  rw [sectionOf, nodes, select, Node.select, hsection, hcontent, select, List.append_nil]
  rfl

/-- What is shown of a section is what is shown of its list. -/
theorem select_prune_sectionOf :
    select occurrenceTag (prune hiddenTag (nodes (sectionOf lead inside rest)))
      = select occurrenceTag (prune hiddenTag (nodesOfAll inside)) := by
  have hnone : ∀ pieces, allUse frameTags pieces →
      select occurrenceTag (prune hiddenTag (nodesOfAll pieces)) = [] := fun pieces h => by
    rw [prune_eq_self (by decide) pieces h, select_eq_nil (by decide) pieces h]
  -- of a section the list alone has occurrences
  have hlist : select occurrenceTag (prune hiddenTag (nodes (listOf inside)))
      = select occurrenceTag (prune hiddenTag (nodesOfAll inside)) := by
    have hpruned : prune hiddenTag (nodes (listOf inside))
        = [.element "div" ([attr "class" "warningslist"].map written)
          (.char '\n' :: prune hiddenTag (nodesOfAll inside))] := rfl
    have hline : select occurrenceTag (.char '\n' :: prune hiddenTag (nodesOfAll inside))
        = select occurrenceTag (prune hiddenTag (nodesOfAll inside)) := rfl
    rw [hpruned, select, Node.select, hline, select, List.append_nil]
    rfl
  have hcontent : select occurrenceTag (prune hiddenTag (nodesOfAll (lead ++ listOf inside :: rest)))
      = select occurrenceTag (prune hiddenTag (nodesOfAll inside)) := by
    rw [nodesOfAll_append, nodesOfAll, prune_append, prune_append, select_append, select_append,
      hnone lead hlead, hnone rest hrest, hlist, List.nil_append, List.append_nil]
  have hpruned : prune hiddenTag (nodes (sectionOf lead inside rest))
      = [.element "section" ([attr "class" "issue"].map written)
        (prune hiddenTag (nodesOfAll (lead ++ listOf inside :: rest)))] := rfl
  rw [hpruned, select, Node.select, hcontent, select, List.append_nil]
  rfl

/-- A section holds no further section. -/
theorem select_sectionOf_self (hinside : allUse listTags inside) :
    select sectionTag (nodes (sectionOf lead inside rest)) = nodes (sectionOf lead inside rest) := by
  have hlist : uses (listTag :: (frameTags ++ listTags)) (listOf inside) :=
    uses_element (t := listTag) List.mem_cons_self rfl rfl
      (allUse_cons rfl (allUse_mono (by decide) _ hinside))
  have hcontent : allUse (listTag :: (frameTags ++ listTags))
      (lead ++ listOf inside :: rest) :=
    allUse_append (allUse_mono (by decide) _ hlead)
      (allUse_cons hlist (allUse_mono (by decide) _ hrest))
  have hself : sectionTag.fits "section" ([attr "class" "issue"].map written) := rfl
  rw [sectionOf, nodes, select, Node.select, if_pos hself, select_eq_nil (by decide) _ hcontent]
  rfl

/-- Hence a section hides what its list hides. -/
theorem folds_sectionOf {simple : Bool} {blocks : List Node}
    (h : Folds simple blocks (nodesOfAll inside)) :
    Folds simple blocks (nodes (sectionOf lead inside rest)) := by
  have hall : ∀ t, (sectionTag :: listTag :: frameTags).all t.isApart →
      select t (nodes (sectionOf lead inside rest)) = select t (nodesOfAll inside) :=
    fun _ => select_sectionOf hlead hrest
  refine ⟨?_, fun hplain => ?_, fun hsimple hlong => ?_⟩
  · rw [hall occurrenceTag (by decide)]
    exact h.all
  · rw [hall hiddenTag (by decide), hall buttonTag (by decide)]
    exact h.plain hplain
  · rw [hall hiddenTag (by decide), hall buttonTag (by decide), select_prune_sectionOf hlead hrest]
    exact h.folded hsimple hlong

end Frame

/-- A section shows the findings of its group. -/
theorem exists_issueSection (options : PageOptions) (copies : Copies) (g : Group) :
    ∃ node, nodesOfAll (issueSection options copies g).1
        = [.element "a" [written (attr "name" g.issue.id)] [], .char '\n', node, .char '\n']
      ∧ node.select sectionTag = [node]
      ∧ IsSection options g.warnings g.issue.id node := by
  have hlead : allUse frameTags [lineEnd, element "h2" []
      [classed "span" "id" g.issue.id, fixed ": ", text g.issue.summary], lineEnd] := rfl
  have hmetadata : allUse (metadataTag :: metadataTags)
      [lineEnd, metadata g.issue (groupSeverity g), lineEnd] :=
    allUse_cons rfl (allUse_cons (uses_metadata _ _) rfl)
  have hrest : allUse frameTags [lineEnd, metadata g.issue (groupSeverity g), lineEnd] :=
    allUse_mono (by decide) _ hmetadata
  have hblocks := areBlocks_occurrences options copies g.warnings
  have hlist : allUse listTags (foldedBlocks options.simple g.issue.id
      (occurrences options copies g.warnings).1) :=
    allUse_foldedBlocks _ _ (allUse_mono (by decide) _ hblocks.allUse)
  refine ⟨_, rfl, ?_, ?_, _, shows_occurrences options copies g.warnings,
    folds_sectionOf hlead hrest (folds_foldedBlocks options.simple g.issue.id hblocks)⟩
  · have hself := select_sectionOf_self hlead hrest hlist
    rwa [sectionOf, nodes, select, select, List.append_nil] at hself
  · -- the id is read off the heading, and stands nowhere else
    have hother : ¬ idTag.fits "section" ([attr "class" "issue"].map written) := nofun
    have hnone := select_eq_nil (t := idTag) (by decide) _ hmetadata
    rw [lineEnd] at hnone
    rw [Node.select, if_neg hother, lineEnd, select_fixed, select_element rfl, classed,
      select_element_self rfl, select_text, select_fixed, select_text, select_fixed,
      select_element rfl, select_fixed, select_eq_nil (by decide) _ hlist, hnone]
    exact congrArg (fun text => [text]) (text_element _ _ g.issue.id)

/-- There is a section for each group, and no occurrence outside of them. -/
theorem select_sections (options : PageOptions) (copies : Copies) (groups : List Group) :
    List.Forall₂ (fun g => IsSection options g.warnings g.issue.id) groups
        (select sectionTag (nodesOfAll (sections options copies groups).1))
      ∧ select occurrenceTag (nodesOfAll (sections options copies groups).1)
        = (select sectionTag (nodesOfAll (sections options copies groups).1)).flatMap
          (Node.select occurrenceTag) := by
  induction groups generalizing copies with
  | nil => exact ⟨.nil, rfl⟩
  | cons g groups ih =>
      obtain ⟨node, hnodes, hself, hsection⟩ := exists_issueSection options copies g
      obtain ⟨hsections, hflat⟩ := ih (issueSection options copies g).2
      have hall : ∀ t, t.fits "a" [written (attr "name" g.issue.id)] = false →
          select t (nodesOfAll (sections options copies (g :: groups)).1)
            = node.select t ++ select t (nodesOfAll
              (sections options (issueSection options copies g).2 groups).1) := by
        intro t ht
        rw [sections, nodesOfAll_append, select_append, hnodes]
        simp [select, Node.select, ht]
      rw [hall sectionTag rfl, hall occurrenceTag rfl, hself, hflat]
      exact ⟨.cons hsection hsections, by simp⟩

-- ===================================================== the table of contents

/-- A line of the table of contents. -/
inductive ContentsLine
  | heading (category : String)
  | row (count id : String)
deriving DecidableEq

namespace ContentsLine

def isRow : ContentsLine → Bool
  | .heading _ => false
  | .row _ _ => true

/-- The line that a row of the table is. -/
def ofNode? (node : Node) : Option ContentsLine :=
  match node.select categoryTag, node.select countTag, node.select linkTag with
  | [category], [], [] => some (.heading category.text)
  | [], [count], [link] => some (.row count.text link.text)
  | _, _, _ => none

/-- A row with a category in it is a heading. -/
theorem ofNode?_heading {node category : Node} (hcategory : node.select categoryTag = [category])
    (hcount : node.select countTag = []) (hlink : node.select linkTag = []) :
    ofNode? node = some (.heading category.text) := by
  rw [ofNode?, hcategory, hcount, hlink]

/-- A row with a count and a link in it tells of an issue. -/
theorem ofNode?_row {node count link : Node} (hcategory : node.select categoryTag = [])
    (hcount : node.select countTag = [count]) (hlink : node.select linkTag = [link]) :
    ofNode? node = some (.row count.text link.text) := by
  rw [ofNode?, hcategory, hcount, hlink]

end ContentsLine

/-- The lines of the table of contents of a page. -/
def contentsLines? (nodes : List Node) : Option (List ContentsLine) :=
  (select rowTag (select contentsTag nodes)).mapM ContentsLine.ofNode?

/-- The line of a group. -/
def rowOf (g : Group) : ContentsLine := .row (toString g.warnings.length) g.issue.id

/-- The name of the category of a group. -/
def categoryOf (g : Group) : String := g.issue.category.fullName

/-- The lines for some groups, with a heading wherever the category is another
than before. -/
def linesFor (category : String) : List Group → List ContentsLine
  | [] => []
  | g :: more =>
    (if categoryOf g = category then [] else [.heading (categoryOf g)])
      ++ rowOf g :: linesFor (categoryOf g) more

/-- A heading is a line of the table. -/
theorem exists_contentsHeading (category : String) :
    ∃ node, nodes (element "tr" []
        [element "td" [attr "colspan" "3", attr "class" "category"] [text category]]) = [node]
      ∧ node.select rowTag = [node] ∧ ContentsLine.ofNode? node = some (.heading category) := by
  have hcategory : select categoryTag (nodesOfAll
      [element "td" [attr "colspan" "3", attr "class" "category"] [text category]])
        = [.element "td" ([attr "colspan" "3", attr "class" "category"].map written)
          (nodesOfAll [text category])] := by
    rw [select_element_self rfl, select_text]
    rfl
  have hnone : ∀ t, t.fits "td" ([attr "colspan" "3", attr "class" "category"].map written) = false →
      select t (nodesOfAll
        [element "td" [attr "colspan" "3", attr "class" "category"] [text category]]) = [] := by
    intro t ht
    rw [select_element ht, select_text]
    rfl
  refine ⟨_, rfl, ?_, ?_⟩
  · rw [Node.select, hnone rowTag rfl]
    rfl
  · rw [ContentsLine.ofNode?_heading (by rw [Node.select, hcategory]; rfl)
      (by rw [Node.select, hnone countTag rfl]; rfl) (by rw [Node.select, hnone linkTag rfl]; rfl),
      text_element]

/-- The row of an issue. -/
def contentsRow (g : Group) : Html :=
  element "tr" []
    [classed "td" "count" (toString g.warnings.length),
      element "td" [attr "class" (severityClass (groupSeverity g))] [],
      element "td" []
        [element "a" [⟨"href", "#", g.issue.id, ""⟩] [text g.issue.id], fixed ": ",
          text g.issue.summary]]

/-- It is a line, too. -/
theorem exists_contentsRow (g : Group) :
    ∃ node, nodes (contentsRow g) = [node] ∧ node.select rowTag = [node]
      ∧ ContentsLine.ofNode? node = some (.row (toString g.warnings.length) g.issue.id) := by
  -- a cell named after a severity is no count
  have hseverity : countTag.fits "td"
      ([attr "class" (severityClass (groupSeverity g))].map written) = false := by
    cases groupSeverity g <;> rfl
  refine ⟨_, rfl, ?_, ?_⟩
  · rw [Node.select, classed, select_element rfl, select_text, select_element rfl,
      select_element rfl, select_element rfl, select_text, select_fixed, select_text]
    rfl
  · have hcategory : select categoryTag (nodes (contentsRow g)) = [] := by
      rw [contentsRow, nodes, select, Node.select, classed, select_element rfl, select_text,
        select_element rfl, select_element rfl, select_element rfl, select_text, select_fixed,
        select_text]
      rfl
    have hcount : select countTag (nodes (contentsRow g))
        = [.element "td" ([attr "class" "count"].map written)
          (nodesOfAll [text (toString g.warnings.length)])] := by
      rw [contentsRow, nodes, select, Node.select, classed, select_element_self rfl, select_text,
        select_element hseverity, select_element rfl, select_element rfl, select_text, select_fixed,
        select_text]
      rfl
    have hlink : select linkTag (nodes (contentsRow g))
        = [.element "a" ([⟨"href", "#", g.issue.id, ""⟩].map written)
          (nodesOfAll [text g.issue.id])] := by
      rw [contentsRow, nodes, select, Node.select, classed, select_element rfl, select_text,
        select_element rfl, select_element rfl, select_element_self rfl, select_text, select_fixed,
        select_text]
      rfl
    rw [contentsRow, nodes, select, select, List.append_nil] at hcategory hcount hlink
    rw [ContentsLine.ofNode?_row hcategory hcount hlink, text_element, text_element]

/-- The rows of the table are read back as their lines. -/
theorem lines_contentsRows (category : String) (groups : List Group) :
    (select rowTag (nodesOfAll (contentsRows category groups))).mapM ContentsLine.ofNode?
      = some (linesFor category groups) := by
  induction groups generalizing category with
  | nil => rfl
  | cons g groups ih =>
      obtain ⟨row, hrow, hself, hline⟩ := exists_contentsRow g
      obtain ⟨heading, hheading, hhself, hhline⟩ := exists_contentsHeading (categoryOf g)
      have hrest : (select rowTag (nodesOfAll (contentsRow g :: lineEnd
          :: contentsRows (categoryOf g) groups))).mapM ContentsLine.ofNode?
            = some (rowOf g :: linesFor (categoryOf g) groups) := by
        rw [nodesOfAll, hrow, List.singleton_append, select, hself, lineEnd, select_fixed,
          List.singleton_append, List.mapM_cons, hline, ih]
        rfl
      -- a heading is written where the category changes, and read back there
      by_cases hsame : categoryOf g = category
      · have heq : contentsRows category (g :: groups)
            = contentsRow g :: lineEnd :: contentsRows (categoryOf g) groups := by
          rw [contentsRows, if_pos (by simpa [categoryOf] using hsame)]
          rfl
        rw [heq, hrest, linesFor, if_pos hsame]
        rfl
      · have heq : contentsRows category (g :: groups)
            = element "tr" [] [element "td" [attr "colspan" "3", attr "class" "category"]
                [text (categoryOf g)]]
              :: lineEnd :: contentsRow g :: lineEnd
              :: contentsRows (categoryOf g) groups := by
          rw [contentsRows, if_neg (by simpa [categoryOf] using hsame)]
          rfl
        rw [heq, nodesOfAll, hheading, List.singleton_append, select, hhself, List.singleton_append,
          List.mapM_cons, hhline, lineEnd, select_fixed, ← lineEnd, hrest, linesFor, if_neg hsame]
        rfl

/-- The rows are those of the groups, in order. -/
theorem rows_linesFor (category : String) (groups : List Group) :
    (linesFor category groups).filter ContentsLine.isRow = groups.map rowOf := by
  induction groups generalizing category with
  | nil => rfl
  | cons g groups ih =>
      have hrow : (rowOf g).isRow := rfl
      rw [linesFor, List.filter_append, List.filter_cons_of_pos hrow, ih, List.map_cons]
      split <;> rfl

/-- The groups of a category. -/
def inCategory (category : String) (groups : List Group) : List Group :=
  groups.filter (categoryOf · = category)

/-- A group at the head is the first of its category. -/
theorem inCategory_cons_self (g : Group) (groups : List Group) :
    inCategory (categoryOf g) (g :: groups) = g :: inCategory (categoryOf g) groups :=
  List.filter_cons_of_pos (by simp)

theorem inCategory_cons_of_ne {category : String} {g : Group} (h : categoryOf g ≠ category)
    (groups : List Group) : inCategory category (g :: groups) = inCategory category groups :=
  List.filter_cons_of_neg (by simpa using h)

/-- A category without groups has no rows. -/
theorem inCategory_eq_nil {category : String} {groups : List Group}
    (h : ∀ c ∈ groups.map categoryOf, c ≠ category) : inCategory category groups = [] :=
  List.filter_eq_nil_iff.mpr fun _ hg => by simpa using h _ (List.mem_map_of_mem hg)

/-- A category that others have followed does not come again. -/
theorem ne_of_pairwise_isLE {category c : String} {categories : List String}
    (h : (category :: c :: categories).Pairwise fun a b => (Ord.compare a b).isLE)
    (hne : c ≠ category) : ∀ other ∈ c :: categories, other ≠ category := by
  obtain ⟨hfirst, hrest⟩ := List.pairwise_cons.mp h
  rintro other hother rfl
  have hle : (Ord.compare c other).isLE := by
    rcases List.mem_cons.mp hother with rfl | hlater
    · exact Std.ReflCmp.isLE_rfl
    · exact (List.pairwise_cons.mp hrest).1 other hlater
  have hge := hfirst c List.mem_cons_self
  exact hne (Std.LawfulEqCmp.eq_of_compare (Std.OrientedCmp.isLE_antisymm hle hge))

/-- The categories that have a heading below one that has come before, each
above its own rows. -/
structure AreHeadings (category : String) (groups : List Group) (categories : List String) :
    Prop where
  nodup : categories.Nodup
  mem_iff : ∀ c, c ∈ categories ↔ c ≠ category ∧ c ∈ groups.map categoryOf
  lines : linesFor category groups
    = (inCategory category groups).map rowOf
      ++ categories.flatMap fun c => .heading c :: (inCategory c groups).map rowOf

namespace AreHeadings

variable {g : Group} {groups : List Group} {categories : List String}

/-- A group of the category before belongs to none of the headings. -/
theorem flatMap_cons (h : AreHeadings (categoryOf g) groups categories) :
    (categories.flatMap fun c => ContentsLine.heading c
        :: (inCategory c (g :: groups)).map rowOf)
      = categories.flatMap fun c => .heading c :: (inCategory c groups).map rowOf :=
  List.flatMap_congr fun c hc => by
    rw [inCategory_cons_of_ne ((h.mem_iff c).mp hc).1.symm]

/-- One more row below the same heading. -/
theorem cons_self (h : AreHeadings (categoryOf g) groups categories) :
    AreHeadings (categoryOf g) (g :: groups) categories where
  nodup := h.nodup
  mem_iff c := by
    rw [h.mem_iff, List.map_cons, List.mem_cons]
    exact ⟨fun ⟨hne, hc⟩ => ⟨hne, Or.inr hc⟩, fun ⟨hne, hc⟩ => ⟨hne, hc.resolve_left hne⟩⟩
  lines := by
    rw [linesFor, if_pos rfl, h.lines, h.flatMap_cons, inCategory_cons_self]
    rfl

/-- A group of another category has its heading first, if the category before
does not come again. -/
theorem cons_of_ne {category : String} (h : AreHeadings (categoryOf g) groups categories)
    (hbefore : ∀ c ∈ (g :: groups).map categoryOf, c ≠ category) :
    AreHeadings category (g :: groups) (categoryOf g :: categories) where
  nodup := List.nodup_cons.mpr ⟨fun hc => ((h.mem_iff _).mp hc).1 rfl, h.nodup⟩
  mem_iff c := by
    have hmem : c ∈ categoryOf g :: categories ↔ c ∈ (g :: groups).map categoryOf := by
      rw [List.mem_cons, h.mem_iff, List.map_cons, List.mem_cons]
      by_cases heq : c = categoryOf g <;> simp [heq]
    rw [hmem]
    exact ⟨fun hc => ⟨hbefore c hc, hc⟩, And.right⟩
  lines := by
    have hne : categoryOf g ≠ category := hbefore _ List.mem_cons_self
    rw [linesFor, if_neg hne, h.lines, List.flatMap_cons, h.flatMap_cons,
      inCategory_eq_nil hbefore, inCategory_cons_self]
    simp

end AreHeadings

/-- Where the groups of a category stand side by side, each category but the
first has one heading, above its rows. -/
theorem exists_headings {category : String} {groups : List Group}
    (h : (category :: groups.map categoryOf).Pairwise fun a b => (Ord.compare a b).isLE) :
    ∃ categories, AreHeadings category groups categories := by
  induction groups generalizing category with
  | nil => exact ⟨[], List.nodup_nil, by simp, rfl⟩
  | cons g groups ih =>
      obtain ⟨categories, hheadings⟩ := ih (List.pairwise_cons.mp h).2
      by_cases hsame : categoryOf g = category
      · subst hsame
        exact ⟨categories, hheadings.cons_self⟩
      · exact ⟨_, hheadings.cons_of_ne (ne_of_pairwise_isLE h hsame)⟩

-- ================================================================ the whole page

section Page

variable (options : PageOptions) (copies : Copies) (errors warnings : Nat) (found : List Warning)

/-- The pieces of the table of contents. -/
def contentsOf (groups : List Group) : List Html :=
  if groups.isEmpty then [] else tableOfContents groups

/-- The nodes of a page. -/
def pageNodes : List Node :=
  nodesOfAll (documentPieces (pageChildren options copies errors warnings found))

/-- What is looked for on a page is in its table of contents or in its sections. -/
theorem select_pageNodes {t : Template}
    (hapart : (htmlTag :: bodyTag :: headTags).all t.isApart) :
    select t (pageNodes options copies errors warnings found)
      = select t (nodesOfAll (contentsOf (groupByIssue found)))
        ++ select t (nodesOfAll (sections options copies (groupByIssue found)).1) := by
  rw [List.all_cons, List.all_cons, Bool.and_eq_true, Bool.and_eq_true] at hapart
  obtain ⟨hhtml, hbody, hhead⟩ := hapart
  have hfitsHtml : t.fits "html" ([attr "lang" "en"].map written) = false :=
    Template.fits_eq_false hhtml rfl
  have hfitsBody : t.fits "body" (([] : List HtmlAttribute).map written) = false :=
    Template.fits_eq_false hbody rfl
  have hlead : ∀ piece, uses headTags piece → ∀ more,
      select t (nodesOfAll (piece :: more)) = select t (nodesOfAll more) := by
    intro piece hpiece more
    rw [nodesOfAll, select_append, select_nodes hhead piece hpiece, List.nil_append]
  rw [pageNodes, documentPieces, select_element hfitsHtml, lineEnd, select_fixed, pageChildren,
    hlead _ uses_pageHead, lineEnd, select_fixed, select_element hfitsBody, select_fixed,
    select_nil, List.append_nil, List.append_nil, List.append_assoc, List.cons_append,
    select_fixed, List.cons_append, hlead _ (uses_pageHeader _ _), List.cons_append, select_fixed,
    List.nil_append, nodesOfAll_append, select_append]
  rfl

/-- The table of contents of a page is read back as the lines for its groups. -/
theorem contentsLines?_pageNodes :
    contentsLines? (pageNodes options copies errors warnings found)
      = some (linesFor "" (groupByIssue found)) := by
  have hsections : select contentsTag
      (nodesOfAll (sections options copies (groupByIssue found)).1) = [] :=
    select_eq_nil (by decide) _ (allUse_sections _)
  rw [contentsLines?, select_pageNodes _ _ _ _ _ (by decide), hsections, List.append_nil]
  cases hgroups : groupByIssue found with
  | nil => rfl
  | cons g groups =>
      have hrows : allUse rowTags (contentsRows "" (g :: groups)) := allUse_contentsRows _ _
      have hcontents : contentsOf (g :: groups) = tableOfContents (g :: groups) := rfl
      have htoc : select rowTag (select contentsTag (nodesOfAll (tableOfContents (g :: groups))))
          = select rowTag (nodesOfAll (contentsRows "" (g :: groups))) := by
        have hnone : select contentsTag (nodesOfAll (contentsRows "" (g :: groups))) = [] :=
          select_eq_nil (by decide) _ hrows
        rw [tableOfContents, select_element_self rfl, lineEnd, select_fixed, select_element rfl,
          select_fixed, hnone, select_fixed, select_nil, List.append_nil, List.append_nil]
        -- the table stands in an element of its own, around the rows
        have hnav : ∀ children, select rowTag
            [.element "nav" ([attr "class" "toc"].map written) children] = select rowTag children := by
          intro children
          rw [select, Node.select, select, List.append_nil]
          rfl
        rw [hnav, select_fixed, select_element rfl, select_fixed, select_fixed, select_nil,
          List.append_nil]
      rw [hcontents, htoc, lines_contentsRows]

/-- What is in the sections and not elsewhere. -/
theorem select_pageNodes_sections {t : Template}
    (hframe : (htmlTag :: bodyTag :: headTags).all t.isApart)
    (hcontents : (contentsTag :: tableTag :: rowTags).all t.isApart) :
    select t (pageNodes options copies errors warnings found)
      = select t (nodesOfAll (sections options copies (groupByIssue found)).1) := by
  have hnone : select t (nodesOfAll (contentsOf (groupByIssue found))) = [] := by
    unfold contentsOf
    split
    · rfl
    · exact select_eq_nil hcontents _ (allUse_tableOfContents _)
  rw [select_pageNodes _ _ _ _ _ hframe, hnone, List.nil_append]

/-- A section for each id, with the findings under it. -/
theorem sections_pageNodes :
    List.Forall₂ (fun id => IsSection options (under id found) id) (idsOf (groupByIssue found))
      (select sectionTag (pageNodes options copies errors warnings found)) := by
  obtain ⟨hsections, -⟩ := select_sections options copies (groupByIssue found)
  rw [select_pageNodes_sections _ _ _ _ _ (by decide) (by decide), idsOf,
    List.forall₂_map_left_iff]
  have hwarnings := (groups_groupByIssue found).warnings
  refine ((List.forall₂_and_left _ _).mpr ⟨hwarnings, hsections⟩).imp ?_
  rintro g node ⟨hunder, hnode⟩
  exact hunder ▸ hnode

/-- All occurrences of a page stand in its sections. -/
theorem occurrences_pageNodes :
    select occurrenceTag (pageNodes options copies errors warnings found)
      = (select sectionTag (pageNodes options copies errors warnings found)).flatMap
        (Node.select occurrenceTag) := by
  obtain ⟨-, hinside⟩ := select_sections options copies (groupByIssue found)
  rw [select_pageNodes_sections _ _ _ _ _ (by decide) (by decide), hinside,
    select_pageNodes_sections _ _ _ _ _ (by decide) (by decide)]

end Page

/-- A section has an occurrence for each finding. -/
theorem IsSection.length {options : PageOptions} {shown : List Warning} {id : String} {node : Node}
    (h : IsSection options shown id node) : (node.select occurrenceTag).length = shown.length := by
  obtain ⟨blocks, hshows, hfolds⟩ := h.blocks
  have hall := hfolds.all
  rw [select, select, List.append_nil] at hall
  rw [hall, hshows.length_eq]

/-- Sections have as many occurrences as there are findings. -/
theorem length_occurrences {options : PageOptions} {found : List Warning} {ids : List String}
    {nodes : List Node}
    (h : List.Forall₂ (fun id => IsSection options (under id found) id) ids nodes) :
    (nodes.flatMap (Node.select occurrenceTag)).length
      = (ids.map fun id => (under id found).length).sum := by
  induction h with
  | nil => rfl
  | cons hnode _ ih =>
      rw [List.flatMap_cons, List.length_append, hnode.length, ih, List.map_cons, List.sum_cons]

/-- The row of the findings under an id. -/
def rowFor (found : List Warning) (id : String) : ContentsLine :=
  .row (toString (under id found).length) id

/-- Whether some finding under an id is in a category. -/
def isInCategory (found : List Warning) (category id : String) : Bool :=
  found.any fun w => w.issue.id == id && w.issue.category.fullName == category

/-- A page that accounts for findings: it has a section and a row for each of
the ids, in one order. -/
structure Accounts (options : PageOptions) (found : List Warning) (nodes : List Node)
    (ids : List String) (lines : List ContentsLine) : Prop where
  nodup : ids.Nodup
  complete : ∀ id, id ∈ ids ↔ ∃ w ∈ found, w.issue.id = id
  sections : List.Forall₂ (fun id => IsSection options (under id found) id) ids
    (select sectionTag nodes)
  /-- there are no occurrences but those in the sections -/
  inside : select occurrenceTag nodes
    = (select sectionTag nodes).flatMap (Node.select occurrenceTag)
  occurrences : (select occurrenceTag nodes).length = found.length
  contents : contentsLines? nodes = some lines
  rows : lines.filter ContentsLine.isRow = ids.map (rowFor found)
  total : (ids.map fun id => (under id found).length).sum = found.length
  /-- sorted findings have a heading for each category, above its rows -/
  headings : found.Pairwise (fun a b => le a b) →
    (∃ r : Registry, ∀ w ∈ found, r.issue? w.issue.id = some w.issue) →
    (∀ w ∈ found, w.issue.category.fullName ≠ "") →
      ∃ categories : List String, categories.Nodup
        ∧ (∀ c, c ∈ categories ↔ ∃ w ∈ found, w.issue.category.fullName = c)
        ∧ lines = categories.flatMap fun c =>
          .heading c :: (ids.filter (isInCategory found c)).map (rowFor found)

theorem isLE_empty (s : String) : (compare "" s).isLE := by
  have hlt : ¬ s < "" := List.not_lt_nil s.toList
  have hcompare : compare s "" ≠ .lt := by
    show compareOfLessAndEq s "" ≠ .lt
    rw [compareOfLessAndEq, if_neg hlt]
    split <;> exact nofun
  have hswap : compare "" s = (compare s "").swap := Std.OrientedCmp.eq_swap
  rw [hswap]
  revert hcompare
  cases compare s "" <;> simp

/-- The row of a group counts all findings of its issue. -/
theorem rowOf_eq {found : List Warning} {groups : List Group} (h : Groups found groups) {g : Group}
    (hg : g ∈ groups) : rowOf g = rowFor found g.issue.id := by
  rw [rowOf, rowFor, h.warnings g hg]

/-- The ids in a category are those of the groups in it. -/
theorem map_inCategory {found : List Warning} {groups : List Group} (h : Groups found groups)
    {r : Registry} (hregistry : ∀ w ∈ found, r.issue? w.issue.id = some w.issue) (c : String) :
    (inCategory c groups).map rowOf
      = ((idsOf groups).filter (isInCategory found c)).map (rowFor found) := by
  have hsame : ∀ g ∈ groups, isInCategory found c g.issue.id = decide (categoryOf g = c) := by
    intro g hg
    rw [Bool.eq_iff_iff, isInCategory, List.any_eq_true, decide_eq_true_iff]
    constructor
    · rintro ⟨w, hw, hfits⟩
      rw [Bool.and_eq_true, beq_iff_eq, beq_iff_eq] at hfits
      rw [← hfits.2, h.issue_eq hregistry hg hw hfits.1]
      rfl
    · rintro rfl
      obtain ⟨w, hw, hissue⟩ := List.mem_map.mp (h.issues.subset (List.mem_map_of_mem hg))
      exact ⟨w, hw, by simp [hissue, categoryOf]⟩
  have hfilter : inCategory c groups = groups.filter (isInCategory found c ∘ (·.issue.id)) :=
    List.filter_congr fun g hg => (hsame g hg).symm
  rw [idsOf, List.filter_map, List.map_map, hfilter]
  exact List.map_congr_left fun g hg => rowOf_eq h (List.mem_filter.mp hg).1

/-- Sorted findings of one registry come under one heading for each category. -/
theorem exists_categories {found : List Warning} (hsorted : found.Pairwise fun a b => le a b)
    {r : Registry} (hregistry : ∀ w ∈ found, r.issue? w.issue.id = some w.issue)
    (hnamed : ∀ w ∈ found, w.issue.category.fullName ≠ "") :
    ∃ categories : List String, categories.Nodup
      ∧ (∀ c, c ∈ categories ↔ ∃ w ∈ found, w.issue.category.fullName = c)
      ∧ linesFor "" (groupByIssue found) = categories.flatMap fun c =>
        .heading c :: ((idsOf (groupByIssue found)).filter (isInCategory found c)).map
          (rowFor found) := by
  have hgroups := groups_groupByIssue found
  have hmem : ∀ c, c ∈ (groupByIssue found).map categoryOf
      ↔ ∃ w ∈ found, w.issue.category.fullName = c := by
    intro c
    constructor
    · intro hc
      obtain ⟨g, hg, rfl⟩ := List.mem_map.mp hc
      obtain ⟨w, hw, hissue⟩ := List.mem_map.mp (hgroups.issues.subset (List.mem_map_of_mem hg))
      exact ⟨w, hw, by rw [hissue]; rfl⟩
    · rintro ⟨w, hw, rfl⟩
      obtain ⟨g, hg, hid⟩ := List.mem_map.mp ((hgroups.complete w.issue.id).mpr ⟨w, hw, rfl⟩)
      rw [hgroups.issue_eq hregistry hg hw hid.symm]
      exact List.mem_map_of_mem hg
  -- in order and named, categories change once each
  have hpairwise : ("" :: (groupByIssue found).map categoryOf).Pairwise
      fun a b => (Ord.compare a b).isLE :=
    List.pairwise_cons.mpr ⟨fun _ _ => isLE_empty _, hgroups.pairwise_category hsorted⟩
  obtain ⟨categories, hnodup, hcategories, hlines⟩ := exists_headings hpairwise
  have hempty : inCategory "" (groupByIssue found) = [] := by
    refine inCategory_eq_nil fun c hc => ?_
    obtain ⟨w, hw, rfl⟩ := (hmem c).mp hc
    exact hnamed w hw
  refine ⟨categories, hnodup, fun c => ?_, ?_⟩
  · rw [hcategories, hmem]
    exact ⟨fun h => h.2, fun ⟨w, hw, hname⟩ => ⟨hname ▸ hnamed w hw, w, hw, hname⟩⟩
  · rw [hlines, hempty, List.map_nil, List.nil_append]
    exact List.flatMap_congr fun c _ => by rw [map_inCategory hgroups hregistry]

/-- The nodes of a page account for its findings. -/
theorem accounts_pageNodes (options : PageOptions) (copies : Copies) (errors warnings : Nat)
    (found : List Warning) :
    Accounts options found (pageNodes options copies errors warnings found)
      (idsOf (groupByIssue found)) (linesFor "" (groupByIssue found)) := by
  have hgroups := groups_groupByIssue found
  have hsections := sections_pageNodes options copies errors warnings found
  have htotal : ((idsOf (groupByIssue found)).map fun id => (under id found).length).sum
      = found.length := by
    rw [← hgroups.total, idsOf, List.map_map]
    exact congrArg List.sum (List.map_congr_left fun g hg => by rw [hgroups.warnings g hg]; rfl)
  refine
    { nodup := hgroups.nodup
      complete := hgroups.complete
      sections := hsections
      inside := occurrences_pageNodes options copies errors warnings found
      occurrences := ?_
      contents := contentsLines?_pageNodes options copies errors warnings found
      rows := ?_
      total := htotal
      headings := fun hsorted hregistered hnamed =>
        hregistered.elim fun _ hregistry => exists_categories hsorted hregistry hnamed }
  · have hcount := length_occurrences hsections
    rwa [← occurrences_pageNodes, htotal] at hcount
  · rw [rows_linesFor, idsOf, List.map_map]
    exact List.map_congr_left fun g hg => rowOf_eq hgroups hg

/-- A page accounts for its findings. -/
theorem page_accounts (options : PageOptions) (copies : Copies) (errors warnings : Nat)
    (found : List Warning) :
    ∃ nodes ids lines, readPage? (page options copies errors warnings found).1 = some nodes
      ∧ Accounts options found nodes ids lines :=
  ⟨_, _, _, readPage?_page options copies errors warnings found,
    accounts_pageNodes options copies errors warnings found⟩

/-- Ten findings of one issue, of which two are hidden, and one of another
category. -/
theorem page_accounts_folded :
    let hardcoded : Issue := .new "HardcodedText" "" "" .internationalization 5 .warning .empty
    let useless : Issue := .new "UselessParent" "" "" .performance 2 .warning .empty
    let found := List.replicate 10 (Warning.new hardcoded "here" .warning)
      ++ [Warning.new useless "there" .warning]
    let options : PageOptions := ⟨"Lint Report", false, .empty, .asWritten, ""⟩
    ∃ nodes ids lines, readPage? (page options ⟨none, .empty []⟩ 0 11 found).1 = some nodes
      ∧ Accounts options found nodes ids lines
      ∧ (∃ categories : List String, lines = categories.flatMap fun c =>
          .heading c :: (ids.filter (isInCategory found c)).map (rowFor found))
      ∧ ∃ node ∈ select sectionTag nodes,
          (select buttonTag [node]).map Node.text = ["+ 2 More Occurrences..."] := by
  intro hardcoded useless found options
  obtain ⟨nodes, ids, lines, hread, haccounts⟩ := page_accounts options ⟨none, .empty []⟩ 0 11 found
  have hregistry : ∃ r : Registry, ∀ w ∈ found, r.issue? w.issue.id = some w.issue :=
    ⟨⟨[hardcoded, useless], []⟩, by decide +kernel⟩
  obtain ⟨categories, -, -, hlines⟩ :=
    haccounts.headings (by decide +kernel) hregistry (by decide +kernel)
  refine ⟨nodes, ids, lines, hread, haccounts, ⟨categories, hlines⟩, ?_⟩
  have hid : "HardcodedText" ∈ ids :=
    (haccounts.complete _).mpr ⟨Warning.new hardcoded "here" .warning, by decide +kernel, rfl⟩
  obtain ⟨n, hn, heq⟩ := List.getElem_of_mem hid
  have hbound : n < (select sectionTag nodes).length := haccounts.sections.length_eq ▸ hn
  have hsection : IsSection options (under "HardcodedText" found) "HardcodedText"
      (select sectionTag nodes)[n] := heq ▸ haccounts.sections.get hn hbound
  obtain ⟨blocks, hblocks, hfolds⟩ := hsection.blocks
  -- one block for each finding of the issue
  have hten : blocks.length = 10 := by
    rw [← hblocks.length_eq]
    decide +kernel
  obtain ⟨-, -, hbutton⟩ := hfolds.folded rfl (by omega)
  rw [hten] at hbutton
  exact ⟨_, List.getElem_mem hbound, hbutton⟩

end Report
end ResourceLint
