/-
What a detector meets in a document, element by element.

A detector is called for an element before its children are visited and
again when they have been, so its calls are nested as the elements are.
Calls that change nothing and lead to nothing may be left out
(`findings_filter`), and for a detector that is deaf to the second calls
what is left is a plain list: the elements in document order, each with the
attributes asked for (`filter_seen`).

The elements begin one behind the other (`Document.pairwise_begins`), so
an element is known among the others by its span.  The children of the
outermost element are those that have it for a parent
(`Document.filter_isTop`).
-/
import Mathlib.Data.List.Pairwise
import ResourceLint.Proofs.Ancestry
import ResourceLint.Proofs.DocumentOrder
import ResourceLint.Proofs.Findings
import ResourceLint.Proofs.Numbering
import ResourceLint.Proofs.Seeing

namespace ResourceLint

open Xml (Document Element Node Content)

-- ====================================================== a single report

namespace Emission

variable {id : String} {f : Finding}

/-- A report under an issue counts where it is made. -/
theorem under_report_if (hid : f.issue = id) (test : Bool) :
    under id (if test then [.report f] else []) = if test then [f] else [] := by
  cases test with
  | false => rfl
  | true => simp [under, finding?, hid]

/-- A report under another issue is not heard. -/
theorem under_report_if_of_ne (hid : f.issue ≠ id) (test : Bool) :
    under id (if test then [.report f] else []) = [] := by
  cases test with
  | false => rfl
  | true => simp [under, finding?, hid]

end Emission

namespace Detector

variable {d : Detector} {id : String} {keep : Call → Bool} {doc : Document}

-- ========================================================== calls left out

/-- A call that neither changes a detector nor makes it find anything. -/
def Ignores (d : Detector) (id : String) (call : Call) : Prop :=
  ∀ memory context, (d.react memory context call).1 = memory ∧ d.heard id memory context call = []

/-- Calls that a detector ignores may be left out. -/
theorem findings_filter (h : ∀ call, keep call = false → d.Ignores id call) (memory : Memory)
    (context : Context) (calls : List Call) :
    d.findings id memory (calls.map (context, ·))
      = d.findings id memory ((calls.filter keep).map (context, ·)) := by
  induction calls generalizing memory with
  | nil => rfl
  | cons call calls ih =>
      rw [List.map_cons, findings, ih]
      cases hkeep : keep call with
      | true =>
          rw [List.filter_cons_of_pos hkeep, List.map_cons, findings]
      | false =>
          obtain ⟨hmemory, hheard⟩ := h call hkeep memory context
          rw [List.filter_cons_of_neg (by simp [hkeep]), hmemory, hheard, List.nil_append]

/-- A detector that finds the same in a call whatever it remembers finds in
many calls what it finds in each of them. -/
theorem findings_eq_flatMap {context : Context} {calls : List Call} {found : Call → List Finding}
    (h : ∀ call ∈ calls, ∀ memory, d.heard id memory context call = found call) (memory : Memory) :
    d.findings id memory (calls.map (context, ·)) = calls.flatMap found := by
  induction calls generalizing memory with
  | nil => rfl
  | cons call calls ih =>
      rw [List.map_cons, findings, h call List.mem_cons_self,
        ih fun other hother => h other (List.mem_cons_of_mem _ hother), List.flatMap_cons]

/-- Whether a call is the second one for an element. -/
def isSecond : Call → Bool
  | .elementEnd .. => true
  | _ => false

-- ============================================================ one by one

/-- What a detector meets of an element by itself. -/
def met (d : Detector) (doc : Document) (e : Element) : List Call :=
  (if d.elements.declares e.name then [.element doc e] else []) ++ d.seenAttributes doc e

/-- Without interest in attributes, an element is met for its name. -/
theorem met_of_no_attributes (h : d.attributes = .nothing) (doc : Document) (e : Element) :
    d.met doc e = if d.elements.declares e.name then [.element doc e] else [] := by
  have hnone : d.seenAttributes doc e = [] := by
    unfold seenAttributes
    rw [h]
    exact List.map_eq_nil_iff.mpr (List.filter_eq_nil_iff.mpr fun a _ => Bool.false_ne_true)
  unfold met
  rw [hnone, List.append_nil]

/-- Without interest in elements, it is met for its attributes. -/
theorem met_of_no_elements (h : d.elements = .nothing) (doc : Document) (e : Element) :
    d.met doc e = d.seenAttributes doc e := by
  unfold met
  rw [h]
  rfl

mutual

/-- Seen calls of a node are those of its elements, but for the ends. -/
theorem filter_seenNode (hdeaf : ∀ doc e, keep (.elementEnd doc e) = false)
    (around : List Content) :
    ∀ node, (d.seenNode doc around node).filter keep
      = (node.elements around).flatMap fun e => (d.met doc e).filter keep
  | .text .. => by
      rw [seenNode, Node.elements]
      rfl
  | .element tag span children => by
      have hinner := filter_seenNodes hdeaf (⟨tag, span, children⟩ :: around) children
      have hend : ∀ e : Element, (if d.elements.declares e.name then [.elementEnd doc e]
          else []).filter keep = [] := fun e => by
        split
        · exact List.filter_cons_of_neg (by simp [hdeaf])
        · rfl
      rw [seenNode, Node.elements, List.flatMap_cons, ← hinner, List.filter_append, hend,
        List.append_nil, List.filter_append]
      rfl

theorem filter_seenNodes (hdeaf : ∀ doc e, keep (.elementEnd doc e) = false)
    (around : List Content) :
    ∀ nodes, (d.seenNodes doc around nodes).filter keep
      = (Xml.elementsOfAll around nodes).flatMap fun e => (d.met doc e).filter keep
  | [] => by
      rw [seenNodes, Xml.elementsOfAll]
      rfl
  | node :: more => by
      rw [seenNodes, Xml.elementsOfAll, List.filter_append, filter_seenNode hdeaf around node,
        filter_seenNodes hdeaf around more, List.flatMap_append]

end

/-- What is left of a document when the second calls are left out, to a
detector that looks into it. -/
theorem filter_seen (hdeaf : ∀ doc e, keep (.elementEnd doc e) = false)
    (hbegin : keep .beforeFile = true) (hend : keep .afterFile = true)
    (hinside : ¬ (d.elements = .nothing ∧ d.attributes = .nothing)) (doc : Document) :
    (d.seen doc).filter keep
      = .beforeFile
        :: ((doc.elements.flatMap fun e => (d.met doc e).filter keep) ++ [.afterFile]) := by
  have hnode := @filter_seenNode d keep doc hdeaf [] (.element doc.tag doc.span doc.children)
  unfold seen
  rw [if_neg hinside, List.append_nil, List.filter_append, List.filter_append, hnode,
    List.filter_cons_of_pos hbegin, List.filter_cons_of_pos hend]
  rfl

/-- No element is met for its end. -/
theorem filter_isSecond_met (d : Detector) (doc : Document) (e : Element) :
    (d.met doc e).filter (!isSecond ·) = d.met doc e := by
  refine List.filter_eq_self.mpr fun call hcall => ?_
  rcases List.mem_append.mp hcall with hcall | hcall
  · split at hcall
    · rw [List.mem_singleton.mp hcall]
      rfl
    · cases hcall
  · obtain ⟨a, -, rfl⟩ := List.mem_map.mp hcall
    rfl

/-- A detector that looks into a document, answers neither end of a file, and is
deaf to second calls finds in it what it finds in the elements, where that does
not depend on what it remembers. -/
theorem findings_seen {context : Context} {found : Call → List Finding}
    (hheard : ∀ e ∈ doc.elements, ∀ call ∈ d.met doc e, ∀ memory,
      d.heard id memory context call = found call)
    (hsecond : ∀ doc e, d.Ignores id (.elementEnd doc e))
    (hbegin : ∀ memory, d.heard id memory context .beforeFile = [])
    (hend : ∀ memory, d.heard id memory context .afterFile = [])
    (hinside : ¬ (d.elements = .nothing ∧ d.attributes = .nothing)) (memory : Memory) :
    d.findings id memory ((d.seen doc).map (context, ·))
      = doc.elements.flatMap fun e => (d.met doc e).flatMap found := by
  have hdeaf : ∀ call : Call, (!isSecond call) = false → d.Ignores id call := by
    intro call hcall
    cases call with
    | elementEnd doc e => exact hsecond doc e
    | _ => cases hcall
  have hseen : (d.seen doc).filter (!isSecond ·)
      = .beforeFile :: (doc.elements.flatMap (d.met doc) ++ [.afterFile]) := by
    rw [filter_seen (fun _ _ => rfl) rfl rfl hinside,
      List.flatMap_congr fun e _ => filter_isSecond_met d doc e]
  -- inside the file the memory is of no matter
  have hinner : ∀ memory, d.findings id memory
      ((doc.elements.flatMap (d.met doc)).map (context, ·))
      = doc.elements.flatMap fun e => (d.met doc e).flatMap found := by
    intro memory
    rw [findings_eq_flatMap (fun call hcall => ?_), List.flatMap_assoc]
    obtain ⟨e, he, hcall⟩ := List.mem_flatMap.mp hcall
    exact hheard e he call hcall
  have hlast : ∀ memory, d.findings id memory [(context, .afterFile)] = [] := by
    intro memory
    rw [findings, findings, hend, List.append_nil]
  rw [findings_filter hdeaf, hseen, List.map_cons, findings, hbegin, List.nil_append,
    List.map_append, findings_append, hinner, List.map_singleton, hlast, List.append_nil]

mutual

/-- Without any interest nothing is seen. -/
theorem seenNode_eq_nil (helements : d.elements = .nothing) (hattributes : d.attributes = .nothing)
    (around : List Content) : ∀ node, d.seenNode doc around node = []
  | .text .. => by rw [seenNode]
  | .element tag span children => by
      have hmet := met_of_no_attributes hattributes doc ⟨⟨tag, span, children⟩, around⟩
      rw [seenNode,
        seenNodes_eq_nil helements hattributes (⟨tag, span, children⟩ :: around) children,
        List.append_nil]
      unfold met at hmet
      rw [hmet, helements]
      rfl

theorem seenNodes_eq_nil (helements : d.elements = .nothing)
    (hattributes : d.attributes = .nothing) (around : List Content) :
    ∀ nodes, d.seenNodes doc around nodes = []
  | [] => by rw [seenNodes]
  | node :: more => by
      rw [seenNodes, seenNode_eq_nil helements hattributes around node,
        seenNodes_eq_nil helements hattributes around more, List.append_nil]

end

/-- A detector that looks for nothing inside is shown the document as a whole. -/
theorem seen_of_no_interest (helements : d.elements = .nothing)
    (hattributes : d.attributes = .nothing) (doc : Document) :
    d.seen doc = [.beforeFile, .document doc, .afterFile] := by
  unfold seen
  rw [seenNode_eq_nil helements hattributes, if_pos ⟨helements, hattributes⟩]
  rfl

end Detector

-- ===================================================== where elements begin

namespace Xml

variable {source : List Char} {pieces : List Placed} {lo hi : Nat} {text : String} {d : Document}

/-- The tags of pieces in a row stand one behind the other. -/
theorem InRow.pairwise_startTags (h : InRow lo hi pieces) :
    (pieces.filterMap Placed.startTag?).Pairwise fun t t' => t.stop ≤ t'.start := by
  induction pieces generalizing lo with
  | nil => exact List.Pairwise.nil
  | cons piece more ih =>
      obtain ⟨-, -, htag, hmore⟩ := h
      cases hpiece : piece.startTag? with
      | none =>
          rw [List.filterMap_cons_none hpiece]
          exact ih hmore
      | some t =>
          rw [List.filterMap_cons_some hpiece]
          refine List.pairwise_cons.mpr ⟨fun t' ht' => ?_, ih hmore⟩
          obtain ⟨later, hlater, htag'⟩ := List.mem_filterMap.mp ht'
          obtain ⟨hlexeme, hstart⟩ := startTag?_eq_some hpiece
          have hstop : t.stop = piece.stop := by
            rw [htag _ hlexeme, StartTag.stop, hstart]
          rw [hstop, ← (startTag?_eq_some htag').2]
          exact hmore.le_start hlater

/-- The elements of a document begin one behind the other. -/
theorem Document.pairwise_begins (h : Document.parse text = .ok d) :
    d.elements.Pairwise fun a b => a.span.start.offset < b.span.start.offset := by
  have htags : (startTags text.toList).Pairwise fun t t' => t.stop ≤ t'.start :=
    (inRow_scan 0 text.toList).pairwise_startTags
  have hopens := (List.forall₂_and_left _ _).mpr ⟨fun t ht => ht, forall₂_opens_elements h⟩
  refine (pairwise_of_forall₂ hopens.flip htags).imp fun {a b} hpair => ?_
  obtain ⟨t, t', ⟨ht, hopen⟩, ⟨ht', hopen'⟩, hrow⟩ := hpair
  have hplace : ∀ {t : StartTag} {e : Element}, t ∈ startTags text.toList →
      Opens text.toList t (e.tag, e.span.start) →
      t.start ≤ e.span.start.offset ∧ e.span.start.offset < t.stop := fun {t e} ht hopen => by
    have hbounds := @tagStart_bounds t.content t.start t.stop rfl
    have hstop := (announces_of_mem ht).2
    have hoffset : e.span.start.offset = tagStart t.content t.stop :=
      (congrArg Position.offset hopen.start).trans (Position.offset_ofOffset_of_le (by omega))
    rw [hoffset]
    exact hbounds
  have ha := hplace ht hopen
  have hb := hplace ht' hopen'
  omega

/-- No two elements of a document have one span. -/
theorem Document.pairwise_span_ne (h : Document.parse text = .ok d) :
    d.elements.Pairwise fun a b => a.span ≠ b.span :=
  (pairwise_begins h).imp fun hlt heq => by
    rw [heq] at hlt
    exact Nat.lt_irrefl _ hlt

/-- Of elements with spans of their own, those at another span than one of them
are the others. -/
theorem filter_span_ne {before after : List Element} {e : Element}
    (h : (before ++ e :: after).Pairwise fun a b => a.span ≠ b.span) :
    (before ++ e :: after).filter (·.span != e.span) = before ++ after := by
  obtain ⟨-, hafter, hbefore⟩ := List.pairwise_append.mp h
  have hfront : before.filter (·.span != e.span) = before := List.filter_eq_self.mpr fun a ha =>
    bne_iff_ne.mpr (hbefore a ha e List.mem_cons_self)
  have hback : after.filter (·.span != e.span) = after := List.filter_eq_self.mpr fun b hb =>
    bne_iff_ne.mpr ((List.pairwise_cons.mp hafter).1 b hb).symm
  rw [List.filter_append, List.filter_cons_of_neg (by simp), hfront, hback]

/-- An element of a document is known by its span. -/
theorem Document.eq_of_span_eq (h : Document.parse text = .ok d) {a b : Element}
    (ha : a ∈ d.elements) (hb : b ∈ d.elements) (hspan : a.span = b.span) : a = b := by
  have hsymm : Std.Symm fun a b : Element => a.span ≠ b.span := ⟨fun _ _ hne => hne.symm⟩
  by_contra hne
  exact (pairwise_span_ne h).forall ha hb hne hspan

-- ================================================================= children

/-- A walk goes no way out of the element that it starts from. -/
theorem Element.length_around_of_mem_walk {e found : Element} (h : found ∈ e.walk) :
    e.around.length ≤ found.around.length := by
  induction e using Element.walk.induct with
  | case1 e ih =>
      rw [walk_eq] at h
      rcases List.mem_cons.mp h with rfl | h
      · exact Nat.le_refl _
      · obtain ⟨child, hchild, hfound⟩ := List.mem_flatMap.mp h
        have hdeeper := ih ⟨child, hchild⟩ hfound
        obtain ⟨node, -, hnode⟩ := List.mem_filterMap.mp (e.childElements_eq ▸ hchild)
        cases node with
        | text content span => cases hnode
        | element tag span children =>
            cases hnode
            exact Nat.le_of_succ_le hdeeper

/-- What a child has around it. -/
theorem Element.parent?_of_mem_childElements {e child : Element} (h : child ∈ e.childElements) :
    child.parent? = some e := by
  obtain ⟨node, -, hnode⟩ := List.mem_filterMap.mp (e.childElements_eq ▸ h)
  cases node with
  | text content span => cases hnode
  | element tag span children =>
      cases hnode
      rfl

/-- Behind the first element, a walk comes to children of those it came to. -/
theorem Element.exists_parent_of_mem_walk {e found : Element} (h : found ∈ e.walk) :
    found = e ∨ ∃ parent, found.parent? = some parent ∧ found ∈ parent.childElements := by
  induction e using Element.walk.induct with
  | case1 e ih =>
      rw [walk_eq] at h
      rcases List.mem_cons.mp h with hfirst | h
      · exact Or.inl hfirst
      · obtain ⟨child, hchild, hfound⟩ := List.mem_flatMap.mp h
        right
        rcases ih ⟨child, hchild⟩ hfound with rfl | hdeeper
        · exact ⟨e, parent?_of_mem_childElements hchild, hchild⟩
        · exact hdeeper

/-- An element is among the children of its parent. -/
theorem Document.mem_childElements_of_parent? {d : Document} {e parent : Element}
    (he : e ∈ d.elements) (h : e.parent? = some parent) : e ∈ parent.childElements := by
  rw [elements_eq_walk] at he
  rcases Element.exists_parent_of_mem_walk he with rfl | ⟨other, hother, hchild⟩
  · cases h
  · rw [h] at hother
    cases hother
    exact hchild

/-- Whether an element is right inside the outermost one. -/
def Element.isTop (e : Element) : Bool := e.parent?.any (·.isRoot)

/-- The children of the root are those with one element around. -/
theorem Element.isTop_iff {e : Element} : e.isTop ↔ e.around.length = 1 := by
  unfold isTop parent? isRoot
  cases e.around with
  | nil => simp
  | cons outer around => cases around <;> simp

/-- The elements right inside the outermost one are its children. -/
theorem Document.filter_isTop (d : Document) :
    d.elements.filter (·.isTop) = d.root.childElements := by
  have hchild : ∀ child ∈ d.root.childElements,
      child.walk.filter (·.isTop) = [child] := fun child hchild => by
    obtain ⟨node, -, hnode⟩ := List.mem_filterMap.mp (d.root.childElements_eq ▸ hchild)
    have hone : child.around.length = 1 := by
      cases node with
      | text content span => cases hnode
      | element tag span children =>
          cases hnode
          rfl
    rw [Element.walk_eq, List.filter_cons_of_pos (Element.isTop_iff.mpr hone)]
    refine congrArg (child :: ·) (List.filter_eq_nil_iff.mpr fun deep hdeep => ?_)
    obtain ⟨inner, hinner, hdeep⟩ := List.mem_flatMap.mp hdeep
    obtain ⟨node', -, hnode'⟩ := List.mem_filterMap.mp (child.childElements_eq ▸ hinner)
    -- deeper elements have the child around them, too
    have htwo : inner.around.length = 2 := by
      cases node' with
      | text content span => cases hnode'
      | element tag span children =>
          cases hnode'
          exact congrArg Nat.succ hone
    have hle := Element.length_around_of_mem_walk hdeep
    rw [Element.isTop_iff]
    omega
  have hroot : d.root.isTop = false := rfl
  rw [elements_eq_walk, Element.walk_eq, List.filter_cons_of_neg (by simp [hroot]),
    List.filter_flatMap, List.flatMap_congr hchild]
  exact List.flatMap_singleton' _

theorem Document.childElements_sublist (d : Document) :
    d.root.childElements.Sublist d.elements := by
  rw [← d.filter_isTop]
  exact List.filter_sublist

end Xml

end ResourceLint
