/-
What detectors point at.

A call is about elements of a document, and it offers the places of these, of
their attributes, and of files as a whole (`Context.Offers`).  A detector that
`Marks` reports only what a call offers, or what an earlier one has offered
and it remembers.  Seven of the built-in detectors do so; the eighth searches
the file of shrinking rules by itself and counts the place of what it finds
(`marks_or_shrinkingRules`).

A place that a call offers denotes a byte of the text that the call was made
with: an element begins at a bracket, and an attribute is searched from there
by a cursor that agrees with all others (`denotes_of_offers`).  So what the
built-in detectors remember denotes, call after call, and what they report
does, except for the one place that is counted otherwise (`points_react`).
-/
import ResourceLint.Proofs.DocumentOrder
import ResourceLint.Proofs.Lines
import ResourceLint.Proofs.Table

namespace ResourceLint

-- ============================================================ what is offered

/-- A call is about elements of a document. -/
inductive Call.About : Call → Xml.Document → Xml.Element → Prop
  | element (d : Xml.Document) (e : Xml.Element) : About (.element d e) d e
  | «attribute» (d : Xml.Document) (e : Xml.Element) (a : Xml.Attribute) :
      About (.attribute d e a) d e
  | document (d : Xml.Document) {e : Xml.Element} (he : e ∈ d.elements) : About (.document d) d e

/-- The places that a call offers to report at. -/
inductive Context.Offers (c : Context) (made : Call) : Place → Prop
  | whole {place : Place} (h : place.start = none) : Offers c made place
  | element {d : Xml.Document} {e : Xml.Element} (h : made.About d e) :
      Offers c made (c.elementPlace e)
  | «attribute» {d : Xml.Document} {e : Xml.Element} (h : made.About d e) (a : Xml.Attribute) :
      Offers c made (c.attributePlace d e a)

/-- A detector reports what it is offered, or what it was offered before. -/
structure Detector.Marks (d : Detector) : Prop where
  remembers : ∀ memory c made entry, entry ∈ (d.react memory c made).1.defined →
    entry ∈ memory.defined ∨ c.Offers made entry.2
  reports : ∀ memory c made f, .report f ∈ (d.react memory c made).2 →
    c.Offers made f.place ∨ ∃ entry ∈ memory.defined, f.place = entry.2

/-- The children of the outermost element are elements of the document. -/
theorem Xml.Document.mem_elements_of_mem_childElements {d : Xml.Document} {e : Xml.Element}
    (h : e ∈ d.root.childElements) : e ∈ d.elements := by
  rw [elements_eq_walk, Element.walk_eq]
  refine List.mem_cons_of_mem _ (List.mem_flatMap.mpr ⟨e, h, ?_⟩)
  rw [Element.walk_eq]
  exact List.mem_cons_self

/-- A detector that remembers no places reports what it is offered. -/
theorem Detector.marks_of_offers {d : Detector}
    (hmemory : ∀ memory c made, (d.react memory c made).1.defined = memory.defined)
    (hreports : ∀ memory c made f, .report f ∈ (d.react memory c made).2 →
      c.Offers made f.place) : d.Marks :=
  { remembers := fun memory c made _ h => Or.inl (hmemory memory c made ▸ h)
    reports := fun memory c made f h => Or.inl (hreports memory c made f h) }

/-- Hardcoded texts are marked at their attributes. -/
theorem HardcodedText.marks : detector.Marks := by
  refine Detector.marks_of_offers (fun memory c made => ?_) fun memory c made f h => ?_
  · cases made with
    | «attribute» d e a => rw [react_attribute]
    | _ => rfl
  · cases made with
    | «attribute» d e a =>
        rw [react_attribute] at h
        cases Emission.exists_of_mem_gate h
        exact .attribute (.attribute d e a) a
    | _ => cases h

theorem Dimension.marks : detector.Marks := by
  refine Detector.marks_of_offers (fun memory c made => ?_) fun memory c made f h => ?_
  · cases made with
    | «attribute» d e a => rw [react_attribute]
    | _ => rfl
  · cases made with
    | «attribute» d e a =>
        rw [react_attribute] at h
        rcases List.mem_append.mp h with h | h
        · cases Emission.exists_of_mem_gate h
          exact .attribute (.attribute d e a) a
        · cases Emission.exists_of_mem_gate h
          exact .attribute (.attribute d e a) a
    | _ => cases h

/-- Useless views are marked as elements. -/
theorem UselessView.marks : detector.Marks := by
  refine Detector.marks_of_offers (fun memory c made => ?_) fun memory c made f h => ?_
  · cases made with
    | element d e => rw [react_element]
    | _ => rfl
  · cases made with
    | element d e =>
        rw [react_element] at h
        rcases List.mem_append.mp h with h | h
        · cases Emission.exists_of_mem_gate h
          exact .element (.element d e)
        · cases Emission.exists_of_mem_gate h
          exact .element (.element d e)
    | _ => cases h

/-- Repeated ids are marked at both attributes, of which the first is
remembered. -/
theorem DuplicateIds.marks : detector.Marks where
  remembers memory c made entry h := by
    cases made with
    | beforeFile => cases h
    | «attribute» d e a =>
        rcases react_attribute_cases memory c d e a with ⟨f, hf, -⟩ | ⟨new, hnew, hplace⟩ | hf
        · rw [hf] at h
          exact Or.inl h
        · -- what is remembered anew is the attribute at hand
          rw [hnew] at h
          refine (List.mem_append.mp h).imp_right fun h => ?_
          rw [List.mem_singleton.mp h, hplace]
          exact .attribute (.attribute d e a) a
        · rw [hf] at h
          exact Or.inl h
    | _ => exact Or.inl h
  reports memory c made f h := by
    cases made with
    | «attribute» d e a =>
        rcases react_attribute_cases memory c d e a with ⟨f', hf, -, hplace⟩ | ⟨_, hf, -⟩ | hf
        · rw [hf] at h
          cases List.mem_singleton.mp h
          rw [hplace]
          exact Or.inl (.attribute (.attribute d e a) a)
        · rw [hf] at h
          cases h
        · rw [hf] at h
          cases h
    | _ => cases h

/-- The manifest's issues are marked at elements, or in the file as a whole. -/
theorem Manifest.marks : detector.Marks := by
  refine Detector.marks_of_offers (fun memory c made => (sameLists_react made).1)
    fun memory c made f h => ?_
  cases made with
  | element d e =>
      obtain ⟨f', heq, -, hplace⟩ := within_visitElement _ h
      cases heq
      rw [hplace]
      exact .element (.element d e)
  | afterFile =>
      obtain ⟨f', heq, -, hplace⟩ := within_afterFile _ h
      cases heq
      rw [hplace]
      exact .whole rfl
  | _ => cases h

/-- Unused keys are marked where they are declared, which is remembered. -/
theorem UnusedResources.marks : detector.Marks where
  remembers memory c made entry h := by
    cases made with
    | beforeProject => cases h
    | document d =>
        change entry ∈ (visitDocument memory c d).defined at h
        unfold visitDocument at h
        rw [defined_foldl_mentionAll] at h
        rcases mem_declareFile h with hold | hnew | ⟨e, he, hnew⟩
        · exact Or.inl hold
        · rw [hnew]
          exact Or.inr (.whole rfl)
        · rw [hnew]
          refine Or.inr (.element (.document d ?_))
          exact Xml.Document.mem_elements_of_mem_childElements he
    | _ => exact Or.inl h
  reports memory c made f h := by
    cases made with
    | afterProject =>
        obtain ⟨entry, hentry, heq⟩ := List.mem_map.mp h
        cases heq
        exact Or.inr ⟨entry, (List.mem_filter.mp hentry).1, rfl⟩
    | _ => cases h

/-- Icons are marked as files. -/
theorem Icons.marks : detector.Marks := by
  refine Detector.marks_of_offers (fun memory c made => ?_) fun memory c made f h => ?_
  · cases made with
    | _ => rfl
  · cases made with
    | afterProject =>
        obtain ⟨f', heq, -, -, hplace⟩ := mem_compareFolders h
        cases heq
        exact .whole hplace
    | _ => cases h

/-- The built-in detectors report what they are offered, except for the one
that looks for a shrinking rule. -/
theorem Registry.marks_or_shrinkingRules {reg : Registration}
    (hreg : reg ∈ builtIn.registrations) :
    (reg.detector.Marks ∧ ShrinkingRules.issue.id ∉ reg.issues)
      ∨ reg.detector = ShrinkingRules.detector := by
  rw [registrations_builtIn] at hreg
  simp only [builtInRegistrations, List.mem_cons, List.not_mem_nil, or_false] at hreg
  rcases hreg with rfl | rfl | rfl | rfl | rfl | rfl | rfl | rfl
  · exact Or.inl ⟨HardcodedText.marks, by decide⟩
  · exact Or.inl ⟨Dimension.marks, by decide⟩
  · exact Or.inl ⟨DuplicateIds.marks, by decide⟩
  · exact Or.inl ⟨Manifest.marks, by decide⟩
  · exact Or.inl ⟨UselessView.marks, by decide⟩
  · exact Or.inl ⟨UnusedResources.marks, by decide⟩
  · exact Or.inl ⟨Icons.marks, by decide⟩
  · exact Or.inr rfl

-- ====================================================== what a place denotes

variable {read : Path → Option String} {c : Context} {made : Call} {place : Place}

/-- Where a place begins is the place of a byte of the text that is read for
its file. -/
def Place.Denotes (read : Path → Option String) (place : Place) : Prop :=
  ∀ start, place.start = some start →
    ∃ text n, read place.file = some text ∧ start = Position.ofOffset text.toList n

/-- A call comes with the text that is read for its file, and what it is about
is in the document of that text. -/
structure Call.Faithful (read : Path → Option String) (c : Context) (made : Call) : Prop where
  contents : ∀ text, c.contents = some text → read c.file = some text
  document : ∀ d e, made.About d e →
    ∃ text, c.contents = some text ∧ Xml.Document.parse text = .ok d ∧ e ∈ d.elements

/-- Attributes of elements of a document begin at bytes of its text. -/
theorem Xml.Document.exists_attributePlace {text : String} {d : Document}
    (h : parse text = .ok d) {e : Element} (he : e ∈ d.elements) (file : Path) (name : String) :
    ∃ n, (d.attributePlace file e name).start = some (Position.ofOffset text.toList n) := by
  have hsource : d.source = text := by
    obtain ⟨root, -, rfl⟩ := parse_eq_ok_iff.mp h
    rfl
  unfold attributePlace attributeRange?
  rw [hsource, attributeRange?_eq (sees_startingAt h he)]
  cases findAssignment? name.toList (Span.cut e.span text.toList) with
  | some a => exact ⟨_, rfl⟩
  | none =>
      obtain ⟨front, back, -, hstart⟩ := exists_bracket h he
      exact ⟨Text.byteSize front, congrArg some hstart⟩

/-- What a call offers denotes. -/
theorem denotes_of_offers (hcall : Call.Faithful read c made) (h : c.Offers made place) :
    place.Denotes read := by
  intro start hstart
  cases h with
  | whole hnone =>
      rw [hnone] at hstart
      cases hstart
  | element habout =>
      obtain ⟨text, htext, hparse, he⟩ := hcall.document _ _ habout
      obtain ⟨front, back, -, hbracket⟩ := Xml.Document.exists_bracket hparse he
      cases hstart
      exact ⟨text, _, hcall.contents text htext, hbracket⟩
  | «attribute» habout a =>
      obtain ⟨text, htext, hparse, he⟩ := hcall.document _ _ habout
      obtain ⟨n, hplace⟩ := Xml.Document.exists_attributePlace hparse he c.file a.name
      cases hstart.symm.trans hplace
      exact ⟨text, n, hcall.contents text htext, rfl⟩

/-- A finding is where the shrinking rule stands, by the count of its check. -/
def ShrinkingRules.PointsAtRule (read : Path → Option String) (place : Place) : Prop :=
  ∃ text before after, read place.file = some text
    ∧ Text.cut? obsoleteRule.toList text.toList = some (before, after)
    ∧ place.start = some (placeAfter before)

/-- Where a finding points: to a byte of the text, or to the shrinking rule. -/
structure Finding.Points (read : Path → Option String) (f : Finding) : Prop where
  rule : f.issue = ShrinkingRules.issue.id → ShrinkingRules.PointsAtRule read f.place
  denotes : f.issue ≠ ShrinkingRules.issue.id → f.place.Denotes read

/-- A call that is faithful leaves a built-in detector with places that
denote, and its findings point. -/
theorem Registry.points_react {reg : Registration} (hreg : reg ∈ builtIn.registrations)
    (hcall : Call.Faithful read c made) {memory : Memory}
    (hmemory : ∀ entry ∈ memory.defined, entry.2.Denotes read) :
    (∀ entry ∈ (reg.detector.react memory c made).1.defined, entry.2.Denotes read)
      ∧ ∀ f, .report f ∈ (reg.detector.react memory c made).2 → f.Points read := by
  -- the detector of rules counts places by itself, all others offer those of the document
  rcases marks_or_shrinkingRules hreg with ⟨hmarks, hid⟩ | hrules
  · refine ⟨fun entry hentry => ?_, fun f hf => ?_⟩
    · rcases hmarks.remembers memory c made entry hentry with hold | hoffered
      · exact hmemory entry hold
      · exact denotes_of_offers hcall hoffered
    · have hserved : f.issue ∈ reg.issues := by
        obtain ⟨f', heq, hserved⟩ := (orderly_builtIn.conforms reg hreg).reports memory c made _ hf
        cases heq
        exact hserved
      refine ⟨fun hissue => absurd (hissue ▸ hserved) hid, fun _ => ?_⟩
      rcases hmarks.reports memory c made f hf with hoffered | ⟨entry, hentry, hplace⟩
      · exact denotes_of_offers hcall hoffered
      · exact hplace ▸ hmemory entry hentry
  · rw [hrules]
    cases made with
    | plainFile =>
        refine ⟨hmemory, fun f hf => ?_⟩
        obtain ⟨f', text, before, after, heq, hissue, hfile, hcontents, hcut, hstart⟩ :=
          ShrinkingRules.mem_check hf
        cases heq
        refine ⟨fun _ => ⟨text, before, after, ?_, hcut, hstart⟩, fun hne => absurd hissue hne⟩
        rw [hfile]
        exact hcall.contents text hcontents
    | _ => exact ⟨hmemory, fun f hf => by cases hf⟩

-- ========================================================== calls of a visitor

namespace Visitor

open Xml

variable {v : Visitor} {d : Document} {who : Nat}

/-- A call about one element, or one of its attributes. -/
def IsAbout (d : Document) (e : Element) (made : Call) : Prop :=
  made = .element d e ∨ made = .elementEnd d e ∨ ∃ a, made = .attribute d e a

mutual

/-- The calls for a node are about its elements. -/
theorem exists_of_mem_nodeCalls (around : List Content) :
    ∀ node, (who, made) ∈ v.nodeCalls d around node → ∃ e ∈ node.elements around, IsAbout d e made
  | .text .., h => by
      rw [nodeCalls] at h
      cases h
  | .element tag span children, h => by
      rw [nodeCalls, attributeCalls_eq] at h
      rw [Node.elements]
      simp only [List.mem_append] at h
      rcases h with ((h | h) | h) | h
      · obtain ⟨_, -, heq⟩ := List.mem_map.mp h
        cases heq
        exact ⟨_, List.mem_cons_self, Or.inl rfl⟩
      · obtain ⟨a, -, h⟩ := List.mem_flatMap.mp h
        obtain ⟨_, -, heq⟩ := List.mem_map.mp h
        cases heq
        exact ⟨_, List.mem_cons_self, Or.inr (Or.inr ⟨a, rfl⟩)⟩
      · obtain ⟨e, he, habout⟩ := exists_of_mem_nodesCalls _ children h
        exact ⟨e, List.mem_cons_of_mem _ he, habout⟩
      · obtain ⟨_, -, heq⟩ := List.mem_map.mp h
        cases heq
        exact ⟨_, List.mem_cons_self, Or.inr (Or.inl rfl)⟩

/-- Every call about nodes is about one of their elements. -/
theorem exists_of_mem_nodesCalls (around : List Content) :
    ∀ nodes, (who, made) ∈ v.nodesCalls d around nodes →
      ∃ e ∈ elementsOfAll around nodes, IsAbout d e made
  | [], h => by
      rw [nodesCalls] at h
      cases h
  | node :: more, h => by
      rw [nodesCalls] at h
      rw [elementsOfAll]
      rcases List.mem_append.mp h with h | h
      · obtain ⟨e, he, habout⟩ := exists_of_mem_nodeCalls around node h
        exact ⟨e, List.mem_append_left _ he, habout⟩
      · obtain ⟨e, he, habout⟩ := exists_of_mem_nodesCalls around more h
        exact ⟨e, List.mem_append_right _ he, habout⟩

end

/-- What a visitor calls for is in its document. -/
theorem about_of_mem_calls (h : (who, made) ∈ v.calls d) {d' : Document} {e : Element}
    (habout : made.About d' e) : d' = d ∧ e ∈ d.elements := by
  rw [calls_eq] at h
  simp only [List.mem_append] at h
  rcases h with ((h | h) | h) | h
  · obtain ⟨_, -, heq⟩ := List.mem_map.mp h
    cases heq
    cases habout
  · obtain ⟨_, -, heq⟩ := List.mem_map.mp h
    cases heq
    cases habout with
    | document _ he => exact ⟨rfl, he⟩
  · obtain ⟨e', he, rfl | rfl | ⟨a, rfl⟩⟩ := exists_of_mem_nodeCalls [] _ h
    · cases habout
      exact ⟨rfl, he⟩
    · cases habout
    · cases habout
      exact ⟨rfl, he⟩
  · obtain ⟨_, -, heq⟩ := List.mem_map.mp h
    cases heq
    cases habout

end Visitor

end ResourceLint
