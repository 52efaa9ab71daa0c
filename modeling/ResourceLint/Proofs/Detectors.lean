/-
What the built-in detectors keep to.

# Separation

A detector may serve several issues, and which of them are reported differs
from run to run.  `Context.Alike` contexts agree in all that an issue may
depend on: the project, the file, the shape of the tree, and whether that
issue itself is reported.  A detector that `Separates` its issues remembers
the same in alike contexts, and finds the same under the issue.

# Locality

Six detectors look at one file at a time.  A `Local` detector goes by the
file, its text and its folder, begins every file with nothing in mind, and
reports in the file at hand only.  The two others compare files:
`UnusedResources` keeps where resources were declared, `Icons` looks at the
tree when all files have been seen.
-/
import ResourceLint.Check.BuiltIn
import ResourceLint.Proofs.Findings

namespace ResourceLint

-- ================================================= findings under an issue

namespace Emission

@[simp] theorem under_nil (id : String) : under id [] = [] := rfl

/-- What is reported under an issue is told part by part. -/
@[simp] theorem under_append (id : String) (s t : List Emission) :
    under id (s ++ t) = under id s ++ under id t := by
  unfold under
  rw [List.filterMap_append, List.filter_append]

/-- Reports under another issue do not count. -/
theorem under_eq_nil {id issue : String} {es : List Emission}
    (h : ∀ e ∈ es, ∃ f, e = .report f ∧ f.issue = issue) (hid : issue ≠ id) : under id es = [] := by
  rw [List.eq_nil_iff_forall_not_mem]
  intro f hf
  obtain ⟨hreport, rfl⟩ := mem_under.mp hf
  obtain ⟨f', heq, hissue⟩ := h _ hreport
  cases heq
  exact hid hissue.symm

/-- What is reported under one issue, if that is enabled, is the same under
any issue for two answers to whether it is, as long as they agree on that
issue. -/
theorem under_gate {id issue : String} {es : List Emission} {a b : Bool}
    (h : ∀ e ∈ es, ∃ f, e = .report f ∧ f.issue = issue) (hgate : issue = id → a = b) :
    under id (if a then es else []) = under id (if b then es else []) := by
  by_cases hid : issue = id
  · rw [hgate hid]
  · have hnone := under_eq_nil h hid
    cases a <;> cases b <;> simp [hnone]

end Emission

-- ====================================================== what is kept to

/-- Contexts that an issue has to be indifferent to. -/
structure Context.Alike (id : String) (c d : Context) : Prop where
  project : c.project = d.project
  file : c.file = d.file
  scope : c.scope = d.scope
  contents : c.contents = d.contents
  folder : c.folder = d.folder
  shape : c.tree.shape = d.tree.shape
  lowDensity : c.lowDensity = d.lowDensity
  enabled : c.isEnabled id = d.isEnabled id

/-- Contexts of one file in which an issue is reported or not alike. -/
structure Context.SameFile (id : String) (c d : Context) : Prop where
  file : c.file = d.file
  contents : c.contents = d.contents
  folder : c.folder = d.folder
  enabled : c.isEnabled id = d.isEnabled id

/-- Contexts that are alike show the same file. -/
theorem Context.Alike.sameFile {id : String} {c d : Context} (h : c.Alike id d) :
    c.SameFile id d :=
  ⟨h.file, h.contents, h.folder, h.enabled⟩

namespace Detector

variable {d : Detector} {issues : List String}

/-- In alike contexts a detector remembers the same and finds the same under
the issue. -/
def Separates (d : Detector) (id : String) : Prop :=
  ∀ memory c₁ c₂ call, Context.Alike id c₁ c₂ →
    (d.react memory c₁ call).1 = (d.react memory c₂ call).1
      ∧ d.heard id memory c₁ call = d.heard id memory c₂ call

/-- What a run relies on in a detector that serves some issues. -/
structure Conforms (d : Detector) (issues : List String) : Prop where
  reports : d.Reports issues
  places : d.Places
  separates : ∀ id ∈ issues, d.Separates id

/-- A detector that looks at one file at a time. -/
structure Local (d : Detector) (issues : List String) : Prop where
  reports : d.Reports issues
  /-- the project as a whole leaves it indifferent -/
  wide : ∀ memory c call, call.isWide → d.react memory c call = (memory, [])
  /-- it reports in the file at hand -/
  here : ∀ memory c call f, .report f ∈ (d.react memory c call).2 → f.place.file = c.file
  /-- what it remembers is in the file at hand -/
  keeps : ∀ memory c call entry, entry ∈ (d.react memory c call).1.defined →
    entry ∈ memory.defined ∨ entry.2.file = c.file
  /-- every file begins with nothing in mind -/
  fresh : ∀ told c, d.react (d.after .blank told) c .beforeFile = (.blank, [])
  /-- it goes by the file alone -/
  depends : ∀ id ∈ issues, ∀ memory c₁ c₂ call, Context.SameFile id c₁ c₂ →
    (d.react memory c₁ call).1 = (d.react memory c₂ call).1
      ∧ d.heard id memory c₁ call = d.heard id memory c₂ call

/-- What goes by the file alone conforms: no memory and no other file enters. -/
theorem Local.conforms (h : d.Local issues) : d.Conforms issues :=
  { reports := h.reports
    places := by
      intro known memory c call hdefined hapt hknown
      -- the project as a whole leaves it indifferent; any other call is made with a file at
      -- hand
      by_cases hwide : call.isWide
      · rw [h.wide memory c call hwide]
        exact ⟨hdefined, fun f hf => by cases hf⟩
      · have hsome : c.contents.isSome := by
          cases hcontents : c.contents with
          | none => exact absurd (hapt hcontents) hwide
          | some text => rfl
        refine ⟨fun entry hentry => ?_, fun f hf => Or.inl ?_⟩
        · rcases h.keeps memory c call entry hentry with hold | hnew
          · exact hdefined entry hold
          · exact hnew ▸ hknown hsome
        · exact h.here memory c call f hf ▸ hknown hsome
    separates := fun id hid memory c₁ c₂ call halike =>
      h.depends id hid memory c₁ c₂ call halike.sameFile }

/-- A local detector finds in files one after the other what it finds in each
of them by itself. -/
theorem Local.findings_flatMap (h : d.Local issues) {α : Type} (items : List α)
    (told : α → List (Context × Call))
    (hbegins : ∀ item, told item = [] ∨ ∃ c more, told item = (c, .beforeFile) :: more)
    (id : String) (past : List (Context × Call)) :
    d.findings id (d.after .blank past) (items.flatMap told)
      = items.flatMap fun item => d.findings id .blank (told item) := by
  induction items generalizing past with
  | nil => rfl
  | cons item items ih =>
      -- what is told of an item is nothing, or begins with a file, before which everything
      -- is forgotten
      have hitem : d.findings id (d.after .blank past) (told item)
          = d.findings id .blank (told item) := by
        rcases hbegins item with hnil | ⟨c, more, hcons⟩
        · rw [hnil]
          rfl
        · have hblank : d.react .blank c .beforeFile = (.blank, []) := h.fresh [] c
          rw [hcons, findings, findings, heard, heard, h.fresh past c, hblank]
      have hafter : d.after (d.after .blank past) (told item)
          = d.after .blank (past ++ told item) := List.foldl_append.symm
      rw [List.flatMap_cons, List.flatMap_cons, findings_append, hitem, hafter, ih]

/-- A local detector finds in a project what it finds between its beginning and
its end. -/
theorem Local.findings_project (h : d.Local issues) (id : String) (context : Context)
    (told : List (Context × Call)) :
    d.findings id .blank ((context, .beforeProject) :: (told ++ [(context, .afterProject)]))
      = d.findings id .blank told := by
  have hwide : ∀ memory call, call.isWide → ∀ more,
      d.findings id memory ((context, call) :: more) = d.findings id memory more := by
    intro memory call hcall more
    rw [findings, heard, h.wide memory context call hcall]
    rfl
  rw [hwide _ _ rfl, findings_append, hwide _ _ rfl]
  exact List.append_nil _

/-- What a local detector finds lies in the files it was told of. -/
theorem Local.file_of_mem_findings (h : d.Local issues) {file : Path}
    {told : List (Context × Call)} (htold : ∀ t ∈ told, t.1.file = file) {id : String}
    {memory : Memory} {f : Finding} (hf : f ∈ d.findings id memory told) : f.place.file = file := by
  induction told generalizing memory with
  | nil => cases hf
  | cons t told ih =>
      obtain ⟨context, call⟩ := t
      rcases List.mem_append.mp hf with hf | hf
      · rw [h.here memory context call f (Emission.mem_under.mp hf).1]
        exact htold _ List.mem_cons_self
      · exact ih (fun t ht => htold t (List.mem_cons_of_mem _ ht)) hf

/-- A detector without a memory is local when its answers are. -/
theorem Local.ofStateless
    (hreact : ∀ memory c call, d.react memory c call = (memory, (d.react .blank c call).2))
    (hquiet : ∀ c call, call.isWide ∨ call = .beforeFile → (d.react .blank c call).2 = [])
    (hreports : ∀ c call e, e ∈ (d.react .blank c call).2 →
      ∃ f, e = .report f ∧ f.issue ∈ issues ∧ f.place.file = c.file)
    (hdepends : ∀ id ∈ issues, ∀ c₁ c₂ call, Context.SameFile id c₁ c₂ →
      Emission.under id (d.react .blank c₁ call).2 = Emission.under id (d.react .blank c₂ call).2) :
    d.Local issues := by
  -- without a memory there is nothing to remember after any calls
  have hafter : ∀ told, d.after .blank told = .blank := by
    intro told
    induction told with
    | nil => rfl
    | cons t told ih =>
        obtain ⟨c, call⟩ := t
        show d.after (d.react .blank c call).1 told = .blank
        rw [hreact, ih]
  exact
    { reports := fun memory c call e he => by
        rw [hreact] at he
        obtain ⟨f, rfl, hissue, -⟩ := hreports c call e he
        exact ⟨f, rfl, hissue⟩
      wide := fun memory c call hwide => by rw [hreact, hquiet c call (Or.inl hwide)]
      here := fun memory c call f hf => by
        rw [hreact] at hf
        obtain ⟨f', heq, -, hfile⟩ := hreports c call _ hf
        cases heq
        exact hfile
      keeps := fun memory c call entry hentry => by
        rw [hreact] at hentry
        exact Or.inl hentry
      fresh := fun told c => by rw [hafter, hreact, hquiet c _ (Or.inr rfl)]
      depends := fun id hid memory c₁ c₂ call hfile => by
        unfold heard
        rw [hreact memory c₁, hreact memory c₂]
        exact ⟨rfl, hdepends id hid c₁ c₂ call hfile⟩ }

end Detector

-- ===================================================== the local detectors

/-- A report is made alike in contexts of one file where it is made only if
its issue is reported. -/
theorem Context.SameFile.under_gate {id issue : String} {c d : Context} (h : c.SameFile id d)
    (f : Finding) (hissue : f.issue = issue) (b : Bool) :
    Emission.under id (if c.isEnabled issue && b then [.report f] else [])
      = Emission.under id (if d.isEnabled issue && b then [.report f] else []) := by
  refine Emission.under_gate (fun e he => ⟨f, List.mem_singleton.mp he, hissue⟩) fun hid => ?_
  rw [hid, h.enabled]

/-- A finding that depends only on whether its issue is enabled is the same from
contexts that show the same file. -/
theorem Context.SameFile.under_enabled {id issue : String} {c d : Context} (h : c.SameFile id d)
    (f : Finding) (hissue : f.issue = issue) :
    Emission.under id (if c.isEnabled issue then [.report f] else [])
      = Emission.under id (if d.isEnabled issue then [.report f] else []) := by
  simpa only [Bool.and_true] using h.under_gate f hissue true

/-- A single report, where something is the case. -/
theorem Emission.exists_of_mem_gate {e : Emission} {f : Finding} {b : Bool}
    (h : e ∈ if b then [.report f] else []) : e = .report f := by
  split at h
  · exact List.mem_singleton.mp h
  · cases h

namespace HardcodedText

/-- The only reaction to an attribute is one finding at it, whatever is
remembered. -/
theorem react_attribute (memory : Memory) (c : Context) (doc : Xml.Document) (e : Xml.Element)
    (a : Xml.Attribute) :
    detector.react memory c (.attribute doc e a)
      = (memory,
          if isLiteral a.value && a.uri == some androidUri then
            [.report (.at (c.attributePlace doc e a) issue.id
              ("[I18N] Hardcoded string \"" ++ a.value ++ "\", should use @string resource"))]
          else []) := by
  show react memory c (.attribute doc e a) = _
  simp only [react]
  split <;> rfl

/-- Hardcoded texts are found file by file. -/
theorem isLocal : detector.Local [issue.id] := by
  refine Detector.Local.ofStateless (fun memory c call => ?_) (fun c call hcall => ?_)
    (fun c call e he => ?_) fun id _ c₁ c₂ call hfile => ?_
  · -- by the call, since attributes are all that is looked at
    cases call with
    | «attribute» doc e a => rw [react_attribute, react_attribute]
    | _ => rfl
  · cases call with
    | «attribute» => simp [Call.isWide] at hcall
    | _ => rfl
  · cases call with
    | «attribute» doc element a =>
        rw [react_attribute] at he
        exact ⟨_, Emission.exists_of_mem_gate he, List.mem_singleton.mpr rfl, rfl⟩
    | _ => cases he
  · cases call with
    | «attribute» doc e a =>
        rw [react_attribute, react_attribute]
        unfold Context.attributePlace
        rw [hfile.file]
    | _ => rfl

end HardcodedText

namespace Dimension

/-- An attribute is answered with at most one of two findings: a length in
pixels, or a text size that does not scale. -/
theorem react_attribute (memory : Memory) (c : Context) (doc : Xml.Document) (e : Xml.Element)
    (a : Xml.Attribute) :
    detector.react memory c (.attribute doc e a)
      = (memory,
          (if c.isEnabled pxIssue.id && (isPixels a.value && a.value.toList.head? != some '0') then
            [.report (.at (c.attributePlace doc e a) pxIssue.id
              "Avoid using \"px\" as units; use \"dp\" instead")]
          else [])
            ++ (if c.isEnabled spIssue.id
                && (!isPixels a.value && a.localName == "textSize"
                  && isDensityIndependent a.value) then
            [.report (.at (c.attributePlace doc e a) spIssue.id
              "Should use \"sp\" instead of \"dp\" for text sizes")]
          else [])) := by
  show react memory c (.attribute doc e a) = _
  simp only [react, verdict?]
  by_cases hpx : isPixels a.value
  · cases c.isEnabled pxIssue.id <;> by_cases hzero : a.value.toList.head? = some '0' <;>
      simp [hpx, hzero]
  · cases c.isEnabled spIssue.id <;> by_cases hname : a.localName = "textSize" <;>
      cases isDensityIndependent a.value <;> simp [hpx, hname]

/-- Lengths are judged attribute by attribute, each of the two issues by
itself. -/
theorem isLocal : detector.Local [pxIssue.id, spIssue.id] := by
  refine Detector.Local.ofStateless (fun memory c call => ?_) (fun c call hcall => ?_)
    (fun c call e he => ?_) fun id _ c₁ c₂ call hfile => ?_
  · cases call with
    | «attribute» doc e a => rw [react_attribute, react_attribute]
    | _ => rfl
  · cases call with
    | «attribute» => simp [Call.isWide] at hcall
    | _ => rfl
  · cases call with
    | «attribute» doc element a =>
        rw [react_attribute] at he
        rcases List.mem_append.mp he with he | he
        · exact ⟨_, Emission.exists_of_mem_gate he, List.mem_cons_self, rfl⟩
        · exact ⟨_, Emission.exists_of_mem_gate he, List.mem_cons_of_mem _ List.mem_cons_self, rfl⟩
    | _ => cases he
  · cases call with
    | «attribute» doc e a =>
        rw [react_attribute, react_attribute]
        unfold Context.attributePlace
        rw [hfile.file, Emission.under_append, Emission.under_append]
        -- the two halves of the answer report an issue each
        congr 1
        · exact hfile.under_gate _ (by rfl) _
        · exact hfile.under_gate _ (by rfl) _
    | _ => rfl

end Dimension

namespace UselessView

/-- An element is answered as a leaf or as a parent, as it has children or not,
and for the issue that is enabled. -/
theorem react_element (memory : Memory) (c : Context) (doc : Xml.Document) (e : Xml.Element) :
    detector.react memory c (.element doc e)
      = (memory,
          (if c.isEnabled leafIssue.id && (e.childElements.isEmpty && isUselessLeaf e) then
            [.report (.at (c.elementPlace e) leafIssue.id (leafMessage e))] else [])
            ++ (if c.isEnabled parentIssue.id
              && (!e.childElements.isEmpty && isUselessParent e) then
            [.report (.at (c.elementPlace e) parentIssue.id (parentMessage e))] else [])) := by
  show react memory c (.element doc e) = _
  simp only [react]
  by_cases hleaf : e.childElements.isEmpty
  · rw [if_pos hleaf, hleaf]
    cases hon : c.isEnabled leafIssue.id <;> cases huseless : isUselessLeaf e <;> simp
  · rw [if_neg hleaf]
    simp only [Bool.not_eq_true] at hleaf
    rw [hleaf]
    cases hon : c.isEnabled parentIssue.id <;> cases huseless : isUselessParent e <;> simp

/-- Useless views are judged by their element in its document alone. -/
theorem isLocal : detector.Local [parentIssue.id, leafIssue.id] := by
  refine Detector.Local.ofStateless (fun memory c call => ?_) (fun c call hcall => ?_)
    (fun c call e he => ?_) fun id _ c₁ c₂ call hfile => ?_
  · cases call with
    | element doc e => rw [react_element, react_element]
    | _ => rfl
  · cases call with
    | element => simp [Call.isWide] at hcall
    | _ => rfl
  · cases call with
    | element doc element =>
        rw [react_element] at he
        rcases List.mem_append.mp he with he | he
        · exact ⟨_, Emission.exists_of_mem_gate he, List.mem_cons_of_mem _ List.mem_cons_self, rfl⟩
        · exact ⟨_, Emission.exists_of_mem_gate he, List.mem_cons_self, rfl⟩
    | _ => cases he
  · cases call with
    | element doc e =>
        rw [react_element, react_element]
        unfold Context.elementPlace
        rw [hfile.file, Emission.under_append, Emission.under_append]
        congr 1
        · exact hfile.under_gate _ (by rfl) _
        · exact hfile.under_gate _ (by rfl) _
    | _ => rfl

end UselessView

namespace ShrinkingRules

/-- What is said of a file of rules is said where the rule stands. -/
theorem mem_check {c : Context} {e : Emission} (h : e ∈ check c) :
    ∃ f text before after, e = .report f ∧ f.issue = issue.id ∧ f.place.file = c.file
      ∧ c.contents = some text ∧ Text.cut? obsoleteRule.toList text.toList = some (before, after)
      ∧ f.place.start = some (placeAfter before) := by
  unfold check at h
  split at h
  · next before after hcut =>
      obtain ⟨text, htext, hcut⟩ := Option.bind_eq_some_iff.mp hcut
      exact ⟨_, text, before, after, List.mem_singleton.mp h, rfl, rfl, htext, hcut, rfl⟩
  · cases h

/-- The obsolete rule is searched in the text of the file at hand, and nothing
is remembered. -/
theorem isLocal : detector.Local [issue.id] := by
  refine Detector.Local.ofStateless (fun memory c call => ?_) (fun c call hcall => ?_)
    (fun c call e he => ?_) fun id _ c₁ c₂ call hfile => ?_
  · cases call <;> rfl
  · cases call with
    | plainFile => simp [Call.isWide] at hcall
    | _ => rfl
  · cases call with
    | plainFile =>
        obtain ⟨f, _, _, _, rfl, hissue, hfile, -⟩ := mem_check he
        exact ⟨f, rfl, List.mem_singleton.mpr hissue, hfile⟩
    | _ => cases he
  · cases call with
    | plainFile =>
        show Emission.under id (check c₁) = Emission.under id (check c₂)
        unfold check
        rw [hfile.contents, hfile.file]
    | _ => rfl

end ShrinkingRules

/-- What every call keeps true of the memory is true of it after any. -/
theorem Detector.after_blank {d : Detector} {P : Memory → Prop} (hblank : P .blank)
    (hstep : ∀ memory c call, P memory → P (d.react memory c call).1)
    (told : List (Context × Call)) : P (d.after .blank told) := by
  unfold after
  generalize Memory.blank = memory at hblank
  induction told generalizing memory with
  | nil => exact hblank
  | cons t told ih => exact ih _ (hstep memory t.1 t.2 hblank)

namespace DuplicateIds

/-- An id of the platform that is not empty is visited, and nothing else is. -/
theorem react_attribute (memory : Memory) (c : Context) (doc : Xml.Document) (e : Xml.Element)
    (a : Xml.Attribute) :
    detector.react memory c (.attribute doc e a)
      = if a.uri == some androidUri && a.value != "" then
          visitId memory (c.attributePlace doc e a) a.value
        else (memory, []) := rfl

/-- An id that is new is remembered, one that is not is reported. -/
theorem visitId_cases (memory : Memory) (place : Place) (id : String) :
    (∃ f, visitId memory place id = (memory, [.report f]) ∧ f.issue = issue.id ∧ f.place = place)
      ∨ visitId memory place id
          = ({ memory with defined := memory.defined ++ [(("id", id), place)] }, []) := by
  unfold visitId
  split
  · exact Or.inl ⟨_, rfl, rfl, rfl⟩
  · exact Or.inr rfl

/-- What an attribute leads to. -/
theorem react_attribute_cases (memory : Memory) (c : Context) (doc : Xml.Document)
    (e : Xml.Element) (a : Xml.Attribute) :
    (∃ f, detector.react memory c (.attribute doc e a) = (memory, [.report f])
        ∧ f.issue = issue.id ∧ f.place = c.attributePlace doc e a)
      ∨ (∃ entry : ResourceKey × Place, detector.react memory c (.attribute doc e a)
          = ({ memory with defined := memory.defined ++ [entry] }, [])
            ∧ entry.2 = c.attributePlace doc e a)
      ∨ detector.react memory c (.attribute doc e a) = (memory, []) := by
  rw [react_attribute]
  split
  · rcases visitId_cases memory (c.attributePlace doc e a) a.value with ⟨f, hf, hissue, hplace⟩ | h
    · exact Or.inl ⟨f, hf, hissue, hplace⟩
    · exact Or.inr (Or.inl ⟨_, h, rfl⟩)
  · exact Or.inr (Or.inr rfl)

/-- Repeated ids are told file by file: the list of those defined is emptied
before each file. -/
theorem isLocal : detector.Local [issue.id] where
  reports memory c call e he := by
    cases call with
    | «attribute» doc element a =>
        -- an attribute is reported, remembered or left aside; only the first is said
        rcases react_attribute_cases memory c doc element a with ⟨f, hf, hissue, -⟩ | ⟨_, h, -⟩ | h
        · rw [hf] at he
          exact ⟨f, List.mem_singleton.mp he, List.mem_singleton.mpr hissue⟩
        · rw [h] at he
          cases he
        · rw [h] at he
          cases he
    | _ => cases he
  wide memory c call hwide := by
    cases call <;> first | rfl | cases hwide
  here memory c call f hf := by
    cases call with
    | «attribute» doc e a =>
        -- what is reported stands at the attribute, whose place is in the file
        rcases react_attribute_cases memory c doc e a with ⟨f', h, -, hplace⟩ | ⟨_, h, -⟩ | h
        · rw [h, List.mem_singleton] at hf
          cases hf
          rw [hplace]
          rfl
        · rw [h] at hf
          cases hf
        · rw [h] at hf
          cases hf
    | _ => cases hf
  keeps memory c call entry hentry := by
    cases call with
    | beforeFile => cases hentry
    | «attribute» doc e a =>
        -- and so does what is remembered
        rcases react_attribute_cases memory c doc e a with ⟨f, h, -, -⟩ | ⟨new, h, hplace⟩ | h
        · rw [h] at hentry
          exact Or.inl hentry
        · rw [h] at hentry
          rcases List.mem_append.mp hentry with hold | hnew
          · exact Or.inl hold
          · rw [List.mem_singleton.mp hnew, hplace]
            exact Or.inr rfl
        · rw [h] at hentry
          exact Or.inl hentry
    | _ => exact Or.inl hentry
  fresh told c := by
    -- of all that is remembered the list of ids alone is ever filled, and it is emptied
    -- first
    have hrest : ∃ defined, detector.after .blank told = { Memory.blank with defined } := by
      refine Detector.after_blank (P := fun m => ∃ defined, m = { Memory.blank with defined })
        ⟨[], rfl⟩ ?_ told
      rintro _ c call ⟨defined, rfl⟩
      cases call with
      | beforeFile => exact ⟨[], rfl⟩
      | «attribute» doc e a =>
          rcases react_attribute_cases { Memory.blank with defined } c doc e a with
            ⟨f, h, -, -⟩ | ⟨new, h, -⟩ | h <;> exact ⟨_, by rw [h]⟩
      | _ => exact ⟨defined, rfl⟩
    obtain ⟨defined, hafter⟩ := hrest
    rw [hafter]
    rfl
  depends id _ memory c₁ c₂ call hfile := by
    -- the context gives no more than the place of an attribute
    have hreact : detector.react memory c₁ call = detector.react memory c₂ call := by
      cases call with
      | «attribute» doc e a =>
          rw [react_attribute, react_attribute]
          unfold Context.attributePlace
          rw [hfile.file]
      | _ => rfl
    unfold Detector.heard
    rw [hreact]
    exact ⟨rfl, rfl⟩

end DuplicateIds

namespace Manifest

variable {memory : Memory} {c : Context} {doc : Xml.Document} {element : Xml.Element}

/-- The ids of the four issues. -/
def issueIds : List String :=
  [orderIssue.id, minSdkIssue.id, multipleUsesSdkIssue.id, wrongParentIssue.id]

/-- What is said of an element is said at its place. -/
def Within (place : Place) (es : List Emission) : Prop :=
  ∀ e ∈ es, ∃ f, e = .report f ∧ f.issue ∈ issueIds ∧ f.place = place

theorem within_nil (place : Place) : Within place [] := fun _ h => by cases h

/-- What is reported for an element is reported at its place. -/
theorem within_reportElement {issue : Issue} (hissue : issue.id ∈ issueIds) (message : String) :
    Within (c.elementPlace element) (reportElement c element issue message) := by
  intro e he
  unfold reportElement at he
  exact ⟨_, Emission.exists_of_mem_gate he, hissue, rfl⟩

/-- Two parts that report at one place do so together. -/
theorem Within.append {place : Place} {s t : List Emission} (hs : Within place s)
    (ht : Within place t) : Within place (s ++ t) := by
  intro e he
  rcases List.mem_append.mp he with he | he
  · exact hs e he
  · exact ht e he

theorem within_reportSecond : Within (c.elementPlace element) (reportSecond c doc element) := by
  intro e he
  unfold reportSecond at he
  have hissue : multipleUsesSdkIssue.id ∈ issueIds := by simp [issueIds]
  exact ⟨_, Emission.exists_of_mem_gate he, hissue, rfl⟩

/-- Each finding about a `uses-sdk` element is at that element. -/
theorem within_visitUsesSdk (count : Nat) :
    Within (c.elementPlace element) (visitUsesSdk c doc element count) := by
  unfold visitUsesSdk
  split
  · exact within_reportSecond
  · split
    · exact within_nil _
    · exact within_reportElement (by simp [issueIds]) _

/-- An element out of order is reported where it stands. -/
theorem within_visitInOrder :
    Within (c.elementPlace element) (visitInOrder memory c element).2 := by
  unfold visitInOrder
  split
  · exact within_nil _
  · split
    · exact within_reportElement (by simp [issueIds]) _
    · exact within_nil _

/-- A visit reports at the visited element only. -/
theorem within_visitElement :
    Within (c.elementPlace element) (visitElement memory c doc element).2 := by
  unfold visitElement
  split
  · split
    · exact within_nil _
    · exact within_reportElement (by simp [issueIds]) _
  · split
    · exact within_reportElement (by simp [issueIds]) _
    · split
      · simp only
        split
        · exact within_visitUsesSdk _
        · exact (within_visitUsesSdk _).append within_visitInOrder
      · exact within_visitInOrder

/-- What is said of the manifest as a whole is said of the file. -/
theorem within_afterFile : Within c.filePlace (react memory c .afterFile).2 := by
  unfold react
  simp only
  split
  · intro e he
    have hissue : minSdkIssue.id ∈ issueIds := by simp [issueIds]
    exact ⟨_, List.mem_singleton.mp he, hissue, rfl⟩
  · exact within_nil _

/-- Every reaction reports at one place of the file it is called for. -/
theorem within_react (call : Call) :
    ∃ place, Within place (detector.react memory c call).2 ∧ place.file = c.file := by
  cases call with
  | element doc e => exact ⟨c.elementPlace e, within_visitElement, rfl⟩
  | afterFile => exact ⟨c.filePlace, within_afterFile, rfl⟩
  | _ => exact ⟨c.filePlace, within_nil _, rfl⟩

/-- Memories that keep the same declarations and mentions. -/
def SameLists (m n : Memory) : Prop := m.defined = n.defined ∧ m.mentioned = n.mentioned

/-- What is told of the order is remembered beside the lists. -/
theorem sameLists_visitInOrder : SameLists (visitInOrder memory c element).1 memory := by
  unfold visitInOrder
  split
  · exact ⟨rfl, rfl⟩
  · split <;> exact ⟨rfl, rfl⟩

/-- No call for a manifest touches the lists: a count and a flag are all that is
remembered. -/
theorem sameLists_react (call : Call) : SameLists (detector.react memory c call).1 memory := by
  cases call with
  | element doc e =>
      show SameLists (visitElement memory c doc e).1 memory
      unfold visitElement
      split
      · split <;> exact ⟨rfl, rfl⟩
      · split
        · exact ⟨rfl, rfl⟩
        · split
          · simp only
            split
            · exact ⟨rfl, rfl⟩
            · exact sameLists_visitInOrder
          · exact sameLists_visitInOrder
  | afterFile =>
      show SameLists (react memory c .afterFile).1 memory
      unfold react
      simp only
      split <;> exact ⟨rfl, rfl⟩
  | _ => exact ⟨rfl, rfl⟩

section SameFile

variable {id : String} {c₁ c₂ : Context} (hfile : Context.SameFile id c₁ c₂)

include hfile

theorem under_reportElement (issue : Issue) (message : String) :
    Emission.under id (reportElement c₁ element issue message)
      = Emission.under id (reportElement c₂ element issue message) := by
  unfold reportElement Context.elementPlace
  rw [hfile.file]
  exact hfile.under_enabled _ (by rfl)

/-- Under each issue, a `uses-sdk` element is answered by its attributes and the
file alone. -/
theorem under_visitUsesSdk (count : Nat) :
    Emission.under id (visitUsesSdk c₁ doc element count)
      = Emission.under id (visitUsesSdk c₂ doc element count) := by
  unfold visitUsesSdk
  split
  · unfold reportSecond Context.elementPlace
    rw [hfile.file]
    exact hfile.under_enabled _ (by rfl)
  · split
    · rfl
    · exact under_reportElement hfile _ _

/-- An element whose order counts sets the flag in both contexts or in neither,
and is answered alike. -/
theorem visitInOrder_congr (memory : Memory) (element : Xml.Element) :
    (visitInOrder memory c₁ element).1 = (visitInOrder memory c₂ element).1
      ∧ Emission.under id (visitInOrder memory c₁ element).2
        = Emission.under id (visitInOrder memory c₂ element).2 := by
  unfold visitInOrder
  split
  · exact ⟨rfl, rfl⟩
  · split
    · exact ⟨rfl, under_reportElement hfile _ _⟩
    · exact ⟨rfl, rfl⟩

/-- A visit goes by the element and by what is remembered; only the gate of its
own issue asks the context. -/
theorem visitElement_congr :
    (visitElement memory c₁ doc element).1 = (visitElement memory c₂ doc element).1
      ∧ Emission.under id (visitElement memory c₁ doc element).2
        = Emission.under id (visitElement memory c₂ doc element).2 := by
  unfold visitElement
  split
  · split
    · exact ⟨rfl, rfl⟩
    · exact ⟨rfl, under_reportElement hfile _ _⟩
  · split
    · exact ⟨rfl, under_reportElement hfile _ _⟩
    · split
      · simp only
        split
        · exact ⟨rfl, under_visitUsesSdk hfile _⟩
        · -- a second look at the same element, now for its place in the order
          obtain ⟨hmemory, hunder⟩ :=
            visitInOrder_congr hfile { memory with count := memory.count + 1 } element
          refine ⟨hmemory, ?_⟩
          rw [Emission.under_append, Emission.under_append, under_visitUsesSdk hfile, hunder]
      · exact visitInOrder_congr hfile memory element

/-- A reaction to the manifest goes by the file and by what is remembered, the
one at its end included. -/
theorem react_congr (call : Call) :
    (detector.react memory c₁ call).1 = (detector.react memory c₂ call).1
      ∧ detector.heard id memory c₁ call = detector.heard id memory c₂ call := by
  cases call with
  | element doc e => exact visitElement_congr hfile
  | afterFile =>
      have hafter : ∀ c, detector.react memory c .afterFile
          = (memory, if c.isEnabled minSdkIssue.id && memory.count == 0 then
              [.report (.at c.filePlace minSdkIssue.id
                ("Manifest should specify a minimum API level with <uses-sdk "
                  ++ "android:minSdkVersion=\"?\" "
                  ++ "/>; if it really supports all versions of Android set it to 1."))]
              else []) := by
        intro c
        show react memory c .afterFile = _
        unfold react
        by_cases hcount : memory.count = 0 <;> cases c.isEnabled minSdkIssue.id <;> simp [hcount]
      unfold Detector.heard
      rw [hafter, hafter]
      refine ⟨rfl, ?_⟩
      unfold Context.filePlace
      rw [hfile.file]
      exact hfile.under_gate _ (by rfl) _
  | _ => exact ⟨rfl, rfl⟩

end SameFile

/-- The manifest is checked by itself: before it is read, the count and the flag
are reset. -/
theorem isLocal : detector.Local issueIds where
  reports memory c call e he := by
    obtain ⟨place, hwithin, -⟩ := @within_react memory c call
    obtain ⟨f, hf, hissue, -⟩ := hwithin e he
    exact ⟨f, hf, hissue⟩
  wide memory c call hwide := by
    cases call <;> first | rfl | cases hwide
  here memory c call f hf := by
    obtain ⟨place, hwithin, hfile⟩ := @within_react memory c call
    obtain ⟨f', heq, -, hplace⟩ := hwithin _ hf
    cases heq
    rw [hplace, hfile]
  keeps memory c call entry hentry := by
    rw [(sameLists_react call).1] at hentry
    exact Or.inl hentry
  fresh told c := by
    -- the lists are blank after any calls, and the rest is reset before the file
    obtain ⟨hdefined, hmentioned⟩ : SameLists (detector.after .blank told) .blank :=
      Detector.after_blank (P := (SameLists · .blank)) ⟨rfl, rfl⟩ (fun memory c call h =>
        ⟨(sameLists_react call).1.trans h.1, (sameLists_react call).2.trans h.2⟩) told
    show (Memory.mk (detector.after .blank told).defined (detector.after .blank told).mentioned
      0 false, []) = _
    rw [hdefined, hmentioned]
    rfl
  depends id _ memory c₁ c₂ call hfile := react_congr hfile call

end Manifest

-- =========================================== the detectors of whole projects

/-- Whatever stands in a map after an insertion was there before, or is what was
inserted. -/
theorem Assoc.mem_insertNew {κ α : Type} {cmp : κ → κ → Ordering} {key : κ} {value : α}
    {entries : List (κ × α)} {entry : κ × α} (h : entry ∈ insertNew cmp key value entries) :
    entry ∈ entries ∨ entry = (key, value) := by
  induction entries with
  | nil => exact Or.inr (List.mem_singleton.mp h)
  | cons first entries ih =>
      obtain ⟨k, old⟩ := first
      unfold insertNew at h
      split at h
      · rcases List.mem_cons.mp h with rfl | h
        · exact Or.inr rfl
        · exact Or.inl h
      · exact Or.inl h
      · rcases List.mem_cons.mp h with rfl | h
        · exact Or.inl List.mem_cons_self
        · rcases ih h with h | h
          · exact Or.inl (List.mem_cons_of_mem _ h)
          · exact Or.inr h

namespace UnusedResources

variable {memory : Memory} {c : Context} {entry : ResourceKey × Place}

/-- A mention defines nothing. -/
theorem defined_mention (key : ResourceKey) : (mention memory key).defined = memory.defined := by
  unfold mention
  split <;> rfl

/-- Mentions in a text define nothing. -/
theorem defined_mentionAll (text : String) : (mentionAll memory text).defined = memory.defined := by
  unfold mentionAll
  generalize references text.toList = keys
  induction keys generalizing memory with
  | nil => rfl
  | cons key keys ih => rw [List.foldl_cons, ih, defined_mention]

theorem defined_foldl_mentionAll (texts : List String) :
    (texts.foldl mentionAll memory).defined = memory.defined := by
  induction texts generalizing memory with
  | nil => rfl
  | cons text texts ih => rw [List.foldl_cons, ih, defined_mentionAll]

/-- A declaration is new or was there. -/
theorem mem_declare {kind name : String} {place : Place}
    (h : entry ∈ (declare memory kind name place).defined) :
    entry ∈ memory.defined ∨ entry.2 = place := by
  rcases Assoc.mem_insertNew h with h | rfl
  · exact Or.inl h
  · exact Or.inr rfl

/-- Whatever is defined after a declaration was defined before, or stands at the
declaring element. -/
theorem mem_declareValue {element : Xml.Element}
    (h : entry ∈ (declareValue c memory element).defined) :
    entry ∈ memory.defined ∨ entry.2 = c.elementPlace element := by
  unfold declareValue at h
  split at h
  · simp only at h
    split at h
    · split at h
      · rw [defined_mention] at h
        exact mem_declare h
      · exact mem_declare h
    · exact mem_declare h
  · exact Or.inl h

/-- What a file declares is declared by a child of its outermost element, or
by the file as a whole. -/
theorem mem_declareFile {document : Xml.Document}
    (h : entry ∈ (declareFile c memory document).defined) :
    entry ∈ memory.defined ∨ entry.2 = c.filePlace
      ∨ ∃ e ∈ document.root.childElements, entry.2 = c.elementPlace e := by
  unfold declareFile at h
  split at h
  · generalize document.root.childElements = elements at h
    induction elements generalizing memory with
    | nil => exact Or.inl h
    | cons element elements ih =>
        rcases ih h with h | h | ⟨e, he, h⟩
        · refine (mem_declareValue h).imp_right fun h => Or.inr ⟨element, ?_, h⟩
          exact List.mem_cons_self
        · exact Or.inr (Or.inl h)
        · exact Or.inr (Or.inr ⟨e, List.mem_cons_of_mem _ he, h⟩)
  · simp only at h
    split at h
    · exact Or.inl h
    · exact (mem_declare h).imp_right Or.inl
  · exact Or.inl h

/-- Unused keys are told from what all files of the project define and mention;
each is reported where it is defined. -/
theorem conforms : detector.Conforms [issue.id] where
  reports memory c call e he := by
    cases call with
    | afterProject =>
        obtain ⟨_, -, rfl⟩ := List.mem_map.mp he
        exact ⟨_, rfl, List.mem_singleton.mpr rfl⟩
    | _ => cases he
  places known memory c call hdefined hapt hknown := by
    cases call with
    | beforeProject =>
        exact ⟨fun entry hentry => (by cases hentry), fun f hf => (by cases hf)⟩
    | document doc =>
        refine ⟨fun entry hentry => ?_, fun f hf => by cases hf⟩
        -- a document is only shown with its text at hand
        have hsome : c.contents.isSome := by
          cases hcontents : c.contents with
          | none => exact absurd (hapt hcontents) (by simp [Call.isWide])
          | some text => rfl
        change entry ∈ (visitDocument memory c doc).defined at hentry
        unfold visitDocument at hentry
        rw [defined_foldl_mentionAll] at hentry
        -- mentions define nothing, so the entry is older or comes from this file
        rcases mem_declareFile hentry with hold | hnew | ⟨e, -, hnew⟩
        · exact hdefined entry hold
        · rw [hnew]
          exact hknown hsome
        · rw [hnew]
          exact hknown hsome
    | afterProject =>
        refine ⟨hdefined, fun f hf => Or.inl ?_⟩
        obtain ⟨entry, hentry, heq⟩ := List.mem_map.mp hf
        cases heq
        exact hdefined entry (List.mem_filter.mp hentry).1
    | _ => exact ⟨hdefined, fun f hf => by cases hf⟩
  separates id _ memory c₁ c₂ call halike := by
    have hreact : detector.react memory c₁ call = detector.react memory c₂ call := by
      cases call with
      | document doc =>
          show (visitDocument memory c₁ doc, []) = (visitDocument memory c₂ doc, [])
          -- of the context a document is told the file and its folder
          have hvalue : declareValue c₁ = declareValue c₂ := by
            funext memory element
            unfold declareValue Context.elementPlace
            rw [halike.file]
          unfold visitDocument declareFile Context.filePlace
          rw [halike.folder, halike.file, hvalue]
      | _ => rfl
    unfold Detector.heard
    rw [hreact]
    exact ⟨rfl, rfl⟩

end UnusedResources

namespace Icons

variable {c : Context} {resources : Path} {folders : List Folder}

/-- An extension of bitmaps is no other in small letters. -/
theorem lower_of_bitmap {ext : String} (h : ext ∈ ["png", "jpg", "jpeg", "gif"]) :
    '/' ∉ (asciiLower ext).toList ∧ '.' ∉ (asciiLower ext).toList
      ∧ 2 ≤ (asciiLower ext).toList.length ∧ asciiLower ext ≠ asciiLower "xml"
      ∧ asciiLower ext ≠ asciiLower "cfg" := by
  revert ext
  decide

/-- A bitmap is no file that a run opens. -/
theorem not_isOpenable_bitmap (p : Path) {name : String} (h : isBitmap name) :
    Run.isOpenable (p.child name) = false := by
  unfold isBitmap at h
  obtain ⟨ext, hext, h⟩ := List.any_eq_true.mp h
  unfold hasExtension at h
  split at h
  · next before found hcut =>
      obtain ⟨hslash, hdot, hlong, hxml, hcfg⟩ := lower_of_bitmap hext
      obtain ⟨hname, hfound⟩ := Text.cutLast?_eq_some_iff.mp hcut
      have hlower : asciiLower (String.ofList found) = asciiLower ext := by simpa using h
      have hmap : (asciiLower ext).toList = found.map Char.toLower := by
        rw [← hlower]
        unfold asciiLower
        rw [String.toList_ofList, String.toList_ofList]
      rw [hmap] at hslash hdot hlong
      obtain ⟨lead, htext⟩ := Path.child_toList_suffix p name
      rw [hname, ← List.append_assoc] at htext
      obtain ⟨init, hfile⟩ := Path.fileName?_of_extension htext
        (fun hmem => hslash (List.mem_map.mpr ⟨'/', hmem, by decide⟩)) (by simpa using hlong)
      -- the name's last part ends in the extension of the bitmap, so it is neither kind of
      -- file
      have hlast : Text.cutLast? '.' (init ++ '.' :: found) = some (init, found) :=
        Text.cutLast?_eq_some_iff.mpr ⟨rfl, hfound⟩
      unfold Run.isOpenable
      rw [hfile]
      simp only [Option.any_some, Bool.or_eq_false_iff]
      constructor
      · unfold hasExtension
        rw [String.toList_ofList, hlast]
        simpa [hlower] using hxml
      · rw [beq_eq_false_iff_ne]
        intro heq
        have hcutName : Text.cutLast? '.' proguardName.toList = some (init, found) := by
          rw [← heq, String.toList_ofList, hlast]
        -- a file of rules would have to end in `cfg`
        have hparts : found = "cfg".toList := by
          have : Text.cutLast? '.' proguardName.toList
              = some ("proguard".toList, "cfg".toList) := by decide
          rw [this] at hcutName
          cases hcutName
          rfl
        exact hcfg (by rw [← hlower, hparts]; rfl)
  · cases h

/-- Missing folders make one finding at the resource directory. -/
theorem mem_reportMissingFolders {e : Emission}
    (h : e ∈ reportMissingFolders c resources folders) :
    ∃ f, e = .report f ∧ f.issue = missingFolderIssue.id ∧ f.place = .ofFile resources := by
  unfold reportMissingFolders at h
  split at h
  · cases h
  · exact ⟨_, List.mem_singleton.mp h, rfl, rfl⟩

/-- A finding about a bitmap lies in one of its variants. -/
theorem mem_reportCoverage {e : Emission} (h : e ∈ reportCoverage resources folders) :
    ∃ f, e = .report f ∧ f.issue = densitiesIssue.id
      ∧ ∃ folder ∈ folders, ∃ bitmap ∈ folder.bitmaps,
          f.place = .ofFile ((resources.child folder.name).child bitmap) := by
  unfold reportCoverage at h
  obtain ⟨f, hf, rfl⟩ := List.mem_map.mp h
  obtain ⟨bitmap, -, hcoverage⟩ := List.mem_filterMap.mp hf
  refine ⟨f, rfl, ?_⟩
  unfold coverage? at hcoverage
  simp only at hcoverage
  split at hcoverage
  · cases hcoverage
  · cases hcoverage
  · next first further hvariants _ =>
      cases hcoverage
      refine ⟨rfl, ?_⟩
      -- the first variant is reported, and variants are made from folders that hold the
      -- bitmap
      have hfirst : first ∈ (((folders.filter (·.name != unscaledFolder)).filter
          (·.bitmaps.contains bitmap)).map (·.name)).map fun folder =>
            Place.ofFile ((resources.child folder).child bitmap) := by
        rw [hvariants]
        exact List.mem_cons_self
      obtain ⟨name, hname, rfl⟩ := List.mem_map.mp hfirst
      obtain ⟨folder, hfolder, rfl⟩ := List.mem_map.mp hname
      obtain ⟨hfolder, hbitmap⟩ := List.mem_filter.mp hfolder
      exact ⟨folder, (List.mem_filter.mp hfolder).1, bitmap, by simpa using hbitmap, rfl⟩

/-- What is found in folders of alike contexts. -/
theorem folders_congr {id : String} {c₁ c₂ : Context} (h : c₁.Alike id c₂) (resources : Path) :
    Icons.folders c₁ resources = Icons.folders c₂ resources := by
  have hchildren : c₁.tree.children = c₂.tree.children := by
    funext p files
    rw [← FileTree.children_shape, h.shape, FileTree.children_shape]
  unfold Icons.folders
  rw [hchildren, h.lowDensity]

/-- The folders hold bitmaps. -/
theorem isBitmap_of_mem_folders {folder : Folder} (h : folder ∈ Icons.folders c resources)
    {bitmap : String} (hbitmap : bitmap ∈ folder.bitmaps) : isBitmap bitmap := by
  unfold Icons.folders at h
  obtain ⟨name, -, rfl⟩ := List.mem_map.mp h
  exact (List.mem_filter.mp hbitmap).2

/-- What the comparison of folders emits. -/
theorem mem_compareFolders {e : Emission} (h : e ∈ compareFolders c) :
    ∃ f, e = .report f ∧ f.issue ∈ [densitiesIssue.id, missingFolderIssue.id]
      ∧ Run.isOpenable f.place.file = false ∧ f.place.start = none := by
  unfold compareFolders at h
  simp only at h
  split at h
  · cases h
  · split at h
    · cases h
    · rcases List.mem_append.mp h with h | h
      · split at h
        · obtain ⟨f, rfl, hissue, hplace⟩ := mem_reportMissingFolders h
          refine ⟨f, rfl, by simp [hissue], ?_, by rw [hplace]; rfl⟩
          rw [hplace]
          unfold Place.ofFile Run.isOpenable Project.resources
          -- the resource directory is named `res`, which is not opened
          rw [Path.fileName?_child _ (by decide)]
          decide
        · cases h
      · split at h
        · obtain ⟨f, rfl, hissue, folder, hfolder, bitmap, hbitmap, hplace⟩ := mem_reportCoverage h
          refine ⟨f, rfl, by simp [hissue], ?_, by rw [hplace]; rfl⟩
          rw [hplace]
          exact not_isOpenable_bitmap _ (isBitmap_of_mem_folders hfolder hbitmap)
        · cases h

/-- The folders are compared by which files there are, whatever the files
hold. -/
theorem under_compareFolders {id : String} {c₁ c₂ : Context} (h : c₁.Alike id c₂) :
    Emission.under id (compareFolders c₁) = Emission.under id (compareFolders c₂) := by
  -- the comparison asks the tree for its directories and their children only, which is its
  -- shape
  have hdirectory : c₁.tree.isDirectory = c₂.tree.isDirectory := by
    funext p
    rw [← FileTree.isDirectory_shape, h.shape, FileTree.isDirectory_shape]
  have hmissing : ∀ folders, reportMissingFolders c₁ c₂.project.resources folders
      = reportMissingFolders c₂ c₂.project.resources folders := by
    intro folders
    unfold reportMissingFolders
    rw [h.lowDensity]
  have hgate : ∀ issue : Issue, issue.id = id →
      c₁.isEnabled issue.id = c₂.isEnabled issue.id := by
    intro issue hid
    rw [hid, h.enabled]
  unfold compareFolders
  simp only
  rw [h.project, hdirectory, folders_congr h]
  split
  · rfl
  · split
    · rfl
    · rw [Emission.under_append, Emission.under_append, hmissing]
      congr 1
      · -- each half reports a single issue, behind the gate of that issue
        refine Emission.under_gate (fun e he => ?_) (hgate missingFolderIssue)
        obtain ⟨f, hf, hissue, -⟩ := mem_reportMissingFolders he
        exact ⟨f, hf, hissue⟩
      · refine Emission.under_gate (fun e he => ?_) (hgate densitiesIssue)
        obtain ⟨f, hf, hissue, -⟩ := mem_reportCoverage he
        exact ⟨f, hf, hissue⟩

/-- Density folders are compared once the whole project is seen, by the shape of
its tree. -/
theorem conforms : detector.Conforms [densitiesIssue.id, missingFolderIssue.id] where
  reports memory c call e he := by
    cases call with
    | afterProject =>
        obtain ⟨f, hf, hissue, -⟩ := mem_compareFolders he
        exact ⟨f, hf, hissue⟩
    | _ => cases he
  places known memory c call hdefined hapt hknown := by
    cases call with
    | afterProject =>
        refine ⟨hdefined, fun f hf => Or.inr ?_⟩
        obtain ⟨f', heq, -, hclosed, -⟩ := mem_compareFolders hf
        cases heq
        exact hclosed
    | _ => exact ⟨hdefined, fun f hf => (by cases hf)⟩
  separates id _ memory c₁ c₂ call halike := by
    cases call with
    | afterProject => exact ⟨rfl, under_compareFolders halike⟩
    | _ => exact ⟨rfl, rfl⟩

end Icons

end ResourceLint
