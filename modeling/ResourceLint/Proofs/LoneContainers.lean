/-
Containers that are alone in their parents.

A container with children is reported where it is the only child of an element
that neither scrolls nor merges (`findings_told`, `mem_lone_iff`).  The
explanation of the issue leaves out two kinds of them: a container that
scrolls itself, and one with a background of its own.  Neither is looked at,
so a layout is reported as it is explained exactly where it has no lone
container of these kinds (`remarks_loneContainers`).
-/
import ResourceLint.Proofs.Meeting
import ResourceLint.Proofs.Remarks

namespace ResourceLint.UselessView

open Xml (Document Element)

variable {c : Context} {doc : Document} {e : Element}

-- ============================================================ what is reported

/-- The containers whose content scrolls. -/
def scrollViews : List String := ["ScrollView", "HorizontalScrollView"]

/-- A container with children that is the only child of its parent, where the
parent can do without it. -/
structure IsLone (e : Element) : Prop where
  container : e.name ∈ containers
  filled : e.childElements ≠ []
  alone : ∃ parent, e.parent? = some parent ∧ parent.childElements = [e]
    ∧ parent.name ∉ scrollViews ∧ parent.name ≠ "merge"

/-- A layout that can be removed, as the issue is explained. -/
structure IsRemovable (e : Element) : Prop extends IsLone e where
  still : e.name ∉ scrollViews
  bare : e.attributeIn? androidUri "background" = none

/-- The containers of a document that are reported, in document order. -/
def lone (doc : Document) : List Element :=
  doc.elements.filter fun e =>
    containers.contains e.name && (!e.childElements.isEmpty && isUselessParent e)

/-- Those of them that can be removed. -/
def removable (doc : Document) : List Element :=
  (lone doc).filter fun e =>
    !scrollViews.contains e.name && !e.hasAttributeIn androidUri "background"

/-- The parents that need their child are the scroll views and `merge`. -/
theorem mem_keepingParents {name : String} :
    name ∈ keepingParents ↔ name ∈ scrollViews ∨ name = "merge" := by
  simp [keepingParents, scrollViews, or_assoc]

/-- The check looks for an only child of a parent that does not need it. -/
theorem isUselessParent_iff (he : e ∈ doc.elements) :
    isUselessParent e ↔ ∃ parent, e.parent? = some parent ∧ parent.childElements = [e]
      ∧ parent.name ∉ scrollViews ∧ parent.name ≠ "merge" := by
  unfold isUselessParent
  cases hparent : e.parent? with
  | none => simp
  | some parent =>
      have hmem : e ∈ parent.childElements := Document.mem_childElements_of_parent? he hparent
      -- it is among the children, so one child is this one
      have hone : parent.childElements.length = 1 ↔ parent.childElements = [e] := by
        constructor
        · intro hlength
          obtain ⟨only, honly⟩ := List.length_eq_one_iff.mp hlength
          rw [honly, List.mem_singleton] at hmem
          rw [honly, hmem]
        · intro honly
          rw [honly]
          rfl
      simp only [Option.any_some, Bool.and_eq_true, Bool.not_eq_true', beq_iff_eq, hone,
        Option.some.injEq, exists_eq_left', ← not_or, ← mem_keepingParents]
      rw [and_comm, List.contains_eq_mem, decide_eq_false_iff_not]

/-- The lone containers of a document are those elements that are alone. -/
theorem mem_lone_iff : e ∈ lone doc ↔ e ∈ doc.elements ∧ IsLone e := by
  unfold lone
  rw [List.mem_filter]
  simp only [Bool.and_eq_true, List.contains_iff_mem, Bool.not_eq_true', List.isEmpty_eq_false_iff]
  constructor
  · rintro ⟨he, hcontainer, hfilled, huseless⟩
    exact ⟨he, hcontainer, hfilled, (isUselessParent_iff he).mp huseless⟩
  · rintro ⟨he, h⟩
    exact ⟨he, h.container, h.filled, (isUselessParent_iff he).mpr h.alone⟩

/-- The removable ones are the elements that may go. -/
theorem mem_removable_iff : e ∈ removable doc ↔ e ∈ doc.elements ∧ IsRemovable e := by
  unfold removable
  rw [List.mem_filter, mem_lone_iff]
  simp only [Bool.and_eq_true, Bool.not_eq_true', List.contains_eq_mem, decide_eq_false_iff_not,
    Element.hasAttributeIn, Option.isSome_eq_false_iff, Option.isNone_iff_eq_none]
  constructor
  · rintro ⟨⟨he, hlone⟩, hstill, hbare⟩
    exact ⟨he, hlone, hstill, hbare⟩
  · rintro ⟨he, h⟩
    exact ⟨⟨he, h.toIsLone⟩, h.still, h.bare⟩

/-- What is reported can be removed exactly where nothing of it scrolls or has a
background. -/
theorem removable_eq_lone_iff :
    removable doc = lone doc
      ↔ ∀ e ∈ lone doc, e.name ∉ scrollViews ∧ e.attributeIn? androidUri "background" = none := by
  unfold removable
  rw [List.filter_eq_self]
  simp [Element.hasAttributeIn]

-- =================================================================== documents

theorem isPlain : detector.IsPlain := ⟨(by decide : containers.Nodup), trivial⟩

/-- What is found at a call when lone containers are looked for. -/
def loneAt (c : Context) : Call → List Finding
  | .element _ e =>
    if !e.childElements.isEmpty && isUselessParent e then
      [.at (c.elementPlace e) parentIssue.id (parentMessage e)]
    else []
  | _ => []

/-- Under the issue a call finds the lone container it is made for. -/
theorem heard_parentIssue (henabled : c.isEnabled parentIssue.id) (memory : Memory) (call : Call) :
    detector.heard parentIssue.id memory c call = loneAt c call := by
  cases call with
  | element doc e =>
      have hother : leafIssue.id ≠ parentIssue.id := by decide
      unfold Detector.heard
      rw [react_element, henabled, Bool.true_and, Emission.under_append,
        Emission.under_report_if_of_ne (f := .at (c.elementPlace e) leafIssue.id _) hother,
        List.nil_append]
      exact Emission.under_report_if (f := .at (c.elementPlace e) parentIssue.id _) rfl _
  | _ => rfl

/-- Every lone container is found, and no other element. -/
theorem findings_told (henabled : c.isEnabled parentIssue.id) (doc : Document) :
    detector.findings parentIssue.id .blank ((detector.told doc).map (c, ·))
      = (lone doc).map fun e => .at (c.elementPlace e) parentIssue.id (parentMessage e) := by
  have hmet : ∀ e ∈ doc.elements, (detector.met doc e).flatMap (loneAt c)
      = if containers.contains e.name && (!e.childElements.isEmpty && isUselessParent e) then
          [.at (c.elementPlace e) parentIssue.id (parentMessage e)] else [] := by
    intro e _
    rw [Detector.met_of_no_attributes rfl]
    show (if containers.contains e.name then _ else _ : List Call).flatMap (loneAt c) = _
    cases containers.contains e.name with
    | false => rfl
    | true => exact List.append_nil _
  rw [Detector.told_eq_seen isPlain,
    Detector.findings_seen (fun _ _ call _ memory => heard_parentIssue henabled memory call)
      (fun _ _ _ _ => ⟨rfl, rfl⟩) (fun _ => rfl) (fun _ => rfl) (by decide),
    List.flatMap_congr hmet, Run.Job.flatMap_ite, ← List.map_eq_flatMap]
  rfl

-- ========================================================================= runs

/-- The remark about a lone container. -/
def loneRemark (file : Path) (e : Element) : Remark := .about file e (parentMessage e)

/-- What is remarked on the lone containers of a document. -/
def loneRemarks (file : Path) (doc : Document) : List Remark := (lone doc).map (loneRemark file)

theorem mem_registration :
    ⟨"UselessViewDetector", ["UselessParent", "UselessLeaf"], detector⟩
      ∈ Registry.builtInRegistrations := by
  simp [Registry.builtInRegistrations]

section Runs

variable {s : Session} {host : Host} {scope : Option Scope} {files : List Path}
  {project : Project} (h : s.Checks host scope files project)
  (hlooks : (s.jobOf host scope files project).LooksFor parentIssue)

include h hlooks

/-- A file is reported for all of its lone containers. -/
theorem map_remark_findings (file : Path) (folder : Option FolderType) (doc : Document) :
    (detector.findings parentIssue.id .blank ((detector.told doc).map
      ((s.jobOf host scope files project).context file (host.read file) folder, ·))).map
        Finding.remark = loneRemarks file doc := by
  have hissue : parentIssue ∈ Registry.builtInIssues := by simp [Registry.builtInIssues]
  rw [findings_told (hlooks.isEnabled h.registry hissue), List.map_map]
  rfl

/-- What a run remarks on the containers of a layout, in the order of the report. -/
theorem filter_isIn_remarks_layout (hwell : host.tree.WellFormed) {file : Path}
    (hfile : (file, .layout) ∈ Run.Job.resourceFiles host.tree project)
    (hdoc : host.document? file = some doc) :
    ((s.analyze host files scope).1.remarks project parentIssue.id).filter (·.isIn file)
      = (loneRemarks file doc).mergeSort Remark.le := by
  have hissue : parentIssue ∈ Registry.builtInIssues := by simp [Registry.builtInIssues]
  have hin : ∀ file doc, ∀ r ∈ loneRemarks file doc, r.isIn file := by
    intro file doc r hr
    obtain ⟨e, -, rfl⟩ := List.mem_map.mp hr
    exact beq_self_eq_true file
  have happlies : detector.appliesToFolder .layout := rfl
  rw [← Host.remarksOf_of_document? happlies hdoc loneRemarks]
  exact h.filter_isIn_remarks hissue rfl mem_registration (by decide) isLocal hlooks
    (map_remark_findings h hlooks) hin hwell hfile

/-- Lone containers.  What a run remarks on the containers of a project is what
there is to remark in its layouts, in each of them by itself: on every lone
container, once, in the order of the report.  In a layout these are the
containers that can be removed exactly where none of the lone ones scrolls or
has a background. -/
theorem remarks_loneContainers :
    ((s.analyze host files scope).1.remarks project parentIssue.id).Perm
        ((Run.Job.resourceFiles host.tree project).flatMap
          (host.remarksOf detector loneRemarks))
      ∧ (host.tree.WellFormed →
        ∀ file, (file, .layout) ∈ Run.Job.resourceFiles host.tree project →
          ∀ doc, host.document? file = some doc →
            (∀ e, e ∈ lone doc ↔ e ∈ doc.elements ∧ IsLone e)
            ∧ (∀ e, e ∈ removable doc ↔ e ∈ doc.elements ∧ IsRemovable e)
            ∧ ((s.analyze host files scope).1.remarks project parentIssue.id).filter
                (·.isIn file) = ((lone doc).map (loneRemark file)).mergeSort Remark.le
            ∧ ((((s.analyze host files scope).1.remarks project parentIssue.id).filter
                  (·.isIn file)).Perm ((removable doc).map (loneRemark file))
                ↔ ∀ e ∈ lone doc,
                  e.name ∉ scrollViews ∧ e.attributeIn? androidUri "background" = none)) := by
  have hissue : parentIssue ∈ Registry.builtInIssues := by simp [Registry.builtInIssues]
  refine ⟨h.perm_remarks_resourceFiles hissue rfl mem_registration (by decide) isLocal hlooks
    (map_remark_findings h hlooks), fun hwell file hfile doc hdoc => ?_⟩
  have hhere := filter_isIn_remarks_layout h hlooks hwell hfile hdoc
  refine ⟨fun e => mem_lone_iff, fun e => mem_removable_iff, hhere, ?_⟩
  rw [← removable_eq_lone_iff, hhere]
  constructor
  · -- the removable ones are among the lone ones, so as many are all of them
    intro hperm
    have hlength := ((List.mergeSort_perm _ _).symm.trans hperm).length_eq
    unfold loneRemarks at hlength
    rw [List.length_map, List.length_map] at hlength
    exact List.filter_sublist.eq_of_length hlength.symm
  · intro heq
    rw [heq]
    exact List.mergeSort_perm _ _

end Runs

/-- A project with three layouts, each with one lone container: a plain one, one
that scrolls, and one with a background. -/
def boxes : FileTree :=
  { here := ["ROOT"]
    entries :=
      [(["ROOT"], .directory),
        (["ROOT", "app"], .directory),
        (["ROOT", "app", "AndroidManifest.xml"], .file "<manifest/>".toUTF8),
        (["ROOT", "app", "res"], .directory),
        (["ROOT", "app", "res", "layout"], .directory),
        (["ROOT", "app", "res", "layout", "box.xml"],
          .file "<TableRow><FrameLayout><View/></FrameLayout></TableRow>".toUTF8),
        (["ROOT", "app", "res", "layout", "list.xml"],
          .file "<TableRow><ScrollView><View/></ScrollView></TableRow>".toUTF8),
        (["ROOT", "app", "res", "layout", "panel.xml"],
          .file ("<TableRow><FrameLayout xmlns:x='http://schemas.android.com/apk/res/android' "
            ++ "x:background='#fff'><View/></FrameLayout></TableRow>").toUTF8)] }

def boxesHost : Host := .ofTree boxes fun _ => false

def boxesProject : Project := .new ⟨"/ROOT/app"⟩ none

/-- One of the layouts. -/
def boxesFile (name : String) : Path := ⟨"/ROOT/app/res/layout/" ++ name⟩

def boxesRemarks : List Remark :=
  (Session.plain.analyze boxesHost [⟨"/ROOT/app"⟩] none).1.remarks boxesProject parentIssue.id

theorem wellFormed_boxes : boxes.WellFormed where
  isName := by decide +kernel
  nodup := by decide +kernel
  parents := by decide +kernel
  here := rfl

theorem checks_boxes : Session.plain.Checks boxesHost none [⟨"/ROOT/app"⟩] boxesProject := by
  have hprojects : Session.projectsFor boxesHost [⟨"/ROOT/app"⟩] = [boxesProject] := by
    decide +kernel
  exact Session.checks_ofTree rfl rfl boxes (hprojects ▸ List.mem_singleton_self _)

theorem looksFor_boxes :
    (Session.plain.jobOf boxesHost none [⟨"/ROOT/app"⟩] boxesProject).LooksFor parentIssue where
  scope := by decide +kernel
  enabled := by decide +kernel

theorem mem_resourceFiles_boxes :
    ∀ name ∈ ["box.xml", "list.xml", "panel.xml"],
      (boxesFile name, .layout) ∈ Run.Job.resourceFiles boxes boxesProject := by
  decide +kernel

/-- What is lone and what is removable in the three layouts. -/
theorem lone_boxes :
    ∃ box list panel,
      boxesHost.document? (boxesFile "box.xml") = some box
      ∧ boxesHost.document? (boxesFile "list.xml") = some list
      ∧ boxesHost.document? (boxesFile "panel.xml") = some panel
      ∧ (lone box).length = 1 ∧ (removable box).length = 1
      ∧ (lone list).length = 1 ∧ removable list = []
      ∧ (lone panel).length = 1 ∧ removable panel = [] := by
  have hcounts : ["box.xml", "list.xml", "panel.xml"].map (fun name =>
      (boxesHost.document? (boxesFile name)).map fun doc =>
        ((lone doc).length, (removable doc).length))
      = [some (1, 1), some (1, 0), some (1, 0)] := by
    decide +kernel
  simp only [List.map_cons, List.map_nil, List.cons.injEq, and_true, Option.map_eq_some_iff,
    Prod.mk.injEq, List.length_eq_zero_iff] at hcounts
  obtain ⟨⟨box, hbox, hone, hkept⟩, ⟨list, hlist, hscrolls, hstays⟩, ⟨panel, hpanel, hlone, hnone⟩⟩ :=
    hcounts
  exact ⟨box, list, panel, hbox, hlist, hpanel, hone, hkept, hscrolls, hstays, hlone, hnone⟩

/-- The container of the plain layout is reported as it is explained, and the one
with a background is reported as well. -/
theorem remarks_loneContainers_boxes :
    ∃ box panel,
      boxesHost.document? (boxesFile "box.xml") = some box
      ∧ boxesHost.document? (boxesFile "panel.xml") = some panel
      ∧ (boxesRemarks.filter (·.isIn (boxesFile "box.xml"))).Perm
          ((removable box).map (loneRemark (boxesFile "box.xml")))
      ∧ (removable box).length = 1
      ∧ boxesRemarks.filter (·.isIn (boxesFile "panel.xml"))
          = ((lone panel).map (loneRemark (boxesFile "panel.xml"))).mergeSort Remark.le
      ∧ (lone panel).length = 1
      ∧ removable panel = [] := by
  obtain ⟨box, -, panel, hbox, -, hpanel, hone, hkept, -, -, hlone, hnone⟩ := lone_boxes
  obtain ⟨-, hlayouts⟩ := remarks_loneContainers checks_boxes looksFor_boxes
  obtain ⟨-, -, -, hexplained⟩ := hlayouts wellFormed_boxes _
    (mem_resourceFiles_boxes "box.xml" (by simp)) box hbox
  obtain ⟨-, -, hreported, -⟩ := hlayouts wellFormed_boxes _
    (mem_resourceFiles_boxes "panel.xml" (by simp)) panel hpanel
  have hsame : removable box = lone box :=
    List.filter_sublist.eq_of_length (hkept.trans hone.symm)
  exact ⟨box, panel, hbox, hpanel, hexplained.mpr (removable_eq_lone_iff.mp hsame), hkept,
    hreported, hlone, hnone⟩

/-- So it is not only removable containers that are reported: in the layout that
scrolls there is none. -/
theorem not_remarks_removable :
    ¬ ∀ file, (file, .layout) ∈ Run.Job.resourceFiles boxesHost.tree boxesProject →
      ∀ doc, boxesHost.document? file = some doc →
        (boxesRemarks.filter (·.isIn file)).Perm ((removable doc).map (loneRemark file)) := by
  intro hexplained
  obtain ⟨-, list, -, -, hlist, -, -, -, hlone, hnone, -, -⟩ := lone_boxes
  have hfile := mem_resourceFiles_boxes "list.xml" (by simp)
  have hperm := hexplained _ hfile list hlist
  rw [boxesRemarks,
    filter_isIn_remarks_layout checks_boxes looksFor_boxes wellFormed_boxes hfile hlist] at hperm
  have hlength := hperm.length_eq
  unfold loneRemarks at hlength
  rw [List.length_mergeSort, List.length_map, hlone, hnone] at hlength
  cases hlength

end ResourceLint.UselessView
