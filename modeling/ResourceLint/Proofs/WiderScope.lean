/-
Wider scopes.

A run over a wider scope runs more detectors and opens more files.  It
reports everything that the run over the narrower scope reports, as often as
that run does (`subperm_analyze_of_isSubset`).

# Detectors

An issue is looked for where its scope is part of the scope of the run.  What
its detector attends then lies within both scopes, and the wider one has
nothing to add to it: the detector is told the same again, apart from the
scope that comes with every call (`told_inScope`).  The built-in detectors do
not look at that scope (`Detector.IgnoresScope`), so they find the same.

# Parse errors

Which files are opened is decided by all detectors together.  A detector
that runs over the narrower scope runs over the wider one and attends the
same folders, so every file is opened again (`attended_inScope`).
-/
import Mathlib.Data.List.Flatten
import ResourceLint.Proofs.ParseErrors

namespace ResourceLint

/-- A scope with resource files is part of scopes with resource files only. -/
theorem Scope.resources_of_isSubset {s t : Scope} (h : s.isSubset t)
    (hs : s.resourceFile || s.allResourceFiles) : t.resourceFile || t.allResourceFiles := by
  rw [Bool.or_eq_true] at hs ⊢
  exact hs.imp (isSubset_iff.mp h .resourceFile) (isSubset_iff.mp h .allResourceFiles)

-- ================================================= detectors and the scope

/-- A context in a run over another scope. -/
def Context.inScope (c : Context) (scope : Scope) : Context := { c with scope }

/-- What is told, in a run over another scope. -/
def Context.retold (scope : Scope) (told : Context × Call) : Context × Call :=
  (told.1.inScope scope, told.2)

/-- A detector does the same whatever the scope of the run is. -/
def Detector.IgnoresScope (d : Detector) : Prop :=
  ∀ memory (c : Context) scope call, d.react memory (c.inScope scope) call = d.react memory c call

/-- A detector that ignores the scope finds the same when the scope is told
otherwise. -/
theorem Detector.IgnoresScope.findings {d : Detector} (h : d.IgnoresScope) (id : String)
    (scope : Scope) (told : List (Context × Call)) (memory : Memory) :
    d.findings id memory (told.map (Context.retold scope)) = d.findings id memory told := by
  induction told generalizing memory with
  | nil => rfl
  | cons t told ih =>
      obtain ⟨c, call⟩ := t
      have hreact := h memory c scope call
      rw [List.map_cons, Context.retold, Detector.findings, Detector.findings, Detector.heard,
        Detector.heard, hreact, ih]

/-- The built-in detectors ignore the scope of a run. -/
theorem Registry.ignoresScope_builtIn {reg : Registration} (h : reg ∈ builtIn.registrations) :
    reg.detector.IgnoresScope := by
  rw [registrations_builtIn] at h
  simp only [builtInRegistrations, List.mem_cons, List.not_mem_nil, or_false] at h
  intro memory c scope call
  rcases h with rfl | rfl | rfl | rfl | rfl | rfl | rfl | rfl <;> cases call <;> rfl

/-- The detectors of a run over a scope run over a wider one as well. -/
theorem Registry.Orderly.activate?_of_isSubset {r : Registry} (horderly : r.Orderly)
    {reg : Registration} (hreg : reg ∈ r.registrations) {isEnabled : Issue → Bool}
    {narrow wide : Scope} (hscopes : narrow.isSubset wide) {a : ActiveDetector}
    (ha : r.activate? isEnabled narrow reg = some a) :
    ∃ b, r.activate? isEnabled wide reg = some b ∧ b.scope = a.scope
      ∧ b.detector = a.detector := by
  obtain ⟨issue, hissue⟩ : ∃ issue, issue ∈ r.activeIssues isEnabled narrow reg := by
    refine List.exists_mem_of_ne_nil _ fun hnil => ?_
    unfold activate? at ha
    rw [hnil] at ha
    cases ha
  obtain ⟨⟨hmem, hknown⟩, hfits, henabled⟩ := mem_activeIssues.mp hissue
  obtain ⟨a', ha', hscope⟩ := horderly.activate?_eq_some hreg hknown hmem hfits henabled
  cases ha.symm.trans ha'
  obtain ⟨b, hb, hscope'⟩ := horderly.activate?_eq_some hreg hknown hmem
    (Scope.isSubset_trans hfits hscopes) henabled
  exact ⟨b, hb, hscope'.trans hscope.symm, (of_activate? hb).1.trans (of_activate? ha).1.symm⟩

namespace Run.Job

variable {job : Job} {scope wide : Scope} {d : Detector} {id : String}

/-- A job over another scope. -/
def inScope (job : Job) (scope : Scope) : Job := { job with scope }

theorem host_inScope (job : Job) (scope : Scope) : (job.inScope scope).host = job.host := rfl

theorem project_inScope (job : Job) (scope : Scope) :
    (job.inScope scope).project = job.project := rfl

theorem registry_inScope (job : Job) (scope : Scope) :
    (job.inScope scope).registry = job.registry := rfl

-- =================================================== what detectors are told

/-- In another scope a detector is told the same of a markup file, with that
scope, -/
theorem markupTold_inScope (job : Job) (wide : Scope) (d : Detector) (file : Path)
    (folder : Option FolderType) :
    (job.inScope wide).markupTold d file folder
      = (job.markupTold d file folder).map (Context.retold wide) := by
  unfold markupTold
  rw [host_inScope]
  cases job.host.read file with
  | none => rfl
  | some text =>
      dsimp only
      cases Xml.Document.parse text with
      | error e => rfl
      | ok document =>
          dsimp only
          rw [List.map_map]
          rfl

/-- In another scope a detector is told the same of the manifest. -/
theorem manifestTold_inScope (job : Job) (wide scope : Scope) (d : Detector) :
    (job.inScope wide).manifestTold scope d
      = (job.manifestTold scope d).map (Context.retold wide) := by
  unfold manifestTold
  rw [apply_ite (List.map _), ← markupTold_inScope]
  rfl

theorem resourceFileTold_inScope (job : Job) (wide : Scope) (d : Detector)
    (found : Path × FolderType) :
    (job.inScope wide).resourceFileTold d found
      = (job.resourceFileTold d found).map (Context.retold wide) := by
  unfold resourceFileTold
  rw [apply_ite (List.map _), ← markupTold_inScope]
  rfl

theorem resourcesTold_inScope (job : Job) (wide scope : Scope) (d : Detector) :
    (job.inScope wide).resourcesTold scope d
      = (job.resourcesTold scope d).map (Context.retold wide) := by
  unfold resourcesTold
  rw [apply_ite (List.map _), List.map_flatMap]
  simp only [← resourceFileTold_inScope]
  rfl

/-- In another scope a detector is told the same of the shrinking rules. -/
theorem proguardTold_inScope (job : Job) (wide scope : Scope) (d : Detector) :
    (job.inScope wide).proguardTold scope d
      = (job.proguardTold scope d).map (Context.retold wide) := by
  unfold proguardTold
  rw [apply_ite (List.map _), host_inScope, project_inScope]
  dsimp only
  cases job.host.read job.project.proguardFile <;> rfl

/-- A gate changes nothing where nothing is behind it once it is shut. -/
theorem ite_eq_of_shut {gate : Bool} {told : List (Context × Call)}
    (h : gate = false → told = []) : (if gate then told else []) = told := by
  cases gate with
  | false => exact (h rfl).symm
  | true => rfl

/-- A detector within the scope of a job attends what it wants of the
project; the scope of the job keeps nothing from it. -/
theorem told_of_isSubset (h : scope.isSubset job.scope) (d : Detector) :
    job.told scope d
      = [(job.projectContext, .beforeProject)] ++ job.manifestTold scope d
        ++ job.resourcesTold scope d ++ job.proguardTold scope d
        ++ [(job.projectContext, .afterProject)] := by
  -- what the job leaves out, the detector does not want
  have hshut : ∀ kind, job.scope.contains kind = false → scope.contains kind = false := by
    intro kind hjob
    by_contra hscope
    rw [Bool.not_eq_false] at hscope
    rw [Scope.isSubset_iff.mp h kind hscope] at hjob
    cases hjob
  unfold told
  congr 1
  congr 1
  · congr 1
    · congr 1
      refine ite_eq_of_shut fun hgate => if_neg ?_
      simp [show scope.manifest = false from hshut .manifest hgate]
    · refine ite_eq_of_shut fun hgate => if_neg ?_
      rw [Bool.or_eq_false_iff] at hgate
      simp [show scope.resourceFile = false from hshut .resourceFile hgate.1,
        show scope.allResourceFiles = false from hshut .allResourceFiles hgate.2]
  · refine ite_eq_of_shut fun hgate => if_neg ?_
    simp [show scope.proguard = false from hshut .proguard hgate]

/-- A detector within two scopes is told the same in both. -/
theorem told_inScope (h : scope.isSubset job.scope) (hwide : scope.isSubset wide) (d : Detector) :
    (job.inScope wide).told scope d = (job.told scope d).map (Context.retold wide) := by
  have hwidened : (job.inScope wide).told scope d = _ := told_of_isSubset hwide d
  rw [told_of_isSubset h, hwidened]
  simp only [manifestTold_inScope, resourcesTold_inScope, proguardTold_inScope, List.map_append,
    List.map_cons, List.map_nil]
  rfl

/-- A detector within two scopes finds the same in both, unless it looks at
the scope. -/
theorem findings_inScope (hd : d.IgnoresScope) (h : scope.isSubset job.scope)
    (hwide : scope.isSubset wide) :
    (job.inScope wide).findings id scope d = job.findings id scope d := by
  have hsources : sourcesTold ((job.told scope d).map (Context.retold wide))
      = sourcesTold (job.told scope d) := List.filterMap_map
  unfold findings
  rw [told_inScope h hwide, hd.findings, hsources]
  rfl

/-- What is reported under an issue is reported over a wider scope. -/
theorem sublist_reported_inScope (hregistry : job.registry = .builtIn)
    (hscopes : job.scope.isSubset wide) (id : String) :
    (job.reported id).Sublist ((job.inScope wide).reported id) := by
  unfold reported
  rw [registry_inScope]
  cases job.registry.issue? id with
  | none => exact List.nil_sublist _
  | some issue =>
      cases hserving : job.registry.serving? id with
      | none => exact List.nil_sublist _
      | some reg =>
          dsimp only
          split
          · next hreported =>
              obtain ⟨hfits, henabled⟩ := Bool.and_eq_true_iff.mp hreported
              have hwide := Scope.isSubset_trans hfits hscopes
              have hreg := (Registry.mem_of_serving? hserving).1
              have hwidened : (issue.scope.isSubset (job.inScope wide).scope
                  && (job.inScope wide).configuration.isEnabled issue) = true :=
                Bool.and_eq_true_iff.mpr ⟨hwide, henabled⟩
              rw [if_pos hwidened,
                findings_inScope (Registry.ignoresScope_builtIn (hregistry ▸ hreg)) hfits hwide]
          · exact List.nil_sublist _

-- =========================================================== files that are opened

/-- A folder that is attended over a scope is attended over a wider one. -/
theorem attendsFolder_inScope (horderly : job.registry.Orderly) (hscopes : job.scope.isSubset wide)
    {folder : FolderType} (h : attendsFolder job.detectors folder) :
    attendsFolder (job.inScope wide).detectors folder := by
  obtain ⟨a, ha, hattends⟩ := List.any_eq_true.mp h
  obtain ⟨reg, hreg, hactive⟩ := List.mem_filterMap.mp ha
  obtain ⟨b, hb, hscope, hdetector⟩ := horderly.activate?_of_isSubset hreg hscopes hactive
  refine List.any_eq_true.mpr ⟨b, List.mem_filterMap.mpr ⟨reg, hreg, hb⟩, ?_⟩
  rwa [hscope, hdetector]

/-- The files that are opened over a scope are opened over a wider one. -/
theorem attended_inScope (horderly : job.registry.Orderly) (hscopes : job.scope.isSubset wide) :
    (job.attended job.detectors).Sublist
      ((job.inScope wide).attended (job.inScope wide).detectors) := by
  refine List.Sublist.append ?_ ?_
  · unfold openedManifest
    split
    · next hopens =>
        obtain ⟨hmanifest, hfile⟩ := Bool.and_eq_true_iff.mp hopens
        have hwidened : ((job.inScope wide).scope.manifest
            && (job.project.includes job.project.manifest
              && job.host.tree.isFile job.project.manifest)) = true :=
          Bool.and_eq_true_iff.mpr ⟨Scope.isSubset_iff.mp hscopes .manifest hmanifest, hfile⟩
        exact (if_pos hwidened).symm ▸ List.Sublist.refl _
    · exact List.nil_sublist _
  · unfold openedResources
    split
    · next hopens =>
        have hwidened : ((job.inScope wide).scope.resourceFile
            || (job.inScope wide).scope.allResourceFiles) = true :=
          Scope.resources_of_isSubset hscopes hopens
        rw [if_pos hwidened]
        exact (List.monotone_filter_right _ fun _ => attendsFolder_inScope horderly hscopes).map _
    · exact List.nil_sublist _

/-- Parse errors that are found over a scope are found over a wider one. -/
theorem faults_inScope (horderly : job.registry.Orderly) (hscopes : job.scope.isSubset wide) :
    job.faults.Sublist (job.inScope wide).faults :=
  ((attended_inScope horderly hscopes).filterMap job.fault?).filterMap job.faultWarning?

end Run.Job

-- ================================================================ whole runs

namespace Warning

/-- Warnings are among others where those about each issue are. -/
theorem subperm_of_forall_issue {v w : List Warning}
    (h : ∀ id, (v.filter (·.issue.id == id)).Subperm (w.filter (·.issue.id == id))) :
    v.Subperm w := by
  refine List.subperm_ext_iff.mpr fun x _ => ?_
  have hcount := (h x.issue.id).count_le x
  have hself : (x.issue.id == x.issue.id) = true := beq_self_eq_true _
  rwa [List.count_filter (p := fun y : Warning => y.issue.id == x.issue.id) hself,
    List.count_filter (p := fun y : Warning => y.issue.id == x.issue.id) hself] at hcount

/-- Sorting keeps what is among what. -/
theorem subperm_sort {v w : List Warning} (h : v.Sublist w) : (sort v).Subperm (sort w) :=
  (List.mergeSort_perm v le).subperm.trans
    (h.subperm.trans (List.mergeSort_perm w le).symm.subperm)

end Warning

namespace Session

variable {s : Session} {t : FileTree} {files : List Path}

/-- Widening the scope loses no finding.  Of two uncanceled runs of the
built-in detectors over scopes one of which is part of the other, the run over
the wider scope reports every warning of the other one, parse errors
included, at least as often. -/
theorem subperm_analyze_of_isSubset (hregistry : s.registry = .builtIn)
    {cancels cancels' : List Event → Bool} {narrow wide : Scope} (hscopes : narrow.isSubset wide)
    (hnarrow : (s.analyze (.ofTree t cancels) files (some narrow)).1.canceled = false)
    (hwide : (s.analyze (.ofTree t cancels') files (some wide)).1.canceled = false) :
    (s.analyze (.ofTree t cancels) files (some narrow)).1.warnings.Subperm
      (s.analyze (.ofTree t cancels') files (some wide)).1.warnings := by
  have horderly : s.registry.Orderly := hregistry ▸ Registry.orderly_builtIn
  refine Warning.subperm_of_forall_issue fun id => ?_
  by_cases hid : id = Registry.parserErrorId
  · rw [hid, filter_analyze_parserError hregistry (Run.coherent_ofTree t cancels) hnarrow,
      filter_analyze_parserError hregistry (Run.coherent_ofTree t cancels') hwide]
    refine Warning.subperm_sort (List.Sublist.flatMap_right _ fun project _ => ?_)
    exact Run.Job.faults_inScope horderly hscopes
  · rw [filter_analyze_builtIn hregistry (Run.coherent_ofTree t cancels) hid hnarrow,
      filter_analyze_builtIn hregistry (Run.coherent_ofTree t cancels') hid hwide]
    refine Warning.subperm_sort (List.Sublist.flatMap_right _ fun project _ => ?_)
    exact Run.Job.sublist_reported_inScope hregistry hscopes id

/-- A project whose manifest is not closed, with a layout. -/
def unclosedManifest : FileTree :=
  { here := ["ROOT"]
    entries :=
      [(["ROOT"], .directory),
        (["ROOT", "app"], .directory),
        (["ROOT", "app", "AndroidManifest.xml"], .file "<manifest>".toUTF8),
        (["ROOT", "app", "res"], .directory),
        (["ROOT", "app", "res", "layout"], .directory),
        (["ROOT", "app", "res", "layout", "main.xml"],
          .file "<View a:text=\"hi\" a:textSize=\"4px\"/>".toUTF8)] }

/-- The project, when only its manifest is looked at. -/
def manifestJob : Run.Job :=
  plain.jobOf (.ofTree unclosedManifest fun _ => false) (some .manifestOnly) [⟨"/ROOT/app"⟩]
    (.new ⟨"/ROOT/app"⟩ none)

/-- What is wrong with the manifest is found. -/
theorem exists_mem_faults_manifestJob : ∃ w, w ∈ manifestJob.faults := by
  have henabled : manifestJob.isEnabled Registry.parserErrorId := by
    have hparserError : Registry.builtIn.issue? "ParserError" = some Registry.parserError :=
      Registry.issue?_builtIn.mpr ⟨by simp [Registry.builtInIssues], rfl⟩
    show (Registry.builtIn.issue? "ParserError").any _ = true
    rw [hparserError]
    decide +kernel
  have hfault : (manifestJob.fault? manifestJob.project.manifest).isSome := by decide +kernel
  obtain ⟨⟨file, e⟩, hfault⟩ := Option.isSome_iff_exists.mp hfault
  obtain ⟨rfl, -⟩ := (Run.Job.fault?_eq_some_iff _).mp hfault
  obtain ⟨w, hw⟩ := Option.isSome_iff_exists.mp
    ((Run.Job.isSome_faultWarning? (_, e)).trans henabled)
  have hopened : manifestJob.project.manifest ∈ manifestJob.openedManifest := by decide +kernel
  exact ⟨w, Run.Job.mem_faults.mpr ⟨_, List.mem_append_left _ hopened, e, hfault, hw⟩⟩

/-- It is found when only manifests are looked at, and again when everything
is. -/
theorem subperm_unclosedManifest :
    Scope.manifestOnly.isSubset .all
      ∧ (∃ w ∈ (plain.analyze (.ofTree unclosedManifest fun _ => false) [⟨"/ROOT/app"⟩]
          (some .manifestOnly)).1.warnings, w.issue.id = Registry.parserErrorId)
      ∧ (plain.analyze (.ofTree unclosedManifest fun _ => false) [⟨"/ROOT/app"⟩]
          (some .manifestOnly)).1.warnings.Subperm
        (plain.analyze (.ofTree unclosedManifest fun _ => false) [⟨"/ROOT/app"⟩]
          (some .all)).1.warnings := by
  have hscopes : Scope.manifestOnly.isSubset .all := by decide
  have hend : ∀ scope, (plain.analyze (.ofTree unclosedManifest fun _ => false)
      [⟨"/ROOT/app"⟩] scope).1.canceled = false :=
    fun _ => canceled_analyze_builtIn rfl (fun _ => rfl) rfl
  have hprojects : projectsFor (.ofTree unclosedManifest fun _ => false) [⟨"/ROOT/app"⟩]
      = [.new ⟨"/ROOT/app"⟩ none] := by decide +kernel
  have hfaults := filter_analyze_parserError rfl (Run.coherent_ofTree unclosedManifest _)
    (hend (some .manifestOnly))
  rw [hprojects, List.flatMap_singleton] at hfaults
  obtain ⟨w, hw⟩ := exists_mem_faults_manifestJob
  have hsorted : w ∈ Warning.sort manifestJob.faults := List.mem_mergeSort.mpr hw
  obtain ⟨hmem, hid⟩ := List.mem_filter.mp (hfaults ▸ hsorted)
  exact ⟨hscopes, ⟨w, hmem, by simpa using hid⟩,
    subperm_analyze_of_isSubset rfl hscopes (hend _) (hend _)⟩

end Session

end ResourceLint
