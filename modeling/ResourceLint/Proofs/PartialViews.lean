/-
What a run says about whole projects when it was asked for single files.

An issue whose scope contains all resource files compares the files of a
project with each other, and a run that looks at some of them only cannot
tell.  Three built-in issues are of this kind.  The scope that follows from
single files keeps them out as long as each file is of a known kind; a file
of any other kind stands for everything (`Scope.infer`), and then their
detectors run although only some files are looked at.

The icons are compared only in projects that are checked as a whole
(`Icons.compareFolders`), so they are safe whatever the scope.  Unused
resources are not: they are reported from the files that happen to have been
asked for (`partialView_analyze`, `reports_mixedRequest`).
-/
import ResourceLint.Proofs.Origins

namespace ResourceLint

-- ==================================================== scopes of single files

namespace Scope

/-- A scope that is part of another one has all resource files only with it. -/
theorem allResourceFiles_of_isSubset {s t : Scope} (h : s.isSubset t)
    (hs : s.allResourceFiles) : t.allResourceFiles :=
  isSubset_iff.mp h .allResourceFiles hs

/-- A single file stands for all resource files only where it stands for
everything. -/
theorem infer_eq_all_of_allResourceFiles {file : Path}
    (h : (infer file false).allResourceFiles) : infer file false = .all := by
  unfold infer at h ⊢
  simp only [Bool.false_eq_true, if_false] at h ⊢
  split
  · next hmanifest => rw [if_pos hmanifest] at h; cases h
  · next hmanifest =>
      rw [if_neg hmanifest] at h
      split
      · next hproguard => rw [if_pos hproguard] at h; cases h
      · next hproguard =>
          rw [if_neg hproguard] at h
          split
          · next hxml => rw [if_pos hxml] at h; cases h
          · rfl

theorem allResourceFiles_foldl_union {files : List Path} {scope : Scope}
    (h : (files.foldl (fun scope file => scope.union (infer file false)) scope).allResourceFiles) :
    scope.allResourceFiles ∨ ∃ file ∈ files, (infer file false).allResourceFiles := by
  induction files generalizing scope with
  | nil => exact Or.inl h
  | cons file files ih =>
      rcases ih h with hscope | ⟨other, hother, hall⟩
      · have hunion : scope.allResourceFiles || (infer file false).allResourceFiles := hscope
        rcases Bool.or_eq_true_iff.mp hunion with hscope | hall
        · exact Or.inl hscope
        · exact Or.inr ⟨file, List.mem_cons_self, hall⟩
      · exact Or.inr ⟨other, List.mem_cons_of_mem _ hother, hall⟩

end Scope

/-- Single files stand for all resource files only where one of them is of no
known kind. -/
theorem Project.exists_infer_eq_all {project : Project} {asked : List Path}
    (hsubset : project.subset = some asked) (h : project.inferScope.allResourceFiles) :
    ∃ file ∈ asked, Scope.infer file false = .all := by
  unfold inferScope at h
  rw [hsubset] at h
  rcases Scope.allResourceFiles_foldl_union h with hempty | ⟨file, hfile, hall⟩
  · cases hempty
  · exact ⟨file, hfile, Scope.infer_eq_all_of_allResourceFiles hall⟩

-- ============================================= detectors of whole projects

/-- Icons are not compared where single files were asked for. -/
theorem Icons.answers_of_subset {c : Context} (h : c.project.subset.isSome) (memory : Memory)
    (call : Call) : (detector.react memory c call).2 = [] := by
  cases call with
  | afterProject =>
      show compareFolders c = []
      unfold compareFolders
      simp [h]
  | _ => rfl

/-- The built-in detectors that report about whole projects. -/
theorem Registry.eq_unused_or_icons {reg : Registration} (hreg : reg ∈ builtIn.registrations)
    {issue : Issue} (hissue : issue ∈ builtInIssues) (hserved : issue.id ∈ reg.issues)
    (hwide : issue.scope.allResourceFiles) :
    issue = UnusedResources.issue ∨ reg.detector = Icons.detector := by
  have hcases : ∀ reg ∈ builtIn.registrations.map (·.issues), ∀ issue ∈ builtInIssues,
      issue.id ∈ reg → issue.scope.allResourceFiles →
        issue = UnusedResources.issue ∨ reg = ["IconDensities", "IconMissingDensityFolder"] := by
    rw [registrations_builtIn]
    decide +kernel
  refine (hcases _ (List.mem_map_of_mem hreg) issue hissue hserved hwide).imp_right fun hicons => ?_
  rw [registrations_builtIn] at hreg
  simp only [builtInRegistrations, List.mem_cons, List.not_mem_nil, or_false] at hreg
  rcases hreg with rfl | rfl | rfl | rfl | rfl | rfl | rfl | rfl
  all_goals first | rfl | exact absurd hicons (by decide)

namespace Run.Job

variable {job : Job} {w : Warning}

/-- What a job accounts for, besides parse errors, is about an issue within
its scope that one of its detectors serves. -/
theorem exists_registration_of_accounts (horderly : job.registry.Orderly)
    (hasks : ∀ reg ∈ job.registry.registrations, reg.detector.Asks reg.issues)
    (h : job.Accounts w) (hid : w.issue.id ≠ Registry.parserErrorId) :
    w.issue.scope.isSubset job.scope ∧ ∃ reg ∈ job.registry.registrations,
      w.issue.id ∈ reg.issues ∧ ∃ memory file contents folder made f,
        .report f ∈ (reg.detector.react memory (job.context file contents folder) made).2 := by
  obtain ⟨sources, f, hmade, horigin⟩ := h
  have hissue := issue_of_warningOf? hmade
  cases horigin with
  | fault hstep hf =>
      rw [hf] at hissue
      exact absurd hissue hid
  | @call context who made a memory hstep ha hreport hplace =>
      obtain ⟨file, contents, folder, rfl⟩ := context_of_mem_script hstep
      have hactive : a ∈ job.detectors := List.mem_of_getElem? ha
      have hobeys := obeys_of_mem_activate horderly hasks hactive memory _ made f rfl hreport
      have hwarrants := warrants_of_warningOf? hmade (Or.inr hobeys)
      obtain ⟨reg, hreg, hactivate⟩ := List.mem_filterMap.mp hactive
      rw [(Registry.of_activate? hactivate).1] at hreport
      obtain ⟨f', heq, hserved⟩ := (horderly.conforms reg hreg).reports _ _ _ _ hreport
      cases heq
      exact ⟨hwarrants.scope hid, reg, hreg, hissue ▸ hserved, memory, file, contents, folder, made,
        f, hreport⟩

end Run.Job

namespace Session

variable {s : Session} {host : Host} {files : List Path}

/-- A run that follows what was asked for reports about a whole project, of
which it was asked for single files, at most that resources are unused, and
only where one of the files is of no known kind. -/
theorem partialView_analyze (hregistry : s.registry = .builtIn) {project : Project}
    (hproject : project ∈ projectsFor host files) {asked : List Path}
    (hsubset : project.subset = some asked) {w : Warning}
    (hw : w ∈ (s.analyze host files none).1.warnings)
    (hdirectory : w.projectDirectory = some project.directory)
    (hwide : w.issue.scope.allResourceFiles) :
    w.issue = UnusedResources.issue ∧ ∃ file ∈ asked, Scope.infer file false = .all := by
  have horderly : s.registry.Orderly := hregistry ▸ Registry.orderly_builtIn
  have hasks : ∀ reg ∈ s.registry.registrations, reg.detector.Asks reg.issues :=
    hregistry ▸ Registry.asks_builtIn
  have haccounts := accounts_of_mem_analyze horderly hproject hw hdirectory
  have hknown : w.issue ∈ Registry.builtInIssues := by
    obtain ⟨sources, f, hmade, -⟩ := haccounts
    have hissue := (Run.Job.tells_of_warningOf? hmade).issue
    have hjob : (s.jobOf host none files project).registry = .builtIn := hregistry
    rw [hjob] at hissue
    exact (Registry.issue?_builtIn.mp hissue).1
  -- a parse error needs one file only
  have hid : w.issue.id ≠ Registry.parserErrorId := by
    have hnarrow : ∀ issue ∈ Registry.builtInIssues, issue.scope.allResourceFiles →
        issue.id ≠ Registry.parserErrorId := by decide
    exact hnarrow _ hknown hwide
  obtain ⟨hscope, reg, hreg, hserved, memory, file, contents, folder, made, f, hreport⟩ :=
    Run.Job.exists_registration_of_accounts horderly hasks haccounts hid
  refine ⟨?_, ?_⟩
  · have hbuiltIn : reg ∈ Registry.builtIn.registrations := hregistry ▸ hreg
    -- two detectors need all files, and the one of icons looks for itself
    rcases Registry.eq_unused_or_icons hbuiltIn hknown hserved hwide with hunused | hicons
    · exact hunused
    · rw [hicons, Icons.answers_of_subset (by
        show project.subset.isSome
        rw [hsubset]
        rfl)] at hreport
      cases hreport
  · exact Project.exists_infer_eq_all hsubset
      (Scope.allResourceFiles_of_isSubset hscope hwide)

-- ========================================================== a partial view

/-- A project in which a string is declared in one file and mentioned in
another, with a file beside them of no known kind. -/
def mentionedString : FileTree :=
  { here := ["ROOT"]
    entries :=
      [(["ROOT"], .directory),
        (["ROOT", "app"], .directory),
        (["ROOT", "app", "AndroidManifest.xml"], .file "<manifest/>".toUTF8),
        (["ROOT", "app", "readme.txt"], .file "hi".toUTF8),
        (["ROOT", "app", "res"], .directory),
        (["ROOT", "app", "res", "layout"], .directory),
        (["ROOT", "app", "res", "layout", "main.xml"], .file "<x y=\"@string/a\"/>".toUTF8),
        (["ROOT", "app", "res", "values"], .directory),
        (["ROOT", "app", "res", "values", "strings.xml"],
          .file "<resources><string name=\"a\">x</string></resources>".toUTF8)] }

/-- A request for the file with the declaration and for the file of no known
kind. -/
def mixedRequest : List Path := [⟨"/ROOT/app/res/values/strings.xml"⟩, ⟨"/ROOT/app/readme.txt"⟩]

/-- A session that looks for unused resources as well. -/
def unusedToo : Session := new .builtIn none ⟨[], ["UnusedResources"], none⟩ default

/-- The project of the request. -/
def mixedProject : Project := .new ⟨"/ROOT/app"⟩ (some mixedRequest)

theorem projectsFor_mixedRequest :
    projectsFor (.ofTree mentionedString fun _ => false) mixedRequest = [mixedProject] := by
  decide +kernel

/-- The job of the project. -/
def mixedJob : Run.Job :=
  unusedToo.jobOf (.ofTree mentionedString fun _ => false) none mixedRequest mixedProject

/-- The string is reported as unused, although it is mentioned. -/
theorem reports_mixedRequest :
    ∃ w ∈ (unusedToo.analyze (.ofTree mentionedString fun _ => false) mixedRequest
        none).1.warnings,
      w.projectDirectory = some mixedProject.directory ∧ w.issue = UnusedResources.issue := by
  have hfiles : Run.Job.resourceFiles mentionedString mixedProject
      = [(⟨"/ROOT/app/res/values/strings.xml"⟩, .values)] := by
    have hfilter : mixedRequest.filter isResourceFile = [⟨"/ROOT/app/res/values/strings.xml"⟩] := by
      decide +kernel
    show List.filterMap _ ((mixedRequest.filter isResourceFile).mergeSort Path.le) = _
    rw [hfilter, List.mergeSort_singleton]
    decide +kernel
  -- the one file declares the string, and the project ends
  have hfound : (UnusedResources.detector.findings "UnusedResources" .blank
      (mixedJob.told UnusedResources.issue.scope UnusedResources.detector)).isEmpty = false := by
    unfold Run.Job.told Run.Job.resourcesTold
    rw [show Run.Job.resourceFiles mixedJob.host.tree mixedJob.project = _ from hfiles]
    decide +kernel
  obtain ⟨f, hf⟩ := List.exists_mem_of_ne_nil _ (List.isEmpty_eq_false_iff.mp hfound)
  have hserving : Registry.builtIn.serving? UnusedResources.issue.id
      = some ⟨"UnusedResourceDetector", ["UnusedResources"], UnusedResources.detector⟩ := by
    unfold Registry.serving?
    rw [Registry.registrations_builtIn]
    rfl
  obtain ⟨w, hw, hissue, hmade⟩ := exists_warning_of_mem_findings rfl
    (Run.coherent_ofTree mentionedString fun _ => false)
    (canceled_analyze_builtIn rfl (fun _ => rfl) rfl)
    (projectsFor_mixedRequest ▸ List.mem_singleton_self _) rfl
    (show UnusedResources.issue ∈ Registry.builtInIssues by simp [Registry.builtInIssues]) hserving
    (show UnusedResources.issue.scope.isSubset mixedJob.scope by decide +kernel)
    (show mixedJob.configuration.isEnabled UnusedResources.issue by decide +kernel) hf
  exact ⟨w, hw, (Run.Job.tells_of_warningOf? hmade).directory, hissue⟩

/-- What the request leads to is about unused resources, and the file beside
is the one of no known kind. -/
theorem partialView_mixedRequest :
    ∃ w ∈ (unusedToo.analyze (.ofTree mentionedString fun _ => false) mixedRequest
        none).1.warnings,
      w.issue.scope.allResourceFiles
        ∧ w.issue = UnusedResources.issue
        ∧ ∃ file ∈ mixedRequest, Scope.infer file false = .all := by
  obtain ⟨w, hw, hdirectory, hissue⟩ := reports_mixedRequest
  have hwide : w.issue.scope.allResourceFiles := by
    rw [hissue]
    decide
  exact ⟨w, hw, hwide, partialView_analyze rfl
    (projectsFor_mixedRequest ▸ List.mem_singleton_self _) rfl hw hdirectory hwide⟩

/-- So a partial view is not always one in which nothing is said about the
project as a whole. -/
theorem not_partialView_mixedRequest :
    ¬ ∀ project ∈ projectsFor (.ofTree mentionedString fun _ => false) mixedRequest,
      project.subset.isSome →
        ∀ w ∈ (unusedToo.analyze (.ofTree mentionedString fun _ => false) mixedRequest
            none).1.warnings,
          w.projectDirectory = some project.directory →
            w.issue.scope.allResourceFiles = false := by
  intro h
  obtain ⟨w, hw, hdirectory, hissue⟩ := reports_mixedRequest
  have hnarrow := h mixedProject (projectsFor_mixedRequest ▸ List.mem_singleton_self _) rfl w hw
    hdirectory
  rw [hissue] at hnarrow
  exact absurd hnarrow (by decide)

end Session

end ResourceLint
