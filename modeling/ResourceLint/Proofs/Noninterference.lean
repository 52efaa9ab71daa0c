/-
Issues do not interfere with each other.

What a run reports under an issue is decided by the severity of that issue
and by the files, not by which other issues are looked for.  The other issues
decide which detectors run, which files are opened, and what a detector that
serves several issues reports besides; the proof compares two runs in which
all of this may differ.

# The comparison

`Table` tells what one check reports under an issue from the findings of
one detector, and `Job.Alike` collects what may not differ between two
checks for these to be the same.  The detector is then told the same in
contexts that are alike for the issue (`Alike.told`), and since it keeps its
issues apart it finds the same (`Detector.findings_congr`).

# The settings

Settings are files in the tree, so trees with other settings are other
trees.  They still have one shape, and no run opens a settings file
(`not_isOpenable_settings`): to a run the trees are alike.
-/
import ResourceLint.Proofs.Sessions

namespace ResourceLint

/-- The same is told, in contexts alike for an issue. -/
def ToldAlike (id : String) (a b : Context × Call) : Prop := a.1.Alike id b.1 ∧ a.2 = b.2

/-- A detector that keeps its issues apart finds the same where it is told
the same. -/
theorem Detector.findings_congr {d : Detector} {id : String} (hd : d.Separates id)
    {s t : List (Context × Call)} (h : List.Forall₂ (ToldAlike id) s t) (memory : Memory) :
    d.findings id memory s = d.findings id memory t := by
  induction h generalizing memory with
  | nil => rfl
  | @cons a b s t hab _ ih =>
      obtain ⟨c₁, call⟩ := a
      obtain ⟨c₂, call'⟩ := b
      obtain ⟨hcontext, hcall⟩ := hab
      cases hcall
      obtain ⟨hmemory, hheard⟩ := hd memory c₁ c₂ call hcontext
      rw [findings, findings, hheard, hmemory, ih]

namespace Run

-- ======================================================= files of a tree

/-- Which resource files there are follows from the shape of the tree. -/
theorem Job.resourceFiles_shape (t : FileTree) (project : Project) :
    resourceFiles t.shape project = resourceFiles t project := by
  have hall : allResourceFiles t.shape project = allResourceFiles t project := by
    unfold allResourceFiles
    rw [FileTree.walk_shape, List.filter_map, List.map_map]
    congr 1
    refine List.filter_congr fun found _ => ?_
    simp only [Function.comp, FileTree.Entry.isFile_blank]
  unfold resourceFiles
  rw [hall]

/-- No run opens a settings file. -/
theorem not_isOpenable_settings {file : Path} {name : String} (hname : file.fileName? = some name)
    (h : name ∈ Settings.projectNames) : isOpenable file = false := by
  have hclosed : ∀ name ∈ Settings.projectNames,
      (hasExtension name "xml" || name == proguardName) = false := by decide
  unfold isOpenable
  rw [hname]
  exact hclosed name h

/-- Trees that differ in settings only are read alike. -/
theorem read_ofTree_congr {t u : FileTree} (h : t.AgreeOutside Settings.projectNames u)
    (cancels cancels' : List Event → Bool) {file : Path} (hopen : isOpenable file) :
    (Host.ofTree t cancels).read file = (Host.ofTree u cancels').read file := by
  show (t.readText file).toOption = (u.readText file).toOption
  cases hname : file.fileName? with
  | none =>
      unfold isOpenable at hopen
      rw [hname] at hopen
      cases hopen
  | some name =>
      rw [h.readText hname]
      intro hsettings
      rw [not_isOpenable_settings hname hsettings] at hopen
      cases hopen

namespace Job

-- ============================================================ alike checks

/-- Checks that have to report the same under an issue. -/
structure Alike (id : String) (j₁ j₂ : Job) : Prop where
  registry : j₁.registry = j₂.registry
  options : j₁.options = j₂.options
  project : j₁.project = j₂.project
  scope : j₁.scope = j₂.scope
  paths : j₁.paths = j₂.paths
  shape : j₁.host.tree.shape = j₂.host.tree.shape
  read : ∀ file, isOpenable file → j₁.host.read file = j₂.host.read file
  severity : ∀ issue, j₁.registry.issue? id = some issue →
    j₁.configuration.severity issue = j₂.configuration.severity issue

namespace Alike

variable {id : String} {j₁ j₂ : Job}

/-- Jobs that are alike under an issue agree whether it is enabled. -/
theorem isEnabled (h : Alike id j₁ j₂) : j₁.isEnabled id = j₂.isEnabled id := by
  unfold Job.isEnabled
  rw [← h.registry]
  cases hissue : j₁.registry.issue? id with
  | none => rfl
  | some issue =>
      simp only [Option.any_some, Configuration.isEnabled]
      rw [h.severity issue hissue]

theorem isFile (h : Alike id j₁ j₂) (p : Path) :
    j₁.host.tree.isFile p = j₂.host.tree.isFile p := by
  rw [← FileTree.isFile_shape, h.shape, FileTree.isFile_shape]

theorem context (h : Alike id j₁ j₂) (file : Path) (contents : Option String)
    (folder : Option FolderType) :
    (j₁.context file contents folder).Alike id (j₂.context file contents folder) :=
  { project := h.project
    file := rfl
    scope := h.scope
    contents := rfl
    folder := rfl
    shape := h.shape
    lowDensity := congrArg RunOptions.lowDensity h.options
    enabled := h.isEnabled }

/-- What is told of a markup file is alike in jobs that are alike. -/
theorem markupTold (h : Alike id j₁ j₂) (d : Detector) {file : Path} (hopen : isOpenable file)
    (folder : Option FolderType) :
    List.Forall₂ (ToldAlike id) (j₁.markupTold d file folder) (j₂.markupTold d file folder) := by
  unfold Job.markupTold
  rw [h.read file hopen]
  cases j₂.host.read file with
  | none => exact .nil
  | some text =>
      simp only
      cases Xml.Document.parse text with
      | error e => exact .nil
      | ok document =>
          simp only [List.forall₂_map_left_iff, List.forall₂_map_right_iff]
          exact List.forall₂_same.mpr fun call _ => ⟨h.context .., rfl⟩

theorem manifestTold (h : Alike id j₁ j₂) (scope : Scope) (d : Detector) :
    List.Forall₂ (ToldAlike id) (j₁.manifestTold scope d) (j₂.manifestTold scope d) := by
  unfold Job.manifestTold
  simp only
  rw [h.isFile, h.project]
  split
  · exact h.markupTold d (isOpenable_child (by decide) (by decide)) none
  · exact .nil

/-- What is told of the resource files is alike in jobs that are alike. -/
theorem resourcesTold (h : Alike id j₁ j₂) (scope : Scope) (d : Detector) :
    List.Forall₂ (ToldAlike id) (j₁.resourcesTold scope d) (j₂.resourcesTold scope d) := by
  have hfiles : resourceFiles j₁.host.tree j₁.project = resourceFiles j₂.host.tree j₂.project := by
    rw [← resourceFiles_shape, h.shape, resourceFiles_shape, h.project]
  unfold Job.resourcesTold
  rw [hfiles]
  split
  · rw [List.flatMap_def, List.flatMap_def]
    refine List.rel_flatten ?_
    simp only [List.forall₂_map_left_iff, List.forall₂_map_right_iff]
    refine List.forall₂_same.mpr fun found hfound => ?_
    unfold Job.resourceFileTold
    split
    · exact h.markupTold d
        (isOpenable_of_hasExtension (hasExtension_of_mem_resourceFiles hfound)) _
    · exact .nil
  · exact .nil

theorem proguardTold (h : Alike id j₁ j₂) (scope : Scope) (d : Detector) :
    List.Forall₂ (ToldAlike id) (j₁.proguardTold scope d) (j₂.proguardTold scope d) := by
  have hopen : isOpenable j₂.project.proguardFile := isOpenable_child (by decide) (by decide)
  unfold Job.proguardTold
  simp only
  rw [h.isFile, h.project, h.read _ hopen]
  split
  · cases j₂.host.read j₂.project.proguardFile with
    | none => exact .nil
    | some text => exact .cons ⟨h.context .., rfl⟩ .nil
  · exact .nil

/-- A detector is told the same in alike checks. -/
theorem told (h : Alike id j₁ j₂) (scope : Scope) (d : Detector) :
    List.Forall₂ (ToldAlike id) (j₁.told scope d) (j₂.told scope d) := by
  have hround : ∀ call, List.Forall₂ (ToldAlike id) [(j₁.projectContext, call)]
      [(j₂.projectContext, call)] := by
    intro call
    refine .cons ⟨?_, rfl⟩ .nil
    unfold projectContext
    rw [h.project]
    exact h.context ..
  have hpart : ∀ (b : Bool) (s t : List (Context × Call)), List.Forall₂ (ToldAlike id) s t →
      List.Forall₂ (ToldAlike id) (if b then s else []) (if b then t else []) := by
    intro b s t hst
    cases b with
    | false => exact .nil
    | true => exact hst
  unfold Job.told
  rw [h.scope]
  exact List.rel_append (List.rel_append (List.rel_append (List.rel_append (hround _)
    (hpart _ _ _ (h.manifestTold scope d))) (hpart _ _ _ (h.resourcesTold scope d)))
    (hpart _ _ _ (h.proguardTold scope d))) (hround _)

/-- What is told comes with the same texts. -/
theorem sourcesTold_eq {s t : List (Context × Call)} (h : List.Forall₂ (ToldAlike id) s t) :
    sourcesTold s = sourcesTold t := by
  induction h with
  | nil => rfl
  | cons hab _ ih =>
      unfold sourcesTold at ih ⊢
      rw [List.filterMap_cons, List.filterMap_cons, hab.1.contents, hab.1.file, ih]

/-- A finding under the issue leads to the same warning. -/
theorem warningOf?_eq (h : Alike id j₁ j₂) (sources : List (Path × String)) {f : Finding}
    (hf : f.issue = id) : j₁.warningOf? sources f = j₂.warningOf? sources f := by
  subst hf
  unfold Job.warningOf?
  rw [← h.registry, ← h.options, ← h.project, ← h.paths]
  cases hissue : j₁.registry.issue? f.issue with
  | none => rfl
  | some issue =>
      simp only [Option.bind_eq_bind, Option.bind_some]
      rw [h.severity issue hissue]

/-- Alike checks report the same under the issue. -/
theorem reported_eq (h : Alike id j₁ j₂) (horderly : j₁.registry.Orderly) :
    j₁.reported id = j₂.reported id := by
  unfold reported
  rw [← h.registry, ← h.scope]
  cases hissue : j₁.registry.issue? id with
  | none => rfl
  | some issue =>
      -- both have the same detector behind the issue, and hear alike
      cases hserving : j₁.registry.serving? id with
      | none => rfl
      | some reg =>
          have henabled : j₁.configuration.isEnabled issue = j₂.configuration.isEnabled issue := by
            unfold Configuration.isEnabled
            rw [h.severity issue hissue]
          simp only
          rw [henabled]
          split
          · obtain ⟨hreg, hmem⟩ := Registry.mem_of_serving? hserving
            have htold := h.told issue.scope reg.detector
            unfold Job.findings
            rw [Detector.findings_congr ((horderly.conforms reg hreg).separates id hmem) htold,
              sourcesTold_eq htold]
            exact List.filterMap_congr fun f hf =>
              h.warningOf?_eq _ (Detector.issue_of_mem_findings hf)
          · rfl

end Alike

end Job

end Run

namespace Session

variable {s₁ s₂ : Session} {t₁ t₂ : FileTree} {c₁ c₂ : List Event → Bool} {id : String}

/-- Inputs lead to the same places in trees of one shape. -/
theorem inputs_congr (h : t₁.shape = t₂.shape) (c₁ c₂ : List Event → Bool) (files : List Path) :
    inputs (.ofTree t₁ c₁) files = inputs (.ofTree t₂ c₂) files := by
  unfold inputs
  refine List.map_congr_left fun file _ => ?_
  show (t₁.canonical? file).getD file = (t₂.canonical? file).getD file
  rw [← FileTree.canonical?_shape, h, FileTree.canonical?_shape]

/-- Requests are divided into the same projects in trees of one shape. -/
theorem projectsFor_congr (h : t₁.shape = t₂.shape) (c₁ c₂ : List Event → Bool)
    (files : List Path) :
    projectsFor (.ofTree t₁ c₁) files = projectsFor (.ofTree t₂ c₂) files := by
  unfold projectsFor
  rw [inputs_congr h c₁ c₂]
  show Project.ofInputs t₁ _ = Project.ofInputs t₂ _
  rw [← Project.ofInputs_shape, h, Project.ofInputs_shape]

/-- Noninterference between issues.  Two runs of the built-in detectors over
the same paths, in sessions and trees of any two configurations, report the
same under an issue that has one severity in both, whatever becomes of the
other issues. -/
theorem filter_analyze_eq_of_severity_eq (hregistry₁ : s₁.registry = .builtIn)
    (hregistry₂ : s₂.registry = .builtIn) (hoptions : s₁.options = s₂.options)
    (htrees : t₁.AgreeOutside Settings.projectNames t₂) (files : List Path)
    (scope : Option Scope) (hid : id ≠ Registry.parserErrorId)
    (hseverity : ∀ project ∈ projectsFor (.ofTree t₁ c₁) files, ∀ issue,
      Registry.builtIn.issue? id = some issue →
        (s₁.configuration t₁ project.directory).1.severity issue
          = (s₂.configuration t₂ project.directory).1.severity issue)
    (hend₁ : (s₁.analyze (.ofTree t₁ c₁) files scope).1.canceled = false)
    (hend₂ : (s₂.analyze (.ofTree t₂ c₂) files scope).1.canceled = false) :
    (s₁.analyze (.ofTree t₁ c₁) files scope).1.warnings.filter (·.issue.id == id)
      = (s₂.analyze (.ofTree t₂ c₂) files scope).1.warnings.filter (·.issue.id == id) := by
  rw [filter_analyze_builtIn hregistry₁ (Run.coherent_ofTree t₁ c₁) hid hend₁,
    filter_analyze_builtIn hregistry₂ (Run.coherent_ofTree t₂ c₂) hid hend₂]
  congr 1
  have hpaths : s₁.pathsFor (.ofTree t₁ c₁) files = s₂.pathsFor (.ofTree t₂ c₂) files := by
    unfold pathsFor
    rw [hoptions, inputs_congr htrees.shape c₁ c₂]
  rw [hpaths, ← projectsFor_congr htrees.shape c₁ c₂]
  refine List.flatMap_congr fun project hproject => ?_
  -- the jobs of a project differ in other severities and in the configuration files only
  have halike : Run.Job.Alike id
      (s₁.jobFor (.ofTree t₁ c₁) scope (s₂.pathsFor (.ofTree t₂ c₂) files) project)
      (s₂.jobFor (.ofTree t₂ c₂) scope (s₂.pathsFor (.ofTree t₂ c₂) files) project) :=
    { registry := hregistry₁.trans hregistry₂.symm
      options := hoptions
      project := rfl
      scope := rfl
      paths := rfl
      shape := htrees.shape
      read := fun _ hopen => Run.read_ofTree_congr htrees c₁ c₂ hopen
      severity := fun issue hissue =>
        hseverity project hproject issue (hregistry₁ ▸ hissue) }
  refine halike.reported_eq ?_
  show s₁.registry.Orderly
  rw [hregistry₁]
  exact Registry.orderly_builtIn

/-- A project with one layout, and these settings. -/
def oneLayout (settings : String) : FileTree :=
  { here := ["ROOT"]
    entries :=
      [(["ROOT"], .directory),
        (["ROOT", "app"], .directory),
        (["ROOT", "app", "AndroidManifest.xml"], .file "<manifest/>".toUTF8),
        (["ROOT", "app", "lint.yaml"], .file settings.toUTF8),
        (["ROOT", "app", "res"], .directory),
        (["ROOT", "app", "res", "layout"], .directory),
        (["ROOT", "app", "res", "layout", "main.xml"],
          .file "<View a:text=\"hi\" a:textSize=\"4px\"/>".toUTF8)] }

/-- A project in which hardcoded texts are switched off, and the same project
in which they are errors, have the same findings about pixels. -/
theorem filter_analyze_oneLayout :
    ((new .builtIn none ⟨[], [], none⟩ default).analyze
        (.ofTree (oneLayout "disabled: HardcodedText") fun _ => false) [⟨"/ROOT/app"⟩] none
      ).1.warnings.filter (·.issue.id == "PxUsage")
    = ((new .builtIn (some ⟨"SpUsage=ERROR", ""⟩) ⟨["UselessLeaf"], [], none⟩ default).analyze
        (.ofTree (oneLayout "severity: HardcodedText=ERROR") fun _ => false) [⟨"/ROOT/app"⟩] none
      ).1.warnings.filter (·.issue.id == "PxUsage") := by
  have hprojects : projectsFor
      (.ofTree (oneLayout "disabled: HardcodedText") fun _ => false) [⟨"/ROOT/app"⟩]
      = [Project.new ⟨"/ROOT/app"⟩ none] := by decide +kernel
  have hend : ∀ user selection settings,
      ((new .builtIn user selection default).analyze
        (.ofTree (oneLayout settings) fun _ => false) [⟨"/ROOT/app"⟩] none).1.canceled = false :=
    fun _ _ _ => canceled_analyze_builtIn rfl (fun _ => rfl) rfl
  refine filter_analyze_eq_of_severity_eq ?_ ?_ ?_ ?_ _ _ (by decide) ?_ (hend ..) (hend ..)
  · rfl
  · rfl
  · rfl
  · refine FileTree.agreeOutside_of_entries rfl ?_
    have hsame : ∀ entry, FileTree.EntriesAgree Settings.projectNames entry entry :=
      fun _ => ⟨rfl, rfl, Or.inl rfl⟩
    have hsettings : FileTree.EntriesAgree Settings.projectNames
        (["ROOT", "app", "lint.yaml"], .file "disabled: HardcodedText".toUTF8)
        (["ROOT", "app", "lint.yaml"], .file "severity: HardcodedText=ERROR".toUTF8) :=
      ⟨rfl, rfl, Or.inr ⟨"lint.yaml", List.mem_cons_self, rfl⟩⟩
    exact .cons (hsame _) <| .cons (hsame _) <| .cons (hsame _) <| .cons hsettings <|
      .cons (hsame _) <| .cons (hsame _) <| .cons (hsame _) .nil
  · rw [hprojects]
    intro project hproject issue hissue
    rw [List.mem_singleton.mp hproject]
    have hseverity : ∀ issue ∈ Registry.builtInIssues, issue.id = "PxUsage" →
        ((new .builtIn none ⟨[], [], none⟩ default).configuration
            (oneLayout "disabled: HardcodedText") ⟨"/ROOT/app"⟩).1.severity issue
          = ((new .builtIn (some ⟨"SpUsage=ERROR", ""⟩) ⟨["UselessLeaf"], [], none⟩
            default).configuration (oneLayout "severity: HardcodedText=ERROR")
            ⟨"/ROOT/app"⟩).1.severity issue := by decide +kernel
    obtain ⟨hbuiltIn, hid⟩ := Registry.issue?_builtIn.mp hissue
    exact hseverity issue hbuiltIn hid

end Session

end ResourceLint
