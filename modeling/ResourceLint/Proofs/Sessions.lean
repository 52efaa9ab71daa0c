/-
A run over several projects, one after the other.

`Session.jobFor` is the job of a project in a run, told from the session as
it is before the run.  The session changes while the run goes on, since it
keeps every configuration it reads; but no two projects of a run have the
same directory (`Project.apart_ofInputs`), so a configuration read for one is
never that of another, and the jobs are those foreseen: a run is a fold over
its projects that leaves the session alone (`course_eq_foldl_advance`).

An uncanceled run checks every project, and no check in it is ended.  So
what holds of the warnings of one uncanceled check holds of the run:
whatever a check adds to certain warnings, the run reports the additions of
its projects in the order of a report (`filter_analyze`).
-/
import ResourceLint.Proofs.Requests
import ResourceLint.Proofs.Sorting
import ResourceLint.Proofs.Table

namespace ResourceLint

namespace Run.Job

variable (job : Job)

/-- The detectors of a check. -/
def detectors : List ActiveDetector :=
  job.registry.activate job.configuration.isEnabled job.scope

/-- The detectors of a check have seen nothing when it begins. -/
theorem map_rested_detectors : job.detectors.map ActiveDetector.rested = job.detectors := by
  have hself : ∀ a ∈ job.detectors, a.rested = a := by
    intro a ha
    obtain ⟨reg, -, -, hmemory⟩ := Registry.mem_activate ha
    unfold ActiveDetector.rested
    rw [← hmemory]
  rw [List.map_congr_left hself, List.map_id']

end Run.Job

namespace Session

-- =========================================================== configurations

variable {s : Session} {host : Host}

/-- What is remembered of a directory. -/
def known? (configurations : List (Path × Configuration)) (directory : Path) :
    Option (Path × Configuration) :=
  configurations.find? (·.1.same directory)

/-- A configuration that is known is for that directory. -/
theorem same_of_known? {configurations : List (Path × Configuration)} {directory : Path}
    {entry : Path × Configuration} (h : known? configurations directory = some entry) :
    entry.1.same directory := by
  unfold known? at h
  simpa using List.find?_some h

/-- A configuration that is remembered is not read. -/
theorem configuration_of_some {tree : FileTree} {directory : Path}
    {entry : Path × Configuration} (h : known? s.configurations directory = some entry) :
    s.configuration tree directory = (entry.2, s) := by
  unfold configuration
  split
  · next hfind =>
      cases hfind.symm.trans h
      rfl
  · next hfind => cases hfind.symm.trans h

/-- A configuration that is not remembered is read, and remembered then. -/
theorem configuration_of_none {tree : FileTree} {directory : Path}
    (h : known? s.configurations directory = none) :
    s.configuration tree directory
      = (.ofDirectory tree s.user s.selection directory,
          { s with
            configurations := (directory, .ofDirectory tree s.user s.selection directory)
              :: s.configurations }) := by
  unfold configuration
  split
  · next hfind => cases hfind.symm.trans h
  · rfl

/-- What a session becomes by reading configurations of other directories. -/
structure Extends (s later : Session) (visited : List Path) : Prop where
  registry : later.registry = s.registry
  user : later.user = s.user
  selection : later.selection = s.selection
  options : later.options = s.options
  configurations : ∃ more, later.configurations = more ++ s.configurations
    ∧ ∀ entry ∈ more, entry.1 ∈ visited

theorem Extends.refl (s : Session) : s.Extends s [] :=
  ⟨rfl, rfl, rfl, rfl, [], rfl, fun _ h => by cases h⟩

/-- The configuration of a directory that was not visited is that of the
session before. -/
theorem Extends.configuration {later : Session} {visited : List Path}
    (h : s.Extends later visited) (tree : FileTree) {directory : Path}
    (hnew : ∀ known ∈ visited, known.same directory = false) :
    (later.configuration tree directory).1 = (s.configuration tree directory).1
      ∧ s.Extends (later.configuration tree directory).2 (visited ++ [directory]) := by
  obtain ⟨more, hmore, hvisited⟩ := h.configurations
  -- what was remembered since is about other directories
  have hskip : known? later.configurations directory = known? s.configurations directory := by
    have hnone : known? more directory = none := by
      refine List.find?_eq_none.mpr fun entry hentry => ?_
      simpa using hnew entry.1 (hvisited entry hentry)
    unfold known? at hnone ⊢
    rw [hmore, List.find?_append, hnone]
    rfl
  have hkept : ∀ entry ∈ more, entry.1 ∈ visited ++ [directory] := fun entry hentry =>
    List.mem_append_left _ (hvisited entry hentry)
  cases hknown : known? s.configurations directory with
  | some found =>
      rw [configuration_of_some hknown, configuration_of_some (hskip.trans hknown)]
      exact ⟨rfl, h.registry, h.user, h.selection, h.options, more, hmore, hkept⟩
  | none =>
      rw [configuration_of_none hknown, configuration_of_none (hskip.trans hknown), h.user,
        h.selection]
      refine ⟨rfl, h.registry, rfl, rfl, h.options,
        (directory, .ofDirectory tree s.user s.selection directory) :: more, ?_, ?_⟩
      · rw [hmore]
        rfl
      · intro entry hentry
        rcases List.mem_cons.mp hentry with rfl | hentry
        · exact List.mem_append_right _ List.mem_cons_self
        · exact hkept entry hentry

-- ============================================================== the jobs

/-- The job of a project in a run. -/
def jobFor (s : Session) (host : Host) (scope : Option Scope) (paths : PathDisplay)
    (project : Project) : Run.Job :=
  { host, registry := s.registry, options := s.options, project
    scope := scope.getD project.inferScope
    configuration := (s.configuration host.tree project.directory).1, paths }

/-- The inputs of a run. -/
def inputs (host : Host) (files : List Path) : List Path :=
  files.map fun file => (host.tree.canonical? file).getD file

/-- The way a run shows paths. -/
def pathsFor (s : Session) (host : Host) (files : List Path) : PathDisplay :=
  if s.options.fullPath then .asWritten else .new (inputs host files) false

/-- The projects of a run. -/
def projectsFor (host : Host) (files : List Path) : List Project :=
  Project.ofInputs host.tree (inputs host files)

variable {scope : Option Scope} {paths : PathDisplay}

/-- How a check begins. -/
structure Begins (job : Run.Job) (p : Run.Progress) : Prop where
  active : p.active = job.registry.activate job.configuration.isEnabled job.scope
  sources : p.sources = []

/-- A wish to end the run stays. -/
theorem canceled_checkProject {g : Going} {project : Project} (h : g.progress.canceled) :
    checkProject host scope paths g project = g := if_pos h

/-- A run that is to end checks no more projects. -/
theorem canceled_foldl_checkProject {g : Going} (projects : List Project)
    (h : g.progress.canceled) : projects.foldl (checkProject host scope paths) g = g := by
  induction projects with
  | nil => rfl
  | cons project projects ih => rw [List.foldl_cons, canceled_checkProject h, ih]

/-- A run when it has announced a project and the detectors are ready. -/
def begun (job : Run.Job) (p : Run.Progress) : Run.Progress :=
  { p.fire job.host (.project job.project.name) with
    sources := [], active := job.registry.activate job.configuration.isEnabled job.scope }

theorem begins_begun (job : Run.Job) (p : Run.Progress) : Begins job (begun job p) := ⟨rfl, rfl⟩

/-- One project of a run that goes on. -/
theorem checkProject_eq (scope : Option Scope) (paths : PathDisplay) {g : Going}
    {project : Project} (h : g.progress.canceled = false)
    {visited : List Path} (hsession : s.Extends g.session visited)
    (hnew : ∀ known ∈ visited, known.same project.directory = false) :
    (checkProject host scope paths g project).progress
        = (s.jobFor host scope paths project).check
          (begun (s.jobFor host scope paths project) g.progress)
      ∧ (checkProject host scope paths g project).projects
        = g.projects ++ [⟨project.name, project.directory⟩]
      ∧ s.Extends (checkProject host scope paths g project).session
        (visited ++ [project.directory]) := by
  obtain ⟨hconfiguration, hextends⟩ := hsession.configuration host.tree hnew
  have hjob : s.jobFor host scope paths project
      = { host, registry := (g.session.configuration host.tree project.directory).2.registry
          options := (g.session.configuration host.tree project.directory).2.options, project
          scope := scope.getD project.inferScope
          configuration := (g.session.configuration host.tree project.directory).1, paths } := by
    unfold jobFor
    rw [hextends.registry, hextends.options, hconfiguration]
  unfold checkProject
  rw [if_neg (by simp [h]), hjob]
  exact ⟨rfl, rfl, hextends⟩

variable {projects : List Project}

/-- What the check of a project makes of a run, told by the session before. -/
def advance (s : Session) (host : Host) (scope : Option Scope) (paths : PathDisplay)
    (r : Run.Progress × List CheckedProject) (project : Project) :
    Run.Progress × List CheckedProject :=
  if r.1.canceled then r
  else
    ((s.jobFor host scope paths project).check (begun (s.jobFor host scope paths project) r.1),
      r.2 ++ [⟨project.name, project.directory⟩])

/-- No project is begun once the run is to end, -/
theorem advance_of_canceled {r : Run.Progress × List CheckedProject} (h : r.1.canceled)
    (project : Project) : s.advance host scope paths r project = r := if_pos h

theorem foldl_advance_of_canceled {r : Run.Progress × List CheckedProject} (h : r.1.canceled)
    (projects : List Project) : projects.foldl (s.advance host scope paths) r = r := by
  induction projects with
  | nil => rfl
  | cons project projects ih => rw [List.foldl_cons, advance_of_canceled h, ih]

/-- The session that changes during a run plays no part in it. -/
theorem foldl_checkProject {g : Going} {visited : List Path}
    (hsession : s.Extends g.session visited) (hapart : Project.Apart projects)
    (hnew : ∀ project ∈ projects, ∀ known ∈ visited, known.same project.directory = false) :
    ((projects.foldl (checkProject host scope paths) g).progress,
        (projects.foldl (checkProject host scope paths) g).projects)
      = projects.foldl (s.advance host scope paths) (g.progress, g.projects) := by
  induction projects generalizing g visited with
  | nil => rfl
  | cons project projects ih =>
      rw [List.foldl_cons, List.foldl_cons]
      cases h : g.progress.canceled with
      | true =>
          rw [canceled_checkProject h, canceled_foldl_checkProject projects h,
            advance_of_canceled h, foldl_advance_of_canceled h]
      | false =>
          obtain ⟨hprogress, hchecked, hextends⟩ :=
            checkProject_eq scope paths h hsession (hnew project List.mem_cons_self)
          obtain ⟨happroject, hrest⟩ := List.pairwise_cons.mp hapart
          rw [ih hextends hrest fun other hother known hknown => ?_, hprogress, hchecked]
          · unfold advance
            rw [if_neg (by simp [h])]
          · -- visited before, or just now, and then apart from those to come
            rcases List.mem_append.mp hknown with hknown | hknown
            · exact hnew other (List.mem_cons_of_mem _ hother) known hknown
            · rw [List.mem_singleton.mp hknown]
              exact happroject other hother

-- ============================================================ the course

/-- A run when it has told that it starts. -/
def started (s : Session) (host : Host) : Run.Progress :=
  Run.Progress.fire host .starting
    { canceled := s.canceled, events := [], notes := [], filesChecked := 0, warnings := [],
      sources := [], active := [], refused := [], asked := if s.canceled then [0] else [] }

/-- A run when it has looked at all its projects. -/
def course (s : Session) (host : Host) (files : List Path) (scope : Option Scope) : Going :=
  (projectsFor host files).foldl (checkProject host scope (s.pathsFor host files))
    { session := s, progress := s.started host, projects := [] }

/-- A run is its course, after which the wish to end is forgotten and the end
is told. -/
theorem analyze_eq (s : Session) (host : Host) (files : List Path) (scope : Option Scope) :
    s.analyze host files scope
      = let g := s.course host files scope
        let ended := { g.progress with canceled := false }.fire host
          (if g.progress.canceled then .canceled else .completed)
        ({ warnings := Warning.sort g.progress.warnings
           errorCount := ((Warning.sort g.progress.warnings).filter (·.isError)).length
           warningCount := ((Warning.sort g.progress.warnings).filter (·.isWarning)).length
           filesChecked := g.progress.filesChecked, canceled := g.progress.canceled
           paths := s.pathsFor host files, projects := g.projects, events := ended.events
           notes := g.progress.notes, refused := g.progress.refused, asked := g.progress.asked },
          { g.session with canceled := ended.canceled }) := rfl

/-- The course of a run is a fold over its projects. -/
theorem course_eq_foldl_advance (s : Session) (host : Host) (files : List Path)
    (scope : Option Scope) :
    ((s.course host files scope).progress, (s.course host files scope).projects)
      = (projectsFor host files).foldl (s.advance host scope (s.pathsFor host files))
          (s.started host, []) :=
  foldl_checkProject (Extends.refl s) (Project.apart_ofInputs _ _) fun _ _ _ h => by cases h

/-- What holds of a run when it starts and is kept by the check of each
project holds of its course, whenever the run is ended. -/
theorem course_induction {P : Run.Progress → List CheckedProject → Prop} {files : List Path}
    (hcheck : ∀ project ∈ projectsFor host files, ∀ p checked, p.canceled = false → P p checked →
      P ((s.jobFor host scope (s.pathsFor host files) project).check
          (begun (s.jobFor host scope (s.pathsFor host files) project) p))
        (checked ++ [⟨project.name, project.directory⟩]))
    (hstart : P (s.started host) []) :
    P (s.course host files scope).progress (s.course host files scope).projects := by
  -- the fold over some of the projects, so that the induction may go over them
  have hfold : ∀ (projects : List Project),
      (∀ project ∈ projects, project ∈ projectsFor host files) →
      ∀ r, P r.1 r.2 →
        P (projects.foldl (s.advance host scope (s.pathsFor host files)) r).1
          (projects.foldl (s.advance host scope (s.pathsFor host files)) r).2 := by
    intro projects hmem
    induction projects with
    | nil => exact fun r h => h
    | cons project projects ih =>
        intro r hr
        refine ih (fun other hother => hmem other (List.mem_cons_of_mem _ hother)) _ ?_
        unfold advance
        split
        · exact hr
        · next h => exact hcheck project (hmem project List.mem_cons_self) _ _ (by simpa using h) hr
  have hcourse := hfold (projectsFor host files) (fun _ h => h) (s.started host, []) hstart
  rwa [← course_eq_foldl_advance] at hcourse

/-- What every uncanceled check adds to certain warnings, an uncanceled run
adds for its projects. -/
theorem filter_foldl_advance (which : Warning → Bool) (found : Run.Job → List Warning)
    (hfound : ∀ job p, job.registry = s.registry → job.host = host → Begins job p →
      (job.check p).canceled = false →
      (job.check p).warnings.filter which = p.warnings.filter which ++ found job)
    {r : Run.Progress × List CheckedProject}
    (hend : (projects.foldl (s.advance host scope paths) r).1.canceled = false) :
    (projects.foldl (s.advance host scope paths) r).1.warnings.filter which
      = r.1.warnings.filter which
        ++ projects.flatMap fun project => found (s.jobFor host scope paths project) := by
  induction projects generalizing r with
  | nil => exact (List.append_nil _).symm
  | cons project projects ih =>
      rw [List.foldl_cons] at hend ⊢
      -- a run that ends uncanceled never was
      have hbefore : r.1.canceled = false := by
        cases h : r.1.canceled with
        | false => rfl
        | true =>
            rw [advance_of_canceled h, foldl_advance_of_canceled h] at hend
            exact h.symm.trans hend
      have hafter : (s.advance host scope paths r project).1.canceled = false := by
        cases h : (s.advance host scope paths r project).1.canceled with
        | false => rfl
        | true =>
            rw [foldl_advance_of_canceled h] at hend
            exact h.symm.trans hend
      have hcheck : (s.advance host scope paths r project).1
          = (s.jobFor host scope paths project).check
            (begun (s.jobFor host scope paths project) r.1) := by
        unfold advance
        rw [if_neg (by simp [hbefore])]
      rw [hcheck] at hafter
      rw [ih hend, hcheck, hfound _ _ rfl rfl (begins_begun _ _) hafter, List.flatMap_cons,
        ← List.append_assoc]
      rfl

/-- What every uncanceled check adds to certain warnings, an uncanceled run
reports for its projects, in the order of a report. -/
theorem filter_analyze {files : List Path} (which : Warning → Bool)
    (found : Run.Job → List Warning)
    (hfound : ∀ job p, job.registry = s.registry → job.host = host → Begins job p →
      (job.check p).canceled = false →
      (job.check p).warnings.filter which = p.warnings.filter which ++ found job)
    (hend : (s.analyze host files scope).1.canceled = false) :
    (s.analyze host files scope).1.warnings.filter which
      = Warning.sort ((projectsFor host files).flatMap fun project =>
          found (s.jobFor host scope (s.pathsFor host files) project)) := by
  have hcourse := congrArg Prod.fst (s.course_eq_foldl_advance host files scope)
  rw [analyze_eq] at hend ⊢
  dsimp only at hend hcourse ⊢
  rw [hcourse] at hend ⊢
  rw [Warning.sort_filter, filter_foldl_advance which found hfound hend]
  rfl

/-- A run whose checks go on to their ends goes on to its end, when its
listener does not end it. -/
theorem canceled_analyze_eq_false {files : List Path}
    (hcheck : ∀ job p, job.registry = s.registry → job.host = host → Begins job p →
      p.canceled = false → (job.check p).canceled = false)
    (hhost : ∀ events, host.cancels events = false) (hs : s.canceled = false) :
    (s.analyze host files scope).1.canceled = false := by
  refine course_induction (P := fun p _ => p.canceled = false) (fun project _ p _ hp _ => ?_) ?_
  · refine hcheck _ _ rfl rfl (begins_begun _ _) ?_
    change (p.canceled || host.cancels _) = false
    simp [hp, hhost]
  · change (s.canceled || host.cancels _) = false
    simp [hs, hhost]

-- ================================================== the built-in registry

variable {files : List Path} {id : String}

/-- What an uncanceled run of the built-in detectors reports under an issue,
project by project. -/
theorem filter_analyze_builtIn (hregistry : s.registry = .builtIn)
    (hcoherent : Run.Coherent host) (hid : id ≠ Registry.parserErrorId)
    (hend : (s.analyze host files scope).1.canceled = false) :
    (s.analyze host files scope).1.warnings.filter (·.issue.id == id)
      = Warning.sort ((projectsFor host files).flatMap fun project =>
          (s.jobFor host scope (s.pathsFor host files) project).reported id) := by
  refine filter_analyze _ (·.reported id) (fun job p hjob hhost hbegins hcheck => ?_) hend
  refine Run.Job.filter_check_of_orderly ?_ hbegins.active hbegins.sources ?_ hid hcheck
  · rw [hjob, hregistry]
    exact Registry.orderly_builtIn
  · rwa [hhost]

/-- The built-in detectors end no run. -/
theorem canceled_analyze_builtIn (hregistry : s.registry = .builtIn)
    (hhost : ∀ events, host.cancels events = false) (hs : s.canceled = false) :
    (s.analyze host files scope).1.canceled = false := by
  refine canceled_analyze_eq_false (fun job p hjob hjobhost hbegins hp => ?_) hhost hs
  refine Run.Job.canceled_check_of_orderly ?_ hbegins.active (hjobhost ▸ hhost) hp
  rw [hjob, hregistry]
  exact Registry.orderly_builtIn

/-- An uncanceled run reports what the detector behind an enabled issue finds
in one of its projects. -/
theorem exists_warning_of_mem_findings (hregistry : s.registry = .builtIn)
    (hcoherent : Run.Coherent host) (hend : (s.analyze host files scope).1.canceled = false)
    {project : Project} (hproject : project ∈ projectsFor host files) {job : Run.Job}
    (hjob : job = s.jobFor host scope (s.pathsFor host files) project) {issue : Issue}
    (hissue : issue ∈ Registry.builtInIssues) {reg : Registration}
    (hserving : Registry.builtIn.serving? issue.id = some reg)
    (hscope : issue.scope.isSubset job.scope) (henabled : job.configuration.isEnabled issue)
    {f : Finding}
    (hf : f ∈ reg.detector.findings issue.id .blank (job.told issue.scope reg.detector)) :
    ∃ w ∈ (s.analyze host files scope).1.warnings,
      w.issue = issue
        ∧ job.warningOf? (Run.Job.sourcesTold (job.told issue.scope reg.detector)) f = some w := by
  have hknown : job.registry.issue? issue.id = some issue := by
    rw [hjob]
    exact (congrArg (·.issue? issue.id) hregistry).trans
      (Registry.issue?_builtIn.mpr ⟨hissue, rfl⟩)
  have hserved : job.registry.serving? issue.id = some reg := by
    rw [hjob]
    exact (congrArg (·.serving? issue.id) hregistry).trans hserving
  have hreported : job.reported issue.id = job.findings issue.id issue.scope reg.detector := by
    unfold Run.Job.reported
    rw [hknown, hserved]
    exact if_pos (Bool.and_eq_true_iff.mpr ⟨hscope, henabled⟩)
  have hsome : job.isEnabled f.issue := by
    rw [Detector.issue_of_mem_findings hf, Run.Job.isEnabled, hknown]
    exact henabled
  obtain ⟨w, hmade⟩ := Option.isSome_iff_exists.mp
    ((Run.Job.isSome_warningOf? (Run.Job.sourcesTold (job.told issue.scope reg.detector)) f).trans
      hsome)
  have htold := (Run.Job.tells_of_warningOf? hmade).issue
  rw [Detector.issue_of_mem_findings hf, hknown] at htold
  refine ⟨w, ?_, (Option.some.inj htold).symm, hmade⟩
  -- no detector serves the id of faults, so the filter by id finds the warning
  have hid : issue.id ≠ Registry.parserErrorId := fun heq =>
    Registry.orderly_builtIn.parserError reg (Registry.mem_of_serving? hserving).1
      (heq ▸ (Registry.mem_of_serving? hserving).2)
  have hmem : w ∈ (s.analyze host files scope).1.warnings.filter (·.issue.id == issue.id) := by
    rw [filter_analyze_builtIn hregistry hcoherent hid hend]
    refine List.mem_mergeSort.mpr (List.mem_flatMap.mpr ⟨project, hproject, ?_⟩)
    rw [← hjob, hreported]
    exact List.mem_filterMap.mpr ⟨f, hf, hmade⟩
  exact (List.mem_filter.mp hmem).1

end Session

end ResourceLint
