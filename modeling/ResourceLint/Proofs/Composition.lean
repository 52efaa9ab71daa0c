/-
A run over several projects is the runs over each of them.

What a check adds to a run is its `Job.found`, which depends on the job
alone: on what was reported before it does not (`check_warnings`), and the
way paths are shown only changes what is shown (`map_erasePath_found`).  Both
are one simulation: jobs that make the same of every finding, apart from
what is erased, go `Abreast` through one script.

An uncanceled run reports what its projects add (`warnings_analyze`).  Where
whole projects are asked for, each is checked as it would be by itself, and
a session that was used before gives the same as a new one
(`Alike.analyze_eq`), so that nothing leaks from project to project or from
run to run.
-/
import ResourceLint.Proofs.Reuse
import ResourceLint.Proofs.SingleFiles

namespace ResourceLint

namespace Run

/-- Two runs that remember the same and, since they reported these warnings,
have reported the same apart from what is erased. -/
structure Abreast (erase : Warning → Warning) (v w : List Warning) (p q : Progress) : Prop where
  active : q.active = p.active
  sources : q.sources = p.sources
  warnings : ∃ new new', p.warnings = v ++ new ∧ q.warnings = w ++ new'
    ∧ new'.map erase = new.map erase

namespace Job

variable {erase : Warning → Warning} {v w : List Warning} {p q : Progress} {j k job : Job}

/-- Jobs that make the same of every finding, apart from what is erased. -/
def MakesAlike (erase : Warning → Warning) (j k : Job) : Prop :=
  ∀ sources f, (k.warningOf? sources f).map erase = (j.warningOf? sources f).map erase

theorem abreast_refl (hactive : q.active = p.active) (hsources : q.sources = p.sources) :
    Abreast erase p.warnings q.warnings p q :=
  ⟨hactive, hsources, [], [], (List.append_nil _).symm, (List.append_nil _).symm, rfl⟩

/-- The same step leads from runs abreast to runs abreast. -/
theorem abreast_perform (hmakes : MakesAlike erase j k) (h : Abreast erase v w p q)
    (step : Step) : Abreast erase v w (j.perform p step) (k.perform q step) := by
  obtain ⟨new, new', hp, hq, hnew⟩ := h.warnings
  refine ⟨by rw [active_perform, active_perform, h.active],
    by rw [sources_perform, sources_perform, h.sources], ?_⟩
  rw [warnings_perform, warnings_perform, hp, hq, h.active, h.sources]
  refine ⟨_, _, List.append_assoc .., List.append_assoc .., ?_⟩
  rw [List.map_append, List.map_append, hnew, List.map_filterMap, List.map_filterMap]
  exact congrArg _ (List.filterMap_congr fun f _ => hmakes p.sources f)

theorem abreast_foldl_perform (hmakes : MakesAlike erase j k) (h : Abreast erase v w p q)
    (steps : List Step) :
    Abreast erase v w (steps.foldl j.perform p) (steps.foldl k.perform q) := by
  induction steps generalizing p q with
  | nil => exact h
  | cons step steps ih => exact ih (abreast_perform hmakes h step)

-- ======================================================= what is found

/-- The detectors of a job, with nothing done. -/
def ready (job : Job) : Progress :=
  { canceled := false, events := [], notes := [], filesChecked := 0, warnings := [], sources := []
    active := job.registry.activate job.configuration.isEnabled job.scope, refused := []
    asked := [] }

/-- What a check finds that is not ended. -/
def found (job : Job) : List Warning :=
  ((job.script (job.ready.active.map ActiveDetector.rested)).foldl job.perform job.ready).warnings

/-- An uncanceled check adds what it finds to what was reported before. -/
theorem check_warnings (hactive : p.active = job.ready.active) (hsources : p.sources = [])
    (hend : (job.check p).canceled = false) :
    (job.check p).warnings = p.warnings ++ job.found := by
  have hbegin : Abreast id [] p.warnings job.ready p := abreast_refl hactive hsources
  obtain ⟨new, new', hready, hp, hnew⟩ := (abreast_foldl_perform (fun _ _ => rfl) hbegin
    (job.script (job.ready.active.map ActiveDetector.rested))).warnings
  rw [List.map_id, List.map_id] at hnew
  have hfound : job.found = new := hready
  rw [check_eq_foldl_script hend, hactive, hp, hnew, hfound]

/-- However paths are shown, a check finds the same. -/
theorem map_erasePath_found (job : Job) (paths : PathDisplay) :
    ({ job with paths } : Job).found.map Warning.erasePath
      = job.found.map Warning.erasePath := by
  have hbeside : Beside { job with paths } job := ⟨rfl, rfl, rfl, rfl, rfl, rfl⟩
  have hmakes : MakesAlike Warning.erasePath job { job with paths } := hbeside.warningOf?_eq
  have hbegin : Abreast Warning.erasePath job.ready.warnings job.ready.warnings job.ready
      job.ready := abreast_refl rfl rfl
  obtain ⟨new, new', hfirst, hsecond, hnew⟩ := (abreast_foldl_perform hmakes hbegin
    (job.script (job.ready.active.map ActiveDetector.rested))).warnings
  have hfound : job.found = new := hfirst
  have hfound' : ({ job with paths } : Job).found = new' := hsecond
  rw [hfound, hfound', hnew]

/-- What is found in a project belongs to it. -/
theorem directory_of_mem_found {x : Warning} (h : x ∈ job.found) :
    x.projectDirectory = some job.project.directory := by
  have hsteps : ∀ (steps : List Step) (p : Progress),
      (∀ y ∈ p.warnings, y.projectDirectory = some job.project.directory) →
      ∀ y ∈ (steps.foldl job.perform p).warnings,
        y.projectDirectory = some job.project.directory := by
    intro steps
    induction steps with
    | nil => exact fun _ h => h
    | cons step steps ih =>
        refine fun p hp => ih _ fun y hy => ?_
        rw [warnings_perform] at hy
        rcases List.mem_append.mp hy with hold | hnew
        · exact hp y hold
        · obtain ⟨f, -, hmade⟩ := List.mem_filterMap.mp hnew
          exact (tells_of_warningOf? hmade).directory
  exact hsteps _ job.ready (fun _ h => by cases h) x h

end Job

end Run

namespace Session

variable {s : Session} {host : Host} {files : List Path} {scope : Option Scope}

/-- An uncanceled run reports what the checks of its projects find. -/
theorem warnings_analyze (hend : (s.analyze host files scope).1.canceled = false) :
    (s.analyze host files scope).1.warnings
      = Warning.sort ((projectsFor host files).flatMap fun project =>
          (s.jobFor host scope (s.pathsFor host files) project).found) := by
  have hall := filter_analyze (s := s) (fun _ => true) Run.Job.found
    (fun job p _ _ hbegins hcheck => by
      rw [List.filter_true, List.filter_true]
      exact Run.Job.check_warnings hbegins.active hbegins.sources hcheck) hend
  rwa [List.filter_true] at hall

/-- The warnings of an uncanceled run in one of its projects are what the
check of this project finds. -/
theorem perm_filter_analyze (hend : (s.analyze host files scope).1.canceled = false)
    {project : Project} (hproject : project ∈ projectsFor host files) :
    ((s.analyze host files scope).1.warnings.filter
        (·.projectDirectory == some project.directory)).Perm
      (s.jobFor host scope (s.pathsFor host files) project).found := by
  have hothers : ((projectsFor host files).flatMap fun other =>
        (s.jobFor host scope (s.pathsFor host files) other).found).filter
          (·.projectDirectory == some project.directory)
      = (s.jobFor host scope (s.pathsFor host files) project).found := by
    rw [List.filter_flatMap, flatMap_eq_of_forall_ne nodup_projectsFor hproject]
    · rw [List.filter_eq_self]
      intro x hx
      exact beq_iff_eq.mpr (Run.Job.directory_of_mem_found hx)
    · intro other hother hne
      rw [List.filter_eq_nil_iff]
      intro x hx
      rw [Run.Job.directory_of_mem_found hx, beq_iff_eq]
      exact fun heq => directory_ne hother hproject hne (Option.some.inj heq)
  rw [warnings_analyze hend, ← hothers]
  exact (List.mergeSort_perm _ _).filter _

end Session

-- ================================================= whole projects asked for

namespace Project

variable {t : FileTree} {directory : Path}

/-- A directory that holds a project asks for all of it. -/
theorem asks_of_isProjectDirectory (hdirectory : t.isDirectory directory)
    (hproject : isProjectDirectory t directory) : asks t directory = [(directory, none)] := by
  unfold asks
  rw [if_pos hdirectory, if_pos hproject]

/-- The projects of directories that each hold one, where no two directories
that differ are the same: the project of each directory, as a whole. -/
theorem mem_ofInputs_of_isProjectDirectory {inputs : List Path}
    (hinputs : ∀ input ∈ inputs, t.isDirectory input ∧ isProjectDirectory t input)
    (hsame : ∀ p ∈ inputs, ∀ q ∈ inputs, p.same q → p = q) :
    ∀ input ∈ inputs, new input none ∈ ofInputs t inputs := by
  have hasks : inputs.flatMap (asks t) = inputs.map (·, none) := by
    rw [List.map_eq_flatMap]
    exact List.flatMap_congr fun input hinput =>
      asks_of_isProjectDirectory (hinputs input hinput).1 (hinputs input hinput).2
  intro input hinput
  have hfind : (ofInputs t inputs).find? (·.directory.same input)
      = (inputs.find? (·.same input)).map (new · none) := by
    rw [ofInputs_eq_foldl_ask, hasks, find?_foldl_ask_whole, List.find?_map, Option.map_map]
    · rfl
    · intro a ha
      obtain ⟨_, -, rfl⟩ := List.mem_map.mp ha
      rfl
  have hthere : (inputs.find? (·.same input)).isSome :=
    List.find?_isSome.mpr ⟨input, hinput, Path.same_refl input⟩
  obtain ⟨first, hfirst⟩ := Option.isSome_iff_exists.mp hthere
  -- the first project at the same place is that of the input itself
  have hself : first = input := by
    have hnamed : first.same input := by simpa using List.find?_some hfirst
    exact hsame first (List.mem_of_find?_eq_some hfirst) input hinput hnamed
  rw [hfirst, hself, Option.map_some] at hfind
  exact List.mem_of_find?_eq_some hfind

/-- A directory that holds a project, asked for by itself. -/
theorem ofInputs_singleton (hdirectory : t.isDirectory directory)
    (hproject : isProjectDirectory t directory) :
    ofInputs t [directory] = [new directory none] := by
  rw [ofInputs_eq_foldl_ask, List.flatMap_singleton,
    asks_of_isProjectDirectory hdirectory hproject]
  rfl

end Project

namespace FileTree

variable {t : FileTree}

/-- The canonical path of a directory that holds a project does so as well. -/
theorem canonical?_of_isProjectDirectory (hwell : t.WellFormed) {p : Path}
    (hdirectory : t.isDirectory p) (hproject : Project.isProjectDirectory t p) :
    ∃ names, t.canonical? p = some (.ofNames names) ∧ (∀ n ∈ names, Path.IsName n)
      ∧ t.isDirectory (.ofNames names) ∧ Project.isProjectDirectory t (.ofNames names) := by
  unfold isDirectory at hdirectory
  split at hdirectory
  · next names hfind =>
      have hcanonical : t.canonical? p = some (.ofNames names) := by
        unfold canonical?
        rw [hfind]
      have hentry := (find_eq_ok_iff.mp hfind).2
      have hfind' : t.find (.ofNames names) = .ok (names, .directory) := hwell.find_ofNames hentry
      have hname : Path.IsName manifestName := by decide
      refine ⟨names, hcanonical, hwell.isName_of_entry? hentry, ?_, ?_⟩
      · unfold isDirectory
        rw [hfind']
      · unfold Project.isProjectDirectory isFile at hproject ⊢
        rwa [find_child_of_find hfind' hname, ← find_child_of_find hfind hname]
  · cases hdirectory

end FileTree

namespace Session

open Registry (builtIn)

variable {t : FileTree} {s : Session} {user : Option Settings} {selection : Selection}
  {options : RunOptions} {files : List Path}

/-- The project of each directory that is asked for is among those of the
run, as a whole. -/
theorem mem_projectsFor (hwell : t.WellFormed) (c : List Event → Bool)
    (hfiles : ∀ file ∈ files, t.isDirectory file ∧ Project.isProjectDirectory t file)
    {file directory : Path} (hfile : file ∈ files)
    (hdirectory : t.canonical? file = some directory) :
    Project.new directory none ∈ projectsFor (.ofTree t c) files := by
  have hinputs : ∀ input ∈ inputs (.ofTree t c) files,
      ∃ names, input = .ofNames names ∧ (∀ n ∈ names, Path.IsName n)
        ∧ t.isDirectory (.ofNames names) ∧ Project.isProjectDirectory t (.ofNames names) := by
    intro input hinput
    obtain ⟨file, hfile, rfl⟩ := List.mem_map.mp hinput
    obtain ⟨names, hcanonical, hnames⟩ := FileTree.canonical?_of_isProjectDirectory hwell
      (hfiles file hfile).1 (hfiles file hfile).2
    exact ⟨names, congrArg (·.getD file) hcanonical, hnames⟩
  refine Project.mem_ofInputs_of_isProjectDirectory (fun input hinput => ?_)
    (fun p hp q hq h => ?_) _ (List.mem_map.mpr ⟨file, hfile, congrArg (·.getD file) hdirectory⟩)
  · obtain ⟨_, rfl, -, hkind⟩ := hinputs input hinput
    exact hkind
  · obtain ⟨_, rfl, hnames, -⟩ := hinputs p hp
    obtain ⟨_, rfl, hnames', -⟩ := hinputs q hq
    rw [Path.ofNames_injective_of_same hnames hnames' h]

/-- A directory that is asked for alone is the one project of the run. -/
theorem projectsFor_eq_singleton (hwell : t.WellFormed) (c : List Event → Bool)
    {file directory : Path} (hkind : t.isDirectory file ∧ Project.isProjectDirectory t file)
    (hdirectory : t.canonical? file = some directory) :
    projectsFor (.ofTree t c) [file] = [.new directory none] := by
  obtain ⟨names, hcanonical, -, hnames, hproject⟩ :=
    FileTree.canonical?_of_isProjectDirectory hwell hkind.1 hkind.2
  cases hdirectory.symm.trans hcanonical
  have hinput : (t.canonical? file).getD file = .ofNames names := congrArg (·.getD file) hcanonical
  unfold projectsFor inputs
  rw [List.map_singleton]
  change Project.ofInputs t [(t.canonical? file).getD file] = _
  rw [hinput]
  exact Project.ofInputs_singleton hnames hproject

/-- Nothing leaks between projects or runs.  In a session of built-in
detectors that was used over a tree in any way, a run over directories that
each hold a project reports in each of them, up to the text shown for files,
what a new session reports for this directory alone. -/
theorem perm_filter_analyze_analyze (hwell : t.WellFormed)
    (hreached : Reached t (new builtIn user selection options) s) (hcanceled : s.canceled = false)
    (hfiles : ∀ file ∈ files, t.isDirectory file ∧ Project.isProjectDirectory t file) :
    ∀ file ∈ files, ∃ directory, t.canonical? file = some directory
      ∧ (((s.analyze (.ofTree t fun _ => false) files none).1.warnings.filter
            (·.projectDirectory == some directory)).map Warning.erasePath).Perm
          (((new builtIn user selection options).analyze (.ofTree t fun _ => false) [file]
            none).1.warnings.map Warning.erasePath) := by
  have hfresh := alike_of_nil (s := new builtIn user selection options) t rfl
  have hrun : (s.analyze (.ofTree t fun _ => false) files none).1
      = ((new builtIn user selection options).analyze (.ofTree t fun _ => false) files none).1 :=
    (hreached.alike hfresh).analyze_eq hfresh rfl hcanceled files none
  have hend : ∀ files, ((new builtIn user selection options).analyze (.ofTree t fun _ => false)
      files none).1.canceled = false :=
    fun _ => canceled_analyze_builtIn rfl (fun _ => rfl) rfl
  intro file hfile
  obtain ⟨names, hcanonical, -⟩ := FileTree.canonical?_of_isProjectDirectory hwell
    (hfiles file hfile).1 (hfiles file hfile).2
  have hmember := mem_projectsFor hwell (fun _ => false) hfiles hfile hcanonical
  have hsingle := projectsFor_eq_singleton hwell (fun _ => false) (hfiles file hfile) hcanonical
  refine ⟨.ofNames names, hcanonical, ?_⟩
  rw [hrun]
  refine ((perm_filter_analyze (hend files) hmember).map _).trans ?_
  rw [warnings_analyze (hend [file]), hsingle, List.flatMap_singleton]
  -- the two jobs differ in how paths are shown
  have hfound := Run.Job.map_erasePath_found
    ((new builtIn user selection options).jobFor (.ofTree t fun _ => false) none
      ((new builtIn user selection options).pathsFor (.ofTree t fun _ => false) [file])
      (.new (.ofNames names) none))
    ((new builtIn user selection options).pathsFor (.ofTree t fun _ => false) files)
  exact (List.Perm.of_eq hfound).trans ((List.mergeSort_perm _ _).map _).symm

/-- Two projects side by side. -/
def twoProjects : FileTree :=
  { here := ["ROOT"]
    entries :=
      [(["ROOT"], .directory),
        (["ROOT", "one"], .directory),
        (["ROOT", "one", "AndroidManifest.xml"], .file "<manifest/>".toUTF8),
        (["ROOT", "two"], .directory),
        (["ROOT", "two", "AndroidManifest.xml"], .file "<manifest>".toUTF8)] }

/-- A session that has looked at the second of them. -/
def afterTwo : Session :=
  ((new builtIn none ⟨[], [], none⟩ default).analyze (.ofTree twoProjects fun _ => false)
    [⟨"/ROOT/two"⟩] none).2

/-- The second project is found again as it was the first time. -/
theorem perm_afterTwo :
    ∃ directory, twoProjects.canonical? ⟨"/ROOT/two/"⟩ = some directory
      ∧ (((afterTwo.analyze (.ofTree twoProjects fun _ => false)
            [⟨"/ROOT/one"⟩, ⟨"/ROOT/two/"⟩] none).1.warnings.filter
            (·.projectDirectory == some directory)).map Warning.erasePath).Perm
          (((new builtIn none ⟨[], [], none⟩ default).analyze
            (.ofTree twoProjects fun _ => false) [⟨"/ROOT/two/"⟩] none).1.warnings.map
              Warning.erasePath) := by
  have hwell : twoProjects.WellFormed :=
    { isName := by decide +kernel
      nodup := by decide +kernel
      parents := by decide +kernel
      here := rfl }
  have hreached : Reached twoProjects (new builtIn none ⟨[], [], none⟩ default) afterTwo :=
    .run .fresh (.ofTree twoProjects fun _ => false) rfl [⟨"/ROOT/two"⟩] none
  have hcanceled : afterTwo.canceled = false := rfl
  have hfiles : ∀ file ∈ [(⟨"/ROOT/one"⟩ : Path), ⟨"/ROOT/two/"⟩],
      twoProjects.isDirectory file ∧ Project.isProjectDirectory twoProjects file := by
    decide +kernel
  exact perm_filter_analyze_analyze hwell hreached hcanceled hfiles ⟨"/ROOT/two/"⟩ (by simp)

end Session

end ResourceLint
