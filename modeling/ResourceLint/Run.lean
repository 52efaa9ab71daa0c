/-
A run: the projects of the requested paths, the files of each project, and
what the detectors find in them.

A run tells its listener what it is about to do, and after every event the
listener may ask it to end, as a detector may with every answer.  The wish
is looked at before each project, before each file, between the detectors of
a file that is not markup, and before the end of a project; what has been
found until then is kept.

Detectors are to report issues that are known and enabled.  Any other report
is refused: no warning is made of it, and the run keeps it apart.

A session is what outlives a run: the configurations that were read, each
once, and a wish to end that came after the last run was over and so
counts for the next.
-/
import ResourceLint.Config.File
import ResourceLint.PathDisplay
import ResourceLint.Snippet
import ResourceLint.Visitor
import ResourceLint.Warning
import ResourceLint.Xml.Parse

namespace ResourceLint

/-- What a run tells its listener. -/
inductive Event
  | starting
  | project (name : String)
  | file (path : Path)
  /-- what is known of these issues in a file is about to be found anew -/
  | clear (path : Path) (issues : List String)
  | canceled
  | completed
deriving DecidableEq

/-- Where a run takes place. -/
structure Host where
  tree : FileTree
  /-- the text of a file that is to be checked -/
  read : Path → Option String
  /-- whether the listener asks the run to end, given the events so far -/
  cancels : List Event → Bool

/-- A place where files are read as they stand in a tree. -/
def Host.ofTree (tree : FileTree) (cancels : List Event → Bool) : Host :=
  { tree, read := fun path => (tree.readText path).toOption, cancels }

/-- How a run is done. -/
structure RunOptions where
  /-- show paths in full -/
  fullPath : Bool
  /-- add snippets -/
  showLines : Bool
  /-- ask for icons of low density -/
  lowDensity : Bool
deriving DecidableEq, Inhabited

/-- A project that was checked. -/
structure CheckedProject where
  name : String
  directory : Path
deriving DecidableEq, Inhabited

/-- What a run gives. -/
structure RunResult where
  /-- in the order of a report -/
  warnings : List Warning
  errorCount : Nat
  /-- findings that are no errors -/
  warningCount : Nat
  filesChecked : Nat
  canceled : Bool
  paths : PathDisplay
  /-- in the order they were checked -/
  projects : List CheckedProject
  events : List Event
  notes : List String
  /-- reports that no warning was made of -/
  refused : List Finding
  /-- how many events there had been, each time the run was asked to end -/
  asked : List Nat

/-- What outlives a run. -/
structure Session where
  registry : Registry
  user : Option Settings
  selection : Selection
  options : RunOptions
  configurations : List (Path × Configuration)
  /-- whether the next run is to end before it begins -/
  canceled : Bool

namespace RunResult

/-- What there is before a run. -/
def empty : RunResult :=
  { warnings := [], errorCount := 0, warningCount := 0, filesChecked := 0, canceled := false,
    paths := ⟨none, false⟩, projects := [], events := [], notes := [], refused := [], asked := [] }

def hasFatal (r : RunResult) : Bool := 0 < r.errorCount

/-- The code a program ends with. -/
def exitCode (r : RunResult) : Int := if r.hasFatal then -1 else 0

def isClean (r : RunResult) : Bool := r.warnings.isEmpty

end RunResult

namespace Run

/-- How far a run has come. -/
structure Progress where
  canceled : Bool
  events : List Event
  notes : List String
  filesChecked : Nat
  warnings : List Warning
  /-- the texts of the files of the project that were read -/
  sources : List (Path × String)
  /-- the detectors of the project -/
  active : List ActiveDetector
  /-- reports that no warning was made of -/
  refused : List Finding
  /-- how many events there had been, each time the run was asked to end -/
  asked : List Nat

/-- Takes in a detector's wish to end the run. -/
def Progress.ask (p : Progress) : Progress :=
  { p with canceled := true, asked := p.asked ++ [p.events.length] }

/-- Tells the listener of an event, and takes in its wish. -/
def Progress.fire (host : Host) (event : Event) (p : Progress) : Progress :=
  let events := p.events ++ [event]
  let wish := host.cancels events
  { p with
    events, canceled := p.canceled || wish
    asked := if wish then p.asked ++ [events.length] else p.asked }

/-- Goes on, unless the run is to end. -/
def Progress.unlessCanceled (p : Progress) (next : Progress → Progress) : Progress :=
  if p.canceled then p else next p

/-- What stays the same while a project is checked. -/
structure Job where
  host : Host
  registry : Registry
  options : RunOptions
  project : Project
  scope : Scope
  configuration : Configuration
  paths : PathDisplay

namespace Job

/-- Whether an issue is reported at all. -/
def isEnabled (job : Job) (id : String) : Bool :=
  (job.registry.issue? id).any job.configuration.isEnabled

/-- What a call is about that concerns a file. -/
def context (job : Job) (file : Path) (contents : Option String) (folder : Option FolderType) :
    Context :=
  { project := job.project, file, scope := job.scope, contents, folder
    isEnabled := job.isEnabled, tree := job.host.tree, lowDensity := job.options.lowDensity }

/-- What a call is about that concerns the project. -/
def projectContext (job : Job) : Context := job.context job.project.directory none none

-- ============================================================ findings

/-- The text of a file that was read, the last time if there are more. -/
def sourceOf? (sources : List (Path × String)) (file : Path) : Option String :=
  (sources.find? fun (path, _) => path.same file).map (·.2)

/-- The warning for a finding whose issue is known and has a severity. -/
def warningOf? (job : Job) (sources : List (Path × String)) (f : Finding) : Option Warning := do
  let issue ← job.registry.issue? f.issue
  let severity := job.configuration.severity issue
  if severity = .ignore then none
  else
    let contents := sourceOf? sources f.place.file
    let line := f.place.start.map (·.line)
    let column := f.place.start.bind (·.column)
    let snippet := do
      let contents ← contents
      let line ← line
      if job.options.showLines then Snippet.ofText? contents line column else none
    some
      { issue, message := f.message, severity, project := job.project.name
        projectDirectory := some job.project.directory, data := f.data
        file := some f.place.file, path := some (job.paths.display f.place.file)
        line, column, offset := f.place.start.map (·.offset), snippet, contents
        places := f.place :: f.further }

/-- Takes in what a detector emits. -/
def emit (job : Job) (p : Progress) : Emission → Progress
  | .report finding =>
    let made := job.warningOf? p.sources finding
    { p with
      warnings := p.warnings ++ made.toList
      refused := if made.isNone then p.refused ++ [finding] else p.refused }
  | .note text => { p with notes := p.notes ++ [text] }
  | .cancel => p.ask

/-- Makes a call to the detector at a place of the list. -/
def call (job : Job) (context : Context) (p : Progress) (who : Nat) (made : Call) : Progress :=
  match p.active[who]? with
  | none => p
  | some d =>
    let (memory, emissions) := d.detector.react d.memory context made
    emissions.foldl job.emit { p with active := p.active.set who { d with memory } }

/-- Makes calls one after the other. -/
def calls (job : Job) (context : Context) (p : Progress) (made : List (Nat × Call)) : Progress :=
  made.foldl (fun p (who, call) => job.call context p who call) p

/-- Makes the same call to every detector. -/
def callAll (job : Job) (made : Call) (p : Progress) : Progress :=
  job.calls job.projectContext p ((List.range p.active.length).map (·, made))

-- =============================================================== files

/-- The detectors whose scope passes a test, with their places. -/
def candidates (active : List ActiveDetector) (test : Scope → Bool) :
    List (ActiveDetector × Nat) :=
  active.zipIdx.filter fun (d, _) => test d.scope

/-- Announces a file that was read, and keeps its text. -/
def openFile (job : Job) (file : Path) (text : String) (p : Progress) : Progress :=
  let p := p.fire job.host (.file file)
  { p with filesChecked := p.filesChecked + 1, sources := (file, text) :: p.sources }

/-- The finding about a file that cannot be parsed. -/
def parseFinding (file : Path) (e : Xml.ParseError) : Finding :=
  .at { file, start := some e.position, stop := none, message := none } Registry.parserErrorId
    e.message

/-- Reports a file that cannot be parsed, where that is enabled. -/
def reportFault (job : Job) (file : Path) (e : Xml.ParseError) (p : Progress) : Progress :=
  if job.isEnabled Registry.parserErrorId then job.emit p (.report (parseFinding file e)) else p

/-- Checks a file of markup. -/
def checkXml (job : Job) (file : Path) (folder : Option FolderType) (visitor : Visitor)
    (p : Progress) : Progress :=
  p.unlessCanceled fun p =>
    match job.host.read file with
    | none => p
    | some text =>
      let p := job.openFile file text p
      let p :=
        if job.project.subset.isSome then
          p.fire job.host (.clear file (visitor.issueIds p.active))
        else p
      match Xml.Document.parse text with
      | .error e => job.reportFault file e p
      | .ok document =>
        job.calls (job.context file (some text) folder) p (visitor.calls document)

/-- Checks the manifest. -/
def checkManifest (job : Job) (p : Progress) : Progress :=
  let file := job.project.manifest
  if job.project.includes file && job.host.tree.isFile file then
    let visitor := Visitor.new (candidates p.active (·.manifest)) none
    job.checkXml file none visitor p
  else p

/-- The folder type of the folder that a file is in. -/
def folderOf? (file : Path) : Option FolderType :=
  (file.parent?.bind Path.fileName?).bind FolderType.ofFolderName?

/-- The XML files in the resource folders of a project, whether they were
asked for or not. -/
def allResourceFiles (tree : FileTree) (project : Project) : List Path :=
  ((tree.walk project.resources).filter fun (path, depth, entry) =>
    depth == 2 && entry.isFile && hasExtension (path.fileName?.getD "") "xml").map (·.1)

/-- The resource files to check, by folder and name, each with its type. -/
def resourceFiles (tree : FileTree) (project : Project) : List (Path × FolderType) :=
  let files := match project.subset with
    | some files =>
      (files.filter isResourceFile).mergeSort Path.le
    | none => allResourceFiles tree project
  files.filterMap fun file => (folderOf? file).map (file, ·)

/-- Checks the resource files. -/
def checkResources (job : Job) (p : Progress) : Progress :=
  let candidates := candidates p.active fun s => s.resourceFile || s.allResourceFiles
  if candidates.isEmpty then p
  else
    (resourceFiles job.host.tree job.project).foldl
      (fun p (file, folder) =>
        let visitor := Visitor.new candidates (some folder)
        if visitor.isEmpty then p else job.checkXml file (some folder) visitor p) p

/-- Checks the file of shrinking rules. -/
def checkProguard (job : Job) (p : Progress) : Progress :=
  let file := job.project.proguardFile
  let candidates :=
    (candidates p.active (·.proguard)).filter fun (d, _) => d.detector.appliesToFile file
  if !job.project.includes file || !job.host.tree.isFile file || candidates.isEmpty then p
  else
    match job.host.read file with
    | none => p
    | some text =>
      candidates.foldl
        (fun p (_, who) =>
          p.unlessCanceled fun p => job.call (job.context file (some text) none) p who .plainFile)
        (job.openFile file text p)

/-- Checks a project, whose detectors are ready. -/
def check (job : Job) (p : Progress) : Progress :=
  let p := job.callAll .beforeProject p
  let p := if job.scope.manifest then p.unlessCanceled job.checkManifest else p
  let p :=
    if job.scope.resourceFile || job.scope.allResourceFiles then
      p.unlessCanceled job.checkResources
    else p
  let p := if job.scope.proguard then p.unlessCanceled job.checkProguard else p
  p.unlessCanceled (job.callAll .afterProject)

end Job

end Run

namespace Session

/-- A session in which nothing has been done. -/
def new (registry : Registry) (user : Option Settings) (selection : Selection)
    (options : RunOptions) : Session :=
  { registry, user, selection, options, configurations := [], canceled := false }

/-- The configuration of a project directory, read where it is not known. -/
def configuration (s : Session) (tree : FileTree) (directory : Path) : Configuration × Session :=
  match s.configurations.find? fun (known, _) => known.same directory with
  | some (_, configuration) => (configuration, s)
  | none =>
    let configuration := Configuration.ofDirectory tree s.user s.selection directory
    (configuration, { s with configurations := (directory, configuration) :: s.configurations })

/-- A session and the run that is going on in it. -/
structure Going where
  session : Session
  progress : Run.Progress
  projects : List CheckedProject

/-- Checks one project, unless the run is to end. -/
def checkProject (host : Host) (scope : Option Scope) (paths : PathDisplay) (g : Going)
    (project : Project) : Going :=
  if g.progress.canceled then g
  else
    let s := g.session
    let scope := scope.getD project.inferScope
    let p := g.progress.fire host (.project project.name)
    let (configuration, s) := s.configuration host.tree project.directory
    let job : Run.Job :=
      { host, registry := s.registry, options := s.options, project, scope, configuration, paths }
    let active := s.registry.activate configuration.isEnabled scope
    { session := s
      progress := job.check { p with sources := [], active }
      projects := g.projects ++ [⟨project.name, project.directory⟩] }

/-- Runs over some paths.  Without a scope, each project's own follows from
what was asked for. -/
def analyze (s : Session) (host : Host) (files : List Path) (scope : Option Scope) :
    RunResult × Session :=
  let begun : Run.Progress :=
    { canceled := s.canceled, events := [], notes := [], filesChecked := 0, warnings := [],
      sources := [], active := [], refused := [], asked := if s.canceled then [0] else [] }
  let begun := begun.fire host .starting
  let inputs := files.map fun file => (host.tree.canonical? file).getD file
  let paths := if s.options.fullPath then .asWritten else .new inputs false
  let g := (Project.ofInputs host.tree inputs).foldl (checkProject host scope paths)
    { session := s, progress := begun, projects := [] }
  let canceled := g.progress.canceled
  let ended := { g.progress with canceled := false }.fire host
    (if canceled then .canceled else .completed)
  let warnings := Warning.sort g.progress.warnings
  let result : RunResult :=
    { warnings
      errorCount := (warnings.filter (·.isError)).length
      warningCount := (warnings.filter (·.isWarning)).length
      filesChecked := g.progress.filesChecked, canceled, paths, projects := g.projects
      events := ended.events, notes := g.progress.notes, refused := g.progress.refused
      asked := g.progress.asked }
  (result, { g.session with canceled := ended.canceled })

end Session

end ResourceLint
