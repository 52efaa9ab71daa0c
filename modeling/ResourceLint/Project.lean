/-
Projects, and how requested paths are divided among them.

A project is a directory that holds a manifest.  A request for such a
directory asks for all of it; a request for a file, or for a directory
inside a project, asks for these files only, in the project that encloses
them.  A resource file without a manifest above it belongs to the
directory that holds its `res` folder.
-/
import ResourceLint.FileTree
import ResourceLint.Scope

namespace ResourceLint

/-- A project directory, and the files of it that were asked for. -/
structure Project where
  directory : Path
  name : String
  /-- `none` when the whole project is checked -/
  subset : Option (List Path)
deriving DecidableEq, Inhabited

namespace Project

/-- A project is called by the last name of its directory. -/
def new (directory : Path) (subset : Option (List Path)) : Project :=
  { directory, name := directory.fileName?.getD directory.text, subset }

/-- Whether a directory holds a project. -/
def isProjectDirectory (t : FileTree) (directory : Path) : Bool :=
  t.isFile (directory.child manifestName)

def manifest (p : Project) : Path := p.directory.child manifestName

def resources (p : Project) : Path := p.directory.child resourcesName

def proguardFile (p : Project) : Path := p.directory.child proguardName

/-- Whether a file is among those to check. -/
def includes (p : Project) (file : Path) : Bool :=
  match p.subset with
  | some files => files.any (·.same file)
  | none => true

/-- The scope that the request implies. -/
def inferScope (p : Project) : Scope :=
  match p.subset with
  | none => .all
  | some files => files.foldl (fun scope file => scope.union (.infer file false)) .empty

/-- Adds a file to those asked for; a whole project has it already. -/
def addFile (p : Project) (file : Path) : Project :=
  match p.subset with
  | some files => if files.any (·.same file) then p else { p with subset := some (files ++ [file]) }
  | none => p

/-- The nearest directory above a path that holds a project. -/
def enclosing? (t : FileTree) (path : Path) : Option Path :=
  let above := path.ancestors.drop 1
  match above.find? (isProjectDirectory t) with
  | some directory => some directory
  | none => (above.find? fun d => d.fileName? == some resourcesName).bind Path.parent?

/-- Changes the project with this directory, which is added at the end
where it is not among the projects. -/
def update (directory : Path) (subset : Option (List Path)) (change : Project → Project) :
    List Project → List Project
  | [] => [change (new directory subset)]
  | p :: more =>
    if p.directory.same directory then change p :: more
    else p :: update directory subset change more

/-- Asks for all of a project. -/
def requestWhole (directory : Path) (projects : List Project) : List Project :=
  update directory none (fun p => { p with subset := none }) projects

/-- Asks for some files of a project. -/
def requestFiles (directory : Path) (files : List Path) (projects : List Project) : List Project :=
  update directory (some []) (files.foldl addFile) projects

/-- Adds what one requested path asks for. -/
def request (t : FileTree) (projects : List Project) (input : Path) : List Project :=
  if t.isDirectory input then
    if isProjectDirectory t input then requestWhole input projects
    else
      match enclosing? t input with
      | some directory => requestFiles directory (t.filesBelow input) projects
      | none =>
        ((t.directoriesBelow input).filter (isProjectDirectory t)).foldl
          (fun projects directory => requestWhole directory projects) projects
  else if t.isFile input then
    match enclosing? t input with
    | some directory => requestFiles directory [input] projects
    | none => projects
  else projects

/-- The projects of some requested paths, in the order they come up. -/
def ofInputs (t : FileTree) (inputs : List Path) : List Project :=
  inputs.foldl (request t) []

end Project

end ResourceLint
