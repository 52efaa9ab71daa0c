/-
Images that a report shows, copied next to it.

The copies go into a folder named after the report.  A file keeps the
address it got first; a name that another file has taken is made free by
underscores in front.
-/
import ResourceLint.FileTree
import ResourceLint.Report.UrlMap
import ResourceLint.Text.Lowercase

namespace ResourceLint

/-- The images of a report. -/
structure Bundle where
  /-- where the copies are -/
  directory : Path
  /-- the folder in the addresses of the copies -/
  folder : String
  /-- the files that were copied, with their addresses -/
  urls : List (Path × String)
  /-- the names that are taken, with the files that took them -/
  names : List (String × Path)
deriving DecidableEq, Inhabited

namespace Bundle

/-- The bundle of a report that is written to a path. -/
def forReport (report : Path) : Bundle :=
  let stem := String.ofList ((report.fileName?.getD "").toList.takeWhile (· != '.'))
  let folder := stem ++ "_files"
  let directory := match report.parent? with
    | some parent => parent.child folder
    | none => ⟨folder⟩
  { directory, folder, urls := [], names := [] }

/-- The address of a file that was copied. -/
def url? (b : Bundle) (file : Path) : Option String :=
  (b.urls.find? fun (known, _) => known.same file).map (·.2)

/-- Whether a file of this name is copied at all. -/
def takes (name : String) : Bool :=
  let lower := Text.lowercase name
  Text.endsWith ".png" lower && !Text.endsWith ".9.png" lower

/-- Whether a name is free for a file. -/
def isFree (b : Bundle) (file : Path) (name : String) : Bool :=
  (b.names.lookup name).all (·.same file)

/-- How many underscores are tried. -/
def mostUnderscores : Nat := 100

/-- The first free name among the name and the names with underscores. -/
def freeName? (b : Bundle) (file : Path) (name : String) : Option String :=
  ((List.range (mostUnderscores + 1)).map fun n =>
    String.ofList (List.replicate n '_') ++ name).find? (b.isFree file)

/-- Copies a file under a name. -/
def store (b : Bundle) (t : FileTree) (file : Path) (name : String) :
    Except FileError String × Bundle × FileTree :=
  match t.makeDirectory b.directory with
  | .error fault => (.error fault, b, t)
  | .ok t =>
    match t.copy file (b.directory.child name) with
    | .error fault => (.error fault, b, t)
    | .ok t =>
      let url := b.folder ++ "/" ++ encodeUrl name
      (.ok url, { b with names := b.names ++ [(name, file)], urls := b.urls ++ [(file, url)] }, t)

/-- Copies a file unless it has been, and gives its address; files that are
not copied have none. -/
def add (b : Bundle) (t : FileTree) (file : Path) :
    Except FileError (Option String) × Bundle × FileTree :=
  match b.url? file, file.fileName?.filter takes with
  | some url, _ => (.ok (some url), b, t)
  | none, none => (.ok none, b, t)
  | none, some name =>
    match b.freeName? file name with
    | none => (.ok none, b, t)
    | some name =>
      let (outcome, b, t) := b.store t file name
      (outcome.map some, b, t)

end Bundle

end ResourceLint
