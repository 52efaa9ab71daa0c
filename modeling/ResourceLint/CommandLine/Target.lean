/-
The reports that a command line asks for.

All report files are made before anything is checked, so that a report
that cannot be written is known early.  They are written in the order they
were made; what is written to a file that has been replaced since by a
page of another report is lost.
-/
import ResourceLint.CommandLine.Options
import ResourceLint.Report.Pages
import ResourceLint.Report.Xml

namespace ResourceLint.CommandLine

/-- A report that goes to files. -/
inductive Target
  | page (path : Path) (simple : Bool)
  /-- a page for every project, and an index -/
  | pages (directory : Path)
  | xml (path : Path)
deriving DecidableEq

namespace Target

/-- The target of the option for pages: a directory for all projects, or
one file. -/
def ofHtml (t : FileTree) (path : Path) : Target :=
  if t.isDirectory path || Text.endsWith "/" path.text then .pages path else .page path false

/-- The reports that the options ask for, in the order they are made. -/
def ofOptions (t : FileTree) (o : Options) : List Target :=
  (o.html.map (ofHtml t)).toList ++ (o.simpleHtml.map (.page · true)).toList
    ++ (o.xml.map .xml).toList

/-- The file that is made before the check; pages are made later. -/
def file? : Target → Option Path
  | .page path _ => some path
  | .pages _ => none
  | .xml path => some path

/-- Where the report is found, as it is announced. -/
def announced : Target → Path
  | .page path _ => path
  | .pages directory => Report.indexPath directory
  | .xml path => path

/-- Makes the file of a report. -/
def prepare (target : Target) : ExceptT Report.WriteFault (StateM FileTree) Unit :=
  target.file?.forM Report.openOutput

end Target

/-- What reports share. -/
structure ReportSettings where
  urls : UrlMap
  time : String

namespace ReportSettings

/-- How the pages of all projects are made. -/
def pages (s : ReportSettings) (result : RunResult) (directory : Path) : Report.PagesOptions :=
  { directory, projects := result.projects, simple := false, urls := s.urls, paths := result.paths
    time := s.time }

/-- How a page for everything is made. -/
def page (s : ReportSettings) (result : RunResult) (simple : Bool) : Report.PageOptions :=
  { title := "Lint Report", simple, urls := s.urls, paths := result.paths, time := s.time }

end ReportSettings

namespace Target

/-- The files that writing a report replaces. -/
def replaced (target : Target) (s : ReportSettings) (result : RunResult) : List Path :=
  match target with
  | .pages directory => Report.pagePaths (s.pages result directory) result.warnings
  | .page .. | .xml _ => []

/-- Writes to the file of a report, unless it has been replaced. -/
def writeUnless (lost : Bool) (path : Path) (text : String) :
    ExceptT Report.WriteFault (StateM FileTree) Unit :=
  if lost then pure () else Report.writeOutput path text

/-- Writes a report, given the paths of the files that were replaced. -/
def write (s : ReportSettings) (result : RunResult) (gone : List Path) (target : Target) :
    ExceptT Report.WriteFault (StateM FileTree) Unit := do
  let t ← get
  let lost := target.file?.any fun path =>
    gone.any fun other => (t.canonical? other).isSome && t.canonical? other = t.canonical? path
  match target with
  | .page path simple =>
    let (text, t) := Report.pageFor (s.page result simple) t path result.errorCount
      result.warningCount result.warnings
    set t
    writeUnless lost path text
  | .pages directory => Report.writePages (s.pages result directory) result.warnings
  | .xml path => writeUnless lost path (Report.Xml.render result.warnings)

/-- Writes all reports. -/
def writeAll (s : ReportSettings) (result : RunResult) (targets : List Target) :
    ExceptT Report.WriteFault (StateM FileTree) Unit :=
  targets.forM (write s result (targets.flatMap (·.replaced s result)))

end Target

end ResourceLint.CommandLine
