/-
A page for every project, and an index of the pages.

Projects are told apart by their directories and come in the order of
these.  A page is named after its project; a name that is taken, in any
case of its letters, gets a number.
-/
import ResourceLint.Assoc
import ResourceLint.Report.Page
import ResourceLint.Report.Writing
import ResourceLint.Run

namespace ResourceLint.Report

/-- A project with the findings in it. -/
structure ProjectFindings where
  project : CheckedProject
  warnings : List Warning

/-- The directory that a finding is filed under. -/
def directoryOf (w : Warning) : Path := w.projectDirectory.getD ⟨w.project⟩

/-- Adds a finding to its project, which may be new. -/
def file (all : List (Path × ProjectFindings)) (w : Warning) : List (Path × ProjectFindings) :=
  let directory := directoryOf w
  let known := (Assoc.lookup? Path.compare directory all).getD ⟨⟨w.project, directory⟩, []⟩
  Assoc.insert Path.compare directory { known with warnings := known.warnings ++ [w] } all

/-- The findings by project, the projects by directory. -/
def byProject (projects : List CheckedProject) (found : List Warning) : List ProjectFindings :=
  let start := projects.foldl
    (fun all p => Assoc.insert Path.compare p.directory ⟨p, []⟩ all) []
  (found.foldl file start).map (·.2)

-- =============================================================== names

/-- The name of a project without what separates paths. -/
def pageBase (name : String) : String :=
  if name.isEmpty then "project"
  else
    String.ofList (name.toList.map fun c => if c == '/' || c == '\\' || c == ':' then '_' else c)

/-- The first name that is not taken among the base and the base with a
number, from 2 on. -/
def freeStem (base : String) (taken : List String) : String :=
  let candidates := base :: (List.range (taken.length + 1)).map fun n =>
    base ++ "_" ++ toString (n + 2)
  (candidates.find? fun stem => !taken.contains (Text.lowercase stem)).getD base

/-- The names of pages, in order; names are taken in lower case. -/
def stems (taken : List String) : List String → List String
  | [] => []
  | name :: more =>
    let stem := freeStem (pageBase name) taken
    stem :: stems (Text.lowercase stem :: taken) more

/-- The name that no page has. -/
def indexStem : String := "index"

-- =============================================================== index

/-- A row of the index. -/
structure ProjectSummary where
  name : String
  directory : Path
  file : String
  errors : Nat
  warnings : Nat
deriving DecidableEq

namespace ProjectSummary

/-- The projects with the most errors come first, then those with the most
warnings, then by name and page. -/
def compare (a b : ProjectSummary) : Ordering :=
  (Ord.compare b.errors a.errors).then <|
    (Ord.compare b.warnings a.warnings).then <|
      (Ord.compare a.name b.name).then (Ord.compare a.file b.file)

def of (findings : ProjectFindings) (stem : String) : ProjectSummary :=
  let errors := (findings.warnings.filter (·.isError)).length
  { name := findings.project.name, directory := findings.project.directory, file := stem ++ ".html"
    errors, warnings := findings.warnings.length - errors }

end ProjectSummary

open Html

/-- The row of a project. -/
def indexRow (s : ProjectSummary) : List Html :=
  [element "tr" []
      [element "td" []
          [element "a" [attr "href" s.file, attr "title" s.directory.text] [text s.name]],
        classed "td" "count" (toString s.errors), classed "td" "count" (toString s.warnings)],
    lineEnd]

/-- The index. -/
def index (time : String) (summaries : List ProjectSummary) : String :=
  let sorted := summaries.mergeSort fun a b => ProjectSummary.compare a b != .gt
  let headings :=
    element "tr" []
      [Html.simple "th" "Project", Html.simple "th" "Errors", Html.simple "th" "Warnings"]
  let head :=
    element "head" []
      [fixed "\n    ", void "meta" [attr "charset" "UTF-8"] ">", fixed "\n    ",
        Html.simple "title" "Lint Report", fixed "\n    ",
        element "style" [] [fixed (joinLines indexStyleLines ++ "    ")], lineEnd]
  let table :=
    element "table" []
      ([fixed "\n        ", headings, lineEnd] ++ sorted.flatMap indexRow ++ [fixed "    "])
  let body :=
    element "body" []
      [fixed "\n    ", Html.simple "h1" "Lint Report", fixed "\n    ", timestamp time,
        fixed "\n    ", table, lineEnd]
  document [head, lineEnd, body, lineEnd]

-- ============================================================== writing

/-- How pages are made, besides their titles. -/
structure PagesOptions where
  directory : Path
  projects : List CheckedProject
  simple : Bool
  urls : UrlMap
  paths : PathDisplay
  time : String

/-- The projects with the rows of the index for them. -/
def pageRows (options : PagesOptions) (found : List Warning) :
    List (ProjectFindings × ProjectSummary) :=
  let findings := byProject options.projects found
  (findings.zip (stems [indexStem] (findings.map (·.project.name)))).map
    fun (f, stem) => (f, ProjectSummary.of f stem)

/-- Where the index is written. -/
def indexPath (directory : Path) : Path := directory.child (indexStem ++ ".html")

/-- Where the pages are written, the index last. -/
def pagePaths (options : PagesOptions) (found : List Warning) : List Path :=
  (pageRows options found).map (fun (_, row) => options.directory.child row.file)
    ++ [indexPath options.directory]

/-- Writes the page of a project. -/
def writePage (options : PagesOptions) (findings : ProjectFindings) (row : ProjectSummary) :
    ExceptT WriteFault (StateM FileTree) Unit := do
  let path := options.directory.child row.file
  openOutput path
  let page : PageOptions :=
    { title := "Lint Report for " ++ row.name, simple := options.simple, urls := options.urls
      paths := options.paths, time := options.time }
  let (content, t) := pageFor page (← get) path row.errors row.warnings findings.warnings
  set t
  writeOutput path content

/-- Writes all pages, and the index last. -/
def writePages (options : PagesOptions) (found : List Warning) :
    ExceptT WriteFault (StateM FileTree) Unit := do
  change fun t => (t.makeDirectory options.directory).mapError .file
  let rows := pageRows options found
  rows.forM fun (findings, row) => writePage options findings row
  let path := indexPath options.directory
  openOutput path
  writeOutput path (index options.time (rows.map (·.2)))

end ResourceLint.Report
