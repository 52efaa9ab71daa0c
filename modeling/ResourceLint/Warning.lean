/-
Findings as they are reported, and their order.

A warning is complete when it is made: it holds the issue, the text shown
for its file, the snippet and all places that belong to it.  Warnings are
listed as the issues are, and those of one issue by path, line, column and
message, where what is missing comes first.
-/
import ResourceLint.Issue
import ResourceLint.Location

namespace ResourceLint

/-- One finding. -/
structure Warning where
  issue : Issue
  message : String
  severity : Severity
  /-- the name of the project it belongs to -/
  project : String
  /-- the directory of that project, since names may repeat -/
  projectDirectory : Option Path
  /-- what the check adds to it -/
  data : Option String
  file : Option Path
  /-- the path as it is shown -/
  path : Option String
  line : Option Nat
  column : Option Nat
  offset : Option Nat
  /-- the lines around the place, with a mark under it -/
  snippet : Option String
  contents : Option String
  /-- the place and those that belong to it, in order -/
  places : List Place
deriving DecidableEq, Inhabited

namespace Warning

def new (issue : Issue) (message : String) (severity : Severity) : Warning :=
  { issue, message, severity, project := "", projectDirectory := none, data := none, file := none,
    path := none, line := none, column := none, offset := none, snippet := none, contents := none,
    places := [] }

def isError (w : Warning) : Bool := w.severity == .error

/-- Whether a finding counts as a warning; those that only inform do. -/
def isWarning (w : Warning) : Bool := w.severity == .warning || w.severity == .informational

/-- The places that belong to the first. -/
def furtherPlaces (w : Warning) : List Place := w.places.drop 1

/-- What is missing comes before what is there. -/
def compareOption {α : Type} [Ord α] : Option α → Option α → Ordering
  | none, none => .eq
  | none, some _ => .lt
  | some _, none => .gt
  | some a, some b => compare a b

/-- The order of a report. -/
def compare (a b : Warning) : Ordering :=
  (Issue.compare a.issue b.issue).then <|
    (compareOption a.path b.path).then <|
      (compareOption a.line b.line).then <|
        (compareOption a.column b.column).then (Ord.compare a.message b.message)

/-- Whether a report may keep `a` before `b`. -/
def le (a b : Warning) : Bool := compare a b != .gt

/-- The warnings in the order of a report; those that the order does not
tell apart stay as they come. -/
def sort (warnings : List Warning) : List Warning := warnings.mergeSort le

-- ============================================================== groups

/-- The warnings of one issue. -/
structure Group where
  issue : Issue
  warnings : List Warning

/-- Adds a warning to the group of its issue, or as a group at the end. -/
def addToGroups (w : Warning) : List Group → List Group
  | [] => [⟨w.issue, [w]⟩]
  | g :: more =>
    if g.issue.id == w.issue.id then { g with warnings := g.warnings ++ [w] } :: more
    else g :: addToGroups w more

/-- The warnings by issue, the issues in the order they first come up. -/
def groupByIssue (warnings : List Warning) : List Group :=
  warnings.foldl (fun groups w => addToGroups w groups) []

end Warning

end ResourceLint
