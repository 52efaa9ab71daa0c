/-
The table of issues and of the detectors that find them.

A draft collects them: the first issue under an id counts, a detector
serves the issues that it brought in, and the implementation behind an
issue can be exchanged.  The finished registry lists the issues in their
order and makes the detectors that a run needs.
-/
import ResourceLint.Detector

namespace ResourceLint

/-- A detector with the ids of the issues it serves. -/
structure Registration where
  name : String
  issues : List String
  detector : Detector

/-- A detector made for a run. -/
structure ActiveDetector where
  name : String
  /-- what the issues it runs for have to see, together -/
  scope : Scope
  /-- the issues it runs for -/
  issues : List String
  detector : Detector
  memory : Memory

/-- Issues in the order of a report, and detectors as they were registered. -/
structure Registry where
  issues : List Issue
  registrations : List Registration

namespace Registry

/-- The id of the issue for files that cannot be parsed. -/
def parserErrorId : String := "ParserError"

/-- The issue for files that cannot be parsed. -/
def parserError : Issue :=
  .new parserErrorId "Finds files that contain fatal parser errors"
    ("Lint will ignore any files that contain fatal parsing errors. These may contain other "
      ++ "errors, or contain code which affects issues in other files.")
    .correctness 10 .error (.union .resourceFileOnly .manifestOnly)

/-- A registry that is being put together. -/
structure Draft where
  issues : List Issue
  registrations : List Registration

namespace Draft

/-- The draft that holds the issue for parse errors. -/
def new : Draft := ⟨[parserError], []⟩

def knows (d : Draft) (id : String) : Bool := d.issues.any (·.id == id)

/-- Adds an issue, unless its id is taken. -/
def issue (d : Draft) (issue : Issue) : Draft :=
  if d.knows issue.id then d else { d with issues := d.issues ++ [issue] }

/-- Adds issues, and gives the ids of those that were new. -/
def addAll : List Issue → Draft → Draft × List String
  | [], d => (d, [])
  | issue :: more, d =>
    let (rest, ids) := addAll more (d.issue issue)
    (rest, if d.knows issue.id then ids else issue.id :: ids)

/-- Adds a detector with the issues it reports. -/
def detector (d : Draft) (name : String) (issues : List Issue) (detector : Detector) : Draft :=
  let (d, ids) := addAll issues d
  { d with registrations := d.registrations ++ [⟨name, ids, detector⟩] }

/-- Exchanges the detector of the first registration that serves an issue. -/
def exchange (id : String) (detector : Detector) : List Registration → List Registration
  | [] => []
  | r :: more =>
    if r.issues.contains id then { r with detector } :: more
    else r :: exchange id detector more

/-- Exchanges the detector behind an issue, for all issues it serves. -/
def substitute (d : Draft) (id : String) (detector : Detector) : Draft :=
  { d with registrations := exchange id detector d.registrations }

/-- The finished registry. -/
def build (d : Draft) : Registry :=
  { issues := d.issues.mergeSort fun a b => Issue.compare a b != .gt
    registrations := d.registrations }

end Draft

/-- The place of each issue under its id; of two places under one id, the last
comes first. -/
def index (r : Registry) : List (String × Nat) :=
  (r.issues.zipIdx.map fun (issue, place) => (issue.id, place)).reverse

/-- The issue under an id. -/
def issue? (r : Registry) (id : String) : Option Issue :=
  (r.index.lookup id).bind (r.issues[·]?)

def isIssueId (r : Registry) (id : String) : Bool := (r.index.lookup id).isSome

/-- Whether some issue is in a category of this name, or in one inside it. -/
def isCategoryName (r : Registry) (name : String) : Bool :=
  r.issues.any (·.category.isNamed name)

/-- The categories, in the order of their issues, each once. -/
def categories (r : Registry) : List Category :=
  r.issues.foldl (fun all issue =>
    if all.contains issue.category then all else all ++ [issue.category]) []

/-- The issues of a registration that are enabled and need no more than the
scope. -/
def activeIssues (r : Registry) (isEnabled : Issue → Bool) (scope : Scope)
    (registration : Registration) : List Issue :=
  (registration.issues.filterMap r.issue?).filter fun issue =>
    issue.scope.isSubset scope && isEnabled issue

/-- The detector of a registration, where a run needs it. -/
def activate? (r : Registry) (isEnabled : Issue → Bool) (scope : Scope)
    (registration : Registration) : Option ActiveDetector :=
  match r.activeIssues isEnabled scope registration with
  | [] => none
  | issues =>
    some
      { name := registration.name
        scope := issues.foldl (fun all issue => all.union issue.scope) .empty
        issues := issues.map (·.id)
        detector := registration.detector
        memory := .blank }

/-- The detectors for a run over a scope, in the order of registration. -/
def activate (r : Registry) (isEnabled : Issue → Bool) (scope : Scope) : List ActiveDetector :=
  r.registrations.filterMap (r.activate? isEnabled scope)

end Registry

end ResourceLint
