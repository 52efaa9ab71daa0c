/-
Which severity an issue has.

A configuration is a stack of layers over the built-in severities: stored
overrides, where those of a project stand on those of the user, and on top
what was selected for one run.
-/
import ResourceLint.Config.Overrides
import ResourceLint.Issue

namespace ResourceLint

/-- What was selected for one run, by issue id. -/
structure Selection where
  suppressed : List String
  enabled : List String
  /-- the only issues to look for, if the run is restricted -/
  check : Option (List String)
deriving DecidableEq, Inhabited

/-- Where severities come from. -/
inductive Configuration
  | builtIn
  | overridden (overrides : Overrides) (parent : Configuration)
  | selected (selection : Selection) (parent : Configuration)
deriving DecidableEq, Inhabited

/-- The built-in severity of an issue; one that is off has none. -/
def Issue.builtInSeverity (issue : Issue) : Severity :=
  if issue.enabledByDefault then issue.severity else .ignore

/-- The severity of an issue that was asked for by name. -/
def Issue.requestedSeverity (issue : Issue) : Severity :=
  if issue.severity = .ignore then .warning else issue.severity

/-- The severity of an issue under a selection, given the one beneath.
Suppression wins; then a restriction; and what was asked for is reported. -/
def Selection.severity (s : Selection) (issue : Issue) (beneath : Severity) : Severity :=
  if s.suppressed.contains issue.id then .ignore
  else
    let checked := s.check.map (·.contains issue.id)
    let explicit := s.enabled.contains issue.id || checked == some true
    if checked == some false && !explicit then .ignore
    else if explicit && beneath = .ignore then issue.requestedSeverity
    else beneath

namespace Configuration

/-- The severity of an issue. -/
def severity : Configuration → Issue → Severity
  | .builtIn, issue => issue.builtInSeverity
  | .overridden overrides parent, issue =>
    match overrides.severity? issue.id with
    | some severity => severity
    | none => parent.severity issue
  | .selected selection parent, issue => selection.severity issue (parent.severity issue)

/-- Whether an issue is reported at all. -/
def isEnabled (c : Configuration) (issue : Issue) : Bool := c.severity issue != .ignore

end Configuration

end ResourceLint
