/-
How serious a finding is.

The four severities are ordered from the one that is never reported to the
one that makes a run fail.
-/
import ResourceLint.Text.Blank
import ResourceLint.Text.Lowercase

namespace ResourceLint

/-- How serious a finding is. -/
inductive Severity
  | ignore
  | informational
  | warning
  | error
deriving DecidableEq, Inhabited

namespace Severity

/-- The place in the order, from the least serious on. -/
def rank : Severity → Nat
  | .ignore => 0
  | .informational => 1
  | .warning => 2
  | .error => 3

/-- The more serious of two. -/
def max (a b : Severity) : Severity :=
  if a.rank ≤ b.rank then b else a

/-- The name used where severities are stored. -/
def name : Severity → String
  | .ignore => "IGNORE"
  | .informational => "INFORMATIONAL"
  | .warning => "WARNING"
  | .error => "ERROR"

/-- The word used in reports. -/
def description : Severity → String
  | .ignore => "Ignore"
  | .informational => "Information"
  | .warning => "Warning"
  | .error => "Error"

/-- Reads a severity; blanks around it and letter case do not matter. -/
def ofString? (s : String) : Option Severity :=
  match Text.lowercase (Text.trimmed s) with
  | "ignore" => some .ignore
  | "informational" | "information" | "info" => some .informational
  | "warning" | "warn" => some .warning
  | "error" | "fatal" => some .error
  | _ => none

/-- What is said of a text that is no severity. -/
def unknown (s : String) : String := "Unknown severity: " ++ s

end Severity

end ResourceLint
