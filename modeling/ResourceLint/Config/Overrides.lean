/-
Severities that replace the built-in ones.

Two texts hold them: a list `Id=SEVERITY,…` and a list `Id,…` of issues
that are switched off.  `Overrides.parse` reads the pair and skips entries
that say nothing; `severityText` and `disabledText` write it, in the order
of the ids.
-/
import ResourceLint.Assoc
import ResourceLint.Severity
import ResourceLint.Text.Slice

namespace ResourceLint

/-- Severities by issue id, and the ids that are switched off. -/
structure Overrides where
  severities : List (String × Severity)
  disabled : List String
deriving DecidableEq, Inhabited

namespace Overrides

def empty : Overrides := ⟨[], []⟩

/-- The parts between commas that are not blank, trimmed. -/
def entries (s : String) : List String :=
  ((Text.split ',' s).map Text.trimmed).filter (· != "")

/-- The id and the severity that an entry gives. -/
def parseEntry? (entry : String) : Option (String × Severity) :=
  match Text.splitOnce? '=' entry with
  | some (id, name) => (Severity.ofString? name).map (Text.trimmed id, ·)
  | none => none

/-- Reads the two texts; of two entries for an id the later counts. -/
def parse (severities disabled : String) : Overrides :=
  { severities := ((entries severities).filterMap parseEntry?).foldl
      (fun all (id, severity) => Assoc.insert compare id severity all) []
    disabled := Assoc.keySet compare (entries disabled) }

/-- The severity given to an issue; being switched off comes first. -/
def severity? (o : Overrides) (id : String) : Option Severity :=
  if o.disabled.contains id then some .ignore else o.severities.lookup id

/-- Gives an issue a severity and switches it on. -/
def set (o : Overrides) (id : String) (severity : Severity) : Overrides :=
  { severities := Assoc.insert compare id severity o.severities
    disabled := o.disabled.filter (· != id) }

/-- Switches an issue off. -/
def disable (o : Overrides) (id : String) : Overrides :=
  { o with disabled := Assoc.insertKey compare id o.disabled }

def severityText (o : Overrides) : String :=
  ",".intercalate (o.severities.map fun (id, severity) => id ++ "=" ++ severity.name)

def disabledText (o : Overrides) : String := ",".intercalate o.disabled

end Overrides

end ResourceLint
