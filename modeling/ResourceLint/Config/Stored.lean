/-
Stored overrides: the two texts, and their reading once it was asked for.

The reading is kept until a text changes.  Whatever has been done, it is
the reading of the two texts that are stored.
-/
import ResourceLint.Config.Overrides

namespace ResourceLint

/-- Stored texts, with their reading if it is at hand. -/
structure Stored where
  severities : String
  disabled : String
  reading : Option Overrides
deriving DecidableEq, Inhabited

namespace Stored

def new (severities disabled : String) : Stored := ⟨severities, disabled, none⟩

/-- What the texts say. -/
def overrides (s : Stored) : Overrides :=
  s.reading.getD (.parse s.severities s.disabled)

/-- The same texts, their reading at hand. -/
def read (s : Stored) : Stored := { s with reading := some s.overrides }

/-- Replaces the text of severities; the reading is dropped if it differs. -/
def setSeverities (s : Stored) (severities : String) : Stored :=
  if s.severities = severities then s else { s with severities, reading := none }

/-- Replaces the text of issues that are off. -/
def setDisabled (s : Stored) (disabled : String) : Stored :=
  if s.disabled = disabled then s else { s with disabled, reading := none }

/-- Gives an issue a severity and writes both texts anew. -/
def set (s : Stored) (id : String) (severity : Severity) : Stored :=
  let overrides :=
    if severity = .ignore then s.overrides.disable id else s.overrides.set id severity
  ⟨overrides.severityText, overrides.disabledText, some overrides⟩

end Stored

end ResourceLint
