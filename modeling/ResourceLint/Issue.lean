/-
Issues: the kinds of problems that can be found.
-/
import ResourceLint.Category
import ResourceLint.Scope
import ResourceLint.Severity

namespace ResourceLint

/-- A kind of problem. -/
structure Issue where
  id : String
  /-- one line that says what is looked for -/
  summary : String
  explanation : String
  category : Category
  /-- from 1, the least important, to 10 -/
  priority : Nat
  /-- the severity where nothing else is said -/
  severity : Severity
  /-- the files that have to be seen to find it -/
  scope : Scope
  moreInfo : Option String
  enabledByDefault : Bool
deriving DecidableEq, Inhabited

namespace Issue

/-- An issue that is enabled by default; the priority is brought into range. -/
def new (id summary explanation : String) (category : Category) (priority : Nat)
    (severity : Severity) (scope : Scope) : Issue :=
  { id, summary, explanation, category, priority := Nat.min 10 (Nat.max 1 priority), severity,
    scope, moreInfo := none, enabledByDefault := true }

def withMoreInfo (issue : Issue) (link : String) : Issue := { issue with moreInfo := some link }

def disabledByDefault (issue : Issue) : Issue := { issue with enabledByDefault := false }

/-- Issues are listed by category, then the more important first, then by id. -/
def compare (a b : Issue) : Ordering :=
  (Ord.compare a.category.fullName b.category.fullName).then
    ((Ord.compare b.priority a.priority).then (Ord.compare a.id b.id))

end Issue

end ResourceLint
