/-
What the lists of a command line select.

A list holds ids of issues and names of categories; blank entries say
nothing.  A name that is no id stands for every issue whose category, by
its full name or by its last part, begins with it.
-/
import ResourceLint.Config.Configuration
import ResourceLint.Registry

namespace ResourceLint

/-- A name that is neither an issue nor a category. -/
structure UnknownName where
  name : String
deriving DecidableEq

def UnknownName.message (u : UnknownName) : String :=
  "Invalid id or category \"" ++ u.name ++ "\""

namespace Selection

/-- The ids that a name stands for. -/
def idsOf (r : Registry) (name : String) : Except UnknownName (List String) :=
  if r.isIssueId name then .ok [name]
  else if r.isCategoryName name then
    .ok ((r.issues.filter (·.category.beginsWith name)).map (·.id))
  else .error ⟨name⟩

/-- The entries that say something, trimmed. -/
def names (entries : List String) : List String :=
  (entries.map Text.trimmed).filter (· != "")

/-- The ids that a list stands for, in order and each once. -/
def expand (r : Registry) (entries : List String) : Except UnknownName (List String) := do
  let ids ← (names entries).mapM (idsOf r)
  .ok (Assoc.keySet compare ids.flatten)

/-- Reads the three lists; a list of checks with an entry restricts the run. -/
def ofFlags (r : Registry) (enable disable check : List String) :
    Except UnknownName Selection := do
  let suppressed ← expand r disable
  let enabled ← expand r enable
  let check ← if check.isEmpty then .ok none else (expand r check).map some
  .ok { suppressed, enabled, check }

end Selection

end ResourceLint
