/-
How the paths of files are shown: in full, or from the directory on that
the requested paths have in common.
-/
import ResourceLint.Path

namespace ResourceLint

/-- A way to show paths. -/
structure PathDisplay where
  /-- the directory that is left out -/
  base : Option Path
  full : Bool
deriving DecidableEq, Inhabited

namespace PathDisplay

/-- What two lists have in common at their start. -/
def commonStart [BEq α] : List α → List α → List α
  | a :: as, b :: bs => if a == b then a :: commonStart as bs else []
  | _, _ => []

/-- The longest path that all begin with, where it has a component. -/
def commonBase? : List Path → Option Path
  | [] => none
  | first :: more =>
    let shared := more.foldl (fun steps p => commonStart steps p.components) first.components
    if shared.isEmpty then none else some (.ofComponents shared)

/-- Shows paths from the directory on that holds all inputs. -/
def new (inputs : List Path) (full : Bool) : PathDisplay :=
  { base := commonBase? (inputs.map fun p => p.parent?.getD .empty), full }

/-- Shows every path as it is. -/
def asWritten : PathDisplay := ⟨none, true⟩

/-- The text shown for a path; the base directory itself is shown as it is. -/
def display (d : PathDisplay) (path : Path) : String :=
  if d.full then path.text
  else
    match d.base.bind fun base => Path.stripBase? base path with
    | some relative => if relative.text.isEmpty then path.text else relative.text
    | none => path.text

end PathDisplay

end ResourceLint
