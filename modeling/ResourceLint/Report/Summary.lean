/-
How many findings there are, in words.
-/
namespace ResourceLint.Report

/-- A count with its noun. -/
def plural (count : Nat) (noun : String) : String :=
  if count = 1 then toString count ++ " " ++ noun else toString count ++ " " ++ noun ++ "s"

/-- What a report ends with. -/
def summary (errors warnings : Nat) : String :=
  if errors = 0 ∧ warnings = 0 then "No issues found."
  else plural errors "error" ++ ", " ++ plural warnings "warning"

end ResourceLint.Report
