/-
What is said about the issues themselves: the list of their ids, and what
each of them means.
-/
import ResourceLint.Registry
import ResourceLint.Report.Text
import ResourceLint.Text.Wrap

namespace ResourceLint.CommandLine

/-- The style of headings. -/
def bold : String := "\x1b[1m"

/-- The column that explanations are broken at. -/
def explanationWidth : Nat := 70

/-- A line of text. -/
def line (s : String) : String := s ++ "\n"

/-- The issues of a category, under its name. -/
def categoryListing (colored : Bool) (r : Registry) (c : Category) : String :=
  let heading := Report.Text.styled colored bold ("\"" ++ c.fullName ++ "\":")
  let issues := (r.issues.filter (·.category = c)).map fun issue =>
    line ("    \"" ++ issue.id ++ "\": " ++ issue.summary)
  line heading ++ String.join issues ++ line ""

/-- The issues by category, of the categories that begin with a text. -/
def listing (colored : Bool) (r : Registry) (beginning : String) : String :=
  let categories := r.categories.filter fun c => beginning.isEmpty || c.beginsWith beginning
  String.join (categories.map (categoryListing colored r))

/-- What an issue means. -/
def explanation (colored : Bool) (issue : Issue) : String :=
  let rule := String.ofList (List.replicate issue.id.utf8ByteSize '-')
  let note :=
    if issue.enabledByDefault then ""
    else
      line "NOTE: This issue is disabled by default!"
        ++ line ("You can enable it by adding --enable " ++ issue.id)
  let moreInfo := match issue.moreInfo with
    | some link => line ("More information: " ++ link)
    | none => ""
  line (Report.Text.styled colored bold issue.id)
    ++ line rule
    ++ line ("Summary: " ++ issue.summary)
    ++ line ("Priority: " ++ toString issue.priority ++ " / 10")
    ++ line ("Severity: " ++ issue.severity.description)
    ++ line ("Category: " ++ issue.category.fullName)
    ++ note
    ++ line ""
    ++ line (Text.wrap explanationWidth issue.explanation)
    ++ moreInfo
    ++ line ""

/-- The issues under some ids, or all where there is none; or the first id
that is unknown. -/
def requestedIssues (r : Registry) (ids : List String) : Except String (List Issue) :=
  if ids.isEmpty then .ok r.issues
  else ids.mapM fun id => (r.issue? id).elim (.error id) .ok

end ResourceLint.CommandLine
