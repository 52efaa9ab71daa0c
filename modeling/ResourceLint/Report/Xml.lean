/-
The report as an XML document: one element for each finding.
-/
import ResourceLint.Warning
import ResourceLint.Xml.Entity

namespace ResourceLint.Report.Xml

/-- The attributes of a finding, in order. -/
def attributesOf (w : Warning) : List (String × String) :=
  [("id", w.issue.id), ("severity", w.severity.description), ("message", w.message),
      ("category", w.issue.category.fullName), ("priority", toString w.issue.priority),
      ("summary", w.issue.summary)]
    ++ (w.path.map fun path => ("file", path)).toList
    ++ (w.line.map fun line => ("line", toString (line + 1))).toList
    ++ (w.column.map fun column => ("column", toString (column + 1))).toList

/-- An attribute on a line of its own. -/
def attributeText (a : String × String) : String :=
  "\n        " ++ a.1 ++ "=\"" ++ String.ofList (ResourceLint.Xml.escape a.2.toList) ++ "\""

/-- The element of a finding. -/
def warningText (w : Warning) : String :=
  "    <issue" ++ String.join ((attributesOf w).map attributeText) ++ " />\n"

/-- The whole report. -/
def render (found : List Warning) : String :=
  "<?xml version=\"1.0\" encoding=\"UTF-8\"?>\n<issues format=\"1\">\n"
    ++ String.join (found.map warningText) ++ "</issues>\n"

end ResourceLint.Report.Xml
