/-
The report in plain text, with colours if they are asked for.
-/
import ResourceLint.PathDisplay
import ResourceLint.Report.Summary
import ResourceLint.Warning

namespace ResourceLint.Report.Text

/-- What ends a style. -/
def reset : String := "\x1b[0m"

/-- The text in a style, which goes on after an end of style inside. -/
def paint (style text : String) : String :=
  style ++ (reset ++ style).intercalate (parts text.toList [] ) ++ reset
where
  /-- The parts of a text between the ends of style in it. -/
  parts : List Char → List Char → List String
    | [], part => [String.ofList part.reverse]
    | '\x1b' :: '[' :: '0' :: 'm' :: rest, part => String.ofList part.reverse :: parts rest []
    | c :: rest, part => parts rest (c :: part)

/-- The text in a style, if colours are asked for. -/
def styled (colored : Bool) (style text : String) : String :=
  if colored then paint style text else text

def severityStyle : Severity → String
  | .error => "\x1b[1;31m"
  | .warning => "\x1b[1;33m"
  | .informational | .ignore => "\x1b[34m"

/-- The line of a further place of a finding. -/
def furtherLine (paths : PathDisplay) (p : Place) : String :=
  let line := (p.line?.map fun n => toString (n + 1) ++ ":").getD ""
  let message := (p.message.map (" " ++ ·)).getD ""
  "    " ++ paths.display p.file ++ ":" ++ line ++ message ++ "\n"

/-- The lines of a finding. -/
def warningText (colored : Bool) (paths : PathDisplay) (w : Warning) : String :=
  let location := match w.path with
    | some path =>
      let line := (w.line.map fun n => toString (n + 1) ++ ":").getD ""
      styled colored "\x1b[1m" (path ++ ":" ++ line) ++ " "
    | none => ""
  location ++ styled colored (severityStyle w.severity) w.severity.description ++ ": "
    ++ w.message ++ " " ++ styled colored "\x1b[2m" ("[" ++ w.issue.id ++ "]") ++ "\n"
    ++ w.snippet.getD "" ++ String.join (w.furtherPlaces.map (furtherLine paths))

/-- The whole report. -/
def render (colored : Bool) (paths : PathDisplay) (errors warnings : Nat)
    (found : List Warning) : String :=
  String.join (found.map (warningText colored paths)) ++ summary errors warnings ++ "\n"

end ResourceLint.Report.Text
