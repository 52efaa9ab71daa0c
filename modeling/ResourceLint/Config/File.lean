/-
Configuration files: what they hold, where they are looked for, and how
they make up the configuration of a project.
-/
import ResourceLint.Config.Configuration
import ResourceLint.Config.Json
import ResourceLint.Config.Yaml
import ResourceLint.FileTree

namespace ResourceLint

/-- The two texts of a configuration file. -/
structure Settings where
  severity : String
  disabled : String
deriving DecidableEq, Inhabited

namespace Settings

/-- Why a configuration file cannot be used. -/
inductive Fault
  | file (fault : FileError)
  | yaml
  | json
  | unknownFormat (extension : String)
  | malformedEntry (entry : String)
  | unknownSeverity (text : String)
deriving DecidableEq

def Fault.message : Fault → String
  | .file fault => "IO error: " ++ fault.message
  | .yaml => "YAML parse error: not a configuration"
  | .json => "JSON parse error: not a configuration"
  | .unknownFormat extension =>
    "Invalid configuration: Unknown config file format: " ++ extension
  | .malformedEntry entry =>
    "Invalid configuration: expected Id=SEVERITY, found \"" ++ entry ++ "\""
  | .unknownSeverity text => "Invalid configuration: " ++ Severity.unknown text

def empty : Settings := ⟨"", ""⟩

/-- The text of a field that is there at most once; empty where it is not. -/
def field? (text? : Config.Data → Option String) (name : String)
    (entries : List (String × Config.Data)) : Option String :=
  match entries.filter (·.1 == name) with
  | [] => some ""
  | [(_, value)] => text? value
  | _ => none

/-- Reads fields; others than the two are passed over. -/
def ofFields? (text? : Config.Data → Option String) (entries : List (Config.Data × Config.Data)) :
    Option Settings := do
  let entries ← entries.mapM fun (key, value) => key.text?.map (·, value)
  let severity ← field? text? "severity" entries
  let disabled ← field? text? "disabled" entries
  some { severity, disabled }

/-- Reads a text of the one format. -/
def ofYaml? (text : String) : Option Settings :=
  match Config.Yaml.parse? text with
  | some none => some empty
  | some (some (.fields entries)) => ofFields? Config.Data.text? entries
  | _ => none

/-- Reads a text of the other format, where a list gives the two texts in
order. -/
def ofJson? (text : String) : Option Settings :=
  match Config.Json.parse? text with
  | some (.fields entries) => ofFields? Config.Data.quotedText? entries
  | some (.list items) =>
    match items.mapM Config.Data.quotedText? with
    | some [] => some empty
    | some [severity] => some { severity, disabled := "" }
    | some [severity, disabled] => some { severity, disabled }
    | _ => none
  | _ => none

/-- Whether an entry of severities says something. -/
def checkEntry (entry : String) : Except Fault Unit :=
  match Text.splitOnce? '=' entry with
  | none => .error (.malformedEntry entry)
  | some (_, name) =>
    if (Severity.ofString? name).isSome then .ok () else .error (.unknownSeverity name)

/-- Whether every entry of severities says something. -/
def validate (s : Settings) : Except Fault Unit :=
  (Overrides.entries s.severity).forM checkEntry

/-- Reads a text in the format that an extension stands for. -/
def ofText (extension text : String) : Except Fault Settings :=
  if extension == "yaml" || extension == "yml" then (ofYaml? text).elim (.error .yaml) .ok
  else if extension == "json" then (ofJson? text).elim (.error .json) .ok
  else .error (.unknownFormat extension)

/-- Loads a configuration file. -/
def load (t : FileTree) (path : Path) : Except Fault Settings := do
  let text ← (t.readText path).mapError .file
  let settings ← ofText (path.extension?.getD "") text
  settings.validate
  .ok settings

/-- The names of configuration files in a project, in order of preference. -/
def projectNames : List String :=
  ["lint.yaml", ".droidlintrc.yaml", ".droidlintrc.yml", ".droidlintrc.json"]

/-- The names of configuration files of a user. -/
def userNames : List String := [".droidlintrc.yaml", ".droidlintrc.yml", ".droidlintrc.json"]

/-- The configuration file of a directory. -/
def findIn? (t : FileTree) (directory : Path) : Option Path :=
  (projectNames.map directory.child).find? t.isFile

/-- The settings of a user, whose directory is given, where there are any. -/
def loadUser (t : FileTree) (home : Path) : Except Fault (Option Settings) :=
  match (userNames.map home.child).find? t.contains with
  | some path => (load t path).map some
  | none => .ok none

/-- The overrides that the settings stand for. -/
def overrides (s : Settings) : Overrides := .parse s.severity s.disabled

end Settings

namespace Configuration

/-- The configuration beneath all projects. -/
def ofUser (user : Option Settings) : Configuration :=
  match user with
  | some settings => .overridden settings.overrides .builtIn
  | none => .builtIn

/-- The configuration of a project directory; a file that cannot be used
counts for nothing. -/
def ofDirectory (t : FileTree) (user : Option Settings) (selection : Selection)
    (directory : Path) : Configuration :=
  let parent := ofUser user
  let stored :=
    match (Settings.findIn? t directory).map (Settings.load t) with
    | some (.ok settings) => .overridden settings.overrides parent
    | _ => parent
  .selected selection stored

end Configuration

end ResourceLint
