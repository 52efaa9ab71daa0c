/-
The program behind the command line: from the words of a command line and
the files around to what is printed, what is written, and the code the
program ends with.

The words are looked at in a fixed order: requests about issues come
first, then the files, the selection of issues, the map of addresses, the
configuration, the patterns and the reports.  The first that is at fault
ends the program before anything is checked.
-/
import ResourceLint.Check.BuiltIn
import ResourceLint.CommandLine.Listing
import ResourceLint.CommandLine.Target
import ResourceLint.Config.Flags
import ResourceLint.PathPattern

namespace ResourceLint.CommandLine

/-- The name of the program. -/
def programName : String := "droid-lint"

def programVersion : String := "0.1.0"

/-- How a program ends, besides the outcome of a check. -/
inductive Ending
  | done
  /-- nothing was asked for -/
  | usage
  /-- a file is missing, or a report cannot be written -/
  | fileTrouble
  | help
  | invalidArguments
deriving DecidableEq

/-- The code of an ending. -/
def Ending.code : Ending → Int
  | .done => 0
  | .usage => -2
  | .fileTrouble => -3
  | .help => -4
  | .invalidArguments => -5

/-- What surrounds a run of the program. -/
structure Surroundings where
  tree : FileTree
  /-- the directory of the user, where it is known -/
  home : Option Path
  /-- whether icons of low density are asked for -/
  lowDensity : Bool
  /-- whether the output is shown in colours -/
  colored : Bool
  /-- when the program is run -/
  time : String

/-- What a run of the program leaves. -/
structure Outcome where
  code : Int
  output : String
  errors : String
  tree : FileTree

/-- Whether the word for low densities asks for them. -/
def asksForLowDensity (word : Option String) : Bool := word.any (asciiLower · == "true")

-- =============================================================== endings

namespace Surroundings

/-- The word before what went wrong. -/
def errorLine (s : Surroundings) (message : String) : String :=
  line (Report.Text.styled s.colored "\x1b[1;31m" "error" ++ ": " ++ message)

/-- Ends with something said, and with the files as they are. -/
def say (s : Surroundings) (output : String) : Outcome :=
  { code := Ending.done.code, output, errors := "", tree := s.tree }

/-- Ends with what went wrong. -/
def refuse (s : Surroundings) (ending : Ending) (message : String) : Outcome :=
  { code := ending.code, output := "", errors := s.errorLine message, tree := s.tree }

end Surroundings

/-- How the program is used. -/
def usageLine : String := line ("Usage: " ++ programName ++ " [OPTIONS] <FILES>...")

/-- The options with what they do. -/
def optionLines : List (String × String) :=
  [("--enable <IDS>", "Enable the given issues or categories"),
    ("--disable <IDS>", "Disable the given issues or categories"),
    ("--check <IDS>", "Only check the given issues or categories"),
    ("--list [<CATEGORY>]", "List the ids of issues"),
    ("--show [<IDS>...]", "Explain the given issues, or all"),
    ("--html <FILE>", "Write a page, or one for every project into a directory"),
    ("--simplehtml <FILE>", "Write a page without scripts and images"),
    ("--xml <FILE>", "Write an XML report"),
    ("--url <MAP>", "Replace the beginnings of paths in pages by addresses"),
    ("--fullpath", "Show absolute paths"),
    ("--nolines", "Leave out source lines"),
    ("--quiet", "Leave out progress"),
    ("--config <FILE>", "Take severities from a file"),
    ("-v, --verbose", "Say more"),
    ("-h, --help", "Print help"),
    ("-V, --version", "Print the version")]

/-- What is said to who asks for help. -/
def helpText : String :=
  usageLine ++ line "" ++ line "Options:"
    ++ String.join (optionLines.map fun (option, does) =>
      line ("  " ++ Text.padRight 22 option ++ does))

/-- What is said where no file is given. -/
def noFiles (s : Surroundings) (o : Options) : Outcome :=
  { code := (if o.isBare then Ending.usage else Ending.invalidArguments).code
    output := ""
    errors := s.errorLine "No files to analyze" ++ line "" ++ usageLine ++ line ""
      ++ line "For more information, try '--help'"
    tree := s.tree }

/-- Ends where the words give no options. -/
def refusal (s : Surroundings) : Refusal → Outcome
  | .version => s.say (line (programName ++ " " ++ programVersion))
  | .help => { s.say helpText with code := Ending.help.code }
  | .fault => s.refuse .invalidArguments "Invalid arguments"

/-- Ends with the meaning of some issues. -/
def explain (s : Surroundings) (r : Registry) (ids : List String) : Outcome :=
  match requestedIssues r ids with
  | .ok issues => s.say (String.join (issues.map (explanation s.colored)))
  | .error id => s.refuse .invalidArguments ("Unknown issue id \"" ++ id ++ "\"")

-- ================================================================ setting

/-- What is settled before a check. -/
structure Plan where
  selection : Selection
  urls : UrlMap
  user : Option Settings
  files : List Path
deriving DecidableEq

/-- The settings of the user: those of the named file, which has to be
usable, or those found, if they are. -/
def userSettings (s : Surroundings) (o : Options) : Except String (Option Settings) :=
  match o.config with
  | some path =>
    match Settings.load s.tree path with
    | .ok settings => .ok (some settings)
    | .error fault => .error ("Failed to load config " ++ path.text ++ ": " ++ fault.message)
  | none => .ok ((s.home.bind fun home => (Settings.loadUser s.tree home).toOption).join)

/-- The paths that a word stands for; one that matches nothing is a path
itself. -/
def filesOf (t : FileTree) (word : String) : Except String (List Path) :=
  match PathPattern.ofString? word with
  | none => .error ("Invalid pattern '" ++ word ++ "'")
  | some pattern =>
    match pattern.expand t with
    | [] => .ok [⟨word⟩]
    | paths => .ok paths

/-- Settles what the options ask for, or says what is wrong with them. -/
def plan (s : Surroundings) (r : Registry) (o : Options) : Except String Plan := do
  let selection ← (Selection.ofFlags r o.enable o.disable o.check).mapError UnknownName.message
  let urls ← match o.urls with
    | some spec => (UrlMap.parse spec).mapError UrlMap.Malformed.message
    | none => .ok .empty
  let user ← userSettings s o
  let files ← o.files.mapM (filesOf s.tree)
  .ok { selection, urls, user, files := files.flatten }

-- ================================================================= checks

/-- The dots that show how many files have been looked at. -/
def progress (o : Options) (result : RunResult) : String :=
  let isFile : Event → Bool
    | .file _ => true
    | _ => false
  let count := (result.events.filter isFile).length
  if o.quiet || count = 0 then "" else line (String.ofList (List.replicate count '.'))

/-- Checks the files, when the report files have been made in the tree. -/
def checkFiles (s : Surroundings) (r : Registry) (o : Options) (p : Plan) (t : FileTree) :
    RunResult :=
  let options : RunOptions :=
    { fullPath := o.fullPath, showLines := !o.noLines, lowDensity := s.lowDensity }
  ((Session.new r p.user p.selection options).analyze (.ofTree t fun _ => false) p.files none).1

/-- Writes the reports on a check, or prints one where no file is asked for. -/
def report (s : Surroundings) (o : Options) (p : Plan) (targets : List Target) (t : FileTree)
    (result : RunResult) : Outcome :=
  let errors := progress o result
  if targets.isEmpty then
    { code := result.exitCode
      output := Report.Text.render s.colored result.paths result.errorCount result.warningCount
        result.warnings
      errors, tree := t }
  else
    match Report.perform t (Target.writeAll ⟨p.urls, s.time⟩ result targets) with
    | (some fault, t) =>
      { code := Ending.fileTrouble.code, output := ""
        errors := errors ++ s.errorLine ("Failed to write report: " ++ fault.message), tree := t }
    | (none, t) =>
      { code := result.exitCode
        output := String.join (targets.map fun target =>
          line ("Wrote report to " ++ target.announced.text))
        errors, tree := t }

/-- Does what a plan says. -/
def carryOut (s : Surroundings) (r : Registry) (o : Options) (p : Plan) : Outcome :=
  match p.files.find? fun file => !s.tree.contains file with
  | some missing => s.refuse .fileTrouble (missing.text ++ " does not exist")
  | none =>
    let targets := Target.ofOptions s.tree o
    match Report.perform s.tree (targets.forM Target.prepare) with
    | (some fault, t) => { s.refuse .fileTrouble fault.message with tree := t }
    | (none, t) => report s o p targets t (checkFiles s r o p t)

/-- Runs the program with its options. -/
def runWith (s : Surroundings) (r : Registry) (o : Options) : Outcome :=
  match o.list, o.explain with
  | some beginning, _ => s.say (listing s.colored r beginning)
  | none, some ids => explain s r ids
  | none, none =>
    if o.files.isEmpty then noFiles s o
    else
      match plan s r o with
      | .error message => s.refuse .invalidArguments message
      | .ok p => carryOut s r o p

/-- Runs the program with the words of a command line. -/
def run (s : Surroundings) (words : List String) : Outcome :=
  match Options.ofWords words with
  | .error refused => refusal s refused
  | .ok options => runWith s .builtIn options

end ResourceLint.CommandLine
