/-
The command line: takes in the files that a run may look at, runs the
program on them, and carries out what it did to them.

Taken in are the files and directories that the words name, the projects
these lie in, what stands where reports are to be written, and the
settings of the user.
-/
import ResourceLint.CommandLine.Program
import Std.Time.Format

namespace ResourceLint.CommandLine

/-- The text of the absolute path with some names. -/
def absolute (names : List String) : String := (Path.ofNames names).text

/-- The entries at and below some names; what cannot be read is left out. -/
partial def takeIn (names : List String) : IO (List (List String × FileTree.Entry)) := do
  let path := (← IO.currentDir) / absolute names
  if ← path.isDir then
    let children ← path.readDir
    let below ← children.toList.mapM fun child => takeIn (names ++ [child.fileName])
    return (names, .directory) :: below.flatten
  try
    return [(names, .file (← IO.FS.readBinFile path))]
  catch _ => return []

/-- The directories that some names lead through. -/
def directoriesAbove (names : List String) : IO (List (List String × FileTree.Entry)) := do
  let here ← IO.currentDir
  let above ← ((List.range names.length).map names.take).filterM fun directory =>
    (here / absolute directory).isDir
  return above.map (·, .directory)

/-- The names of the project that encloses a place, if there is one. -/
def enclosingProject? (names : List String) : IO (Option (List String)) := do
  let above := (List.range names.length).reverse.map names.take
  for directory in above do
    let manifest := (← IO.currentDir) / absolute (directory ++ [manifestName])
    if ← manifest.pathExists then return some directory
  return (above.find? (·.getLast? == some resourcesName)).map List.dropLast

/-- The paths of what a run may look at besides the files to check. -/
def otherPaths (o : Options) (home : Option Path) : List Path :=
  let reports := o.html.toList ++ o.simpleHtml.toList ++ o.xml.toList
  let settings := (home.map fun directory => Settings.userNames.map directory.child).getD []
  reports ++ reports.map (Bundle.forReport · |>.directory) ++ o.config.toList ++ settings

/-- The tree that a run starts from. -/
def treeFor (here : List String) (o : Options) (home : Option Path) : IO FileTree := do
  let files := (o.files.filterMap PathPattern.ofString?).map fun p => p.fixedPart.namesFrom here
  let projects := (← files.mapM enclosingProject?).reduceOption
  let others := (otherPaths o home).map (·.namesFrom here)
  let places := files ++ projects ++ others
  let above ← ((here ++ [""]) :: places).mapM directoriesAbove
  let found ← places.mapM takeIn
  return .ofEntries here (above.flatten ++ found.flatten)

/-- Does to the files what was done to a tree. -/
def carryOutChange : FileTree.Change → IO Unit
  | .put names .directory => IO.FS.createDirAll (absolute names)
  | .put names (.file content) => IO.FS.writeBinFile (absolute names) content
  | .removed names => IO.FS.removeFile (absolute names)

/-- The present time, as a report gives it. -/
def presentTime : IO String := do
  let now := Std.Time.DateTime.ofTimestamp (← Std.Time.Timestamp.now) .UTC
  return now.format "uuuu-MM-dd HH:mm:ss" ++ " UTC"

/-- Runs the program. -/
def runOnFiles (words : List String) : IO UInt32 := do
  let here := (Path.mk (← IO.currentDir).toString).namesFrom []
  let home := ((← IO.getEnv "HOME").filter (· != "")).map Path.mk
  let options := (Options.ofWords words).toOption.getD .empty
  let tree ← treeFor here options home
  let outcome := run
    { tree, home, lowDensity := asksForLowDensity (← IO.getEnv "ANDROID_LINT_INCLUDE_LDPI")
      colored := ← (← IO.getStdout).isTty, time := ← presentTime } words
  (tree.changes outcome.tree).forM carryOutChange
  IO.print outcome.output
  IO.eprint outcome.errors
  return (outcome.code.emod 256).toNat.toUInt32

end ResourceLint.CommandLine

def main (args : List String) : IO UInt32 := ResourceLint.CommandLine.runOnFiles args
