/-
Writing report files.

What stands where a report is to be written is deleted first, then an
empty file is made, and the report is written into that.  A step that
fails ends the writing, and what the steps before it did stays.
-/
import ResourceLint.FileTree

namespace ResourceLint.Report

/-- Why a report cannot be written. -/
inductive WriteFault
  | file (fault : FileError)
  | cannotDelete (path : Path)
deriving DecidableEq

def WriteFault.message : WriteFault → String
  | .file fault => fault.message
  | .cannotDelete path => "Could not delete old output file " ++ path.text

/-- Does one step on the tree; one that fails leaves it as it is. -/
def change (step : FileTree → Except WriteFault FileTree) :
    ExceptT WriteFault (StateM FileTree) Unit := do
  match step (← get) with
  | .ok t => set t
  | .error fault => throw fault

/-- Deletes what stands where a report is to be written. -/
def prepareOutput (t : FileTree) (path : Path) : Except WriteFault FileTree :=
  if t.isFile path then (t.remove path).mapError fun _ => .cannotDelete path else .ok t

/-- Makes an empty report file. -/
def createOutput (t : FileTree) (path : Path) : Except WriteFault FileTree :=
  (t.write path .empty).mapError .file

/-- Makes an empty report file in place of an old one. -/
def openOutput (path : Path) : ExceptT WriteFault (StateM FileTree) Unit := do
  change (prepareOutput · path)
  change (createOutput · path)

/-- Writes a report file that was made. -/
def writeOutput (path : Path) (text : String) : ExceptT WriteFault (StateM FileTree) Unit :=
  change fun t => (t.write path text.toUTF8).mapError .file

/-- Does some writing on a tree, and gives the tree and why it ended early,
if it did. -/
def perform (t : FileTree) (writing : ExceptT WriteFault (StateM FileTree) Unit) :
    Option WriteFault × FileTree :=
  let (outcome, t) := writing.run.run t
  match outcome with
  | .ok () => (none, t)
  | .error fault => (some fault, t)

end ResourceLint.Report
