/-
A tree of files, as a program sees it that has a working directory.

Every directory but the root has an entry, and so has every file, under
the names that lead to it.  The entries are in the order of these lists of
names, so that what lies below a directory comes right after it, each
folder before its files and the names side by side in order.

A path is looked up step by step as written: every step but the last has
to be a directory, and so has the last where a slash follows it.
-/
import ResourceLint.Assoc
import ResourceLint.Path

namespace ResourceLint

/-- Why a file cannot be used. -/
inductive FileError
  | notFound
  | notADirectory
  | isADirectory
  | alreadyThere
  /-- the bytes of the file are no text -/
  | notText
deriving DecidableEq, Inhabited

/-- What the system says. -/
def FileError.message : FileError → String
  | .notFound => "No such file or directory (os error 2)"
  | .notADirectory => "Not a directory (os error 20)"
  | .isADirectory => "Is a directory (os error 21)"
  | .alreadyThere => "File exists (os error 17)"
  | .notText => "stream did not contain valid UTF-8"

namespace FileTree

/-- What stands under a list of names. -/
inductive Entry
  | directory
  | file (content : ByteArray)

instance : DecidableEq Entry
  | .directory, .directory => isTrue rfl
  | .directory, .file _ => isFalse nofun
  | .file _, .directory => isFalse nofun
  | .file a, .file b =>
    match ByteArray.instDecidableEq a b with
    | isTrue h => isTrue (congrArg Entry.file h)
    | isFalse h => isFalse fun heq => h (Entry.file.inj heq)

end FileTree

/-- The files and directories, and the directory that relative paths begin at. -/
structure FileTree where
  entries : List (List String × FileTree.Entry)
  here : List String
deriving DecidableEq

namespace FileTree

/-- The order of the entries. -/
def order (a b : List String) : Ordering := List.compareLex compare a b

/-- A tree without files whose working directory has the given names. -/
def empty (here : List String) : FileTree :=
  let directories := (List.range here.length).map fun n => (here.take (n + 1), Entry.directory)
  { entries := directories, here }

/-- The entries with only the first of those that stand side by side under
the same names. -/
def mergeSame : List (List String × Entry) → List (List String × Entry)
  | [] => []
  | [entry] => [entry]
  | a :: b :: more => if a.1 = b.1 then mergeSame (a :: more) else a :: mergeSame (b :: more)
termination_by entries => entries.length

/-- The tree with some entries, where every directory that one of them lies
in is among them. -/
def ofEntries (here : List String) (entries : List (List String × Entry)) : FileTree :=
  let sorted := entries.mergeSort fun a b => order a.1 b.1 != .gt
  { entries := mergeSame (sorted.filter fun (names, _) => !names.isEmpty), here }

/-- The entry under some names; the root is a directory. -/
def entry? (t : FileTree) (names : List String) : Option Entry :=
  if names.isEmpty then some .directory else Assoc.lookup? order names t.entries

def put (t : FileTree) (names : List String) (entry : Entry) : FileTree :=
  { t with entries := Assoc.insert order names entry t.entries }

/-- The entries below a directory, with the names that lead there from it. -/
def below (t : FileTree) (names : List String) : List (List String × Entry) :=
  t.entries.filterMap fun (path, entry) =>
    if names.isPrefixOf path && path.length != names.length then
      some (path.drop names.length, entry)
    else none

-- ============================================================ lookup

/-- One step from a list of names. -/
def step (t : FileTree) (names : List String) (piece : List Char) :
    Except FileError (List String) :=
  match t.entry? names with
  | none => .error .notFound
  | some (.file _) => .error .notADirectory
  | some .directory =>
    match Path.stepOf? piece with
    | none => .ok names
    | some .up => .ok names.dropLast
    | some step => .ok (names ++ [step.text])

/-- The names that a path leads to; under the last of them nothing has to
stand. -/
def locate (t : FileTree) (p : Path) : Except FileError (List String) :=
  if p.text.isEmpty then .error .notFound
  else
    let pieces := Text.splitAt '/' p.text.toList
    (pieces.dropWhile (·.isEmpty)).foldlM t.step (if p.isAbsolute then [] else t.here)

/-- What stands under a path. -/
def find (t : FileTree) (p : Path) : Except FileError (List String × Entry) := do
  let names ← t.locate p
  match t.entry? names with
  | some entry => .ok (names, entry)
  | none => .error .notFound

def isFile (t : FileTree) (p : Path) : Bool :=
  match t.find p with
  | .ok (_, .file _) => true
  | _ => false

def isDirectory (t : FileTree) (p : Path) : Bool :=
  match t.find p with
  | .ok (_, .directory) => true
  | _ => false

def contains (t : FileTree) (p : Path) : Bool := (t.find p).toBool

/-- The absolute path without idle steps, of a path under which something
stands. -/
def canonical? (t : FileTree) (p : Path) : Option Path :=
  match t.find p with
  | .ok (names, _) => some (.ofNames names)
  | .error _ => none

-- =========================================================== reading

/-- The bytes of a file. -/
def readBytes (t : FileTree) (p : Path) : Except FileError ByteArray := do
  match ← t.find p with
  | (_, .file content) => .ok content
  | (_, .directory) => .error .isADirectory

/-- The text of a file. -/
def readText (t : FileTree) (p : Path) : Except FileError String := do
  match String.fromUTF8? (← t.readBytes p) with
  | some text => .ok text
  | none => .error .notText

/-- A path and all that lies below it, in the order of the entries, every
path with the number of names that it adds. -/
def walk (t : FileTree) (p : Path) : List (Path × Nat × Entry) :=
  match t.find p with
  | .ok (names, entry) =>
    (p, 0, entry) :: (t.below names).map fun (rest, entry) =>
      (rest.foldl Path.child p, rest.length, entry)
  | .error _ => []

def Entry.isFile : Entry → Bool
  | .file _ => true
  | .directory => false

/-- The files that a walk comes to. -/
def filesBelow (t : FileTree) (p : Path) : List Path :=
  ((t.walk p).filter fun (_, _, entry) => entry.isFile).map (·.1)

/-- The directories that a walk comes to, the first of them included. -/
def directoriesBelow (t : FileTree) (p : Path) : List Path :=
  ((t.walk p).filter fun (_, _, entry) => !entry.isFile).map (·.1)

/-- The children of a directory of either kind, by name. -/
def children (t : FileTree) (p : Path) (files : Bool) : List String :=
  match t.find p with
  | .ok (names, _) =>
    (t.below names).filterMap fun
      | ([name], entry) => if entry.isFile == files then some name else none
      | _ => none
  | .error _ => []

-- =========================================================== writing

/-- Writes a file, which may be there already, into a directory that is. -/
def write (t : FileTree) (p : Path) (content : ByteArray) : Except FileError FileTree := do
  let names ← t.locate p
  match t.entry? names with
  | some .directory => .error .isADirectory
  | some (.file _) => .ok (t.put names (.file content))
  | none =>
    match t.entry? names.dropLast with
    | some .directory => .ok (t.put names (.file content))
    | some (.file _) => .error .notADirectory
    | none => .error .notFound

/-- Removes a file. -/
def remove (t : FileTree) (p : Path) : Except FileError FileTree := do
  match ← t.find p with
  | (names, .file _) => .ok { t with entries := t.entries.filter (·.1 != names) }
  | (_, .directory) => .error .isADirectory

/-- One step that makes the directory it leads to. -/
def stepMaking (state : FileTree × List String) (piece : List Char) :
    Except FileError (FileTree × List String) := do
  let (t, names) := state
  let names ← t.step names piece
  match t.entry? names with
  | some .directory => .ok (t, names)
  | some (.file _) => .error .alreadyThere
  | none => .ok (t.put names .directory, names)

/-- Makes a directory and those it lies in. -/
def makeDirectory (t : FileTree) (p : Path) : Except FileError FileTree := do
  let pieces := Text.splitAt '/' p.text.toList
  let (t, _) ← pieces.foldlM stepMaking (t, if p.isAbsolute then [] else t.here)
  .ok t

/-- Copies a file.  The target is emptied before anything is read, so a file
copied onto itself is empty afterwards. -/
def copy (t : FileTree) (source target : Path) : Except FileError FileTree := do
  let content ← t.readBytes source
  if (t.locate source).toOption = (t.locate target).toOption then t.write target .empty
  else t.write target content

-- ======================================================== differences

/-- What has to be done to a tree to make another of it. -/
inductive Change
  | put (names : List String) (entry : Entry)
  | removed (names : List String)
deriving DecidableEq

/-- The differences between two lists of entries in order. -/
def differences : List (List String × Entry) → List (List String × Entry) → List Change
  | [], new => new.map fun (names, entry) => .put names entry
  | old, [] => old.map fun (names, _) => .removed names
  | (a, x) :: old, (b, y) :: new =>
    match order a b with
    | .lt => .removed a :: differences old ((b, y) :: new)
    | .gt => .put b y :: differences ((a, x) :: old) new
    | .eq => if x = y then differences old new else .put b y :: differences old new
termination_by old new => old.length + new.length

/-- What was done to a tree that has become another one. -/
def changes (old new : FileTree) : List Change := differences old.entries new.entries

end FileTree

end ResourceLint
