/-
Patterns for paths, and the paths of a tree that they stand for.

A pattern is a list of steps between slashes.  In a step a question mark
stands for any character, a star for any run of characters and a bracket
for one character in a set, or, after an exclamation mark, for one that
is not in it.  A step of two stars stands for any number of directories,
and at the end for the directories themselves.  A slash at the end admits
directories alone.

A step without any of these marks is looked up as it is, so that it may
also be one of the two dots; a step that begins with a dot may match
these two as well.
-/
import ResourceLint.FileTree

namespace ResourceLint

/-- A member of a set in brackets. -/
inductive PatternMember
  | one (c : Char)
  | range (low high : Char)
deriving DecidableEq

/-- A mark of a step. -/
inductive PatternMark
  | exactly (c : Char)
  | anyOne
  | anyRun
  | oneOf (members : List PatternMember)
  | noneOf (members : List PatternMember)
deriving DecidableEq

/-- A step of a pattern. -/
inductive PatternStep
  | marks (marks : List PatternMark)
  /-- any number of directories -/
  | deep
deriving DecidableEq

/-- A pattern for paths. -/
structure PathPattern where
  isAbsolute : Bool
  steps : List PatternStep
  directoriesOnly : Bool
deriving DecidableEq

-- =============================================================== marks

/-- The members between two brackets; a dash between two characters makes a
range. -/
def PatternMember.ofList : List Char → List PatternMember
  | low :: '-' :: high :: more => .range low high :: ofList more
  | c :: more => .one c :: ofList more
  | [] => []

def PatternMember.accepts (c : Char) : PatternMember → Bool
  | .one d => c == d
  | .range low high => low ≤ c && c ≤ high

namespace PatternMark

/-- Whether the mark stands for the character. -/
def accepts (c : Char) : PatternMark → Bool
  | .exactly d => c == d
  | .anyOne | .anyRun => true
  | .oneOf members => members.any (·.accepts c)
  | .noneOf members => !members.any (·.accepts c)

/-- The inside of a bracket, which has a member at least, and what follows
the bracket. -/
def closeBracket? : List Char → Option (List Char × List Char)
  | [] => none
  | first :: more => (Text.cut? [']'] more).map fun (inside, rest) => (first :: inside, rest)

theorem length_of_closeBracket? {cs inside rest : List Char}
    (h : closeBracket? cs = some (inside, rest)) : rest.length < cs.length := by
  cases cs with
  | nil => simp [closeBracket?] at h
  | cons first more =>
    simp only [closeBracket?, Option.map_eq_some_iff, Prod.mk.injEq] at h
    obtain ⟨⟨before, after⟩, hcut, -, rfl⟩ := h
    rw [Text.eq_append_of_cut? hcut]
    simp only [List.length_cons, List.length_append, List.length_nil]
    omega

/-- The marks of a step; `none` where a bracket is not closed or two stars
stand together. -/
def ofList? : List Char → Option (List PatternMark)
  | [] => some []
  | '?' :: cs => (ofList? cs).map (.anyOne :: ·)
  | '*' :: '*' :: _ => none
  | '*' :: cs => (ofList? cs).map (.anyRun :: ·)
  | '[' :: '!' :: cs =>
    match h : closeBracket? cs with
    | none => none
    | some (inside, rest) =>
      have := length_of_closeBracket? h
      (ofList? rest).map (.noneOf (PatternMember.ofList inside) :: ·)
  | '[' :: cs =>
    match h : closeBracket? cs with
    | none => none
    | some (inside, rest) =>
      have := length_of_closeBracket? h
      (ofList? rest).map (.oneOf (PatternMember.ofList inside) :: ·)
  | c :: cs => (ofList? cs).map (.exactly c :: ·)
termination_by cs => cs.length

/-- Whether the marks stand for the whole text. -/
def matchesAll : List PatternMark → List Char → Bool
  | [], cs => cs.isEmpty
  | .anyRun :: marks, cs => (List.range (cs.length + 1)).any fun n => matchesAll marks (cs.drop n)
  | _ :: _, [] => false
  | mark :: marks, c :: cs => mark.accepts c && matchesAll marks cs

/-- The character that the mark is, if it stands for itself. -/
def plainChar? : PatternMark → Option Char
  | .exactly c => some c
  | _ => none

/-- The text that the marks are, where each stands for itself. -/
def plain? (marks : List PatternMark) : Option String :=
  (marks.mapM plainChar?).map String.ofList

end PatternMark

-- ================================================================ steps

namespace PatternStep

/-- A piece between slashes as a step. -/
def ofPiece? (piece : List Char) : Option PatternStep :=
  if piece == ['*', '*'] then some .deep else (PatternMark.ofList? piece).map .marks

/-- Whether the step stands for a name. -/
def accepts (name : String) : PatternStep → Bool
  | .marks ms => PatternMark.matchesAll ms name.toList
  | .deep => true

/-- The steps with no two deep ones side by side. -/
def mergeDeep : List PatternStep → List PatternStep
  | .deep :: .deep :: more => mergeDeep (.deep :: more)
  | first :: more => first :: mergeDeep more
  | [] => []

end PatternStep

namespace PathPattern

/-- Whether a text ends in a slash. -/
def endsInSlash (cs : List Char) : Bool := cs.getLast? == some '/'

/-- The pieces of a body; nothing after a slash at the end is no piece. -/
def pieces (body : List Char) : List (List Char) :=
  let all := Text.splitAt '/' body
  if endsInSlash body then all.dropLast else all

/-- Reads a pattern. -/
def ofString? (s : String) : Option PathPattern :=
  let cs := s.toList
  let isAbsolute := cs.head? == some '/'
  let body := if isAbsolute then cs.drop 1 else cs
  ((pieces body).mapM PatternStep.ofPiece?).map fun steps =>
    { isAbsolute, steps := PatternStep.mergeDeep steps, directoriesOnly := endsInSlash cs }

-- ============================================================ expansion

/-- The directory that a relative pattern begins at. -/
def start : Path := ⟨"."⟩

/-- The path of a name in a directory; the start is not written. -/
def under (directory : Path) (name : String) : Path :=
  if directory.same start then ⟨name⟩ else directory.child name

/-- What lies below a directory, in order: paths, with their names and the
number of names that lead there. -/
def below (t : FileTree) (directory : Path) : List (Path × String × Nat) :=
  match t.find directory with
  | .ok (names, .directory) =>
    (t.below names).filterMap fun (rest, _) =>
      match rest with
      | [] => none
      | first :: more =>
        some (more.foldl Path.child (under directory first), (first :: more).getLastD first,
          rest.length)
  | _ => []

/-- The two dots among the names that the marks of a step stand for, where
the step begins with a dot itself. -/
def dotNames (marks : List PatternMark) : List String :=
  if marks.head? == some (.exactly '.') then
    ["..", "."].filter fun name => PatternMark.matchesAll marks name.toList
  else []

/-- The path a plain step leads to, if there is something. -/
def plainStep? (t : FileTree) (directory : Path) (name : String) : Option Path :=
  let next := under directory name
  let isThere := if name == "." || name == ".." then t.isDirectory directory else t.contains next
  if isThere then some next else none

/-- The paths that the marks of one step lead to. -/
def markedStep (t : FileTree) (directory : Path) (marks : List PatternMark) : List Path :=
  if t.isDirectory directory then
    (dotNames marks).map directory.child
      ++ ((below t directory).filter fun (_, name, depth) =>
          depth == 1 && PatternMark.matchesAll marks name.toList).map (·.1)
  else []

/-- The paths that one step leads to. -/
def step (t : FileTree) (directory : Path) (marks : List PatternMark) : List Path :=
  match PatternMark.plain? marks with
  | some name => (plainStep? t directory name).toList
  | none => markedStep t directory marks

/-- The paths that some steps lead to.  With a deep step before another the
names of everything below are tried. -/
def walk (t : FileTree) (directoriesOnly : Bool) (directory : Path) : List PatternStep → List Path
  | [] => if directoriesOnly && !t.isDirectory directory then [] else [directory]
  | .marks marks :: more =>
    (step t directory marks).flatMap fun next => walk t directoriesOnly next more
  | [.deep] => ((below t directory).map (·.1)).filter t.isDirectory
  | .deep :: next :: more =>
    ((below t directory).filter fun (_, name, _) => next.accepts name).flatMap
      fun (path, _) => walk t directoriesOnly path more

/-- The paths that a pattern stands for, in alphabetical order. -/
def expand (t : FileTree) (p : PathPattern) : List Path :=
  walk t p.directoriesOnly (if p.isAbsolute then ⟨"/"⟩ else start) p.steps

/-- The path that the first steps of a pattern are, as far as they are plain. -/
def fixedFrom (path : Path) : List PatternStep → Path
  | .marks marks :: more =>
    match PatternMark.plain? marks with
    | some name => fixedFrom (path.child name) more
    | none => path
  | _ => path

/-- The path that everything lies below that a pattern stands for. -/
def fixedPart (p : PathPattern) : Path :=
  fixedFrom (if p.isAbsolute then ⟨"/"⟩ else start) p.steps

end PathPattern

end ResourceLint
