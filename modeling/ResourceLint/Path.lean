/-
Paths of files, as they are written and as they are read.

A path keeps its text, which is what a report shows.  What it denotes are
its components: the root if the text begins with a slash, a leading dot,
names and steps up.  Repeated slashes, a slash at the end and dots other
than a leading one denote nothing, and two paths are the same when their
components are.
-/
import ResourceLint.Text.Slice

namespace ResourceLint

/-- A path as written. -/
structure Path where
  text : String
deriving DecidableEq, Inhabited

namespace Path

/-- A step of a path. -/
inductive Component
  | root
  | here
  | up
  | name (text : String)
deriving DecidableEq

/-- The empty path. -/
def empty : Path := ⟨""⟩

-- ============================================ the text and its steps

/-- The part of a text before its first name: a slash, a leading dot, or
nothing; and the rest. -/
def splitHead : List Char → List Char × List Char
  | '/' :: body => (['/'], body)
  | ['.'] => (['.'], [])
  | '.' :: '/' :: body => (['.'], '/' :: body)
  | body => ([], body)

/-- Drops slashes and dot steps from the front of a reversed text. -/
def dropIdle : List Char → List Char
  | [] => []
  | ['.'] => []
  | '/' :: s => dropIdle s
  | '.' :: '/' :: s => dropIdle s
  | s => s

/-- The step that a piece between slashes is. -/
def stepOf? (piece : List Char) : Option Component :=
  match piece with
  | [] => none
  | ['.'] => none
  | ['.', '.'] => some .up
  | piece => some (.name (String.ofList piece))

/-- The step that the head of a path is. -/
def headOf : List Char → List Component
  | ['/'] => [.root]
  | ['.'] => [.here]
  | _ => []

/-- What a path denotes. -/
def components (p : Path) : List Component :=
  let (head, body) := splitHead p.text.toList
  headOf head ++ (Text.splitAt '/' body).filterMap stepOf?

/-- Whether two paths have the same components. -/
def same (p q : Path) : Bool := p.components == q.components

def isAbsolute (p : Path) : Bool := p.text.toList.head? == some '/'

/-- The text of a component. -/
def Component.text : Component → String
  | .root => "/"
  | .here => "."
  | .up => ".."
  | .name text => text

/-- The path with a text appended as a further step; an absolute one
replaces it. -/
def join (p q : Path) : Path :=
  if q.isAbsolute then q
  else
    match p.text.toList.getLast? with
    | none => q
    | some '/' => ⟨p.text ++ q.text⟩
    | some _ => ⟨p.text ++ "/" ++ q.text⟩

/-- The path below this one with the given name. -/
def child (p : Path) (name : String) : Path := p.join ⟨name⟩

/-- The path with exactly these components. -/
def ofComponents (steps : List Component) : Path :=
  steps.foldl (fun p step => p.join ⟨step.text⟩) empty

/-- The absolute path with these names. -/
def ofNames (names : List String) : Path :=
  ofComponents (.root :: names.map .name)

/-- The names after one more step. -/
def stepFrom (names : List String) : Component → List String
  | .root => []
  | .here => names
  | .up => names.dropLast
  | .name text => names ++ [text]

/-- The names that lead from the root to what a path denotes, when a
relative one begins where the given names lead. -/
def namesFrom (here : List String) (p : Path) : List String := p.components.foldl stepFrom here

-- ================================================ one step at the end

/-- The last piece of a body without idle steps at its end, and what is
before it; `none` where nothing is left. -/
def lastPiece? (body : List Char) : Option (List Char × List Char) :=
  match dropIdle body.reverse with
  | [] => none
  | rest =>
    some ((dropIdle (rest.dropWhile (· != '/'))).reverse, (rest.takeWhile (· != '/')).reverse)

/-- The path without its last step, where it has one. -/
def parent? (p : Path) : Option Path :=
  let (head, body) := splitHead p.text.toList
  match lastPiece? body with
  | some (before, _) => some ⟨String.ofList (head ++ before)⟩
  | none => if head == ['.'] then some empty else none

/-- The last step, where it is a name. -/
def fileName? (p : Path) : Option String :=
  match lastPiece? (splitHead p.text.toList).2 with
  | some (_, piece) =>
    match stepOf? piece with
    | some (.name text) => some text
    | _ => none
  | none => none

/-- The path and all that can be had from it by leaving out last steps. -/
def ancestorsWithin : Nat → Path → List Path
  | 0, p => [p]
  | n + 1, p =>
    match p.parent? with
    | some parent => p :: ancestorsWithin n parent
    | none => [p]

def ancestors (p : Path) : List Path :=
  ancestorsWithin (p.components.length + 1) p

/-- The part of a file name after its last dot, where that is not its
first character. -/
def extensionOf? (name : String) : Option String :=
  match Text.cutLast? '.' name.toList with
  | some (_ :: _, after) => some (String.ofList after)
  | _ => none

def extension? (p : Path) : Option String :=
  p.fileName?.bind extensionOf?

-- ============================================ leaving out first steps

/-- Drops slashes and dot steps from the front. -/
def dropIdleFront : List Char → List Char
  | [] => []
  | ['.'] => []
  | '/' :: s => dropIdleFront s
  | '.' :: '/' :: s => dropIdleFront s
  | s => s

/-- Drops the given number of names and steps up from the front of a body. -/
def dropSteps : Nat → List Char → List Char
  | 0, body => dropIdleFront body
  | n + 1, body => dropSteps n ((dropIdleFront body).dropWhile (· != '/'))

/-- The text after the first `n` components, as written. -/
def textAfter (p : Path) (n : Nat) : List Char :=
  let (head, body) := splitHead p.text.toList
  let trim := fun (s : List Char) => (dropIdle s.reverse).reverse
  match n with
  | 0 => head ++ trim body
  | n => trim (dropSteps (n - head.length) body)

/-- What follows the components of `base`, in a path that begins with them. -/
def stripBase? (base p : Path) : Option Path :=
  if base.components.isPrefixOf p.components then
    some ⟨String.ofList (p.textAfter base.components.length)⟩
  else none

-- ================================================================ order

/-- The place of a kind of component in the order of paths. -/
def Component.rank : Component → Nat
  | .root => 0
  | .here => 1
  | .up => 2
  | .name _ => 3

def Component.compare (a b : Component) : Ordering :=
  match a, b with
  | .name s, .name t => Ord.compare s t
  | a, b => Ord.compare a.rank b.rank

/-- Paths are ordered component by component. -/
def compare (p q : Path) : Ordering :=
  List.compareLex Component.compare p.components q.components

/-- Whether `p` may stand before `q`. -/
def le (p q : Path) : Bool := compare p q != .gt

end Path

end ResourceLint
