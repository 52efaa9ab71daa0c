/-
Categories of issues, which form a hierarchy: a full name lists the
categories from the outermost in, with colons between them.
-/
import ResourceLint.Text.Slice

namespace ResourceLint

/-- A category of issues. -/
structure Category where
  fullName : String
  priority : Nat
deriving DecidableEq, Inhabited

namespace Category

/-- The category of this name inside another one. -/
def child (c : Category) (name : String) (priority : Nat) : Category :=
  ⟨c.fullName ++ ":" ++ name, priority⟩

def correctness : Category := ⟨"Correctness", 10⟩

def performance : Category := ⟨"Performance", 8⟩

def usability : Category := ⟨"Usability", 6⟩

def icons : Category := usability.child "Icons" 7

def internationalization : Category := ⟨"Internationalization", 5⟩

def layout : Category := ⟨"Layout", 4⟩

/-- The name without the categories around it. -/
def name (c : Category) : String :=
  match Text.cutLast? ':' c.fullName.toList with
  | some (_, name) => String.ofList name
  | none => c.fullName

/-- The full name of the category around it. -/
def parent? (c : Category) : Option String :=
  (Text.cutLast? ':' c.fullName.toList).map fun (parent, _) => String.ofList parent

/-- Whether the full name or the name begins with the text. -/
def beginsWith (c : Category) (text : String) : Bool :=
  text.toList.isPrefixOf c.fullName.toList || text.toList.isPrefixOf c.name.toList

/-- Whether the text names this category or one around it. -/
def isNamed (c : Category) (text : String) : Bool :=
  c.fullName == text || c.name == text
    || (Text.after? text c.fullName).any fun rest => rest.toList.head? == some ':'

end Category

end ResourceLint
