/-
Detectors: what looks for issues in the files of a project.

A run makes calls to a detector, one for each thing it comes to, and the
detector answers a call with what it emits and with what it remembers for
the next one.  It declares beforehand which folders, files, elements and
attributes it wants to be called for.
-/
import ResourceLint.Issue
import ResourceLint.Project
import ResourceLint.Xml.Range

namespace ResourceLint

/-- Which names a detector wants to see. -/
inductive Interest
  | nothing
  | all
  | names (names : List String)
deriving DecidableEq, Inhabited

/-- What a call is about, besides the thing itself. -/
structure Context where
  project : Project
  /-- the file at hand, or the directory of the project -/
  file : Path
  /-- the scope of the run -/
  scope : Scope
  /-- the text of the file at hand -/
  contents : Option String
  /-- the folder type of a resource file -/
  folder : Option FolderType
  /-- whether an issue is reported at all, by id -/
  isEnabled : String → Bool
  tree : FileTree
  /-- whether icons of low density are asked for -/
  lowDensity : Bool

/-- What a run calls a detector for. -/
inductive Call
  | beforeProject
  | afterProject
  | beforeFile
  | afterFile
  | document (document : Xml.Document)
  | element (document : Xml.Document) (element : Xml.Element)
  /-- an element whose children have been visited -/
  | elementEnd (document : Xml.Document) (element : Xml.Element)
  | attribute (document : Xml.Document) (element : Xml.Element) (found : Xml.Attribute)
  /-- a file that is not markup -/
  | plainFile

/-- A problem found: its issue by id, its places and what is said. -/
structure Finding where
  issue : String
  place : Place
  further : List Place
  message : String
  data : Option String
deriving DecidableEq, Inhabited

/-- What a detector answers with. -/
inductive Emission
  | report (finding : Finding)
  /-- a line for the log of the run -/
  | note (text : String)
  /-- a wish to end the run -/
  | cancel
deriving DecidableEq

/-- A resource by kind and name. -/
abbrev ResourceKey := String × String

/-- What a detector remembers between calls. -/
structure Memory where
  /-- things that were defined, each with the place of its first definition -/
  defined : List (ResourceKey × Place)
  /-- things that were mentioned -/
  mentioned : List ResourceKey
  /-- how many elements of a kind have come by -/
  count : Nat
  /-- whether the element that others must not follow has come by -/
  passed : Bool
deriving DecidableEq

def Memory.blank : Memory := ⟨[], [], 0, false⟩

/-- What a detector does. -/
structure Detector where
  name : String
  appliesToFolder : FolderType → Bool
  appliesToFile : Path → Bool
  elements : Interest
  /-- by local name -/
  attributes : Interest
  react : Memory → Context → Call → Memory × List Emission

namespace Detector

/-- A detector that wants documents and says nothing. -/
def silent (name : String) : Detector :=
  { name, appliesToFolder := fun _ => true, appliesToFile := fun _ => true, elements := .nothing,
    attributes := .nothing, react := fun memory _ _ => (memory, []) }

end Detector

namespace Context

/-- The file at hand as a whole. -/
def filePlace (c : Context) : Place := .ofFile c.file

def elementPlace (c : Context) (e : Xml.Element) : Place := .ofSpan c.file e.span

def attributePlace (c : Context) (d : Xml.Document) (e : Xml.Element) (a : Xml.Attribute) : Place :=
  d.attributePlace c.file e a.name

end Context

/-- A finding at one place. -/
def Finding.at (place : Place) (issue message : String) : Finding :=
  { issue, place, further := [], message, data := none }

/-- The namespace of the attributes of the platform. -/
def androidUri : String := "http://schemas.android.com/apk/res/android"

end ResourceLint
