/-
Which files of a project an issue has to see, and which files a run looks
at.

A scope is a set of four kinds of files.  An issue can be looked for when
its scope is part of the run's.
-/
import ResourceLint.Path

namespace ResourceLint

/-- A kind of file, or of a group of files. -/
inductive FileKind
  | manifest
  /-- one resource file by itself -/
  | resourceFile
  /-- all resource files of a project together -/
  | allResourceFiles
  | proguard
deriving DecidableEq

namespace FileKind

/-- The four kinds, in the order they are listed. -/
def all : List FileKind := [.manifest, .resourceFile, .allResourceFiles, .proguard]

def name : FileKind → String
  | .manifest => "manifest"
  | .resourceFile => "resource-file"
  | .allResourceFiles => "all-resource-files"
  | .proguard => "proguard"

end FileKind

/-- A set of kinds of files. -/
structure Scope where
  manifest : Bool
  resourceFile : Bool
  allResourceFiles : Bool
  proguard : Bool
deriving DecidableEq, Inhabited

namespace Scope

def empty : Scope := ⟨false, false, false, false⟩

/-- Everything in a project. -/
def all : Scope := ⟨true, true, true, true⟩

def contains (s : Scope) : FileKind → Bool
  | .manifest => s.manifest
  | .resourceFile => s.resourceFile
  | .allResourceFiles => s.allResourceFiles
  | .proguard => s.proguard

def insert (s : Scope) : FileKind → Scope
  | .manifest => { s with manifest := true }
  | .resourceFile => { s with resourceFile := true }
  | .allResourceFiles => { s with allResourceFiles := true }
  | .proguard => { s with proguard := true }

def ofList (kinds : List FileKind) : Scope := kinds.foldl insert empty

def toList (s : Scope) : List FileKind := FileKind.all.filter s.contains

def union (s t : Scope) : Scope :=
  ⟨s.manifest || t.manifest, s.resourceFile || t.resourceFile,
    s.allResourceFiles || t.allResourceFiles, s.proguard || t.proguard⟩

/-- Whether every kind in `s` is in `t`. -/
def isSubset (s t : Scope) : Bool :=
  FileKind.all.all fun kind => !s.contains kind || t.contains kind

theorem isSubset_iff {s t : Scope} :
    s.isSubset t ↔ ∀ kind, s.contains kind → t.contains kind := by
  unfold isSubset
  rw [List.all_eq_true]
  constructor
  · intro h kind hs
    have hkind := h kind (by cases kind <;> decide)
    rwa [hs] at hkind
  · intro h kind _
    cases hs : s.contains kind with
    | false => rfl
    | true => exact h kind hs

theorem isSubset_trans {s t u : Scope} (h : s.isSubset t) (h' : t.isSubset u) : s.isSubset u :=
  isSubset_iff.mpr fun kind hs => isSubset_iff.mp h' kind (isSubset_iff.mp h kind hs)

def isEmpty (s : Scope) : Bool := s.toList.isEmpty

/-- The kinds in braces. -/
def text (s : Scope) : String :=
  "\x7b" ++ ", ".intercalate (s.toList.map FileKind.name) ++ "\x7d"

def manifestOnly : Scope := ofList [.manifest]

def resourceFileOnly : Scope := ofList [.resourceFile]

def allResourceFilesOnly : Scope := ofList [.allResourceFiles]

def proguardOnly : Scope := ofList [.proguard]

end Scope

-- ============================================= names of project files

/-- The name of a project's manifest. -/
def manifestName : String := "AndroidManifest.xml"

/-- The name of the folder that holds a project's resources. -/
def resourcesName : String := "res"

/-- The name of a project's shrinking rules. -/
def proguardName : String := "proguard.cfg"

/-- A text whose capital letters from A to Z are made small. -/
def asciiLower (s : String) : String := String.ofList (s.toList.map Char.toLower)

/-- Whether a file name ends in a dot and the extension, in any case. -/
def hasExtension (name extension : String) : Bool :=
  match Text.cutLast? '.' name.toList with
  | some (_, found) => asciiLower (String.ofList found) == asciiLower extension
  | none => false

/-- The scope that a request for one path implies. -/
def Scope.infer (path : Path) (isDirectory : Bool) : Scope :=
  let name := path.fileName?.getD ""
  if isDirectory then .all
  else if name == manifestName then .manifestOnly
  else if name == proguardName then .proguardOnly
  else if hasExtension name "xml" then .resourceFileOnly
  else .all

/-- Whether the path is that of an XML file right inside a folder of
resources. -/
def isResourceFile (path : Path) : Bool :=
  let folder := (path.parent?.bind Path.parent?).bind Path.fileName?
  folder == some resourcesName && hasExtension (path.fileName?.getD "") "xml"

-- ======================================================== resource folders

/-- What a folder of resources holds. -/
inductive FolderType
  | anim
  | animator
  | color
  | drawable
  | interpolator
  | layout
  | menu
  | mipmap
  | raw
  | values
  | xml
deriving DecidableEq

namespace FolderType

def all : List FolderType :=
  [.anim, .animator, .color, .drawable, .interpolator, .layout, .menu, .mipmap, .raw, .values,
    .xml]

/-- The word used for the type in references. -/
def name : FolderType → String
  | .anim => "anim"
  | .animator => "animator"
  | .color => "color"
  | .drawable => "drawable"
  | .interpolator => "interpolator"
  | .layout => "layout"
  | .menu => "menu"
  | .mipmap => "mipmap"
  | .raw => "raw"
  | .values => "values"
  | .xml => "xml"

/-- The type of the folder with this name: what is before its first dash. -/
def ofFolderName? (folder : String) : Option FolderType :=
  let base := String.ofList (folder.toList.takeWhile (· != '-'))
  all.find? (·.name == base)

end FolderType

end ResourceLint
