/-
Bitmaps that are not there for every screen density.

The folders of a project's resources that stand for a density are compared
as a whole: each of them is to exist, and a bitmap in one is to be in all,
`drawable-nodpi` aside.
-/
import ResourceLint.Assoc
import ResourceLint.Detector

namespace ResourceLint.Icons

def link : String := "http://developer.android.com/guide/practices/screens_support.html"

def densitiesIssue : Issue :=
  Issue.withMoreInfo
    (.new "IconDensities"
      "Ensures that icons provide custom versions for all supported densities"
      ("Icons will look best if a custom version is provided for each of the major screen density "
        ++ "classes (low, medium, high, extra high). This lint check identifies icons which do "
        ++ "not have complete coverage across the densities.\n\nLow density is not really used "
        ++ "much anymore, so this check ignores the ldpi density. To force lint to include it, "
        ++ "set the environment variable ANDROID_LINT_INCLUDE_LDPI=true.")
      .icons 4 .warning .allResourceFilesOnly)
    link

def missingFolderIssue : Issue :=
  Issue.withMoreInfo
    (.new "IconMissingDensityFolder" "Ensures that all the density folders are present"
      ("Icons will look best if a custom version is provided for each of the major screen density "
        ++ "classes (low, medium, high, extra high). This lint check identifies folders which are "
        ++ "missing, such as drawable-hdpi.\n\nLow density is not really used much anymore, so "
        ++ "this check ignores the ldpi density. To force lint to include it, set the environment "
        ++ "variable ANDROID_LINT_INCLUDE_LDPI=true.")
      .icons 4 .warning .allResourceFilesOnly)
    link

/-- The folder whose bitmaps do not stand for a density. -/
def unscaledFolder : String := "drawable-nodpi"

/-- The folders that are to exist. -/
def requiredFolders (lowDensity : Bool) : List String :=
  (if lowDensity then ["drawable-ldpi"] else [])
    ++ ["drawable-mdpi", "drawable-hdpi", "drawable-xhdpi"]

/-- Whether a folder takes part in the comparison. -/
def isDensityFolder (lowDensity : Bool) (name : String) : Bool :=
  name == unscaledFolder || (requiredFolders lowDensity).contains name

def isBitmap (name : String) : Bool :=
  ["png", "jpg", "jpeg", "gif"].any (hasExtension name)

/-- The first items joined by commas, and how many there are besides. -/
def listing (items : List String) (most : Nat) : String :=
  if items.length ≤ most then ", ".intercalate items
  else
    ", ".intercalate (items.take most) ++ "... (" ++ toString (items.length - most) ++ " more)"

/-- A folder with the bitmaps in it. -/
structure Folder where
  name : String
  bitmaps : List String
deriving DecidableEq

/-- The density folders of a project's resources, by name. -/
def folders (context : Context) (resources : Path) : List Folder :=
  ((context.tree.children resources false).filter (isDensityFolder context.lowDensity)).map
    fun name =>
      { name, bitmaps := (context.tree.children (resources.child name) true).filter isBitmap }

/-- The required folders that are not there. -/
def missingFolders (lowDensity : Bool) (folders : List Folder) : List String :=
  (requiredFolders lowDensity).filter fun name => !folders.any (·.name == name)

def reportMissingFolders (context : Context) (resources : Path) (folders : List Folder) :
    List Emission :=
  match missingFolders context.lowDensity folders with
  | [] => []
  | missing =>
    let message :=
      "Missing density variation folders in " ++ resourcesName ++ ": "
        ++ listing missing missing.length
    [.report (.at (.ofFile resources) missingFolderIssue.id message)]

/-- The finding about a bitmap, where it is in some of the folders but not
in all. -/
def coverage? (resources : Path) (scaled : List Folder) (bitmap : String) : Option Finding :=
  let present := (scaled.filter (·.bitmaps.contains bitmap)).map (·.name)
  let absent := (scaled.filter fun f => !f.bitmaps.contains bitmap).map (·.name)
  let variants := present.map fun folder => Place.ofFile ((resources.child folder).child bitmap)
  match absent, variants with
  | [], _ => none
  | _, [] => none
  | _, first :: further =>
    let message :=
      "Missing the following drawables in " ++ listing absent 5 ++ ": " ++ bitmap
        ++ " (found in " ++ listing present 5 ++ ")"
    some { Finding.at first densitiesIssue.id message with further }

def reportCoverage (resources : Path) (folders : List Folder) : List Emission :=
  let scaled := folders.filter (·.name != unscaledFolder)
  let bitmaps := Assoc.keySet compare (scaled.flatMap (·.bitmaps))
  (bitmaps.filterMap (coverage? resources scaled)).map .report

/-- Compares the folders of a project that is checked as a whole. -/
def compareFolders (context : Context) : List Emission :=
  let resources := context.project.resources
  if context.project.subset.isSome || !context.tree.isDirectory resources then []
  else
    let folders := folders context resources
    if folders.isEmpty then []
    else
      (if context.isEnabled missingFolderIssue.id then
        reportMissingFolders context resources folders else [])
        ++ (if context.isEnabled densitiesIssue.id then reportCoverage resources folders else [])

def react (memory : Memory) (context : Context) : Call → Memory × List Emission
  | .afterProject => (memory, compareFolders context)
  | _ => (memory, [])

def detector : Detector := { Detector.silent "IconDetector" with react }

end ResourceLint.Icons
