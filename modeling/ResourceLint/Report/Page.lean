/-
The report as a page: a table of contents by category, and a section for
each issue with its occurrences, the source around each, the images it is
about, and what the issue means.

A page in full mode folds away what exceeds a limit and shows copies of
images; a simple page shows everything and copies nothing.
-/
import ResourceLint.PathDisplay
import ResourceLint.Report.Bundle
import ResourceLint.Report.Html
import ResourceLint.Report.Style
import ResourceLint.Report.Summary
import ResourceLint.Text.Lines
import ResourceLint.Text.Wrap
import ResourceLint.Warning

namespace ResourceLint.Report

/-- How a page is made. -/
structure PageOptions where
  title : String
  /-- no script, nothing folded away, no copies of images -/
  simple : Bool
  urls : UrlMap
  paths : PathDisplay
  /-- when the check was performed -/
  time : String

/-- How many occurrences of an issue are shown before the rest is folded
away. -/
def splitLimit : Nat := 8

/-- How many lines are shown on either side of a reported line. -/
def codeWindow : Nat := 3

/-- The column that explanations are broken at. -/
def explanationWidth : Nat := 70

open Html

-- =============================================================== images

/-- What a page needs while images are copied. -/
structure Copies where
  bundle : Option Bundle
  tree : FileTree

/-- An image with the folder it lies in and its address. -/
structure Image where
  folder : String
  url : String
deriving DecidableEq

def isImage (file : Path) : Bool :=
  match file.extension? with
  | some found => ["png", "gif", "jpg", "jpeg"].any fun known => asciiLower found == known
  | none => false

/-- The address of an image, copied if that is possible. -/
def imageUrl (options : PageOptions) (copies : Copies) (file : Path) : Option String × Copies :=
  if !isImage file then (none, copies)
  else
    match copies.bundle with
    | none => (options.urls.urlFor? file, copies)
    | some bundle =>
      let (outcome, bundle, tree) := bundle.add copies.tree file
      let copies : Copies := ⟨some bundle, tree⟩
      match outcome with
      | .ok (some url) => (some url, copies)
      | _ => (options.urls.urlFor? file, copies)

/-- Whether a text holds the mark. -/
def holds (mark text : String) : Bool := (Text.cut? mark.toList text.toList).isSome

/-- The place of a folder when images are shown, the highest density first. -/
def densityRank (folder : String) : Nat :=
  if holds "-xhdpi" folder then 0
  else if holds "-hdpi" folder then 1
  else if holds "-mdpi" folder then 2
  else if holds "-ldpi" folder then 3
  else 4

/-- The images at some places, as they come. -/
def imagesAt (options : PageOptions) (copies : Copies) : List Place → List Image × Copies
  | [] => ([], copies)
  | place :: more =>
    let (url, copies) := imageUrl options copies place.file
    let (images, copies) := imagesAt options copies more
    match url with
    | some url =>
      let folder := (place.file.parent?.bind Path.fileName?).getD ""
      (⟨folder, url⟩ :: images, copies)
    | none => (images, copies)

/-- The images of a finding, in the order they are shown. -/
def images (options : PageOptions) (copies : Copies) (w : Warning) : List Image × Copies :=
  let (found, copies) := imagesAt options copies w.places
  (found.mergeSort fun a b => densityRank a.folder ≤ densityRank b.folder, copies)

/-- What stands above an image: the part of the folder that names its
density. -/
def imageHeading (folder : String) : String :=
  match Text.cut? "drawable-".toList folder.toList with
  | some (_, density) => String.ofList density
  | none => folder

/-- Images side by side, under the names of their densities. -/
def imageTable (images : List Image) : List Html :=
  let cell := fun (image : Image) =>
    element "td" []
      [element "a" [attr "href" image.url]
        [void "img" [attr "border" "0", attr "align" "top", attr "src" image.url] " />"]]
  [element "table" [attr "class" "images", attr "border" "0"]
      [element "tr" [] (images.map fun image => Html.simple "th" (imageHeading image.folder)),
        lineEnd, element "tr" [] (images.map cell)],
    lineEnd]

-- =========================================================== occurrences

/-- A line of source under its number. -/
def codeLine (reported : Bool) (number : Nat) (line : String) : List Html :=
  let content :=
    [classed "span" "lineno" (Text.padLeft 4 (toString number)), fixed " ", text line]
  if reported then [element "span" [attr "class" "errorline"] content, lineEnd]
  else content ++ [lineEnd]

/-- The lines around a line of source, where the text has it. -/
def codeBlock (contents : String) (line : Nat) : List Html :=
  let lines := Text.lines contents
  if lines.length ≤ line then []
  else
    let first := line - codeWindow
    let shown := (lines.drop first).take (line + codeWindow + 1 - first)
    [element "pre" [attr "class" "errorlines"]
        (lineEnd :: (shown.zipIdx first).flatMap fun (source, index) =>
          codeLine (index == line) (index + 1) source),
      lineEnd]

/-- The address of a file, of its copy if there is one. -/
def fileUrl? (options : PageOptions) (copies : Copies) (file : Path) : Option String :=
  (copies.bundle.bind (·.url? file)).or (options.urls.urlFor? file)

/-- Where a finding is, with a link if the file has an address. -/
def locationOf (options : PageOptions) (copies : Copies) (w : Warning) : List Html :=
  match w.path.or (w.file.map options.paths.display) with
  | none => []
  | some path =>
    let shown := match w.file.bind (fileUrl? options copies) with
      | some url => element "a" [attr "href" url] [text path]
      | none => text path
    let line := match w.line with
      | some n => [fixed (toString (n + 1) ++ ":")]
      | none => []
    [element "span" [attr "class" "location"] ([shown, fixed ":"] ++ line), fixed " "]

/-- What is shown between a finding's place and its source. -/
def messageOf (images : List Image) (w : Warning) : List Html :=
  let message := classed "span" "message" w.message
  match images with
  | [image] =>
    [void "img"
        [attr "class" "single", attr "border" "0", attr "align" "right", attr "src" image.url] " />",
      message, void "br" [attr "clear" "right"] "/>", lineEnd]
  | _ => [message, lineBreak, lineEnd]

/-- A finding on the page. -/
def occurrence (options : PageOptions) (copies : Copies) (w : Warning) : Html × Copies :=
  let (images, copies) := images options copies w
  let code := match w.contents, w.line with
    | some contents, some line => codeBlock contents line
    | _, _ => []
  let table := if 1 < images.length then imageTable images else []
  (element "div" [attr "class" "occurrence"]
    (lineEnd :: locationOf options copies w ++ messageOf images w ++ code ++ table), copies)

/-- Findings on the page, in order. -/
def occurrences (options : PageOptions) (copies : Copies) : List Warning → List Html × Copies
  | [] => ([], copies)
  | w :: more =>
    let (first, copies) := occurrence options copies w
    let (rest, copies) := occurrences options copies more
    (first :: rest, copies)

/-- Blocks that are being written one after the other: those that are shown,
and the hidden ones once they have begun. -/
structure Folding where
  shown : List Html
  hidden : Option (List Html)

/-- Writes pieces behind what is there. -/
def Folding.put (f : Folding) (pieces : List Html) : Folding :=
  match f.hidden with
  | none => { f with shown := f.shown ++ pieces }
  | some inside => { f with hidden := some (inside ++ pieces) }

/-- Begins the hidden blocks, behind the button that shows them. -/
def Folding.fold (f : Folding) (id : String) (rest : Nat) : Folding :=
  let button :=
    element "button"
      [⟨"id", "", id, "Link"⟩, ⟨"onclick", "reveal('", id, "');"⟩]
      [fixed ("+ " ++ toString rest ++ " More Occurrences...")]
  { f.put [button, lineEnd] with hidden := some [lineEnd] }

/-- Writes blocks, of which there are `count` and `place` stand before. -/
def foldFrom (simple : Bool) (id : String) (count : Nat) (place : Nat) (f : Folding) :
    List Html → Folding
  | [] => f
  | block :: more =>
    let f :=
      if !simple && place == splitLimit && splitLimit < count then
        f.fold id (count - splitLimit)
      else f
    foldFrom simple id count (place + 1) (f.put [block, lineEnd]) more

/-- The blocks of an issue; in full mode, what exceeds the limit is hidden
until a button is pressed. -/
def foldedBlocks (simple : Bool) (id : String) (blocks : List Html) : List Html :=
  let f := foldFrom simple id blocks.length 0 ⟨[], none⟩ blocks
  if !simple && splitLimit < blocks.length then
    f.shown
      ++ [element "div" [attr "id" id, attr "style" "display: none"] (f.hidden.getD []), lineEnd]
  else f.shown

-- ============================================================== sections

def severityClass : Severity → String
  | .error => "error"
  | .warning => "warning"
  | .informational | .ignore => "info"

/-- An explanation with its lines broken. -/
def explanation (s : String) : List Html :=
  ((Text.split '\n' (Text.wrap explanationWidth s)).map fun line => [text line]).intersperse
    [lineBreak, lineEnd] |>.flatten

/-- What an issue means. -/
def metadata (issue : Issue) (severity : Severity) : Html :=
  let line := fun (content : List Html) => content ++ [lineBreak, lineEnd]
  let moreInfo := match issue.moreInfo with
    | some link =>
      [element "div" [attr "class" "moreinfo"]
          [fixed "More info: ", element "a" [attr "href" link] [text link]],
        lineEnd]
    | none => []
  element "div" [attr "class" "metadata"]
    (lineEnd
      :: line [fixed "Id: ", Html.simple "code" issue.id]
      ++ line [fixed ("Priority: " ++ toString issue.priority ++ " / 10")]
      ++ line [fixed "Category: ", text issue.category.fullName]
      ++ line [fixed "Severity: ", classed "span" (severityClass severity) severity.description]
      ++ [element "div" [attr "class" "explanation"] (explanation issue.explanation), lineEnd]
      ++ moreInfo
      ++ line
        [fixed "To suppress this error, run lint with ",
          element "code" [] [fixed "--disable ", text issue.id]])

/-- The severity that stands for a group: that of its first warning. -/
def groupSeverity (g : Warning.Group) : Severity := (g.warnings.head?.map (·.severity)).getD .warning

/-- The section of an issue. -/
def issueSection (options : PageOptions) (copies : Copies) (g : Warning.Group) : List Html × Copies :=
  let (blocks, copies) := occurrences options copies g.warnings
  let heading :=
    element "h2" [] [classed "span" "id" g.issue.id, fixed ": ", text g.issue.summary]
  ([element "a" [attr "name" g.issue.id] [], lineEnd,
      element "section" [attr "class" "issue"]
        [lineEnd, heading, lineEnd,
          element "div" [attr "class" "warningslist"]
            (lineEnd :: foldedBlocks options.simple g.issue.id blocks),
          lineEnd, metadata g.issue (groupSeverity g), lineEnd],
      lineEnd],
    copies)

/-- The sections of all issues, in order. -/
def sections (options : PageOptions) (copies : Copies) :
    List Warning.Group → List Html × Copies
  | [] => ([], copies)
  | g :: more =>
    let (first, copies) := issueSection options copies g
    let (rest, copies) := sections options copies more
    (first ++ rest, copies)

/-- The rows of the table of contents, with a heading wherever the category
is another than before. -/
def contentsRows (category : String) : List Warning.Group → List Html
  | [] => []
  | g :: more =>
    let fullName := g.issue.category.fullName
    let heading :=
      if fullName == category then []
      else
        [element "tr" []
            [element "td" [attr "colspan" "3", attr "class" "category"] [text fullName]],
          lineEnd]
    let row :=
      element "tr" []
        [classed "td" "count" (toString g.warnings.length),
          element "td" [attr "class" (severityClass (groupSeverity g))] [],
          element "td" []
            [element "a" [⟨"href", "#", g.issue.id, ""⟩] [text g.issue.id], fixed ": ",
              text g.issue.summary]]
    heading ++ [row, lineEnd] ++ contentsRows fullName more

/-- The table of contents. -/
def tableOfContents (groups : List Warning.Group) : List Html :=
  [element "nav" [attr "class" "toc"]
      [lineEnd, element "table" [] (lineEnd :: contentsRows "" groups), lineEnd],
    lineEnd]

-- ================================================================ pages

/-- How many findings there are, as the page says it. -/
def foundLine (errors warnings : Nat) : String :=
  if errors = 0 ∧ warnings = 0 then summary 0 0 else summary errors warnings ++ " found:"

def timestamp (time : String) : Html :=
  classed "p" "timestamp" ("Check performed at " ++ time ++ ".")

/-- What a page says of itself. -/
def pageHead (options : PageOptions) : Html :=
  let script :=
    if options.simple then []
    else
      [fixed "    ", element "script" [] [fixed (joinLines scriptLines)], lineEnd]
  element "head" []
    ([fixed "\n    ", void "meta" [attr "charset" "UTF-8"] ">", fixed "\n    ",
        Html.simple "title" options.title, fixed "\n    ",
        element "style" [] [fixed (joinLines styleLines)], lineEnd]
      ++ script)

def pageHeader (options : PageOptions) (errors warnings : Nat) : Html :=
  element "header" []
    [fixed "\n        ", Html.simple "h1" options.title, fixed "\n        ", timestamp options.time,
      fixed "\n        ", classed "p" "summary" (foundLine errors warnings), fixed "\n    "]

/-- A whole page, after the line that says what it is. -/
def document (children : List Html) : String :=
  "<!DOCTYPE html>\n"
    ++ renderAll [element "html" [attr "lang" "en"] (lineEnd :: children), lineEnd]

/-- The page, with the images copied that it shows. -/
def page (options : PageOptions) (copies : Copies) (errors warnings : Nat)
    (found : List Warning) : String × Copies :=
  let groups := Warning.groupByIssue found
  let contents := if groups.isEmpty then [] else tableOfContents groups
  let (sections, copies) := sections options copies groups
  let body :=
    element "body" []
      ([fixed "\n    ", pageHeader options errors warnings, lineEnd] ++ contents ++ sections)
  (document [pageHead options, lineEnd, body, lineEnd], copies)

/-- The page for a path, where a full page keeps its images beside it. -/
def pageFor (options : PageOptions) (t : FileTree) (target : Path) (errors warnings : Nat)
    (found : List Warning) : String × FileTree :=
  let bundle := if options.simple then none else some (Bundle.forReport target)
  let (content, copies) := page options ⟨bundle, t⟩ errors warnings found
  (content, copies.tree)

end ResourceLint.Report
