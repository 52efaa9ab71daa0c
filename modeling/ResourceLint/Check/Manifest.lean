/-
The structure of a manifest: which elements belong where, in which order,
and how often.
-/
import ResourceLint.Detector

namespace ResourceLint.Manifest

def orderIssue : Issue :=
  .new "ManifestOrder"
    "Checks for manifest problems like <uses-sdk> after the <application> tag"
    ("The <application> tag should appear after the elements which declare which version you "
      ++ "need, which features you need, which libraries you need, and so on. In the past there "
      ++ "have been subtle bugs (such as themes not getting applied correctly) when the "
      ++ "<application> tag appears before some of these other elements, so it's best to order "
      ++ "your manifest in the logical dependency order.")
    .correctness 5 .warning .manifestOnly

def usesSdkLink : String :=
  "http://developer.android.com/guide/topics/manifest/uses-sdk-element.html"

def minSdkIssue : Issue :=
  Issue.withMoreInfo
    (.new "UsesMinSdkAttributes" "Checks that the minimum SDK attribute is specified"
      ("The manifest should contain a <uses-sdk> element which defines the minimum API Level "
        ++ "required for the application to run.")
      .correctness 2 .warning .manifestOnly)
    usesSdkLink

def multipleUsesSdkIssue : Issue :=
  Issue.withMoreInfo
    (.new "MultipleUsesSdk" "Checks that the <uses-sdk> element appears at most once"
      ("The <uses-sdk> element should appear just once; the tools will *not* merge the contents "
        ++ "of all the elements so if you split up the attributes across multiple elements, only "
        ++ "one of them will take effect. To fix this, just merge all the attributes from the "
        ++ "various elements into a single <uses-sdk> element.")
      .correctness 6 .error .manifestOnly)
    usesSdkLink

def wrongParentIssue : Issue :=
  Issue.withMoreInfo
    (.new "WrongManifestParent"
      "Checks that various manifest elements are declared in the right place"
      ("The <uses-library> element should be defined as a direct child of the <application> tag, "
        ++ "not the <manifest> tag or an <activity> tag. Similarly, a <uses-sdk> tag much be "
        ++ "declared at the root level, and so on. This check looks for incorrect declaration "
        ++ "locations in the manifest, and complains if an element is found in the wrong place.")
      .correctness 6 .error .manifestOnly)
    "http://developer.android.com/guide/topics/manifest/manifest-intro.html"

/-- The elements that belong right inside the application. -/
def applicationChildren : List String :=
  ["uses-library", "activity", "service", "provider", "receiver"]

/-- The elements that belong right inside the root. -/
def rootChildren : List String :=
  ["application", "uses-permission", "permission", "permission-tree", "permission-group",
    "uses-sdk", "uses-configuration", "uses-feature", "supports-screens", "compatible-screens",
    "supports-gl-texture"]

/-- Reports an element, where the issue is enabled. -/
def reportElement (context : Context) (element : Xml.Element) (issue : Issue) (message : String) :
    List Emission :=
  if context.isEnabled issue.id then
    [.report (.at (context.elementPlace element) issue.id message)]
  else []

/-- Reports a second `uses-sdk`, together with every other one. -/
def reportSecond (context : Context) (document : Xml.Document) (element : Xml.Element) :
    List Emission :=
  if context.isEnabled multipleUsesSdkIssue.id then
    let others := (document.elementsNamed "uses-sdk").filter (·.span != element.span)
    let message :=
      "There should only be a single <uses-sdk> element in the manifest: merge these together"
    let finding := Finding.at (context.elementPlace element) multipleUsesSdkIssue.id message
    let further := others.map fun other =>
      { context.elementPlace other with message := some "Also appears here" }
    [.report { finding with further }]
  else []

/-- What a `uses-sdk` right inside the root leads to, when so many of them
have come by; the second of them is looked at no further. -/
def visitUsesSdk (context : Context) (document : Xml.Document) (element : Xml.Element)
    (count : Nat) : List Emission :=
  if count = 2 then reportSecond context document element
  else if element.hasAttributeIn androidUri "minSdkVersion" then []
  else
    reportElement context element minSdkIssue
      "<uses-sdk> tag should specify a minimum API level with android:minSdkVersion=\"?\""

/-- Follows the order of the elements inside the root; what comes first
after the application is reported, and nothing after that until the next
application. -/
def visitInOrder (memory : Memory) (context : Context) (element : Xml.Element) :
    Memory × List Emission :=
  if element.name == "application" then ({ memory with passed := true }, [])
  else if memory.passed then
    ({ memory with passed := false },
      reportElement context element orderIssue
        ("<" ++ element.name ++ "> tag appears after <application> tag"))
  else (memory, [])

def visitElement (memory : Memory) (context : Context) (document : Xml.Document)
    (element : Xml.Element) : Memory × List Emission :=
  if applicationChildren.contains element.name then
    if element.parent?.any (·.name == "application") then (memory, [])
    else
      (memory,
        reportElement context element wrongParentIssue
          ("The <" ++ element.name
            ++ "> element must be a direct child of the <application> element"))
  else if !element.parent?.any (·.isRoot) then
    (memory,
      reportElement context element wrongParentIssue
        ("The <" ++ element.name
          ++ "> element must be a direct child of the <manifest> root element"))
  else if element.name == "uses-sdk" then
    let memory := { memory with count := memory.count + 1 }
    let found := visitUsesSdk context document element memory.count
    if memory.count = 2 then (memory, found)
    else
      let (memory, more) := visitInOrder memory context element
      (memory, found ++ more)
  else visitInOrder memory context element

def react (memory : Memory) (context : Context) : Call → Memory × List Emission
  | .beforeFile => ({ memory with passed := false, count := 0 }, [])
  | .element document element => visitElement memory context document element
  | .afterFile =>
    if memory.count = 0 && context.isEnabled minSdkIssue.id then
      let message :=
        "Manifest should specify a minimum API level with <uses-sdk android:minSdkVersion=\"?\" "
          ++ "/>; if it really supports all versions of Android set it to 1."
      (memory, [.report (.at context.filePlace minSdkIssue.id message)])
    else (memory, [])
  | _ => (memory, [])

def detector : Detector :=
  { Detector.silent "ManifestOrderDetector" with
    elements := .names (rootChildren ++ applicationChildren)
    react }

end ResourceLint.Manifest
