/-
Containers in layouts that could be left out.
-/
import ResourceLint.Detector

namespace ResourceLint.UselessView

def parentIssue : Issue :=
  .new "UselessParent" "Checks whether a parent layout can be removed."
    ("A layout with children that has no siblings, is not a scrollview or a root layout, and does "
      ++ "not have a background, can be removed and have its children moved directly into the "
      ++ "parent for a flatter and more efficient layout hierarchy.")
    .performance 2 .warning .resourceFileOnly

def leafIssue : Issue :=
  .new "UselessLeaf" "Checks whether a leaf layout can be removed."
    ("A layout that has no children or no background can often be removed (since it is invisible) "
      ++ "for a flatter and more efficient layout hierarchy.")
    .performance 2 .warning .resourceFileOnly

/-- The elements that hold other views. -/
def containers : List String :=
  ["android.gesture.GestureOverlayView", "AbsoluteLayout", "FrameLayout", "GridLayout", "GridView",
    "HorizontalScrollView", "ImageSwitcher", "LinearLayout", "RadioGroup", "RelativeLayout",
    "ScrollView", "SlidingDrawer", "StackView", "TabHost", "TableLayout", "TableRow",
    "TextSwitcher", "ViewAnimator", "ViewFlipper", "ViewSwitcher"]

/-- The parents that need the container they hold. -/
def keepingParents : List String := ["ScrollView", "HorizontalScrollView", "merge"]

/-- Whether a container with children is alone in a parent that does not
need it. -/
def isUselessParent (element : Xml.Element) : Bool :=
  element.parent?.any fun parent =>
    !keepingParents.contains parent.name && parent.childElements.length == 1

def parentMessage (element : Xml.Element) : String :=
  let parent := (element.parent?.map (·.name)).getD ""
  let verdict :=
    if element.hasAttributeIn androidUri "id" then " parent is possibly useless"
    else " parent is useless"
  "This " ++ element.name ++ " layout or its " ++ parent ++ verdict

/-- Whether a container without children can neither be seen nor be found. -/
def isUselessLeaf (element : Xml.Element) : Bool :=
  !(element.hasAttributeIn androidUri "id" || element.hasAttributeIn androidUri "background")

def leafMessage (element : Xml.Element) : String :=
  "This " ++ element.name ++ " view is useless (no children, no background, no id)"

def react (memory : Memory) (context : Context) : Call → Memory × List Emission
  | .element _ element =>
    let report := fun (issue : Issue) (message : String) =>
      (memory, [Emission.report (.at (context.elementPlace element) issue.id message)])
    if element.childElements.isEmpty then
      if context.isEnabled leafIssue.id && isUselessLeaf element then
        report leafIssue (leafMessage element)
      else (memory, [])
    else if context.isEnabled parentIssue.id && isUselessParent element then
      report parentIssue (parentMessage element)
    else (memory, [])
  | _ => (memory, [])

def detector : Detector :=
  { Detector.silent "UselessViewDetector" with
    appliesToFolder := (· == .layout)
    elements := .names containers
    react }

end ResourceLint.UselessView
