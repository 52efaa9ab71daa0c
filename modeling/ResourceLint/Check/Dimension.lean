/-
Dimensions in pixels, and text sizes that do not follow the user's.

Digits are those of any script; the exemption of zero goes by the digit 0
in front.
-/
import ResourceLint.Detector
import ResourceLint.Text.Digit

namespace ResourceLint.Dimension

def pxIssue : Issue :=
  Issue.withMoreInfo
    (.new "PxUsage" "Looks for use of the \"px\" dimension"
      ("For performance reasons and to keep the code simpler, the Android system uses pixels as "
        ++ "the standard unit for expressing dimension or coordinate values. That means that the "
        ++ "dimensions of a view are always expressed in the code using pixels, but always based "
        ++ "on the current screen density. Use \"dp\" in layouts so that views scale with the "
        ++ "screen density.")
      .correctness 2 .warning .resourceFileOnly)
    "http://developer.android.com/guide/practices/screens_support.html#screen-independence"

def spIssue : Issue :=
  .new "SpUsage" "Looks for uses of \"dp\" instead of \"sp\" dimensions for text sizes"
    ("When setting text sizes, you should normally use \"sp\", or \"scale-independent pixels\". "
      ++ "This is like the dp unit, but it is also scaled by the user's font size preference.\n\n"
      ++ "There *are* cases where you might need to use \"dp\"; typically this happens when the "
      ++ "text is in a container with a specific dp-size.")
    .correctness 3 .warning .resourceFileOnly

/-- The unit of a value that is one or more digits and a rest. -/
def unit? (value : String) : Option String :=
  let cs := value.toList
  if (cs.takeWhile Text.isDigit).isEmpty then none
  else some (String.ofList (cs.dropWhile Text.isDigit))

def isPixels (value : String) : Bool := unit? value == some "px"

def isDensityIndependent (value : String) : Bool :=
  unit? value == some "dp" || unit? value == some "dip"

/-- The issue that an attribute raises, and what is said. -/
def verdict? (context : Context) (a : Xml.Attribute) : Option (Issue × String) :=
  if isPixels a.value then
    if a.value.toList.head? == some '0' || !context.isEnabled pxIssue.id then none
    else some (pxIssue, "Avoid using \"px\" as units; use \"dp\" instead")
  else if a.localName == "textSize" && isDensityIndependent a.value
      && context.isEnabled spIssue.id then
    some (spIssue, "Should use \"sp\" instead of \"dp\" for text sizes")
  else none

def react (memory : Memory) (context : Context) : Call → Memory × List Emission
  | .attribute document element a =>
    match verdict? context a with
    | some (issue, message) =>
      (memory, [.report (.at (context.attributePlace document element a) issue.id message)])
    | none => (memory, [])
  | _ => (memory, [])

def detector : Detector :=
  { Detector.silent "PxUsageDetector" with attributes := .all, react }

end ResourceLint.Dimension
