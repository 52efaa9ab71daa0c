/-
Ids that are given to two elements of one layout.
-/
import ResourceLint.Assoc
import ResourceLint.Detector

namespace ResourceLint.DuplicateIds

def issue : Issue :=
  .new "DuplicateIds" "Checks for duplicate ids within a single layout"
    ("Within a layout, id's should be unique since otherwise findViewById() can return an "
      ++ "unexpected view.")
    .layout 7 .warning .resourceFileOnly

/-- Reports an id that is defined already, and remembers one that is not. -/
def visitId (memory : Memory) (place : Place) (id : String) : Memory × List Emission :=
  match memory.defined.lookup ("id", id) with
  | some first =>
    let original : Place := { first with message := some (id ++ " originally defined here") }
    let message := "Duplicate id " ++ id ++ ", already defined earlier in this layout"
    (memory,
      [.report { Finding.at place issue.id message with further := [original] }])
  | none => ({ memory with defined := memory.defined ++ [(("id", id), place)] }, [])

def react (memory : Memory) (context : Context) : Call → Memory × List Emission
  | .beforeFile => ({ memory with defined := [] }, [])
  | .attribute document element a =>
    if a.uri == some androidUri && a.value != "" then
      visitId memory (context.attributePlace document element a) a.value
    else (memory, [])
  | _ => (memory, [])

def detector : Detector :=
  { Detector.silent "DuplicateIdDetector" with
    appliesToFolder := fun folder => folder == .layout || folder == .menu
    attributes := .names ["id"]
    react }

end ResourceLint.DuplicateIds
