/-
Text in layouts that should be a reference to a resource.
-/
import ResourceLint.Detector

namespace ResourceLint.HardcodedText

def issue : Issue :=
  .new "HardcodedText"
    "Looks for hardcoded text attributes which should be converted to resource lookup"
    ("Hardcoding text attributes directly in layout files is bad for several reasons:\n\n"
      ++ "* When creating configuration variations (for example for landscape or portrait) "
      ++ "you have to repeat the actual text (and keep it up to date when making changes)\n\n"
      ++ "* The application cannot be translated to other languages by just adding new "
      ++ "translations for existing string resources.")
    .internationalization 5 .warning .resourceFileOnly

/-- Whether a value is text of its own, and no reference. -/
def isLiteral (value : String) : Bool :=
  match value.toList with
  | [] => false
  | c :: _ => c != '@' && c != '?'

def react (memory : Memory) (context : Context) : Call → Memory × List Emission
  | .attribute document element a =>
    if isLiteral a.value && a.uri == some androidUri then
      let message := "[I18N] Hardcoded string \"" ++ a.value ++ "\", should use @string resource"
      (memory, [.report (.at (context.attributePlace document element a) issue.id message)])
    else (memory, [])
  | _ => (memory, [])

def detector : Detector :=
  { Detector.silent "HardcodedTextDetector" with
    appliesToFolder := (· == .layout)
    attributes := .names ["text", "contentDescription", "hint", "label", "prompt"]
    react }

end ResourceLint.HardcodedText
