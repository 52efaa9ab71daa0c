/-
A rule in a project's shrinking configuration that early templates got
wrong.
-/
import ResourceLint.Detector

namespace ResourceLint.ShrinkingRules

def issue : Issue :=
  Issue.withMoreInfo
    (.new "Proguard" "Looks for problems in proguard.cfg files"
      ("Using -keepclasseswithmembernames in a proguard.cfg file is not correct; it can cause "
        ++ "some symbols to be renamed which should not be.\nEarlier versions of ADT used to "
        ++ "create proguard.cfg files with the wrong format. Instead of "
        ++ "-keepclasseswithmembernames use -keepclasseswithmembers, since the old flags also "
        ++ "implies \"allow shrinking\" which means symbols only referred to from XML and not "
        ++ "Java (such as possibly CustomViews) can get deleted.")
      .correctness 8 .error .proguardOnly)
    "http://code.google.com/p/android/issues/detail?id=16384"

/-- The rule that should not be there. -/
def obsoleteRule : String :=
  "-keepclasseswithmembernames class * \x7b\n    public <init>(android."

/-- The place of a byte, its line and column counted by line feeds alone
and the column in bytes. -/
def placeAfter (before : List Char) : Position :=
  { line := before.count '\n'
    column := some (Text.byteSize (before.reverse.takeWhile (· != '\n')))
    offset := Text.byteSize before }

def check (context : Context) : List Emission :=
  match context.contents.bind fun text => Text.cut? obsoleteRule.toList text.toList with
  | some (before, _) =>
    let place : Place :=
      { file := context.file, start := some (placeAfter before), stop := none, message := none }
    let message :=
      "Obsolete proguard file; use -keepclasseswithmembers instead of -keepclasseswithmembernames"
    [.report (.at place issue.id message)]
  | none => []

def react (memory : Memory) (context : Context) : Call → Memory × List Emission
  | .plainFile => (memory, check context)
  | _ => (memory, [])

def detector : Detector :=
  { Detector.silent "ProguardDetector" with
    appliesToFile := fun file => file.fileName? == some proguardName
    react }

end ResourceLint.ShrinkingRules
