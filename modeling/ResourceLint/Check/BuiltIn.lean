/-
The registry of all checks that come with the program.
-/
import ResourceLint.Check.Dimension
import ResourceLint.Check.DuplicateIds
import ResourceLint.Check.HardcodedText
import ResourceLint.Check.Icons
import ResourceLint.Check.Manifest
import ResourceLint.Check.ShrinkingRules
import ResourceLint.Check.UnusedResources
import ResourceLint.Check.UselessView
import ResourceLint.Registry

namespace ResourceLint.Registry

/-- Registers the built-in detectors with their issues. -/
def Draft.withBuiltIn (draft : Draft) : Draft :=
  let entries : List (Detector × List Issue) :=
    [(HardcodedText.detector, [HardcodedText.issue]),
      (Dimension.detector, [Dimension.pxIssue, Dimension.spIssue]),
      (DuplicateIds.detector, [DuplicateIds.issue]),
      (Manifest.detector,
        [Manifest.orderIssue, Manifest.minSdkIssue, Manifest.multipleUsesSdkIssue,
          Manifest.wrongParentIssue]),
      (UselessView.detector, [UselessView.parentIssue, UselessView.leafIssue]),
      (UnusedResources.detector, [UnusedResources.issue]),
      (Icons.detector, [Icons.densitiesIssue, Icons.missingFolderIssue]),
      (ShrinkingRules.detector, [ShrinkingRules.issue])]
  entries.foldl (fun draft (detector, issues) => draft.detector detector.name issues detector) draft

/-- The registry with every built-in check. -/
def builtIn : Registry := Draft.new.withBuiltIn.build

end ResourceLint.Registry
