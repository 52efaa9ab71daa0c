/-
What the program leaves of a proper tree.

All that the program does to a tree is a writing (`Report.KeepsProper`): a
change of one file or of a directory, or writings in a row, of which the
first that fails is the last.  Whether it fails or not, the tree stays proper,
and so does the tree in which the images of a page are copied
(`Report.proper_pageFor`).  A run prepares its targets and writes its reports,
and nothing else, so a tree is as proper after it as before (`proper_run`).
-/
import ResourceLint.Proofs.Disks
import ResourceLint.Proofs.EarlyEnds
import ResourceLint.Proofs.Printing

namespace ResourceLint

-- ================================================================= images

/-- A tree stays proper when an image is copied in it, or is not. -/
theorem Bundle.proper_add (b : Bundle) {t : FileTree} (h : t.Proper) (file : Path) :
    (b.add t file).2.2.Proper := by
  unfold add
  split
  · exact h
  · exact h
  · split
    · exact h
    · next name _ =>
        change (b.store t file name).2.2.Proper
        unfold store
        cases hmake : t.makeDirectory b.directory with
        | error fault => exact h
        | ok u =>
            have hmade := h.makeDirectory hmake
            simp only
            cases hcopy : u.copy file (b.directory.child name) with
            | error fault => exact hmade
            | ok v => exact hmade.copy hcopy

namespace Report

variable {writing first second : ExceptT WriteFault (StateM FileTree) Unit}

/-- A tree stays proper when the images of a page are copied in it. -/
theorem proper_pageFor (options : PageOptions) {t : FileTree} (h : t.Proper) (target : Path)
    (errors warnings : Nat) (found : List Warning) :
    (pageFor options t target errors warnings found).2.Proper := by
  have himage : ∀ (copies : Copies), copies.tree.Proper → ∀ file,
      (imageUrl options copies file).2.tree.Proper := by
    intro copies h file
    unfold imageUrl
    split
    · exact h
    · cases copies.bundle with
      | none => exact h
      | some bundle =>
          have hadded := bundle.proper_add h file
          simp only
          split <;> exact hadded
  exact @page_keeps options (fun copies => copies.tree.Proper) _ errors warnings found
    (fun _ _ place _ copies hcopies => himage copies hcopies place.file) h

-- =============================================================== writings

/-- A writing that leaves a proper tree proper, whether it fails or not. -/
structure KeepsProper (writing : ExceptT WriteFault (StateM FileTree) Unit) : Prop where
  proper : ∀ t : FileTree, t.Proper → (perform t writing).2.Proper

namespace KeepsProper

theorem nothing : KeepsProper (pure ()) := ⟨fun _ h => h⟩

/-- Where the first writing fails the second is not begun. -/
theorem next (hfirst : KeepsProper first) (hsecond : KeepsProper second) :
    KeepsProper (do first; second) := by
  refine ⟨fun t h => ?_⟩
  have hbetween := hfirst.proper t h
  rw [perform_bind]
  cases hperform : perform t first with
  | mk fault u =>
      rw [hperform] at hbetween
      cases fault with
      | some fault => exact hbetween
      | none => exact hsecond.proper u hbetween

/-- Writings in a row keep what each of them keeps. -/
theorem each {α : Type} {write : α → ExceptT WriteFault (StateM FileTree) Unit}
    (hwrite : ∀ item, KeepsProper (write item)) (items : List α) :
    KeepsProper (items.forM write) := by
  induction items with
  | nil => exact nothing
  | cons item items ih => exact (hwrite item).next ih

/-- A step that fails leaves the tree as it is. -/
theorem of_change {step : FileTree → Except WriteFault FileTree}
    (hstep : ∀ t u : FileTree, t.Proper → step t = .ok u → u.Proper) :
    KeepsProper (change step) := by
  refine ⟨fun t h => ?_⟩
  rw [perform_change]
  cases hdone : step t with
  | error fault => exact h
  | ok u => exact hstep t u h hdone

/-- What stands under the name of a report is deleted, and an empty file is
made. -/
theorem openOutput (path : Path) : KeepsProper (openOutput path) := by
  refine (of_change fun t u h hprepare => ?_).next
    (of_change fun t u h hcreate => h.write (mapError_eq_ok_iff.mp hcreate))
  unfold prepareOutput at hprepare
  split at hprepare
  · exact h.remove (mapError_eq_ok_iff.mp hprepare)
  · cases hprepare
    exact h

theorem writeOutput (path : Path) (text : String) : KeepsProper (writeOutput path text) :=
  of_change fun _ _ h hwrite => h.write (mapError_eq_ok_iff.mp hwrite)

/-- A page is opened, made and written. -/
theorem writePage (options : PagesOptions) (findings : ProjectFindings) (row : ProjectSummary) :
    KeepsProper (writePage options findings row) := by
  unfold Report.writePage
  refine (openOutput (options.directory.child row.file)).next ⟨fun t h => ?_⟩
  -- the page is made in the tree that the opening left, and written into what it leaves
  have hmade := proper_pageFor (optionsFor options row) h (options.directory.child row.file)
    row.errors row.warnings findings.warnings
  have hperform := perform_get_set t
    (fun t => pageFor (optionsFor options row) t (options.directory.child row.file) row.errors
      row.warnings findings.warnings) (Report.writeOutput (options.directory.child row.file))
  exact (congrArg (·.2.Proper) hperform).mpr ((writeOutput _ _).proper _ hmade)

/-- The pages are written into their directory, the index last. -/
theorem writePages (options : PagesOptions) (found : List Warning) :
    KeepsProper (writePages options found) := by
  have hmake : KeepsProper (change fun t => (t.makeDirectory options.directory).mapError .file) :=
    of_change fun _ _ h hmake => h.makeDirectory (mapError_eq_ok_iff.mp hmake)
  have hpage := fun entry : ProjectFindings × ProjectSummary => writePage options entry.1 entry.2
  have hindex := (openOutput (indexPath options.directory)).next
    (writeOutput (indexPath options.directory)
      (index options.time ((pageRows options found).map (·.2))))
  exact hmake.next ((each hpage (pageRows options found)).next hindex)

end KeepsProper

end Report

namespace CommandLine

open Report (KeepsProper)

-- ================================================================== a run

/-- A target is prepared by opening its file, if it has one. -/
theorem Target.keepsProper_prepare (target : Target) : KeepsProper target.prepare := by
  unfold prepare
  cases target.file? with
  | none => exact .nothing
  | some path => exact .openOutput path

/-- One report is a proper writing, whatever its kind. -/
theorem Target.keepsProper_write (s : ReportSettings) (result : RunResult) (gone : List Path)
    (target : Target) : KeepsProper (target.write s result gone) := by
  have hunless : ∀ lost path text, KeepsProper (writeUnless lost path text) := by
    intro lost path text
    unfold writeUnless
    split
    · exact .nothing
    · exact .writeOutput path text
  refine ⟨fun t h => ?_⟩
  cases target with
  | page path simple =>
      exact (hunless _ _ _).proper _ (Report.proper_pageFor (s.page result simple) h path
        result.errorCount result.warningCount result.warnings)
  | pages directory => exact (KeepsProper.writePages _ _).proper t h
  | xml path => exact (hunless _ _ _).proper t h

/-- So are the reports, one after the other. -/
theorem Target.keepsProper_writeAll (s : ReportSettings) (result : RunResult)
    (targets : List Target) : KeepsProper (writeAll s result targets) := by
  unfold writeAll
  exact .each (keepsProper_write s result _) targets

variable {s : Surroundings} {words : List String}

/-- Before anything is checked, targets are prepared at most. -/
theorem proper_beforeCheck (h : s.tree.Proper) :
    match beforeCheck s words with
    | .error outcome => outcome.tree.Proper
    | .ok (_, _, t) => t.Proper := by
  unfold beforeCheck
  cases hsettle : settle s words with
  | error outcome =>
      change outcome.tree.Proper
      rw [tree_of_settle hsettle]
      exact h
  | ok settled =>
      have hprepared := (KeepsProper.each Target.keepsProper_prepare
        (Target.ofOptions s.tree settled.1)).proper s.tree h
      cases hperform : Report.perform s.tree
          ((Target.ofOptions s.tree settled.1).forM Target.prepare) with
      | mk fault t =>
          rw [hperform] at hprepared
          simp only [hperform]
          cases fault <;> exact hprepared

/-- A report leaves the tree proper, written or printed. -/
theorem proper_report {t : FileTree} (h : t.Proper) (o : Options) (p : Plan)
    (targets : List Target) (result : RunResult) : (report s o p targets t result).tree.Proper := by
  have hwritten := (Target.keepsProper_writeAll ⟨p.urls, s.time⟩ result targets).proper t h
  unfold report
  split
  · exact h
  · cases hperform : Report.perform t (Target.writeAll ⟨p.urls, s.time⟩ result targets) with
    | mk fault u =>
        rw [hperform] at hwritten
        cases fault <;> exact hwritten

/-- However a run ends, it leaves a proper tree proper. -/
theorem proper_run (h : s.tree.Proper) (words : List String) : (run s words).tree.Proper := by
  have hbefore := @proper_beforeCheck s words h
  rw [run_eq]
  cases hend : beforeCheck s words with
  | error outcome =>
      rw [hend] at hbefore
      exact hbefore
  | ok ready =>
      rw [hend] at hbefore
      exact proper_report hbefore _ _ _ _

end CommandLine

end ResourceLint
