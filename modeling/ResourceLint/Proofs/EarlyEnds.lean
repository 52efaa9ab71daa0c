/-
Ends before the check, and what they leave of the files.

A run of the program settles what its words ask for, makes the report files
and then checks and writes (`run_eq`).  Where it ends before the check, the
files are as they were, unless reports were asked for and the files of some
of them were made before one could not be: these are empty afterwards,
whatever was in them (`EndsEarly.alike_run_iff`).  So an early end leaves no
trace exactly when every report file made before the one at fault had been
there and been empty.

The words of `replacingWords` ask for two reports.  The old page is deleted
before the folder of the other report is found to be missing, so that the
run ends with neither report and with an empty page instead of the old one.
-/
import ResourceLint.CommandLine.Program
import ResourceLint.Proofs.Emptying

namespace ResourceLint.CommandLine

open FileTree (Alike Emptied)

variable {s : Surroundings} {words : List String} {outcome : Outcome}

-- ================================================================= phases

/-- What the words come to before any file is made: the options with the
plan for them, or the end of the program. -/
def settle (s : Surroundings) (words : List String) : Except Outcome (Options × Plan) :=
  match Options.ofWords words with
  | .error refused => .error (refusal s refused)
  | .ok o =>
    match o.list, o.explain with
    | some beginning, _ => .error (s.say (listing s.colored .builtIn beginning))
    | none, some ids => .error (explain s .builtIn ids)
    | none, none =>
      if o.files.isEmpty then .error (noFiles s o)
      else
        match plan s .builtIn o with
        | .error message => .error (s.refuse .invalidArguments message)
        | .ok p =>
          match p.files.find? fun file => !s.tree.contains file with
          | some missing => .error (s.refuse .fileTrouble (missing.text ++ " does not exist"))
          | none => .ok (o, p)

/-- What a run comes to before anything is checked: what the check is to be
and the tree with the report files, or the end of the program. -/
def beforeCheck (s : Surroundings) (words : List String) :
    Except Outcome (Options × Plan × FileTree) :=
  match settle s words with
  | .error outcome => .error outcome
  | .ok (o, p) =>
    match Report.perform s.tree ((Target.ofOptions s.tree o).forM Target.prepare) with
    | (some fault, t) => .error { s.refuse .fileTrouble fault.message with tree := t }
    | (none, t) => .ok (o, p, t)

/-- A run ends before the check or goes on with it. -/
theorem run_eq (s : Surroundings) (words : List String) :
    run s words = match beforeCheck s words with
      | .error outcome => outcome
      | .ok (o, p, t) =>
        report s o p (Target.ofOptions s.tree o) t (checkFiles s .builtIn o p t) := by
  unfold run beforeCheck settle
  -- each question that a run may end at is asked once on either side
  cases Options.ofWords words with
  | error refused => rfl
  | ok o =>
      simp only [runWith]
      cases o.list with
      | some beginning => rfl
      | none =>
          cases o.explain with
          | some ids => rfl
          | none =>
              simp only
              split
              · rfl
              · cases plan s .builtIn o with
                | error message => rfl
                | ok p =>
                    simp only [carryOut]
                    cases p.files.find? fun file => !s.tree.contains file with
                    | some missing => rfl
                    | none =>
                        simp only
                        cases Report.perform s.tree
                          ((Target.ofOptions s.tree o).forM Target.prepare) with
                        | mk fault t => cases fault <;> rfl

/-- Whether a run ends before anything is checked. -/
def EndsEarly (s : Surroundings) (words : List String) : Prop :=
  (beforeCheck s words).isOk = false

instance (s : Surroundings) (words : List String) : Decidable (EndsEarly s words) :=
  inferInstanceAs (Decidable (_ = _))

/-- Such a run leaves what it has come to. -/
theorem EndsEarly.beforeCheck_eq (h : EndsEarly s words) :
    beforeCheck s words = .error (run s words) := by
  rw [run_eq]
  unfold EndsEarly at h
  cases hend : beforeCheck s words with
  | error outcome => rfl
  | ok ready =>
      rw [hend] at h
      cases h

/-- No file is touched before the first report file is made. -/
theorem tree_of_settle (h : settle s words = .error outcome) : outcome.tree = s.tree := by
  unfold settle at h
  split at h
  · next refused _ =>
      cases h
      cases refused <;> rfl
  · split at h
    · cases h
      rfl
    · next ids _ _ =>
        cases h
        unfold explain
        split <;> rfl
    · split at h
      · cases h
        rfl
      · split at h
        · cases h
          rfl
        · split at h
          · cases h
            rfl
          · cases h

-- ============================================================ report files

/-- The files that the reports go to, in the order they are made. -/
def reportFiles (t : FileTree) (o : Options) : List Path :=
  (Target.ofOptions t o).filterMap Target.file?

/-- Making the reports is opening their files one after another. -/
theorem forM_prepare (targets : List Target) :
    targets.forM Target.prepare = (targets.filterMap Target.file?).forM Report.openOutput := by
  induction targets with
  | nil => rfl
  | cons target targets ih =>
      have hcons : (target :: targets).forM Target.prepare
          = (do Target.prepare target; targets.forM Target.prepare) := rfl
      rw [hcons, ih]
      unfold Target.prepare
      cases hfile : target.file? with
      | none =>
          rw [List.filterMap_cons_none hfile]
          exact pure_bind _ _
      | some path =>
          rw [List.filterMap_cons_some hfile]
          rfl

/-- The places of the report files that a run makes. -/
def placesMade (s : Surroundings) (words : List String) : List (List String) :=
  match settle s words with
  | .ok (o, _) => Report.placesMade s.tree (reportFiles s.tree o)
  | .error _ => []

/-- What an end before the check leaves. -/
theorem emptied_of_beforeCheck (hwell : s.tree.WellFormed)
    (hend : beforeCheck s words = .error outcome) :
    Emptied (placesMade s words) s.tree outcome.tree := by
  unfold beforeCheck at hend
  unfold placesMade
  cases hsettle : settle s words with
  | error early =>
      rw [hsettle] at hend
      cases hend
      rw [tree_of_settle hsettle]
      exact .nil s.tree
  | ok settled =>
      rw [hsettle] at hend
      have hmade := (Report.perform_forM_openOutput hwell.nested
        (reportFiles s.tree settled.1)).1
      rw [reportFiles, ← forM_prepare] at hmade
      simp only at hend
      split at hend
      · next fault t hperform =>
          rw [hperform] at hmade
          cases hend
          exact hmade
      · cases hend

/-- A run that ends before the check leaves the report files that it made,
empty, and all else as it was: it leaves no trace exactly when these files
had been there and been empty. -/
theorem EndsEarly.alike_run_iff (hwell : s.tree.WellFormed) (hend : EndsEarly s words) :
    Emptied (placesMade s words) s.tree (run s words).tree
      ∧ (Alike s.tree (run s words).tree
        ↔ ∀ names ∈ placesMade s words, s.tree.entry? names = some (.file .empty)) := by
  have hemptied := emptied_of_beforeCheck hwell hend.beforeCheck_eq
  exact ⟨hemptied, hemptied.alike_iff⟩

/-- A check is begun exactly when there is something to check and all
reports have a place. -/
theorem not_endsEarly_iff (hwell : s.tree.WellFormed) :
    ¬ EndsEarly s words ↔ ∃ o p, settle s words = .ok (o, p)
      ∧ ∀ path ∈ reportFiles s.tree o, (s.tree.filePlace? path).isSome := by
  unfold EndsEarly beforeCheck
  cases settle s words with
  | error outcome => simp [Except.isOk, Except.toBool]
  | ok settled =>
      obtain ⟨o, p⟩ := settled
      have hnone := (Report.perform_forM_openOutput hwell.nested (reportFiles s.tree o)).2
      have hbegun : (∃ o' p', (.ok (o, p) : Except Outcome (Options × Plan)) = .ok (o', p')
            ∧ ∀ path ∈ reportFiles s.tree o', (s.tree.filePlace? path).isSome)
          ↔ ∀ path ∈ reportFiles s.tree o, (s.tree.filePlace? path).isSome := by
        constructor
        · rintro ⟨_, _, ⟨rfl⟩, hplaces⟩
          exact hplaces
        · exact fun hplaces => ⟨o, p, rfl, hplaces⟩
      rw [hbegun, ← hnone, reportFiles, ← forM_prepare]
      simp only
      cases Report.perform s.tree ((Target.ofOptions s.tree o).forM Target.prepare) with
      | mk fault t => cases fault <;> simp [Except.isOk, Except.toBool]

-- ========================================================= the old report

/-- A project beside a report of an earlier run. -/
def earlierReport : FileTree :=
  { here := ["ROOT"]
    entries :=
      [(["ROOT"], .directory),
        (["ROOT", "app"], .directory),
        (["ROOT", "app", "AndroidManifest.xml"], .file "<manifest/>".toUTF8),
        (["ROOT", "old.html"], .file "previous report".toUTF8)] }

theorem wellFormed_earlierReport : earlierReport.WellFormed :=
  { isName := by decide +kernel
    nodup := by decide +kernel
    parents := by decide +kernel
    here := rfl }

/-- What surrounds a run beside that report. -/
def besideReport : Surroundings :=
  { tree := earlierReport, home := none, lowDensity := false, colored := false, time := "" }

/-- The words of a command line for two reports, where there is no folder for
the second of them. -/
def replacingWords : List String := ["--html", "old.html", "--xml", "missing/out.xml", "app"]

/-- Words for two reports where there is no folder for the first. -/
def keepingWords : List String := ["--simplehtml", "missing/out.html", "--xml", "old.html", "app"]

/-- The report that cannot be made is tried first, and the old one is kept. -/
theorem alike_run_keepingWords :
    EndsEarly besideReport keepingWords ∧ (run besideReport keepingWords).code = -3
      ∧ Alike earlierReport (run besideReport keepingWords).tree := by
  have hend : EndsEarly besideReport keepingWords := by decide +kernel
  have hnone : placesMade besideReport keepingWords = [] := by decide +kernel
  obtain ⟨-, halike⟩ := hend.alike_run_iff wellFormed_earlierReport
  refine ⟨hend, by decide +kernel, halike.mpr ?_⟩
  rw [hnone]
  simp

/-- An early end may leave a trace: the old page is deleted before the other
report is found to have no place. -/
theorem not_alike_run_replacingWords :
    ¬ ∀ (s : Surroundings) (words : List String), s.tree.WellFormed → EndsEarly s words →
      (run s words).code ∈ [-2, -3, -5] → Alike s.tree (run s words).tree := by
  intro hall
  have halike := hall besideReport replacingWords wellFormed_earlierReport (by decide +kernel)
    (by decide +kernel)
  have hchanged : FileTree.entry? (run besideReport replacingWords).tree ["ROOT", "old.html"]
      ≠ earlierReport.entry? ["ROOT", "old.html"] := by decide +kernel
  exact hchanged (halike.entry _)

end ResourceLint.CommandLine
