/-
Where the warnings of a run come from.

Every warning was made of a finding, and every finding has an `Origin` in
the script of its project: a file that could not be parsed, or a call that
a detector answered with it.  The finding then lies in a file that the
script `Shows` to this detector, or in one that no run opens.

Detectors report places that they remember from earlier calls, so the
origin of a finding is told together with an invariant of what is
remembered: in the middle of a script every detector `Recalls` places in
files that it was shown.  A step keeps this, whoever it calls, and what it
finds has an origin (`Recalls.perform`, `Recalls.origin`); a check
and a course add up the steps, whenever they are ended
(`accounts_of_mem_check`, `accounts_of_mem_course`).
-/
import ResourceLint.Proofs.Contract
import ResourceLint.Proofs.ParseErrors

namespace ResourceLint

/-- Whoever is called for a document wants files of its kind. -/
theorem Visitor.mem_all_of_mem_calls {candidates : List (ActiveDetector × Nat)}
    {folder : Option FolderType} {document : Xml.Document} {who : Nat} {made : Call}
    (h : (who, made) ∈ (Visitor.new candidates folder).calls document) :
    who ∈ (Visitor.new candidates folder).all := by
  by_contra hnot
  rw [new_eq_ofSeats, all_ofSeats] at hnot
  have hnobody : ∀ a, (a, who) ∈ candidates → wants folder a.detector = false := by
    intro a ha
    by_contra hwants
    refine hnot (List.mem_map.mpr ⟨(a.detector, who), ?_, rfl⟩)
    refine List.mem_map.mpr ⟨(a, who), List.mem_filter.mpr ⟨ha, ?_⟩, rfl⟩
    exact eq_true_of_ne_false hwants
  have hmade : made ∈ callsTo who ((Visitor.new candidates folder).calls document) :=
    List.mem_map.mpr ⟨(who, made), List.mem_filter.mpr ⟨h, by simp⟩, rfl⟩
  rw [callsTo_calls_of_not_wants hnobody] at hmade
  cases hmade

namespace Run.Job

variable {job : Job} {cast : List ActiveDetector} {all : List Step} {p : Progress}

-- ===================================================== the origin of a finding

/-- Steps show a file to the detector at a place when some call to it comes
with the text of the file. -/
def Shows (steps : List Step) (who : Nat) (file : Path) : Prop :=
  ∃ context made, .call context who made ∈ steps ∧ context.contents.isSome ∧ context.file = file

/-- Where a finding comes from, in the steps of a check. -/
inductive Origin (steps : List Step) (cast : List ActiveDetector) (f : Finding) : Prop
  /-- a file could not be parsed -/
  | fault {file : Path} {e : Xml.ParseError} (hstep : .fault file e ∈ steps)
      (hf : f = parseFinding file e)
  /-- a detector answered a call, in a file that it was shown -/
  | call {context : Context} {who : Nat} {made : Call} {a : ActiveDetector} {memory : Memory}
      (hstep : .call context who made ∈ steps) (ha : cast[who]? = some a)
      (hreport : .report f ∈ (a.detector.react memory context made).2)
      (hplace : Shows steps who f.place.file ∨ isOpenable f.place.file = false)

/-- In the middle of some steps, what the detectors of a cast remember lies
in files that the steps show to them. -/
structure Recalls (all : List Step) (cast : List ActiveDetector) (p : Progress) : Prop where
  cast : p.active.map ActiveDetector.rested = cast
  shown : ∀ who a, p.active[who]? = some a →
    ∀ entry ∈ a.memory.defined, Shows all who entry.2.file

namespace Recalls

/-- The detector at a place is the one that was cast. -/
theorem getElem? (h : Recalls all cast p) {who : Nat} {a : ActiveDetector}
    (ha : p.active[who]? = some a) : cast[who]? = some a.rested := by
  rw [← h.cast, List.getElem?_map, ha]
  rfl

variable {context : Context} {who : Nat} {made : Call} {a : ActiveDetector}

/-- How a detector answers that recalls what it was shown. -/
theorem react (h : Recalls all cast p) (hcast : ∀ a ∈ cast, a.detector.Places)
    (hstep : .call context who made ∈ all) (hapt : Apt (context, made))
    (ha : p.active[who]? = some a) :
    (∀ entry ∈ (a.detector.react a.memory context made).1.defined, Shows all who entry.2.file)
      ∧ ∀ f, .report f ∈ (a.detector.react a.memory context made).2 →
          Shows all who f.place.file ∨ isOpenable f.place.file = false := by
  have hplaces : a.detector.Places := hcast a.rested (List.mem_of_getElem? (h.getElem? ha))
  exact hplaces (Shows all who) a.memory context made (h.shown who a ha) hapt fun hsome =>
    ⟨context, made, hstep, hsome, rfl⟩

/-- Detectors recall what they were shown after another step. -/
theorem perform (h : Recalls all cast p) (hcast : ∀ a ∈ cast, a.detector.Places) {step : Step}
    (hstep : step ∈ all)
    (hapt : ∀ context who made, step = .call context who made → Apt (context, made)) :
    Recalls all cast (job.perform p step) := by
  refine ⟨by rw [map_rested_perform, h.cast], fun who a ha => ?_⟩
  rw [active_perform] at ha
  cases step with
  | opened => exact h.shown who a ha
  | fault => exact h.shown who a ha
  | call context reached made =>
      cases hreached : p.active[reached]? with
      | none =>
          rw [remembering, hreached] at ha
          exact h.shown who a ha
      | some b =>
          rw [remembering, hreached] at ha
          -- a call reaches one detector; the others recall what they did
          by_cases hwho : reached = who
          · subst hwho
            obtain ⟨hlt, -⟩ := List.getElem?_eq_some_iff.mp hreached
            rw [List.getElem?_set_self hlt] at ha
            cases ha
            exact (h.react hcast hstep (hapt _ _ _ rfl) hreached).1
          · rw [List.getElem?_set_ne hwho] at ha
            exact h.shown who a ha

/-- What a step finds has its origin in the steps. -/
theorem origin (h : Recalls all cast p) (hcast : ∀ a ∈ cast, a.detector.Places) {step : Step}
    (hstep : step ∈ all)
    (hapt : ∀ context who made, step = .call context who made → Apt (context, made))
    {f : Finding} (hf : f ∈ findingsOf p.active step) : Origin all cast f := by
  cases step with
  | opened => cases hf
  | fault file e => exact .fault hstep (List.mem_singleton.mp hf)
  | call context who made =>
      obtain ⟨a, ha, hreport⟩ := report_of_mem_findingsOf hf
      exact .call hstep (h.getElem? ha) hreport
        ((h.react hcast hstep (hapt _ _ _ rfl) ha).2 f hreport)

end Recalls

/-- Calls without a text are about the project as a whole. -/
theorem apt_of_mem_sound {host : Host} {steps : List Step} {sources : List (Path × String)}
    (h : Sound host sources steps) {context : Context} {who : Nat} {made : Call}
    (hstep : .call context who made ∈ steps) : Apt (context, made) := by
  induction steps generalizing sources with
  | nil => cases hstep
  | cons step steps ih =>
      rcases List.mem_cons.mp hstep with rfl | hrest
      · exact h.1.1
      · cases step with
        | opened => exact ih h.2 hrest
        | fault => exact ih h.2 hrest
        | call => exact ih h.2 hrest

/-- What is reported in the course of some of the steps has its origin in
them. -/
theorem origin_of_mem_foldl_perform (hcast : ∀ a ∈ cast, a.detector.Places)
    (hapt : ∀ context who made, .call context who made ∈ all → Apt (context, made))
    (steps : List Step) (hsteps : steps ⊆ all) (h : Recalls all cast p) {w : Warning}
    (hw : w ∈ (steps.foldl job.perform p).warnings) :
    w ∈ p.warnings ∨ ∃ sources f, job.warningOf? sources f = some w ∧ Origin all cast f := by
  induction steps generalizing p with
  | nil => exact Or.inl hw
  | cons step steps ih =>
      have hstep : step ∈ all := hsteps List.mem_cons_self
      have hcalls : ∀ context who made, step = .call context who made → Apt (context, made) :=
        fun context who made heq => hapt context who made (heq ▸ hstep)
      rcases ih (fun _ h => hsteps (List.mem_cons_of_mem _ h)) (h.perform hcast hstep hcalls) hw
        with hw | hw
      · rw [warnings_perform] at hw
        refine (List.mem_append.mp hw).imp_right fun hw => ?_
        obtain ⟨f, hf, hmade⟩ := List.mem_filterMap.mp hw
        exact ⟨p.sources, f, hmade, h.origin hcast hstep hcalls hf⟩
      · exact Or.inr hw

-- ==================================================== the origin of a warning

/-- A job accounts for a warning that is made of a finding of its script. -/
def Accounts (job : Job) (w : Warning) : Prop :=
  ∃ sources f, job.warningOf? sources f = some w
    ∧ Origin (job.script job.detectors) job.detectors f

/-- The detectors of a job over an orderly registry report where they were
told. -/
theorem places_of_mem_detectors (horderly : job.registry.Orderly) {a : ActiveDetector}
    (ha : a ∈ job.detectors) : a.detector.Places := by
  obtain ⟨reg, hreg, hdetector, -⟩ := Registry.mem_activate ha
  rw [hdetector]
  exact (horderly.conforms reg hreg).places

/-- A job accounts for what its check reports, whenever that is ended. -/
theorem accounts_of_mem_check (horderly : job.registry.Orderly)
    (hactive : p.active = job.detectors) {w : Warning} (hw : w ∈ (job.check p).warnings) :
    w ∈ p.warnings ∨ job.Accounts w := by
  obtain ⟨done, hdone, hcheck, -, -⟩ := @exists_check_eq_foldl job p
  rw [hactive, map_rested_detectors] at hdone
  rw [hcheck] at hw
  have hsound : Sound job.host [] (job.script job.detectors) := sound_script
  refine origin_of_mem_foldl_perform (fun a ha => places_of_mem_detectors horderly ha)
    (fun context who made hstep => apt_of_mem_sound hsound hstep) done hdone.subset
    ⟨?_, fun who a ha entry hentry => ?_⟩ hw
  · rw [hactive, map_rested_detectors]
  · rw [hactive] at ha
    obtain ⟨reg, -, -, hmemory⟩ := Registry.mem_activate (List.mem_of_getElem? ha)
    rw [hmemory] at hentry
    cases hentry

-- =================================================== what an origin tells

/-- A detector that answers with a finding runs on account of its issue. -/
theorem mem_issues_of_report (horderly : job.registry.Orderly)
    (hasks : ∀ reg ∈ job.registry.registrations, reg.detector.Asks reg.issues)
    {a : ActiveDetector} (ha : a ∈ job.detectors) {memory : Memory} {context : Context}
    {made : Call} (hcontext : context.isEnabled = job.isEnabled) {f : Finding}
    (hreport : .report f ∈ (a.detector.react memory context made).2) : f.issue ∈ a.issues := by
  obtain ⟨issue, hissue, henabled, hscope⟩ :=
    obeys_of_mem_activate horderly hasks ha memory context made f hcontext hreport
  obtain ⟨reg, hreg, ha⟩ := List.mem_filterMap.mp ha
  rw [(Registry.of_activate? ha).1] at hreport
  obtain ⟨f', heq, hserved⟩ := (horderly.conforms reg hreg).reports memory context made _ hreport
  cases heq
  rw [Registry.issues_of_activate? ha]
  refine List.mem_map.mpr ⟨issue, Registry.mem_activeIssues.mpr ⟨⟨?_, ?_⟩, hscope, henabled⟩, ?_⟩
  · rwa [Registry.id_of_issue? hissue]
  · rwa [Registry.id_of_issue? hissue]
  · exact Registry.id_of_issue? hissue

/-- No detector runs on account of parse errors. -/
theorem parserErrorId_notMem_issues (horderly : job.registry.Orderly) {a : ActiveDetector}
    (ha : a ∈ job.detectors) : Registry.parserErrorId ∉ a.issues := by
  intro hmem
  obtain ⟨reg, hreg, ha⟩ := List.mem_filterMap.mp ha
  rw [Registry.issues_of_activate? ha] at hmem
  obtain ⟨issue, hissue, hid⟩ := List.mem_map.mp hmem
  exact horderly.parserError reg hreg (hid ▸ (Registry.mem_activeIssues.mp hissue).1.1)

end Run.Job

namespace Session

variable {s : Session} {host : Host} {files : List Path} {scope : Option Scope}

/-- The job of some project accounts for every warning of a run, whenever it
is ended. -/
theorem accounts_of_mem_course (horderly : s.registry.Orderly) :
    ∀ w ∈ (s.course host files scope).progress.warnings,
      ∃ project ∈ projectsFor host files, (s.jobOf host scope files project).Accounts w := by
  refine course_induction (P := fun p _ => ∀ w ∈ p.warnings,
    ∃ project ∈ projectsFor host files, (s.jobOf host scope files project).Accounts w) ?_
    fun _ h => by cases h
  intro project hproject p _ _ hwarnings w hw
  rcases Run.Job.accounts_of_mem_check horderly rfl hw with hold | hnew
  · exact hwarnings w hold
  · exact ⟨project, hproject, hnew⟩

/-- The project of a warning is the one whose job accounts for it. -/
theorem accounts_of_mem_analyze (horderly : s.registry.Orderly) {project : Project}
    (hproject : project ∈ projectsFor host files) {w : Warning}
    (hw : w ∈ (s.analyze host files scope).1.warnings)
    (hdirectory : w.projectDirectory = some project.directory) :
    (s.jobOf host scope files project).Accounts w := by
  have hcourse : w ∈ (s.course host files scope).progress.warnings :=
    (List.mergeSort_perm _ _).mem_iff.mp hw
  obtain ⟨other, hother, haccounts⟩ := accounts_of_mem_course horderly w hcourse
  obtain ⟨sources, f, hmade, -⟩ := id haccounts
  have hsame : other = project := by
    by_contra hne
    have htold := (Run.Job.tells_of_warningOf? hmade).directory
    rw [hdirectory] at htold
    exact directory_ne hproject hother (Ne.symm hne) (Option.some.inj htold)
  rwa [hsame] at haccounts

end Session

end ResourceLint
