/-
What detectors may report, and that they report nothing else.

A detector runs when one of the issues it serves is enabled and needs no
more than the scope of the run.  It may serve others that are not: reports
under those would be refused.  A detector `Asks` before it reports under
one of several issues; one that serves a single issue need not ask, since
it would not run without it.

The rest is an induction over what a run does.  A job `Permits` an issue
that is known, enabled and within its scope; the detectors that are created
for the job obey it (`obeys_of_mem_activate`), every step of a script leaves
a progress that is `Rightful`, and so does every check, ended or not.
-/
import ResourceLint.Proofs.Noninterference

namespace ResourceLint

-- ============================================= asking before reporting

/-- Everything that is reported is under an issue that is enabled. -/
def Emission.Allowed (c : Context) (es : List Emission) : Prop :=
  ∀ f, .report f ∈ es → c.isEnabled f.issue

namespace Emission

variable {c : Context}

theorem allowed_nil (c : Context) : Allowed c [] := fun _ h => by cases h

/-- What is allowed stays so with more of it. -/
theorem Allowed.append {s t : List Emission} (hs : Allowed c s) (ht : Allowed c t) :
    Allowed c (s ++ t) := by
  intro f hf
  rcases List.mem_append.mp hf with hf | hf
  · exact hs f hf
  · exact ht f hf

/-- A report that is made only where its issue is enabled. -/
theorem allowed_gate {f : Finding} {issue : String} (hissue : f.issue = issue) (b : Bool) :
    Allowed c (if c.isEnabled issue && b then [.report f] else []) := by
  intro g hg
  split at hg
  · next h =>
      cases List.mem_singleton.mp hg
      rw [hissue]
      exact (Bool.and_eq_true_iff.mp h).1
  · cases hg

/-- A report behind the gate of its own issue is allowed. -/
theorem allowed_enabled {f : Finding} {issue : String} (hissue : f.issue = issue) :
    Allowed c (if c.isEnabled issue then [.report f] else []) := by
  simpa only [Bool.and_true] using allowed_gate hissue true

end Emission

namespace Detector

variable {d : Detector} {issues : List String}

/-- A detector asks whether an issue is enabled before it reports it, unless
it serves no other. -/
def Asks (d : Detector) (issues : List String) : Prop :=
  ∀ memory c call f, .report f ∈ (d.react memory c call).2 →
    c.isEnabled f.issue ∨ issues = [f.issue]

/-- There is nothing to ask with a single issue. -/
theorem Reports.asks {id : String} (h : d.Reports [id]) : d.Asks [id] := by
  intro memory c call f hf
  obtain ⟨f', heq, hissue⟩ := h memory c call _ hf
  cases heq
  rw [List.mem_singleton.mp hissue]
  exact Or.inr rfl

/-- A detector asks when all of its answers are allowed. -/
theorem asks_of_allowed
    (h : ∀ memory c call, Emission.Allowed c (d.react memory c call).2) : d.Asks issues :=
  fun memory c call f hf => Or.inl (h memory c call f hf)

end Detector

/-- Each of the two reports on a dimension asks for its issue. -/
theorem Dimension.asks : detector.Asks [pxIssue.id, spIssue.id] := by
  refine Detector.asks_of_allowed fun memory c call => ?_
  cases call with
  | «attribute» doc e a =>
      rw [react_attribute]
      exact (Emission.allowed_gate (by rfl) _).append (Emission.allowed_gate (by rfl) _)
  | _ => exact Emission.allowed_nil c

theorem UselessView.asks : detector.Asks [parentIssue.id, leafIssue.id] := by
  refine Detector.asks_of_allowed fun memory c call => ?_
  cases call with
  | element doc e =>
      rw [react_element]
      exact (Emission.allowed_gate (by rfl) _).append (Emission.allowed_gate (by rfl) _)
  | _ => exact Emission.allowed_nil c

namespace Manifest

open Emission (Allowed allowed_nil allowed_enabled)

variable {memory : Memory} {c : Context} {doc : Xml.Document} {element : Xml.Element}

/-- A report on an element of the manifest asks first. -/
theorem allowed_reportElement (issue : Issue) (message : String) :
    Allowed c (reportElement c element issue message) :=
  allowed_enabled rfl

/-- A visit of a `uses-sdk` asks for the issue it reports. -/
theorem allowed_visitUsesSdk (count : Nat) : Allowed c (visitUsesSdk c doc element count) := by
  unfold visitUsesSdk
  split
  · exact allowed_enabled rfl
  · split
    · exact allowed_nil c
    · exact allowed_reportElement _ _

/-- A visit out of order asks for its issue. -/
theorem allowed_visitInOrder : Allowed c (visitInOrder memory c element).2 := by
  unfold visitInOrder
  split
  · exact allowed_nil c
  · split
    · exact allowed_reportElement _ _
    · exact allowed_nil c

/-- Every visit does. -/
theorem allowed_visitElement : Allowed c (visitElement memory c doc element).2 := by
  unfold visitElement
  split
  · split
    · exact allowed_nil c
    · exact allowed_reportElement _ _
  · split
    · exact allowed_reportElement _ _
    · split
      · simp only
        split
        · exact allowed_visitUsesSdk _
        · exact (allowed_visitUsesSdk _).append allowed_visitInOrder
      · exact allowed_visitInOrder

/-- The manifest's detector asks for all of its issues. -/
theorem asks : detector.Asks issueIds := by
  refine Detector.asks_of_allowed fun memory c call => ?_
  cases call with
  | element doc e => exact allowed_visitElement
  | afterFile =>
      change Allowed c (react memory c .afterFile).2
      unfold react
      simp only
      split
      · next h =>
          intro f hf
          cases List.mem_singleton.mp hf
          exact (Bool.and_eq_true_iff.mp h).2
      · exact allowed_nil c
  | _ => exact allowed_nil c

end Manifest

namespace Icons

/-- The comparison of folders asks for each of its halves. -/
theorem allowed_compareFolders (c : Context) : Emission.Allowed c (compareFolders c) := by
  unfold compareFolders
  simp only
  split
  · exact Emission.allowed_nil c
  · split
    · exact Emission.allowed_nil c
    · refine Emission.Allowed.append (fun f hf => ?_) fun f hf => ?_
      · split at hf
        · next h =>
            obtain ⟨g, heq, hissue, -⟩ := mem_reportMissingFolders hf
            cases heq
            rwa [hissue]
        · cases hf
      · split at hf
        · next h =>
            obtain ⟨g, heq, hissue, -⟩ := mem_reportCoverage hf
            cases heq
            rwa [hissue]
        · cases hf

/-- The detector of icons asks. -/
theorem asks : detector.Asks [densitiesIssue.id, missingFolderIssue.id] := by
  refine Detector.asks_of_allowed fun memory c call => ?_
  cases call with
  | afterProject => exact allowed_compareFolders c
  | _ => exact Emission.allowed_nil c

end Icons

/-- The built-in detectors ask. -/
theorem Registry.asks_builtIn : ∀ reg ∈ builtIn.registrations, reg.detector.Asks reg.issues := by
  intro reg hreg
  rw [registrations_builtIn] at hreg
  simp only [builtInRegistrations, List.mem_cons, List.not_mem_nil, or_false] at hreg
  rcases hreg with rfl | rfl | rfl | rfl | rfl | rfl | rfl | rfl
  · exact HardcodedText.isLocal.reports.asks
  · exact Dimension.asks
  · exact DuplicateIds.isLocal.reports.asks
  · exact Manifest.asks
  · exact UselessView.asks
  · exact UnusedResources.conforms.reports.asks
  · exact Icons.asks
  · exact ShrinkingRules.isLocal.reports.asks

/-- A detector runs on account of an issue. -/
theorem Registry.exists_mem_activeIssues {r : Registry} {isEnabled : Issue → Bool} {scope : Scope}
    {reg : Registration} {a : ActiveDetector} (h : r.activate? isEnabled scope reg = some a) :
    ∃ issue, issue ∈ r.activeIssues isEnabled scope reg := by
  cases hlist : r.activeIssues isEnabled scope reg with
  | nil =>
      unfold activate? at h
      rw [hlist] at h
      cases h
  | cons issue more => exact ⟨issue, List.mem_cons_self⟩

namespace Run.Job

-- ======================================================= what is permitted

variable {job : Job} {p q : Progress}

/-- Whether an issue may be reported: it is known, enabled and needs no more
than the scope. -/
def Permits (job : Job) (id : String) : Prop :=
  ∃ issue, job.registry.issue? id = some issue ∧ job.configuration.isEnabled issue
    ∧ issue.scope.isSubset job.scope

/-- A detector that is told which issues the job enables reports those that
are permitted. -/
def Obeys (job : Job) (d : Detector) : Prop :=
  ∀ memory c call f, c.isEnabled = job.isEnabled → .report f ∈ (d.react memory c call).2 →
    job.Permits f.issue

/-- The detectors that are created for a job obey it. -/
theorem obeys_of_mem_activate (horderly : job.registry.Orderly)
    (hasks : ∀ reg ∈ job.registry.registrations, reg.detector.Asks reg.issues)
    {a : ActiveDetector}
    (ha : a ∈ job.registry.activate job.configuration.isEnabled job.scope) :
    job.Obeys a.detector := by
  intro memory c call f hc hf
  obtain ⟨reg, hreg, ha⟩ := List.mem_filterMap.mp ha
  obtain ⟨active, hactive⟩ := Registry.exists_mem_activeIssues ha
  obtain ⟨⟨hmem, hknown⟩, hscope, henabled⟩ := Registry.mem_activeIssues.mp hactive
  rw [(Registry.of_activate? ha).1] at hf
  rcases hasks reg hreg memory c call f hf with hasked | hsingle
  · -- the issue is enabled; its scope is that of the one on whose account the detector runs
    obtain ⟨f', heq, hserved⟩ := (horderly.conforms reg hreg).reports memory c call _ hf
    cases heq
    rw [hc] at hasked
    unfold isEnabled at hasked
    cases hissue : job.registry.issue? f.issue with
    | none =>
        rw [hissue] at hasked
        cases hasked
    | some issue =>
        rw [hissue] at hasked
        have hid := Registry.id_of_issue? hissue
        rw [← hid] at hissue hserved
        refine ⟨issue, hid ▸ hissue, hasked, ?_⟩
        rwa [horderly.scopes reg hreg issue active hissue hknown hserved hmem]
  · rw [hsingle, List.mem_singleton] at hmem
    exact ⟨active, hmem ▸ hknown, henabled, hscope⟩

/-- A warning as the job gives it: about a known issue, with the severity of
the configuration, which is one. -/
structure Warrants (job : Job) (w : Warning) : Prop where
  directory : w.projectDirectory = some job.project.directory
  severity : w.severity = job.configuration.severity w.issue
  reported : w.severity ≠ .ignore
  /-- parse errors need no scope -/
  scope : w.issue.id ≠ Registry.parserErrorId → w.issue.scope.isSubset job.scope

/-- The warning for a finding is as the job gives it, where the issue is one
of parse errors or permitted. -/
theorem warrants_of_warningOf? {sources : List (Path × String)} {f : Finding} {w : Warning}
    (h : job.warningOf? sources f = some w)
    (hf : f.issue = Registry.parserErrorId ∨ job.Permits f.issue) : job.Warrants w := by
  unfold warningOf? at h
  cases hissue : job.registry.issue? f.issue with
  | none =>
      rw [hissue] at h
      cases h
  | some issue =>
      rw [hissue] at h
      simp only [Option.bind_eq_bind, Option.bind_some] at h
      split at h
      · cases h
      · next hseverity =>
          cases h
          refine ⟨rfl, rfl, hseverity, fun hid => ?_⟩
          rw [Registry.id_of_issue? hissue] at hid
          obtain ⟨issue', hissue', -, hscope⟩ := hf.resolve_left hid
          cases hissue.symm.trans hissue'
          exact hscope

-- ==================================================== rightful progress

/-- From one point of a run to another nothing was refused, and what was
reported is as the job gives it. -/
structure Rightful (job : Job) (p q : Progress) : Prop where
  refused : q.refused = p.refused
  warnings : ∀ w ∈ q.warnings, w ∈ p.warnings ∨ job.Warrants w

theorem Rightful.refl (p : Progress) : Rightful job p p := ⟨rfl, fun _ h => Or.inl h⟩

/-- Stretches of a run that are rightful make a rightful one. -/
theorem Rightful.trans {r : Progress} (hpq : Rightful job p q) (hqr : Rightful job q r) :
    Rightful job p r :=
  ⟨hqr.refused.trans hpq.refused, fun w hw => (hqr.warnings w hw).elim (hpq.warnings w) Or.inr⟩

/-- What a job permits it enables. -/
theorem Permits.isEnabled {id : String} (h : job.Permits id) : job.isEnabled id := by
  obtain ⟨issue, hissue, henabled, -⟩ := h
  unfold Job.isEnabled
  rw [hissue]
  exact henabled

/-- What is enabled is not refused. -/
theorem refused_foldl_emit {es : List Emission}
    (h : ∀ f, .report f ∈ es → job.isEnabled f.issue) :
    (es.foldl job.emit p).refused = p.refused := by
  induction es generalizing p with
  | nil => rfl
  | cons e es ih =>
      rw [List.foldl_cons, ih fun f hf => h f (List.mem_cons_of_mem _ hf)]
      cases e with
      | note text => rfl
      | cancel => rfl
      | report f =>
          have hmade : (job.warningOf? p.sources f).isNone = false := by
            rw [Option.isNone_eq_false_iff, isSome_warningOf?]
            exact h f List.mem_cons_self
          simp [emit, hmade]

/-- A call tells its detector what the job enables. -/
def Informs (job : Job) (step : Step) : Prop :=
  ∀ context who made, step = .call context who made → context.isEnabled = job.isEnabled

/-- One step of a script leaves a rightful progress. -/
theorem rightful_perform {step : Step} (hstep : job.Informs step)
    (hactive : ∀ a ∈ p.active, job.Obeys a.detector) : Rightful job p (job.perform p step) where
  refused := by
    rcases step with ⟨file, text, _ | ids⟩ | ⟨file, e⟩ | ⟨context, who, made⟩
    · rfl
    · rfl
    · rw [perform, reportFault_eq]
    · change (job.call context p who made).refused = _
      cases ha : p.active[who]? with
      | none => rw [call_of_none ha]
      | some a =>
          rw [call_of_some ha, refused_foldl_emit]
          -- a detector told which issues are enabled reports no other
          intro f hf
          exact (hactive a (List.mem_of_getElem? ha) _ context made f
            (hstep context who made rfl) hf).isEnabled
  warnings := by
    intro w hw
    rw [warnings_perform] at hw
    refine (List.mem_append.mp hw).imp_right fun hw => ?_
    obtain ⟨f, hf, hmade⟩ := List.mem_filterMap.mp hw
    refine warrants_of_warningOf? hmade ?_
    cases step with
    | opened => cases hf
    | fault file e =>
        rw [List.mem_singleton.mp hf]
        exact Or.inl rfl
    -- what a call reports is permitted, since its detector obeys
    | call context who made =>
        obtain ⟨a, ha, hreport⟩ := report_of_mem_findingsOf hf
        exact Or.inr (hactive a (List.mem_of_getElem? ha) _ context made f
          (hstep context who made rfl) hreport)

/-- Every call of a script tells what the job enables. -/
theorem informs_script (cast : List ActiveDetector) :
    ∀ step ∈ job.script cast, job.Informs step := by
  rintro step hstep context who made rfl
  obtain ⟨_, _, _, rfl⟩ := context_of_mem_script hstep
  rfl

/-- Rested detectors obey as those that remember something do. -/
theorem obeys_of_map_rested {cast : List ActiveDetector} (hcast : ∀ a ∈ cast, job.Obeys a.detector)
    (hp : p.active.map ActiveDetector.rested = cast.map ActiveDetector.rested) :
    ∀ a ∈ p.active, job.Obeys a.detector := by
  intro a ha
  obtain ⟨b, hb, heq⟩ := List.mem_map.mp (hp ▸ List.mem_map_of_mem ha)
  have hdetector : b.detector = a.detector := congrArg (·.detector) heq
  rw [← hdetector]
  exact hcast b hb

/-- Steps that tell what the job enables leave a rightful progress. -/
theorem rightful_foldl_perform {steps : List Step} (hsteps : ∀ step ∈ steps, job.Informs step)
    (hactive : ∀ a ∈ p.active, job.Obeys a.detector) :
    Rightful job p (steps.foldl job.perform p) := by
  induction steps generalizing p with
  | nil => exact Rightful.refl p
  | cons step steps ih =>
      have hfirst := rightful_perform (hsteps step List.mem_cons_self) hactive
      refine hfirst.trans (ih (fun step hstep => hsteps step (List.mem_cons_of_mem _ hstep)) ?_)
      exact obeys_of_map_rested hactive (map_rested_perform step)

/-- A check leaves a rightful progress, whenever it is ended. -/
theorem rightful_check (hactive : ∀ a ∈ p.active, job.Obeys a.detector) :
    Rightful job p (job.check p) := by
  obtain ⟨done, hdone, hcheck, -, -⟩ := @exists_check_eq_foldl job p
  rw [hcheck]
  refine rightful_foldl_perform (fun step hstep => ?_) hactive
  exact informs_script _ step (hdone.subset hstep)

end Run.Job

-- ======================================================= all severities

/-- The configuration that gives these issues these severities. -/
def Configuration.ofChoice (issues : List Issue) (choice : Issue → Severity) : Configuration :=
  .overridden ⟨issues.map fun issue => (issue.id, choice issue), []⟩ .builtIn

/-- A configuration may give issues any severities. -/
theorem Configuration.severity_ofChoice {issues : List Issue}
    (hids : (issues.map (·.id)).Nodup) (choice : Issue → Severity) {issue : Issue}
    (h : issue ∈ issues) : (ofChoice issues choice).severity issue = choice issue := by
  have hlookup : (issues.map fun issue => (issue.id, choice issue)).lookup issue.id
      = some (choice issue) := by
    induction issues with
    | nil => cases h
    | cons first issues ih =>
        rw [List.map_cons, List.nodup_cons] at hids
        rcases List.mem_cons.mp h with rfl | h
        · simp
        · have hne : issue.id ≠ first.id := fun heq =>
            hids.1 (List.mem_map.mpr ⟨issue, h, heq⟩)
          rw [List.map_cons, List.lookup_cons, beq_eq_false_iff_ne.mpr hne]
          exact ih hids.2 h
  unfold ofChoice severity Overrides.severity?
  simp [hlookup]

namespace Session

variable {s : Session} {host : Host} {files : List Path} {scope : Option Scope}

/-- Issues may have any severities in the projects of a run. -/
theorem exists_configurations (hids : (s.registry.issues.map (·.id)).Nodup) (host : Host)
    (files : List Path) (choice : Path → Issue → Severity) :
    ∃ configurations, ∀ project ∈ projectsFor host files, ∀ issue ∈ s.registry.issues,
      ({ s with configurations }.configuration host.tree project.directory).1.severity issue
        = choice project.directory issue := by
  refine ⟨(projectsFor host files).map fun project =>
    (project.directory, .ofChoice s.registry.issues (choice project.directory)), ?_⟩
  intro project hproject issue hissue
  have hknown : known? ((projectsFor host files).map fun project => (project.directory,
        Configuration.ofChoice s.registry.issues (choice project.directory))) project.directory
      = some (project.directory, .ofChoice s.registry.issues (choice project.directory)) := by
    unfold known?
    rw [List.find?_map]
    exact congrArg (Option.map _)
      (Project.find?_directory (Project.apart_ofInputs _ _) hproject)
  rw [configuration_of_some hknown]
  exact Configuration.severity_ofChoice hids _ hissue

-- ========================================================== the contract

/-- A warning as the job of one of these projects gives it. -/
def WarrantedIn (s : Session) (host : Host) (files : List Path) (scope : Option Scope)
    (checked : List CheckedProject) (w : Warning) : Prop :=
  ∃ project ∈ projectsFor host files, ⟨project.name, project.directory⟩ ∈ checked
    ∧ (s.jobFor host scope (s.pathsFor host files) project).Warrants w

/-- In a run of detectors that ask, whenever it is ended, nothing is refused
and every warning is as the job of its project gives it. -/
theorem rightful_course (horderly : s.registry.Orderly)
    (hasks : ∀ reg ∈ s.registry.registrations, reg.detector.Asks reg.issues) :
    (s.course host files scope).progress.refused = []
      ∧ ∀ w ∈ (s.course host files scope).progress.warnings,
        s.WarrantedIn host files scope (s.course host files scope).projects w := by
  refine course_induction (P := fun p checked => p.refused = []
    ∧ ∀ w ∈ p.warnings, s.WarrantedIn host files scope checked w) ?_ ⟨rfl, fun _ h => by cases h⟩
  rintro project hproject p checked - ⟨hrefused, hwarnings⟩
  have hcheck := Run.Job.rightful_check
    (p := begun (s.jobFor host scope (s.pathsFor host files) project) p) fun a ha =>
      Run.Job.obeys_of_mem_activate horderly hasks ha
  refine ⟨hcheck.refused.trans hrefused, fun w hw => ?_⟩
  rcases hcheck.warnings w hw with hold | hnew
  · obtain ⟨other, hother, hmem, hwarrants⟩ := hwarnings w hold
    exact ⟨other, hother, List.mem_append_left _ hmem, hwarrants⟩
  · exact ⟨project, hproject, List.mem_append_right _ (List.mem_singleton.mpr rfl), hnew⟩

/-- Warnings that are reported at all are errors or they are not. -/
theorem length_isError_add_isWarning {warnings : List Warning}
    (h : ∀ w ∈ warnings, w.severity ≠ .ignore) :
    (warnings.filter (·.isError)).length + (warnings.filter (·.isWarning)).length
      = warnings.length := by
  have hother : warnings.filter (·.isWarning) = warnings.filter (!·.isError) := by
    refine List.filter_congr fun w hw => ?_
    have hreported := h w hw
    unfold Warning.isWarning Warning.isError
    cases hseverity : w.severity with
    | ignore => exact absurd hseverity hreported
    | _ => rfl
  rw [hother, ← List.length_eq_length_filter_add]

/-- The contract between a run and its detectors. -/
structure KeepsContract (s : Session) (host : Host) (files : List Path) (scope : Option Scope)
    (r : RunResult) : Prop where
  /-- no report is under an issue that is not known or not enabled -/
  refused : r.refused = []
  /-- a warning has the severity that its project gives its issue, and needs
  no more than the scope of its project; parse errors need none -/
  warnings : ∀ w ∈ r.warnings, ∃ project ∈ projectsFor host files,
    ⟨project.name, project.directory⟩ ∈ r.projects
      ∧ w.projectDirectory = some project.directory
      ∧ w.severity = (s.configuration host.tree project.directory).1.severity w.issue
      ∧ w.severity ≠ .ignore
      ∧ (w.issue.id ≠ Registry.parserErrorId →
        w.issue.scope.isSubset (scope.getD project.inferScope))
  counted : r.errorCount + r.warningCount = r.warnings.length
  fails : r.exitCode = -1 ↔ ∃ w ∈ r.warnings, w.severity = .error

/-- No built-in detector breaks the contract, whatever severities the issues
have in each project, and whenever the run is ended. -/
theorem keepsContract_analyze (hregistry : s.registry = .builtIn) (host : Host)
    (files : List Path) (scope : Option Scope) :
    (∀ choice : Path → Issue → Severity, ∃ configurations,
        ∀ project ∈ projectsFor host files, ∀ issue ∈ s.registry.issues,
          ({ s with configurations }.configuration host.tree project.directory).1.severity issue
            = choice project.directory issue)
      ∧ s.KeepsContract host files scope (s.analyze host files scope).1 := by
  have hids : (s.registry.issues.map (·.id)).Nodup := by
    rw [hregistry]
    exact (Registry.perm_issues_builtIn.map _).nodup_iff.mpr Registry.nodup_ids_builtIn
  -- nothing is refused in any course; sorting keeps what was found
  obtain ⟨hrefused, hwarranted⟩ := rightful_course (hregistry ▸ Registry.orderly_builtIn)
    (hregistry ▸ Registry.asks_builtIn)
  have hwarnings : ∀ w ∈ (s.analyze host files scope).1.warnings,
      s.WarrantedIn host files scope (s.analyze host files scope).1.projects w :=
    fun w hw => hwarranted w ((List.mergeSort_perm _ _).mem_iff.mp hw)
  refine ⟨exists_configurations hids host files, ?_⟩
  exact
    { refused := hrefused
      warnings := fun w hw => by
        obtain ⟨project, hproject, hchecked, hwarrants⟩ := hwarnings w hw
        exact ⟨project, hproject, hchecked, hwarrants.directory, hwarrants.severity,
          hwarrants.reported, hwarrants.scope⟩
      counted := length_isError_add_isWarning fun w hw => by
        obtain ⟨_, -, -, hwarrants⟩ := hwarnings w hw
        exact hwarrants.reported
      fails := by
        have hcount : (s.analyze host files scope).1.errorCount
            = ((s.analyze host files scope).1.warnings.filter (·.isError)).length := rfl
        unfold RunResult.exitCode RunResult.hasFatal
        rw [hcount]
        simp [List.length_pos_iff, List.filter_eq_nil_iff, Warning.isError] }

/-- A project with a layout, in which sizes in pixels are errors. -/
theorem keepsContract_oneLayout :
    let host := Host.ofTree (oneLayout "severity: PxUsage=ERROR") fun _ => false
    projectsFor host [⟨"/ROOT/app"⟩] = [.new ⟨"/ROOT/app"⟩ none]
      ∧ ((new .builtIn none ⟨[], [], none⟩ default).configuration host.tree
          ⟨"/ROOT/app"⟩).1.severity Dimension.pxIssue = .error
      ∧ (new .builtIn none ⟨[], [], none⟩ default).KeepsContract host [⟨"/ROOT/app"⟩] none
          ((new .builtIn none ⟨[], [], none⟩ default).analyze host [⟨"/ROOT/app"⟩] none).1 :=
  ⟨by decide +kernel, by decide +kernel, (keepsContract_analyze rfl _ _ _).2⟩

end Session

end ResourceLint
