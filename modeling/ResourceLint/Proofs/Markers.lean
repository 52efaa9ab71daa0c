/-
What a run says it is about to find anew.

Where single files were asked for, a run tells its listener of every file of
markup that it opens, and then that what is known of certain issues in this
file is about to be found anew.  A listener that keeps what earlier runs
found goes by this: it drops what it is told of, and takes the warnings of
the run instead.

The issues are those of the detectors that want the file, and a detector
points into a file of markup only when it was called for it.  So they cover
every warning in the file, whoever reports it and whenever it does, but for
one kind: parse errors are found by the run itself, no detector serves them,
and no such event lists them (`clears_analyze_iff`).
-/
import ResourceLint.Proofs.Origins

namespace ResourceLint

namespace Visitor

variable {v : Visitor} {active : List ActiveDetector} {id : String}

/-- The issues of a visitor are those of the detectors it serves. -/
theorem mem_issueIds : id ∈ v.issueIds active
    ↔ ∃ who ∈ v.all, ∃ a, active[who]? = some a ∧ id ∈ a.issues := by
  unfold issueIds
  rw [List.mem_flatMap]
  refine exists_congr fun who => and_congr_right fun _ => ?_
  cases active[who]? <;> simp

end Visitor

namespace Run

/-- The listener is told that certain issues in a file are about to be found
anew, right after it is told of the file. -/
def Clears (events : List Event) (file : Path) (ids : List String) : Prop :=
  [.file file, .clear file ids] <:+: events

namespace Job

variable {job : Job} {p : Progress}

-- ====================================================== what a script tells

/-- A file that is opened with issues to clear is told of so. -/
theorem clears_of_opened_mem {steps : List Step} {file : Path} {text : String}
    {ids : List String} (h : .opened file text (some ids) ∈ steps) :
    Clears (steps.flatMap eventsOf) file ids := by
  obtain ⟨before, after, rfl⟩ := List.append_of_mem h
  refine ⟨before.flatMap eventsOf, after.flatMap eventsOf, ?_⟩
  rw [List.flatMap_append, List.flatMap_cons, ← List.append_assoc]
  rfl

-- =================================================== what has to be told

/-- A file that could not be parsed was opened with issues to clear, where
single files were asked for. -/
theorem exists_opened_of_fault {cast : List ActiveDetector}
    (hsubset : job.project.subset.isSome) {file : Path} {e : Xml.ParseError}
    (h : .fault file e ∈ job.script cast) :
    ∃ text ids, .opened file text (some ids) ∈ job.script cast := by
  rcases mem_script h with ⟨_, _, heq⟩ | ⟨found, folder, test, -, hmarkup, hall⟩ | hrules
  · cases heq
  · obtain ⟨text, cleared, hopened, hcleared, hkind⟩ := mem_markupSteps hmarkup
    obtain heq | ⟨e', heq⟩ | ⟨_, _, _, -, -, heq⟩ := hkind
    · cases heq
    · cases heq
      rw [if_pos hsubset] at hcleared
      exact ⟨text, _, hcleared ▸ hall hopened⟩
    · cases heq
  · obtain ⟨text, heq | ⟨_, heq⟩⟩ := mem_proguardSteps hrules
    · cases heq
    · cases heq

/-- A file of markup that a detector was shown was opened with issues to
clear, where single files were asked for: all of the detector's are among them. -/
theorem exists_opened_of_shows (hsubset : job.project.subset.isSome) {who : Nat}
    {a : ActiveDetector} (ha : job.detectors[who]? = some a) {file : Path}
    (h : Shows (job.script job.detectors) who file)
    (hxml : hasExtension (file.fileName?.getD "") "xml") :
    ∃ text ids, .opened file text (some ids) ∈ job.script job.detectors
      ∧ ∀ issue ∈ a.issues, issue ∈ ids := by
  obtain ⟨shown, made, hshown, htext, rfl⟩ := h
  rcases mem_script hshown with ⟨_, _, heq⟩ | ⟨found, folder, test, -, hmarkup, hall⟩ | hrules
  · cases heq
    cases htext
  · obtain ⟨text, cleared, hopened, hcleared, hkind⟩ := mem_markupSteps hmarkup
    obtain heq | ⟨_, heq⟩ | ⟨document, _, _, -, hmade, heq⟩ := hkind
    · cases heq
    · cases heq
    · cases heq
      rw [if_pos hsubset] at hcleared
      refine ⟨text, _, hcleared ▸ hall hopened, fun issue hserved => Visitor.mem_issueIds.mpr ?_⟩
      exact ⟨who, Visitor.mem_all_of_mem_calls hmade, a, ha, hserved⟩
  · -- the file of shrinking rules is no file of markup
    obtain ⟨text, heq | ⟨_, heq⟩⟩ := mem_proguardSteps hrules
    · cases heq
    · cases heq
      change hasExtension (job.project.proguardFile.fileName?.getD "") "xml" at hxml
      rw [Project.proguardFile, Path.fileName?_child _ (by decide)] at hxml
      exact absurd hxml (by decide)

/-- The finding of a script that lies in a file of markup lies in one that is
opened with issues to clear, where single files were asked for; its issue is
one of them, unless it is that of parse errors. -/
theorem exists_opened_of_origin (horderly : job.registry.Orderly)
    (hasks : ∀ reg ∈ job.registry.registrations, reg.detector.Asks reg.issues)
    (hsubset : job.project.subset.isSome) {f : Finding}
    (h : Origin (job.script job.detectors) job.detectors f)
    (hxml : hasExtension (f.place.file.fileName?.getD "") "xml") :
    ∃ text ids, .opened f.place.file text (some ids) ∈ job.script job.detectors
      ∧ (f.issue ≠ Registry.parserErrorId → f.issue ∈ ids) := by
  cases h with
  | fault hstep hf =>
      subst hf
      obtain ⟨text, ids, hopened⟩ := exists_opened_of_fault hsubset hstep
      exact ⟨text, ids, hopened, fun hid => absurd rfl hid⟩
  | @call context who made a memory hstep ha hreport hplace =>
      have hshown : Shows (job.script job.detectors) who f.place.file :=
        hplace.resolve_right (by
          rw [isOpenable_of_hasExtension hxml]
          exact Bool.noConfusion)
      obtain ⟨_, _, _, rfl⟩ := context_of_mem_script hstep
      obtain ⟨text, ids, hopened, hids⟩ := exists_opened_of_shows hsubset ha hshown hxml
      exact ⟨text, ids, hopened, fun _ => hids _
        (mem_issues_of_report horderly hasks (List.mem_of_getElem? ha) rfl hreport)⟩

/-- Parse errors are never among the issues to clear. -/
theorem parserErrorId_notMem_of_opened (horderly : job.registry.Orderly) {file : Path}
    {text : String} {ids : List String}
    (h : .opened file text (some ids) ∈ job.script job.detectors) :
    Registry.parserErrorId ∉ ids := by
  intro hid
  rcases mem_script h with ⟨_, _, heq⟩ | ⟨found, folder, test, -, hmarkup, -⟩ | hrules
  · cases heq
  · obtain ⟨text, cleared, -, hcleared, heq | ⟨_, heq⟩ | ⟨_, _, _, -, -, heq⟩⟩ :=
      mem_markupSteps hmarkup
    · cases heq
      split at hcleared
      · cases hcleared
        obtain ⟨who, -, a, ha, hserved⟩ := Visitor.mem_issueIds.mp hid
        exact parserErrorId_notMem_issues horderly (List.mem_of_getElem? ha) hserved
      · cases hcleared
    · cases heq
    · cases heq
  · obtain ⟨text, heq | ⟨_, heq⟩⟩ := mem_proguardSteps hrules
    · cases heq
    · cases heq

/-- A check tells to clear what its script does, whenever it is ended. -/
theorem parserErrorId_notMem_of_check (horderly : job.registry.Orderly)
    (hactive : p.active = job.detectors)
    (hbefore : ∀ file ids, .clear file ids ∈ p.events → Registry.parserErrorId ∉ ids)
    {file : Path} {ids : List String} (h : .clear file ids ∈ (job.check p).events) :
    Registry.parserErrorId ∉ ids := by
  obtain ⟨done, hdone, hcheck, -, -⟩ := @exists_check_eq_foldl job p
  rw [hactive, map_rested_detectors] at hdone
  rw [hcheck, events_foldl_perform] at h
  rcases List.mem_append.mp h with h | h
  · exact hbefore file ids h
  · obtain ⟨step, hstep, h⟩ := List.mem_flatMap.mp h
    rcases step with ⟨found, text, _ | cleared⟩ | ⟨found, e⟩ | ⟨context, who, made⟩
    · cases List.mem_singleton.mp h
    · simp only [eventsOf, List.mem_cons, List.not_mem_nil, or_false, reduceCtorEq, false_or,
        Event.clear.injEq] at h
      obtain ⟨rfl, rfl⟩ := h
      exact parserErrorId_notMem_of_opened horderly (hdone.subset hstep)
    · cases h
    · cases h

end Job

end Run

namespace Session

open Run (Clears)

variable {s : Session} {host : Host} {files : List Path} {scope : Option Scope}

-- ============================================================ in a course

/-- The course of an uncanceled run tells what the script of every project
does that it has warnings of. -/
theorem events_of_accounts_course (horderly : s.registry.Orderly)
    (hend : (s.course host files scope).progress.canceled = false) :
    ∀ w ∈ (s.course host files scope).progress.warnings, ∃ project ∈ projectsFor host files,
      (s.jobOf host scope files project).Accounts w
        ∧ (((s.jobOf host scope files project).script
            (s.jobOf host scope files project).detectors).flatMap Run.Job.eventsOf)
          <:+: (s.course host files scope).progress.events := by
  refine course_induction (P := fun p _ => p.canceled = false → ∀ w ∈ p.warnings,
    ∃ project ∈ projectsFor host files, (s.jobOf host scope files project).Accounts w
      ∧ (((s.jobOf host scope files project).script
          (s.jobOf host scope files project).detectors).flatMap Run.Job.eventsOf) <:+: p.events)
    (fun project hproject p _ hp hwarnings hcheck w hw => ?_) (fun _ _ h => by cases h) hend
  obtain ⟨done, -, hdone, -, hwhole⟩ :=
    @Run.Job.exists_check_eq_foldl (s.jobOf host scope files project)
      (begun (s.jobOf host scope files project) p)
  -- the check was not ended, so it told of its whole script
  have hevents : ((s.jobOf host scope files project).check
      (begun (s.jobOf host scope files project) p)).events
      = p.events ++ [.project project.name]
        ++ ((s.jobOf host scope files project).script
            (s.jobOf host scope files project).detectors).flatMap Run.Job.eventsOf := by
    have hall := hwhole hcheck
    rw [show (begun (s.jobOf host scope files project) p).active
      = (s.jobOf host scope files project).detectors from rfl, Run.Job.map_rested_detectors] at hall
    rw [hdone, Run.Job.events_foldl_perform, hall]
    rfl
  change w ∈ ((s.jobOf host scope files project).check
    (begun (s.jobOf host scope files project) p)).warnings at hw
  change ∃ other ∈ projectsFor host files, (s.jobOf host scope files other).Accounts w ∧ _ <:+:
    ((s.jobOf host scope files project).check
      (begun (s.jobOf host scope files project) p)).events
  rw [hevents]
  -- the warning is of an earlier project or of this one
  rcases Run.Job.accounts_of_mem_check horderly rfl hw with hold | hnew
  · obtain ⟨other, hother, haccounts, hinside⟩ := hwarnings hp w hold
    refine ⟨other, hother, haccounts, hinside.trans ?_⟩
    rw [List.append_assoc]
    exact (List.prefix_append ..).isInfix
  · exact ⟨project, hproject, hnew, (List.suffix_append ..).isInfix⟩

/-- Whenever it is ended, a run never tells to clear parse errors. -/
theorem parserErrorId_notMem_of_course (horderly : s.registry.Orderly) :
    ∀ file ids, .clear file ids ∈ (s.course host files scope).progress.events →
      Registry.parserErrorId ∉ ids := by
  refine course_induction (P := fun p _ => ∀ file ids, .clear file ids ∈ p.events →
    Registry.parserErrorId ∉ ids) (fun project hproject p _ _ hbefore file ids h => ?_)
    fun file ids h => ?_
  · refine Run.Job.parserErrorId_notMem_of_check horderly rfl (fun file ids hmem => ?_) h
    rcases List.mem_append.mp hmem with hmem | hmem
    · exact hbefore file ids hmem
    · cases List.mem_singleton.mp hmem
  · cases List.mem_singleton.mp h

/-- A run tells what its course does, and at last that it is over. -/
theorem events_analyze (s : Session) (host : Host) (files : List Path) (scope : Option Scope) :
    ∃ last, (last = .canceled ∨ last = .completed)
      ∧ (s.analyze host files scope).1.events
        = (s.course host files scope).progress.events ++ [last] := by
  refine ⟨if (s.course host files scope).progress.canceled then .canceled else .completed, ?_, rfl⟩
  split
  · exact Or.inl rfl
  · exact Or.inr rfl

/-- No run tells to clear parse errors. -/
theorem parserErrorId_notMem_of_clears (horderly : s.registry.Orderly) {file : Path}
    {ids : List String} (h : Clears (s.analyze host files scope).1.events file ids) :
    Registry.parserErrorId ∉ ids := by
  obtain ⟨last, hlast, hevents⟩ := events_analyze s host files scope
  have hclear : .clear file ids ∈ (s.analyze host files scope).1.events :=
    h.subset (List.mem_cons_of_mem _ List.mem_cons_self)
  rw [hevents] at hclear
  rcases List.mem_append.mp hclear with hclear | hclear
  · exact parserErrorId_notMem_of_course horderly file ids hclear
  · rw [← List.mem_singleton.mp hclear] at hlast
    rcases hlast with hlast | hlast
    · cases hlast
    · cases hlast

/-- Where single files were asked for, an uncanceled run tells of every file
of markup that it reports something in, and right after that of issues that
are about to be found anew in it.  Every issue that it reports there is among
them, with the exception of parse errors, which never are. -/
theorem clears_analyze_iff (hregistry : s.registry = .builtIn)
    (hend : (s.analyze host files scope).1.canceled = false) {project : Project}
    (hproject : project ∈ projectsFor host files) (hsubset : project.subset.isSome)
    {w : Warning} (hw : w ∈ (s.analyze host files scope).1.warnings)
    (hdirectory : w.projectDirectory = some project.directory) {file : Path}
    (hfile : w.file = some file) (hxml : hasExtension (file.fileName?.getD "") "xml") :
    (∃ ids, Clears (s.analyze host files scope).1.events file ids)
      ∧ ((∃ ids, Clears (s.analyze host files scope).1.events file ids ∧ w.issue.id ∈ ids)
        ↔ w.issue.id ≠ Registry.parserErrorId) := by
  have horderly : s.registry.Orderly := hregistry ▸ Registry.orderly_builtIn
  have hasks : ∀ reg ∈ s.registry.registrations, reg.detector.Asks reg.issues :=
    hregistry ▸ Registry.asks_builtIn
  obtain ⟨last, -, hevents⟩ := events_analyze s host files scope
  have hcourse : w ∈ (s.course host files scope).progress.warnings :=
    (List.mergeSort_perm _ _).mem_iff.mp hw
  obtain ⟨other, hother, ⟨sources, f, hmade, horigin⟩, hinside⟩ :=
    events_of_accounts_course horderly hend w hcourse
  have htells := Run.Job.tells_of_warningOf? hmade
  -- a directory is that of one project only
  obtain rfl : project = other := by
    by_contra hne
    have hsame := htells.directory
    rw [hdirectory] at hsame
    exact directory_ne hproject hother hne (Option.some.inj hsame)
  obtain rfl : f.place.file = file := by
    have hsame := htells.file
    rw [hfile] at hsame
    exact (Option.some.inj hsame).symm
  obtain ⟨text, ids, hopened, hserved⟩ :=
    Run.Job.exists_opened_of_origin horderly hasks hsubset horigin hxml
  have hclears : Clears (s.analyze host files scope).1.events f.place.file ids := by
    rw [hevents]
    exact ((Run.Job.clears_of_opened_mem hopened).trans hinside).trans
      (List.prefix_append ..).isInfix
  rw [Run.Job.issue_of_warningOf? hmade]
  refine ⟨⟨ids, hclears⟩, ?_, fun hid => ⟨ids, hclears, hserved hid⟩⟩
  rintro ⟨listed, hlisted, hmem⟩ hid
  rw [hid] at hmem
  exact parserErrorId_notMem_of_clears horderly hlisted hmem

-- ================================================ a file asked for by itself

/-- A request for the file of values that cannot be parsed. -/
def valuesRequest : List Path := [valuesFile]

/-- The project of the request. -/
def valuesAlone : Project := .new ⟨"/ROOT/app"⟩ (some valuesRequest)

theorem projectsFor_valuesRequest :
    projectsFor (.ofTree unclosedValues fun _ => false) valuesRequest = [valuesAlone] := by
  decide +kernel

theorem canceled_valuesRequest :
    (plain.analyze (.ofTree unclosedValues fun _ => false) valuesRequest none).1.canceled
      = false :=
  canceled_analyze_builtIn rfl (fun _ => rfl) rfl

/-- The job of the project. -/
def valuesJob : Run.Job :=
  plain.jobOf (.ofTree unclosedValues fun _ => false) none valuesRequest valuesAlone

/-- Sizes in pixels are looked for in the file, so it is opened. -/
theorem attended_valuesJob : valuesFile ∈ valuesJob.attended valuesJob.detectors := by
  have hpx : Registry.builtIn.issue? "PxUsage" = some Dimension.pxIssue :=
    Registry.issue?_builtIn.mpr ⟨by simp [Registry.builtInIssues], rfl⟩
  have hreg : ⟨"PxUsageDetector", ["PxUsage", "SpUsage"], Dimension.detector⟩
      ∈ Registry.builtIn.registrations := by
    rw [Registry.registrations_builtIn]
    simp [Registry.builtInRegistrations]
  obtain ⟨a, ha, hscope⟩ := Registry.orderly_builtIn.activate?_eq_some hreg hpx (by decide)
    (show Dimension.pxIssue.scope.isSubset valuesJob.scope by decide +kernel)
    (show valuesJob.configuration.isEnabled Dimension.pxIssue by decide +kernel)
  have hfiles : Run.Job.resourceFiles unclosedValues valuesAlone = [(valuesFile, .values)] := by
    have hfilter : valuesRequest.filter isResourceFile = [valuesFile] := by decide +kernel
    show List.filterMap _ ((valuesRequest.filter isResourceFile).mergeSort Path.le) = _
    rw [hfilter, List.mergeSort_singleton]
    decide +kernel
  refine List.mem_append_right _ (List.mem_map.mpr ⟨(valuesFile, .values), ?_, rfl⟩)
  refine List.mem_filter.mpr ⟨?_, List.any_eq_true.mpr ⟨a, ?_, ?_⟩⟩
  · show _ ∈ Run.Job.resourceFiles unclosedValues valuesAlone
    rw [hfiles]
    exact List.mem_singleton_self _
  · exact List.mem_filterMap.mpr ⟨_, hreg, ha⟩
  · rw [hscope, (Registry.of_activate? ha).1]
    rfl

/-- The parse error is reported. -/
theorem reports_valuesRequest :
    ∃ w ∈ (plain.analyze (.ofTree unclosedValues fun _ => false) valuesRequest none).1.warnings,
      w.projectDirectory = some valuesAlone.directory ∧ w.file = some valuesFile
        ∧ w.issue.id = Registry.parserErrorId := by
  have hparserError : Registry.builtIn.issue? "ParserError" = some Registry.parserError :=
    Registry.issue?_builtIn.mpr ⟨by simp [Registry.builtInIssues], rfl⟩
  have henabled : valuesJob.isEnabled Registry.parserErrorId := by
    show (Registry.builtIn.issue? "ParserError").any _ = true
    rw [hparserError]
    decide +kernel
  have hfault : valuesJob.fault? valuesFile
      = some (valuesFile, .unfinished ⟨0, some 11, 11⟩) :=
    (valuesJob.fault?_eq_some_iff).mpr ⟨rfl, "<resources>", by decide +kernel, parse_unclosed⟩
  obtain ⟨w, hmade⟩ := Option.isSome_iff_exists.mp
    ((Run.Job.isSome_faultWarning? (valuesFile, .unfinished ⟨0, some 11, 11⟩)).trans henabled)
  have hsays := Run.Job.saysFault_of_faultWarning? hmade
  have hmem : w ∈ (plain.analyze (.ofTree unclosedValues fun _ => false) valuesRequest
      none).1.warnings.filter (·.issue.id == Registry.parserErrorId) := by
    rw [filter_analyze_parserError rfl (Run.coherent_ofTree _ _) canceled_valuesRequest,
      projectsFor_valuesRequest, List.flatMap_singleton]
    exact List.mem_mergeSort.mpr (Run.Job.mem_faults.mpr
      ⟨valuesFile, attended_valuesJob, _, hfault, hmade⟩)
  exact ⟨w, (List.mem_filter.mp hmem).1, hsays.directory, hsays.file, hsays.issue⟩

/-- The listener hears of the file, and of issues to be found anew in it. -/
theorem clears_valuesRequest :
    ∃ ids, Clears (plain.analyze (.ofTree unclosedValues fun _ => false) valuesRequest
      none).1.events valuesFile ids := by
  obtain ⟨w, hw, hdirectory, hfile, -⟩ := reports_valuesRequest
  exact (clears_analyze_iff rfl canceled_valuesRequest
    (projectsFor_valuesRequest ▸ List.mem_singleton_self _) rfl hw hdirectory hfile
    (by decide +kernel)).1

/-- But it does not hear that the parse error is among them. -/
theorem not_clears_parserError :
    ¬ ∀ project ∈ projectsFor (.ofTree unclosedValues fun _ => false) valuesRequest,
      project.subset.isSome →
        ∀ w ∈ (plain.analyze (.ofTree unclosedValues fun _ => false) valuesRequest
            none).1.warnings,
          w.projectDirectory = some project.directory → ∀ file, w.file = some file →
            hasExtension (file.fileName?.getD "") "xml" →
              ∃ ids, Clears (plain.analyze (.ofTree unclosedValues fun _ => false) valuesRequest
                none).1.events file ids ∧ w.issue.id ∈ ids := by
  intro h
  obtain ⟨w, hw, hdirectory, hfile, hid⟩ := reports_valuesRequest
  obtain ⟨ids, hclears, hmem⟩ := h valuesAlone
    (projectsFor_valuesRequest ▸ List.mem_singleton_self _) rfl w hw hdirectory valuesFile hfile
    (by decide +kernel)
  rw [hid] at hmem
  exact parserErrorId_notMem_of_clears Registry.orderly_builtIn hclears hmem

end Session

end ResourceLint
