/-
What one detector finds in a project, whoever runs beside it.

`Job.told` lists what a detector is told in the course of a project: the
project begins, every document that it attends, the file of shrinking
rules, and the project ends.  It depends on the declarations of that one
detector, and `Detector.findings` is what the detector makes of it.  An
uncanceled check reports under an issue exactly the findings that the
detector behind the issue answers with (`filter_check`), in their order.

# What is needed of the detectors

Other detectors must not report the issue, and the detector must not point
into files that only others had opened, since a warning carries the text of
its file where that was read.  `Detector.Places` says this: a finding lies
in a file that the detector was told of itself, or in one that is never
opened at all.  It is an invariant of the memory, which keeps places from
earlier files.
-/
import Mathlib.Data.List.Basic
import ResourceLint.Proofs.Drafting
import ResourceLint.Proofs.Opening

namespace ResourceLint

-- =========================================================== answers

/-- The finding that is reported. -/
def Emission.finding? : Emission → Option Finding
  | .report f => some f
  | .note _ => none
  | .cancel => none

theorem Emission.eq_of_finding? {e : Emission} {f : Finding} (h : e.finding? = some f) :
    e = .report f := by
  cases e with
  | report f' => cases h; rfl
  | note _ => cases h
  | cancel => cases h

/-- The findings under an issue among what is emitted. -/
def Emission.under (id : String) (es : List Emission) : List Finding :=
  (es.filterMap finding?).filter (·.issue == id)

/-- What is reported under an issue are the reports of it. -/
theorem Emission.mem_under {id : String} {es : List Emission} {f : Finding} :
    f ∈ under id es ↔ .report f ∈ es ∧ f.issue = id := by
  unfold under
  rw [List.mem_filter, List.mem_filterMap]
  constructor
  · rintro ⟨⟨e, he, hef⟩, hid⟩
    exact ⟨Emission.eq_of_finding? hef ▸ he, by simpa using hid⟩
  · rintro ⟨he, hid⟩
    exact ⟨⟨_, he, rfl⟩, by simpa using hid⟩

namespace Detector

/-- The findings under an issue in the answer to one call. -/
def heard (d : Detector) (id : String) (memory : Memory) (context : Context) (call : Call) :
    List Finding :=
  Emission.under id (d.react memory context call).2

/-- The findings under an issue in what a detector answers to what it is
told, one after the other. -/
def findings (d : Detector) (id : String) : Memory → List (Context × Call) → List Finding
  | _, [] => []
  | memory, (context, call) :: more =>
    d.heard id memory context call ++ d.findings id (d.react memory context call).1 more

/-- What a detector remembers after what it was told. -/
def after (d : Detector) (memory : Memory) (told : List (Context × Call)) : Memory :=
  told.foldl (fun memory (context, call) => (d.react memory context call).1) memory

/-- What is found over two stretches of calls is found one after the other, with
the memory of the first kept for the second. -/
theorem findings_append (d : Detector) (id : String) (memory : Memory)
    (s t : List (Context × Call)) :
    d.findings id memory (s ++ t)
      = d.findings id memory s ++ d.findings id (d.after memory s) t := by
  induction s generalizing memory with
  | nil => rfl
  | cons told s ih =>
      obtain ⟨context, call⟩ := told
      rw [List.cons_append, findings, findings, ih, List.append_assoc]
      rfl

/-- Findings under an issue are about it. -/
theorem issue_of_mem_findings {d : Detector} {id : String} {memory : Memory}
    {told : List (Context × Call)} {f : Finding} (h : f ∈ d.findings id memory told) :
    f.issue = id := by
  induction told generalizing memory with
  | nil => cases h
  | cons t told ih =>
      obtain ⟨context, call⟩ := t
      rcases List.mem_append.mp h with h | h
      · exact (Emission.mem_under.mp h).2
      · exact ih h

end Detector

/-- A detector reports under certain issues only, and nothing else. -/
def Detector.Reports (d : Detector) (issues : List String) : Prop :=
  ∀ memory context call e, e ∈ (d.react memory context call).2 →
    ∃ f, e = .report f ∧ f.issue ∈ issues

/-- A detector never reports under an issue. -/
def Detector.Spares (d : Detector) (id : String) : Prop :=
  ∀ memory context call f, .report f ∈ (d.react memory context call).2 → f.issue ≠ id

/-- A detector says nothing under issues it does not serve. -/
theorem Detector.Reports.spares {d : Detector} {issues : List String} (h : d.Reports issues)
    {id : String} (hid : id ∉ issues) : d.Spares id := by
  intro memory context call f hf heq
  obtain ⟨f', hreport, hmem⟩ := h memory context call _ hf
  cases hreport
  exact hid (heq ▸ hmem)

/-- A detector never asks for the end of the run. -/
def Detector.Stays (d : Detector) : Prop :=
  ∀ memory context call, .cancel ∉ (d.react memory context call).2

/-- A detector that only reports never asks for the end. -/
theorem Detector.Reports.stays {d : Detector} {issues : List String} (h : d.Reports issues) :
    d.Stays := by
  intro memory context call hcancel
  obtain ⟨f, hf, -⟩ := h memory context call _ hcancel
  cases hf

/-- A detector remembers and reports places in files it was told of, or in
files that are never opened. -/
def Detector.Places (d : Detector) : Prop :=
  ∀ (known : Path → Prop) memory context call,
    (∀ entry ∈ memory.defined, known entry.2.file) → Run.Apt (context, call) →
    (context.contents.isSome → known context.file) →
    (∀ entry ∈ (d.react memory context call).1.defined, known entry.2.file)
      ∧ ∀ f, .report f ∈ (d.react memory context call).2 →
          known f.place.file ∨ Run.isOpenable f.place.file = false

namespace Run

namespace Job

variable (job : Job)

-- =================================================== what a detector is told

/-- What a detector is told about a file of markup that it attends. -/
def markupTold (d : Detector) (file : Path) (folder : Option FolderType) :
    List (Context × Call) :=
  match job.host.read file with
  | none => []
  | some text =>
    match Xml.Document.parse text with
    | .error _ => []
    | .ok document => (d.told document).map (job.context file (some text) folder, ·)

/-- What a detector of a scope is told about the manifest. -/
def manifestTold (scope : Scope) (d : Detector) : List (Context × Call) :=
  let file := job.project.manifest
  if job.project.includes file && job.host.tree.isFile file && scope.manifest then
    job.markupTold d file none
  else []

/-- What a detector is told about a resource file. -/
def resourceFileTold (d : Detector) (found : Path × FolderType) : List (Context × Call) :=
  if d.appliesToFolder found.2 then job.markupTold d found.1 (some found.2) else []

/-- What a detector of a scope is told about the resource files. -/
def resourcesTold (scope : Scope) (d : Detector) : List (Context × Call) :=
  if scope.resourceFile || scope.allResourceFiles then
    (resourceFiles job.host.tree job.project).flatMap (job.resourceFileTold d)
  else []

/-- What a detector of a scope is told about the file of shrinking rules. -/
def proguardTold (scope : Scope) (d : Detector) : List (Context × Call) :=
  let file := job.project.proguardFile
  if job.project.includes file && job.host.tree.isFile file
      && (scope.proguard && d.appliesToFile file) then
    match job.host.read file with
    | none => []
    | some text => [(job.context file (some text) none, .plainFile)]
  else []

/-- What a detector of a scope is told in the course of the project. -/
def told (scope : Scope) (d : Detector) : List (Context × Call) :=
  [(job.projectContext, .beforeProject)]
    ++ (if job.scope.manifest then job.manifestTold scope d else [])
    ++ (if job.scope.resourceFile || job.scope.allResourceFiles then job.resourcesTold scope d
        else [])
    ++ (if job.scope.proguard then job.proguardTold scope d else [])
    ++ [(job.projectContext, .afterProject)]

/-- The texts that come with what is told. -/
def sourcesTold (told : List (Context × Call)) : List (Path × String) :=
  told.filterMap fun t => t.1.contents.map (t.1.file, ·)

/-- The warnings under an issue from what a detector is told. -/
def findings (id : String) (scope : Scope) (d : Detector) : List Warning :=
  (d.findings id .blank (job.told scope d)).filterMap
    (job.warningOf? (sourcesTold (job.told scope d)))

-- ======================================== the script, told to one detector

/-- What a step tells the detector at a place. -/
def stepTo? (w : Nat) : Step → Option (Context × Call)
  | .opened .. => none
  | .fault .. => none
  | .call context who made => if who = w then some (context, made) else none

@[simp] theorem stepTo?_self (w : Nat) (context : Context) (made : Call) :
    stepTo? w (.call context w made) = some (context, made) := if_pos rfl

/-- A step is to a detector when it is a call to it. -/
theorem stepTo?_eq_some {w : Nat} {step : Step} {told : Context × Call}
    (h : stepTo? w step = some told) : step = .call told.1 w told.2 := by
  cases step with
  | opened => cases h
  | fault => cases h
  | call context who made =>
      by_cases hwho : who = w
      · subst hwho
        rw [stepTo?_self] at h
        cases h
        rfl
      · have hnone : stepTo? w (.call context who made) = none := if_neg hwho
        rw [hnone] at h
        cases h

/-- What steps tell the detector at a place. -/
def stepsTo (w : Nat) (steps : List Step) : List (Context × Call) := steps.filterMap (stepTo? w)

@[simp] theorem stepsTo_nil (w : Nat) : stepsTo w [] = [] := rfl

@[simp] theorem stepsTo_append (w : Nat) (s t : List Step) :
    stepsTo w (s ++ t) = stepsTo w s ++ stepsTo w t := List.filterMap_append ..

/-- The calls to a detector are picked item by item. -/
theorem stepsTo_flatMap {α : Type} (w : Nat) (items : List α) (steps : α → List Step) :
    stepsTo w (items.flatMap steps) = items.flatMap fun item => stepsTo w (steps item) := by
  induction items with
  | nil => rfl
  | cons item items ih => rw [List.flatMap_cons, List.flatMap_cons, stepsTo_append, ih]

theorem stepsTo_callSteps (w : Nat) (context : Context) (made : List (Nat × Call)) :
    stepsTo w (callSteps context made) = (Visitor.callsTo w made).map (context, ·) := by
  unfold stepsTo callSteps Visitor.callsTo
  induction made with
  | nil => rfl
  | cons call made ih =>
      obtain ⟨who, call⟩ := call
      by_cases h : who = w
      · have hstep : stepTo? w (.call context who call) = some (context, call) := if_pos h
        rw [List.map_cons, List.filterMap_cons_some hstep,
          List.filter_cons_of_pos (by simpa using h), ih]
        rfl
      · have hstep : stepTo? w (.call context who call) = none := if_neg h
        rw [List.map_cons, List.filterMap_cons_none hstep,
          List.filter_cons_of_neg (by simpa using h), ih]

variable {job : Job} {cast : List ActiveDetector} {w : Nat} {a : ActiveDetector}

/-- A round reaches everyone once. -/
theorem stepsTo_roundSteps (ha : cast[w]? = some a) (made : Call) :
    stepsTo w (job.roundSteps cast made) = [(job.projectContext, made)] := by
  unfold roundSteps
  rw [stepsTo_callSteps, Visitor.callsTo_map]
  obtain ⟨hlt, -⟩ := List.getElem?_eq_some_iff.mp ha
  rw [List.nodup_range.count, if_pos (List.mem_range.mpr hlt)]
  rfl

/-- Every detector is a candidate once. -/
theorem nodup_candidates (cast : List ActiveDetector) (test : Scope → Bool) :
    ((candidates cast test).map (·.2)).Nodup := by
  unfold candidates
  refine List.Sublist.nodup (List.filter_sublist.map _) ?_
  rw [List.zipIdx_map_snd]
  exact List.nodup_range' ..

/-- The candidates are those whose scope passes, under their own numbers. -/
theorem mem_candidates {test : Scope → Bool} {b : ActiveDetector} :
    (b, w) ∈ candidates cast test ↔ cast[w]? = some b ∧ test b.scope := by
  unfold candidates
  rw [List.mem_filter, List.mem_zipIdx_iff_getElem?]

/-- The steps for a file tell a detector what it attends. -/
theorem stepsTo_markupSteps (ha : cast[w]? = some a) (test : Scope → Bool) (file : Path)
    (folder : Option FolderType) :
    stepsTo w (job.markupSteps cast file folder (Visitor.new (candidates cast test) folder))
      = if test a.scope && Visitor.wants folder a.detector
        then job.markupTold a.detector file folder else [] := by
  unfold markupSteps markupTold
  cases job.host.read file with
  | none => simp
  | some text =>
      dsimp only
      cases Xml.Document.parse text with
      | error e => simp [stepsTo, stepTo?]
      | ok document =>
          show stepsTo w (callSteps _ _) = _
          rw [stepsTo_callSteps]
          -- a visitor calls those it was made for, and nobody else
          by_cases h : test a.scope && Visitor.wants folder a.detector
          · rw [if_pos h]
            rw [Bool.and_eq_true] at h
            rw [Visitor.callsTo_calls (nodup_candidates cast test)
              (mem_candidates.mpr ⟨ha, h.1⟩) h.2]
          · rw [if_neg h]
            rw [Visitor.callsTo_calls_of_not_wants fun b hb => ?_]
            · rfl
            · obtain ⟨hb, htest⟩ := mem_candidates.mp hb
              cases ha.symm.trans hb
              simpa [htest] using h

/-- What the script has for the manifest is, to a detector, what it is told of
it. -/
theorem stepsTo_manifestSteps (ha : cast[w]? = some a) :
    stepsTo w (job.manifestSteps cast) = job.manifestTold a.scope a.detector := by
  unfold manifestSteps manifestTold
  simp only
  by_cases h : job.project.includes job.project.manifest
      && job.host.tree.isFile job.project.manifest
  · rw [if_pos h, stepsTo_markupSteps ha, h]
    simp [Visitor.wants]
  · rw [if_neg h]
    simp [h]

/-- What the script has for the resource files is, to a detector, what it is
told of them. -/
theorem stepsTo_resourceSteps (ha : cast[w]? = some a) :
    stepsTo w (job.resourceSteps cast) = job.resourcesTold a.scope a.detector := by
  unfold resourceSteps resourcesTold
  by_cases hscope : a.scope.resourceFile || a.scope.allResourceFiles
  · have hmem : (a, w) ∈ resourceCandidates cast := mem_candidates.mpr ⟨ha, hscope⟩
    have hsome : (resourceCandidates cast).isEmpty = false := by
      rw [List.isEmpty_eq_false_iff]
      exact List.ne_nil_of_mem hmem
    rw [if_neg (by simp [hsome]), if_pos hscope, stepsTo_flatMap]
    congr 1
    funext (file, folder)
    unfold resourceFileSteps resourceFileTold
    simp only
    split
    · next hempty =>
        -- the detector would be in the visitor if it wanted the folder
        have hwants : Visitor.wants (some folder) a.detector = false := by
          rw [Visitor.isEmpty_new, Bool.not_eq_true', List.any_eq_false] at hempty
          simpa using hempty (a, w) hmem
        rw [if_neg]
        · rfl
        · simpa [Visitor.wants] using hwants
    · rw [show resourceCandidates cast
        = candidates cast fun s => s.resourceFile || s.allResourceFiles from rfl,
        stepsTo_markupSteps ha, hscope]
      simp [Visitor.wants]
  · rw [if_neg hscope]
    split
    · rfl
    · rw [stepsTo_flatMap]
      refine List.flatMap_eq_nil_iff.mpr fun found _ => ?_
      unfold resourceFileSteps
      simp only
      split
      · rfl
      · rw [show resourceCandidates cast
          = candidates cast fun s => s.resourceFile || s.allResourceFiles from rfl,
          stepsTo_markupSteps ha]
        simp [hscope]

/-- A detector hears of the file of rules once, when it wants this file. -/
theorem callsTo_proguardCandidates (job : Job) (ha : cast[w]? = some a) :
    Visitor.callsTo w ((job.proguardCandidates cast).map fun (_, who) => (who, Call.plainFile))
      = if a.scope.proguard && a.detector.appliesToFile job.project.proguardFile
        then [.plainFile] else [] := by
  have hplaces : ((job.proguardCandidates cast).map (·.2)).Nodup :=
    (List.filter_sublist.map _).nodup (nodup_candidates cast (·.proguard))
  -- a place is among the candidates once or not at all
  have hmem : w ∈ (job.proguardCandidates cast).map (·.2)
      ↔ a.scope.proguard && a.detector.appliesToFile job.project.proguardFile := by
    unfold proguardCandidates
    constructor
    · intro h
      obtain ⟨⟨b, who⟩, hb, rfl⟩ := List.mem_map.mp h
      obtain ⟨hb, happlies⟩ := List.mem_filter.mp hb
      obtain ⟨hb, hscope⟩ := mem_candidates.mp hb
      cases ha.symm.trans hb
      simp only [Bool.and_eq_true]
      exact ⟨hscope, happlies⟩
    · intro h
      rw [Bool.and_eq_true] at h
      exact List.mem_map.mpr
        ⟨(a, w), List.mem_filter.mpr ⟨mem_candidates.mpr ⟨ha, h.1⟩, h.2⟩, rfl⟩
  have hmap : (job.proguardCandidates cast).map (fun (_, who) => (who, Call.plainFile))
      = ((job.proguardCandidates cast).map (·.2)).map (·, Call.plainFile) := by
    rw [List.map_map]
    rfl
  rw [hmap, Visitor.callsTo_map, hplaces.count]
  by_cases h : a.scope.proguard && a.detector.appliesToFile job.project.proguardFile
  · rw [if_pos (hmem.mpr h), if_pos h]
    rfl
  · rw [if_neg (mt hmem.mp h), if_neg h]
    rfl

/-- What the script has for the shrinking rules is, to a detector, what it is
told of them. -/
theorem stepsTo_proguardSteps (ha : cast[w]? = some a) :
    stepsTo w (job.proguardSteps cast) = job.proguardTold a.scope a.detector := by
  have hcandidates := callsTo_proguardCandidates job ha
  unfold proguardSteps proguardTold
  simp only
  split
  · -- the file is not opened: it is not there, or nobody wants it
    next h =>
      rw [stepsTo_nil, if_neg]
      intro hattends
      simp only [Bool.and_eq_true] at hattends
      obtain ⟨⟨hincludes, hfile⟩, hscope, happlies⟩ := hattends
      simp only [hincludes, hfile, Bool.not_true, Bool.false_or, List.isEmpty_iff] at h
      rw [h, hscope, happlies] at hcandidates
      cases hcandidates
  · next h =>
      simp only [Bool.or_eq_true, Bool.not_eq_true', not_or, Bool.not_eq_false] at h
      rw [h.1.1, h.1.2]
      cases job.host.read job.project.proguardFile with
      | none => simp
      | some text =>
          show stepsTo w (callSteps _ _) = _
          rw [stepsTo_callSteps, hcandidates]
          simp only [Bool.true_and]
          split <;> rfl

/-- The script tells a detector what it attends. -/
theorem stepsTo_script (ha : cast[w]? = some a) :
    stepsTo w (job.script cast) = job.told a.scope a.detector := by
  unfold script told
  simp only [stepsTo_append, stepsTo_roundSteps ha]
  congr 2
  · congr 1
    · congr 1
      split
      · exact stepsTo_manifestSteps ha
      · rfl
    · split
      · exact stepsTo_resourceSteps ha
      · rfl
  · split
    · exact stepsTo_proguardSteps ha
    · rfl

variable {host : Host} {sources : List (Path × String)}

-- ================================================= what a step reports

variable {p : Progress} {id : String}

/-- What a warning says of its finding. -/
structure Tells (job : Job) (f : Finding) (w : Warning) : Prop where
  issue : job.registry.issue? f.issue = some w.issue
  directory : w.projectDirectory = some job.project.directory
  file : w.file = some f.place.file
  path : w.path = some (job.paths.display f.place.file)
  message : w.message = f.message
  line : w.line = f.place.start.map (·.line)
  column : w.column = f.place.start.bind (·.column)
  offset : w.offset = f.place.start.map (·.offset)

/-- The warning of a finding tells of it in full. -/
theorem tells_of_warningOf? {f : Finding} {w : Warning}
    (h : job.warningOf? sources f = some w) : job.Tells f w := by
  unfold warningOf? at h
  simp only [Option.bind_eq_bind, Option.bind_eq_some_iff] at h
  obtain ⟨issue, hissue, h⟩ := h
  split at h
  · cases h
  · cases h
    exact ⟨hissue, rfl, rfl, rfl, rfl, rfl, rfl, rfl⟩

/-- A warning is about the issue of its finding. -/
theorem issue_of_warningOf? {f : Finding} {w : Warning}
    (h : job.warningOf? sources f = some w) : w.issue.id = f.issue :=
  Registry.id_of_issue? (tells_of_warningOf? h).issue

/-- A warning depends on the texts that were read through the text of its
file. -/
theorem warningOf?_congr {f : Finding} {t : List (Path × String)}
    (h : sourceOf? sources f.place.file = sourceOf? t f.place.file) :
    job.warningOf? sources f = job.warningOf? t f := by
  unfold warningOf?
  rw [h]

/-- What is emitted is reported in its order. -/
theorem foldl_emit_warnings (es : List Emission) :
    (es.foldl job.emit p).warnings
      = p.warnings ++ (es.filterMap Emission.finding?).filterMap (job.warningOf? p.sources) := by
  induction es generalizing p with
  | nil => exact (List.append_nil _).symm
  | cons e es ih =>
      rw [List.foldl_cons, ih]
      cases e with
      | note text => rfl
      | cancel => rfl
      | report f =>
          have hf : Emission.finding? (.report f) = some f := rfl
          rw [List.filterMap_cons_some hf, List.filterMap_cons]
          have hemit : (job.emit p (.report f)).warnings
              = p.warnings ++ (job.warningOf? p.sources f).toList := rfl
          rw [hemit, List.append_assoc]
          cases job.warningOf? p.sources f <;> rfl

/-- The warnings about an issue are those of the findings under it. -/
theorem filter_filterMap_warningOf? (fs : List Finding) :
    (fs.filterMap (job.warningOf? sources)).filter (·.issue.id == id)
      = (fs.filter (·.issue == id)).filterMap (job.warningOf? sources) := by
  induction fs with
  | nil => rfl
  | cons f fs ih =>
      cases hw : job.warningOf? sources f with
      | none =>
          rw [List.filterMap_cons_none hw, ih, List.filter_cons]
          split
          · rw [List.filterMap_cons_none hw]
          · rfl
      | some warning =>
          rw [List.filterMap_cons_some hw, List.filter_cons, List.filter_cons,
            issue_of_warningOf? hw, ih]
          split
          · rw [List.filterMap_cons_some hw]
          · rfl

/-- What a step finds, with the detectors as they are. -/
def findingsOf (active : List ActiveDetector) : Step → List Finding
  | .opened .. => []
  | .fault file e => [parseFinding file e]
  | .call context who made =>
    match active[who]? with
    | none => []
    | some a => (a.detector.react a.memory context made).2.filterMap Emission.finding?

/-- What the detectors are after a step. -/
def remembering (active : List ActiveDetector) : Step → List ActiveDetector
  | .opened .. => active
  | .fault .. => active
  | .call context who made =>
    match active[who]? with
    | none => active
    | some a =>
      active.set who ({ a with memory := (a.detector.react a.memory context made).1 })

/-- A step reports what it finds. -/
theorem warnings_perform (step : Step) :
    (job.perform p step).warnings
      = p.warnings ++ (findingsOf p.active step).filterMap (job.warningOf? p.sources) := by
  rcases step with ⟨file, text, _ | ids⟩ | ⟨file, e⟩ | ⟨context, who, made⟩
  · exact (List.append_nil _).symm
  · exact (List.append_nil _).symm
  · rw [perform, reportFault_eq, findingsOf, List.filterMap_cons]
    cases job.warningOf? p.sources (parseFinding file e) <;> rfl
  · change (job.call context p who made).warnings = _
    cases ha : p.active[who]? with
    | none =>
        rw [call_of_none ha, findingsOf, ha]
        exact (List.append_nil _).symm
    | some a =>
        rw [call_of_some ha, foldl_emit_warnings, findingsOf, ha]

/-- A step has its detector remember something. -/
theorem active_perform (step : Step) :
    (job.perform p step).active = remembering p.active step := by
  rcases step with ⟨file, text, _ | ids⟩ | ⟨file, e⟩ | ⟨context, who, made⟩
  · rfl
  · rfl
  · rw [perform, reportFault_eq]
    rfl
  · change (job.call context p who made).active = _
    cases ha : p.active[who]? with
    | none => rw [call_of_none ha, remembering, ha]
    | some a => rw [call_of_some ha, foldl_emit_active, remembering, ha]

/-- What a call finds is reported by its detector. -/
theorem report_of_mem_findingsOf {active : List ActiveDetector} {context : Context} {who : Nat}
    {made : Call} {f : Finding} (h : f ∈ findingsOf active (.call context who made)) :
    ∃ b, active[who]? = some b ∧ .report f ∈ (b.detector.react b.memory context made).2 := by
  simp only [findingsOf] at h
  split at h
  · cases h
  · next b hb =>
      obtain ⟨e, he, hfinding⟩ := List.mem_filterMap.mp h
      exact ⟨b, hb, Emission.eq_of_finding? hfinding ▸ he⟩

/-- A step that finds nothing under an issue reports nothing about it. -/
theorem filter_perform_of_forall_ne {step : Step}
    (h : ∀ f ∈ findingsOf p.active step, f.issue ≠ id) :
    (job.perform p step).warnings.filter (·.issue.id == id)
      = p.warnings.filter (·.issue.id == id) := by
  have hnone : (findingsOf p.active step).filter (·.issue == id) = [] := by
    rw [List.filter_eq_nil_iff]
    intro f hf
    simpa using h f hf
  rw [warnings_perform, List.filter_append, filter_filterMap_warningOf?, hnone]
  exact List.append_nil _

/-- Steps that no one reporting an issue takes part in report nothing about
it. -/
theorem filter_perform_of_spares {step : Step} (hid : id ≠ Registry.parserErrorId)
    (h : ∀ context who made, step = .call context who made →
      ∀ b, p.active[who]? = some b → b.detector.Spares id) :
    (job.perform p step).warnings.filter (·.issue.id == id)
      = p.warnings.filter (·.issue.id == id) := by
  refine filter_perform_of_forall_ne fun f hf => ?_
  cases step with
  | opened => cases hf
  | fault file e =>
      rw [List.mem_singleton.mp hf]
      exact hid.symm
  | call context who made =>
      obtain ⟨b, hb, hreport⟩ := report_of_mem_findingsOf hf
      exact h context who made rfl b hb _ _ _ f hreport

/-- Where no detector reports an issue, a whole script reports nothing about
it. -/
theorem filter_foldl_perform_of_spares (hid : id ≠ Registry.parserErrorId)
    (h : ∀ b ∈ cast, b.detector.Spares id) (steps : List Step)
    (hcast : p.active.map ActiveDetector.rested = cast) :
    (steps.foldl job.perform p).warnings.filter (·.issue.id == id)
      = p.warnings.filter (·.issue.id == id) := by
  induction steps generalizing p with
  | nil => rfl
  | cons step steps ih =>
      rw [List.foldl_cons, ih (by rw [map_rested_perform, hcast])]
      refine filter_perform_of_spares hid fun context who made _ b hb => ?_
      exact h b.rested (hcast ▸ List.mem_map_of_mem (List.mem_of_getElem? hb))

-- ============================================== what one detector reports

/-- A call leaves everyone else as they are. -/
theorem active_call_of_ne {context : Context} {who : Nat} {made : Call} (h : who ≠ w) :
    (job.call context p who made).active[w]? = p.active[w]? := by
  cases ha : p.active[who]? with
  | none => rw [call_of_none ha]
  | some a =>
      rw [call_of_some ha, foldl_emit_active]
      exact List.getElem?_set_ne h

/-- A call changes what its detector remembers. -/
theorem active_call_self {context : Context} {made : Call} {b : ActiveDetector}
    (hb : p.active[w]? = some b) :
    (job.call context p w made).active[w]?
      = some { b with memory := (b.detector.react b.memory context made).1 } := by
  rw [call_of_some hb, foldl_emit_active]
  obtain ⟨hlt, -⟩ := List.getElem?_eq_some_iff.mp hb
  exact List.getElem?_set_self hlt

/-- A run in which a detector remembers something.  The places it remembers
lie in files that are known to the run, and in files that the detector was
told of itself (`all`), so that both give a finding the same text. -/
structure Hears (job : Job) (cast : List ActiveDetector) (w : Nat) (a : ActiveDetector)
    (all : List (Path × String)) (p : Progress) (memory : Memory) : Prop where
  cast : p.active.map ActiveDetector.rested = cast
  here : p.active[w]? = some { a with memory }
  genuine : Genuine job.host p.sources
  defined : ∀ entry ∈ memory.defined, Known p.sources entry.2.file ∧ Known all entry.2.file

namespace Hears

variable {all : List (Path × String)} {memory : Memory} {step : Step} {steps : List Step}

/-- A step that does not reach the detector. -/
theorem skip (h : Hears job cast w a all p memory)
    (hsound : Sound job.host p.sources (step :: steps)) (hstep : stepTo? w step = none) :
    Hears job cast w a all (job.perform p step) memory :=
  { cast := by rw [map_rested_perform, h.cast]
    here := by
      rw [← h.here]
      rcases step with ⟨file, text, _ | ids⟩ | ⟨file, e⟩ | ⟨context, who, made⟩
      · rfl
      · rfl
      · rw [perform, reportFault_eq]
      · refine active_call_of_ne fun heq => ?_
        subst heq
        rw [stepTo?_self] at hstep
        cases hstep
    genuine := genuine_perform h.genuine hsound
    defined := fun entry hentry =>
      ⟨(h.defined entry hentry).1.mono fun _ => mem_sources_perform step,
        (h.defined entry hentry).2⟩ }

/-- A step that does not reach the detector reports nothing about an issue
that everyone else spares. -/
theorem filter_skip (h : Hears job cast w a all p memory) (hid : id ≠ Registry.parserErrorId)
    (hothers : ∀ i b, cast[i]? = some b → i ≠ w → b.detector.Spares id)
    (hstep : stepTo? w step = none) :
    (job.perform p step).warnings.filter (·.issue.id == id)
      = p.warnings.filter (·.issue.id == id) := by
  refine filter_perform_of_spares hid fun context who made heq b hb => ?_
  subst heq
  refine hothers who b.rested ?_ fun hwho => ?_
  · rw [← h.cast, List.getElem?_map, hb]
    rfl
  · subst hwho
    rw [stepTo?_self] at hstep
    cases hstep

variable {context : Context} {made : Call}

/-- A call to the detector. -/
theorem hear (h : Hears job cast w a all p memory) (hplaces : a.detector.Places)
    (hsound : Sound job.host p.sources (.call context w made :: steps))
    (htold : ∀ text, context.contents = some text → (context.file, text) ∈ all) :
    Hears job cast w a all (job.perform p (.call context w made))
        (a.detector.react memory context made).1
      ∧ ∀ f, .report f ∈ (a.detector.react memory context made).2 →
          (Known p.sources f.place.file ∧ Known all f.place.file)
            ∨ isOpenable f.place.file = false := by
  obtain ⟨hdefined, hreports⟩ := hplaces
    (fun file => Known p.sources file ∧ Known all file) memory context made h.defined
    hsound.1.1 fun hsome => by
      obtain ⟨text, htext⟩ := Option.isSome_iff_exists.mp hsome
      exact ⟨⟨text, hsound.1.2 text htext⟩, ⟨text, htold text htext⟩⟩
  refine ⟨?_, hreports⟩
  exact
    { cast := by rw [map_rested_perform, h.cast]
      here := active_call_self h.here
      genuine := genuine_perform h.genuine hsound
      defined := fun entry hentry =>
        ⟨(hdefined entry hentry).1.mono fun _ => mem_sources_perform _,
          (hdefined entry hentry).2⟩ }

end Hears

/-- The warnings about an issue that a script leads to are the findings of
the one detector that reports it, told what the script tells it. -/
theorem filter_foldl_perform (hid : id ≠ Registry.parserErrorId) (hcoherent : Coherent job.host)
    (hplaces : a.detector.Places)
    (hothers : ∀ i b, cast[i]? = some b → i ≠ w → b.detector.Spares id)
    {all : List (Path × String)} (hall : Genuine job.host all) (steps : List Step)
    (htold : ∀ told ∈ stepsTo w steps, ∀ text, told.1.contents = some text →
      (told.1.file, text) ∈ all)
    (hsound : Sound job.host p.sources steps) {memory : Memory}
    (h : Hears job cast w a all p memory) :
    (steps.foldl job.perform p).warnings.filter (·.issue.id == id)
      = p.warnings.filter (·.issue.id == id)
        ++ (a.detector.findings id memory (stepsTo w steps)).filterMap (job.warningOf? all) := by
  induction steps generalizing p memory with
  | nil => exact (List.append_nil _).symm
  | cons step steps ih =>
      rw [List.foldl_cons]
      cases hstep : stepTo? w step with
      | none =>
          have hsteps : stepsTo w (step :: steps) = stepsTo w steps :=
            List.filterMap_cons_none hstep
          rw [hsteps] at htold ⊢
          rw [ih htold hsound.perform (h.skip hsound hstep), h.filter_skip hid hothers hstep]
      | some told =>
          obtain ⟨context, made⟩ := told
          obtain rfl := stepTo?_eq_some hstep
          have hsteps : stepsTo w (.call context w made :: steps)
              = (context, made) :: stepsTo w steps := List.filterMap_cons_some hstep
          rw [hsteps] at htold ⊢
          obtain ⟨hnext, hreports⟩ := h.hear hplaces hsound (htold _ List.mem_cons_self)
          have hwarnings : (job.perform p (.call context w made)).warnings
              = p.warnings ++ ((a.detector.react memory context made).2.filterMap
                  Emission.finding?).filterMap (job.warningOf? p.sources) := by
            rw [warnings_perform, findingsOf, h.here]
          rw [ih (fun told hmem => htold told (List.mem_cons_of_mem _ hmem)) hsound.perform hnext,
            hwarnings, List.filter_append, filter_filterMap_warningOf?, Detector.findings,
            List.filterMap_append, List.append_assoc]
          congr 2
          -- the run and the detector's own files give each finding one text
          refine List.filterMap_congr fun f hf => warningOf?_congr ?_
          rcases hreports f (Emission.mem_under.mp hf).1 with ⟨hrun, hown⟩ | hclosed
          · rw [h.genuine.sourceOf?_of_known hcoherent hrun,
              hall.sourceOf?_of_known hcoherent hown]
          · rw [h.genuine.sourceOf?_of_not_isOpenable hclosed,
              hall.sourceOf?_of_not_isOpenable hclosed]

/-- What steps tell a detector was opened before, so it stands with the
host. -/
theorem genuine_sourcesTold (steps : List Step) (hgenuine : Genuine host sources)
    (hsound : Sound host sources steps) : Genuine host (sourcesTold (stepsTo w steps)) := by
  induction steps generalizing sources with
  | nil => exact fun _ _ h => by cases h
  | cons step steps ih =>
      -- a call about a text comes after that text was opened
      rcases step with ⟨file, text, cleared⟩ | ⟨file, e⟩ | ⟨context, who, made⟩
      · exact ih (hgenuine.cons hsound.1.1 hsound.1.2) hsound.2
      · exact ih hgenuine hsound.2
      · have hrest := ih hgenuine hsound.2
        cases hstep : stepTo? w (.call context who made) with
        | none =>
            unfold stepsTo
            rw [List.filterMap_cons_none hstep]
            exact hrest
        | some told =>
            cases stepTo?_eq_some hstep
            unfold stepsTo sourcesTold
            rw [List.filterMap_cons_some hstep]
            cases htext : told.1.contents with
            | none =>
                rw [List.filterMap_cons_none (by rw [htext]; rfl)]
                exact hrest
            | some text =>
                rw [List.filterMap_cons_some (by rw [htext]; rfl)]
                obtain ⟨hread, hopen⟩ := hgenuine _ _ (hsound.1.2 text htext)
                exact hrest.cons hread hopen

/-- What a detector is told in the course of a project stands with the
host. -/
theorem genuine_told (scope : Scope) (d : Detector) :
    Genuine job.host (sourcesTold (job.told scope d)) := by
  -- the script of the detector alone tells it all this
  have htold : stepsTo 0 (job.script [⟨"", scope, [], d, .blank⟩]) = job.told scope d :=
    stepsTo_script (a := ⟨"", scope, [], d, .blank⟩) rfl
  rw [← htold]
  exact genuine_sourcesTold _ genuine_nil sound_script

/-- An uncanceled check reports under an issue what the detector behind it
finds, whoever runs beside it. -/
theorem filter_check (hend : (job.check p).canceled = false) (hsources : p.sources = [])
    (hid : id ≠ Registry.parserErrorId) (hcoherent : Coherent job.host)
    (ha : p.active[w]? = some a) (hrested : a.memory = .blank) (hplaces : a.detector.Places)
    (hothers : ∀ i b, p.active[i]? = some b → i ≠ w → b.detector.Spares id) :
    (job.check p).warnings.filter (·.issue.id == id)
      = p.warnings.filter (·.issue.id == id) ++ job.findings id a.scope a.detector := by
  have hself : a.rested = a := by
    unfold ActiveDetector.rested
    rw [← hrested]
  have ha' : (p.active.map ActiveDetector.rested)[w]? = some a := by
    rw [List.getElem?_map, ha, Option.map_some, hself]
  have hothers' : ∀ i b, (p.active.map ActiveDetector.rested)[i]? = some b → i ≠ w →
      b.detector.Spares id := by
    intro i b hb hi
    rw [List.getElem?_map, Option.map_eq_some_iff] at hb
    obtain ⟨b, hb, rfl⟩ := hb
    exact hothers i b hb hi
  have hsound : Sound job.host p.sources (job.script (p.active.map ActiveDetector.rested)) :=
    sound_script
  have hgenuine : Genuine job.host p.sources := by
    rw [hsources]
    exact genuine_nil
  have htold : stepsTo w (job.script (p.active.map ActiveDetector.rested))
      = job.told a.scope a.detector := stepsTo_script ha'
  -- before the first step nothing was heard
  have hhears : Hears job (p.active.map ActiveDetector.rested) w a
      (sourcesTold (job.told a.scope a.detector)) p .blank :=
    { cast := rfl
      here := by rw [ha, ← hrested]
      genuine := hgenuine
      defined := fun entry hentry => by cases hentry }
  rw [check_eq_foldl_script hend, filter_foldl_perform hid hcoherent hplaces hothers'
    (genuine_told a.scope a.detector) _
    (fun told hmem text htext => List.mem_filterMap.mpr ⟨told, htold ▸ hmem, by
      rw [htext]; rfl⟩) hsound hhears, htold]
  rfl

/-- An uncanceled check reports nothing about an issue that everyone
spares. -/
theorem filter_check_of_spares (hend : (job.check p).canceled = false)
    (hid : id ≠ Registry.parserErrorId) (h : ∀ b ∈ p.active, b.detector.Spares id) :
    (job.check p).warnings.filter (·.issue.id == id)
      = p.warnings.filter (·.issue.id == id) := by
  rw [check_eq_foldl_script hend]
  refine filter_foldl_perform_of_spares hid (fun b hb => ?_) _ rfl
  obtain ⟨c, hc, rfl⟩ := List.mem_map.mp hb
  exact h c hc

-- ============================================== checks that no one ends

/-- A call to a detector that stays ends no run. -/
theorem canceled_call_eq_false {context : Context} {who : Nat} {made : Call}
    (hcast : ∀ b ∈ p.active, b.detector.Stays) (hp : p.canceled = false) :
    (job.call context p who made).canceled = false := by
  unfold call
  split
  · exact hp
  · next b hb =>
      have hstays := hcast b (List.mem_of_getElem? hb) b.memory context made
      simp only
      generalize (b.detector.react b.memory context made).2 = es at hstays ⊢
      generalize hq : { p with active := _ } = q
      replace hp : q.canceled = false := by rw [← hq]; exact hp
      clear hq
      induction es generalizing q with
      | nil => exact hp
      | cons e es ih =>
          refine ih (fun h => hstays (List.mem_cons_of_mem _ h)) _ ?_
          cases e with
          | report f => exact hp
          | note text => exact hp
          | cancel => exact absurd List.mem_cons_self hstays

/-- A step ends no run that neither its listener nor a detector ends. -/
theorem canceled_perform_eq_false (hhost : ∀ events, job.host.cancels events = false)
    (hcast : ∀ b ∈ p.active, b.detector.Stays) (hp : p.canceled = false) (step : Step) :
    (job.perform p step).canceled = false := by
  rcases step with ⟨file, text, _ | ids⟩ | ⟨file, e⟩ | ⟨context, who, made⟩
  · simp [perform, openFile, Progress.fire, hp, hhost]
  · simp [perform, openFile, Progress.fire, hp, hhost]
  · rw [perform, reportFault_eq]
    exact hp
  · exact canceled_call_eq_false hcast hp

/-- A check goes on to its end when neither the listener nor a detector ends
it. -/
theorem canceled_check_eq_false (hhost : ∀ events, job.host.cancels events = false)
    (hcast : ∀ b ∈ p.active, b.detector.Stays) (hp : p.canceled = false) :
    (job.check p).canceled = false := by
  have hsteps : ∀ steps : List Step, (steps.foldl job.perform p).canceled = false := by
    intro steps
    induction steps generalizing p with
    | nil => exact hp
    | cons step steps ih =>
        refine ih (fun b hb => ?_) (canceled_perform_eq_false hhost hcast hp step)
        have hrested : b.rested ∈ p.active.map ActiveDetector.rested := by
          rw [← map_rested_perform step]
          exact List.mem_map_of_mem hb
        obtain ⟨c, hc, hbc⟩ := List.mem_map.mp hrested
        have hdetector : b.detector = c.detector := congrArg (·.detector) hbc.symm
        rw [hdetector]
        exact hcast c hc
  rw [check_eq_of_canceled_foldl_script (hsteps _)]
  exact hsteps _

end Job

end Run

end ResourceLint
