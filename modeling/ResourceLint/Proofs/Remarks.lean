/-
What a run remarks on a project.

A warning says something of some places (`Warning.remark`); the rest of it
tells of its issue, its project and the text of its file.  What an
uncanceled run of the built-in detectors remarks under an issue that it
looks for in a project is, in some order, what the detector behind the issue
finds there when it is told of the project (`Checks.perm_remarks`): nothing
is lost on the way from a finding to a report, nothing is added, and nothing
comes twice.

What the detector is told comes from the files that can be read and parsed
(`Host.document?`).  An issue that needs the manifest only is told of that
one document (`told_manifestOnly`).
-/
import ResourceLint.Proofs.SingleFiles

namespace ResourceLint

/-- What is said, and the places it is said of, the foremost first. -/
structure Remark where
  message : String
  places : List Place
deriving DecidableEq, Inhabited

def Finding.remark (f : Finding) : Remark := ⟨f.message, f.place :: f.further⟩

def Warning.remark (w : Warning) : Remark := ⟨w.message, w.places⟩

/-- The remark about one element of a file. -/
def Remark.about (file : Path) (e : Xml.Element) (message : String) : Remark :=
  ⟨message, [.ofSpan file e.span]⟩

/-- Elements of which the same is said of the same place have one span. -/
theorem Remark.span_eq_of_about {file : Path} {e e' : Xml.Element} {message message' : String}
    (h : about file e message = about file e' message') : e.span = e'.span := by
  have hplace : Place.ofSpan file e.span = Place.ofSpan file e'.span :=
    (List.cons.inj (congrArg places h)).1
  have hstart : e.span.start = e'.span.start := Option.some.inj (congrArg Place.start hplace)
  have hstop : e.span.stop = e'.span.stop := Option.some.inj (congrArg Place.stop hplace)
  exact congrArg₂ Span.mk hstart hstop

/-- What a run remarks on a project under an issue, in the order of the
report. -/
def RunResult.remarks (r : RunResult) (project : Project) (id : String) : List Remark :=
  (r.warnings.filter fun w =>
    w.issue.id == id && w.projectDirectory == some project.directory).map Warning.remark

/-- Whether a remark is foremost about a file. -/
def Remark.isIn (file : Path) (r : Remark) : Bool := r.places.head?.any (·.file == file)

/-- The line that a remark is foremost about. -/
def Remark.line? (r : Remark) : Option Nat := r.places.head?.bind (·.start.map (·.line))

def Remark.column? (r : Remark) : Option Nat := r.places.head?.bind (·.start.bind (·.column))

/-- Whether a report may keep a remark before another one on the same file: by
line, column and message. -/
def Remark.le (a b : Remark) : Bool :=
  (Warning.compareOption a.line? b.line?).then
    ((Warning.compareOption a.column? b.column?).then (compare a.message b.message)) != .gt

/-- A built-in issue is served by the registration that lists it. -/
theorem Registry.serving?_builtIn {reg : Registration} (hreg : reg ∈ builtInRegistrations)
    {id : String} (hid : id ∈ reg.issues) : builtIn.serving? id = some reg := by
  have hmem : reg ∈ builtIn.registrations := registrations_builtIn ▸ hreg
  have hsymm : Std.Symm fun a b : Registration => ∀ id ∈ a.issues, id ∉ b.issues :=
    ⟨fun a b h id hb ha => h id ha hb⟩
  cases hserving : builtIn.serving? id with
  | none => exact absurd (by simpa using hid) (List.find?_eq_none.mp hserving reg hmem)
  | some other =>
      obtain ⟨hother, hid'⟩ := mem_of_serving? hserving
      by_cases heq : other = reg
      · rw [heq]
      · exact absurd hid (orderly_builtIn.disjoint.forall hother hmem heq id hid')

/-- The document of a file that can be read and parsed. -/
def Host.document? (host : Host) (file : Path) : Option Xml.Document :=
  (host.read file).bind fun text => (Xml.Document.parse text).toOption

/-- A document is a file that is read and parsed. -/
theorem Host.exists_parse_of_document? {host : Host} {file : Path} {doc : Xml.Document}
    (h : host.document? file = some doc) :
    ∃ text, host.read file = some text ∧ Xml.Document.parse text = .ok doc := by
  obtain ⟨text, htext, hparse⟩ := Option.bind_eq_some_iff.mp h
  refine ⟨text, htext, ?_⟩
  cases hresult : Xml.Document.parse text with
  | error e =>
      rw [hresult] at hparse
      cases hparse
  | ok found =>
      rw [hresult] at hparse
      exact congrArg Except.ok (Option.some.inj hparse)

/-- What is remarked in a file, told from the document of the file, in each of
the resource files of a project that a detector attends. -/
def Host.remarksOf (host : Host) (d : Detector) (said : Path → Xml.Document → List Remark)
    (found : Path × FolderType) : List Remark :=
  if d.appliesToFolder found.2 then
    match host.document? found.1 with
    | some doc => said found.1 doc
    | none => []
  else []

/-- Remarks about a file are those said of its document. -/
theorem Host.remarksOf_of_document? {host : Host} {d : Detector} {file : Path}
    {folder : FolderType} (happlies : d.appliesToFolder folder) {doc : Xml.Document}
    (hdoc : host.document? file = some doc) (said : Path → Xml.Document → List Remark) :
    host.remarksOf d said (file, folder) = said file doc := by
  unfold remarksOf
  rw [if_pos happlies, hdoc]

/-- In a well formed tree, what is remarked in one of the files is told from its
document alone. -/
theorem Host.filter_isIn_remarksOf {host : Host} (hwell : host.tree.WellFormed)
    {project : Project} (hdistinct : project.Distinct) {d : Detector}
    {said : Path → Xml.Document → List Remark}
    (hin : ∀ file doc, ∀ r ∈ said file doc, r.isIn file) {found : Path × FolderType}
    (hfound : found ∈ Run.Job.resourceFiles host.tree project) :
    ((Run.Job.resourceFiles host.tree project).flatMap (host.remarksOf d said)).filter
        (·.isIn found.1)
      = host.remarksOf d said found := by
  -- remarks of a file are in that file, so other files add none
  have hwhere : ∀ other : Path × FolderType, ∀ r ∈ host.remarksOf d said other,
      r.isIn other.1 := fun other r hr => by
    unfold remarksOf at hr
    split at hr
    · split at hr
      · exact hin _ _ r hr
      · cases hr
    · cases hr
  have hnodup := Run.Job.nodup_resourceFiles hwell hdistinct
  rw [List.filter_flatMap, Session.flatMap_eq_of_forall_ne hnodup.of_map hfound]
  · exact List.filter_eq_self.mpr fun r hr => hwhere found r hr
  · intro other hother hne
    refine List.filter_eq_nil_iff.mpr fun r hr hr' => hne ?_
    have hthere := hwhere other r hr
    unfold Remark.isIn at hthere hr'
    cases hplaces : r.places.head? with
    | none =>
        rw [hplaces] at hthere
        cases hthere
    | some place =>
        rw [hplaces] at hthere hr'
        have hfile : other.1 = found.1 :=
          (beq_iff_eq.mp hthere).symm.trans (beq_iff_eq.mp hr')
        exact List.inj_on_of_nodup_map hnodup hother hfound hfile

namespace Run.Job

variable {job : Job} {sources : List (Path × String)} {issue : Issue} {id : String}

-- ================================================= from findings to remarks

/-- Whether a check looks for an issue: it is enabled, and the check sees the
files that it needs. -/
structure LooksFor (job : Job) (issue : Issue) : Prop where
  scope : issue.scope.isSubset job.scope
  enabled : job.configuration.isEnabled issue

/-- A warning remarks what its finding does. -/
theorem remark_of_warningOf? {f : Finding} {w : Warning}
    (h : job.warningOf? sources f = some w) : w.remark = f.remark := by
  unfold warningOf? at h
  simp only [Option.bind_eq_bind, Option.bind_eq_some_iff] at h
  obtain ⟨issue, -, h⟩ := h
  split at h
  · cases h
  · cases h
    rfl

/-- Findings under an enabled issue are remarked one by one. -/
theorem map_remark_filterMap_warningOf? (henabled : job.isEnabled id) {fs : List Finding}
    (hfs : ∀ f ∈ fs, f.issue = id) :
    (fs.filterMap (job.warningOf? sources)).map Warning.remark = fs.map Finding.remark := by
  rw [List.map_filterMap, ← List.filterMap_eq_map]
  refine List.filterMap_congr fun f hf => ?_
  have hsome : (job.warningOf? sources f).isSome := by
    rw [isSome_warningOf?, hfs f hf]
    exact henabled
  obtain ⟨w, hw⟩ := Option.isSome_iff_exists.mp hsome
  rw [hw, Option.map_some, remark_of_warningOf? hw]
  rfl

/-- What is looked for is enabled. -/
theorem LooksFor.isEnabled (h : job.LooksFor issue) (hregistry : job.registry = .builtIn)
    (hissue : issue ∈ Registry.builtInIssues) : job.isEnabled issue.id := by
  have hknown : job.registry.issue? issue.id = some issue :=
    (congrArg (·.issue? issue.id) hregistry).trans (Registry.issue?_builtIn.mpr ⟨hissue, rfl⟩)
  unfold Job.isEnabled
  rw [hknown]
  exact h.enabled

/-- What is reported under an issue that is looked for is what its detector
finds. -/
theorem LooksFor.map_remark_reported (h : job.LooksFor issue)
    (hregistry : job.registry = .builtIn) (hissue : issue ∈ Registry.builtInIssues)
    {reg : Registration} (hserving : Registry.builtIn.serving? issue.id = some reg) :
    (job.reported issue.id).map Warning.remark
      = (reg.detector.findings issue.id .blank (job.told issue.scope reg.detector)).map
          Finding.remark := by
  have hknown : job.registry.issue? issue.id = some issue :=
    (congrArg (·.issue? issue.id) hregistry).trans (Registry.issue?_builtIn.mpr ⟨hissue, rfl⟩)
  have hserved : job.registry.serving? issue.id = some reg :=
    (congrArg (·.serving? issue.id) hregistry).trans hserving
  have hreported : job.reported issue.id = job.findings issue.id issue.scope reg.detector := by
    unfold reported
    rw [hknown, hserved]
    exact if_pos (Bool.and_eq_true_iff.mpr ⟨h.scope, h.enabled⟩)
  rw [hreported]
  exact map_remark_filterMap_warningOf? (h.isEnabled hregistry hissue) fun f hf =>
    Detector.issue_of_mem_findings hf

/-- A warning that a check reports stands where its remark says. -/
theorem stands_of_mem_reported {w : Warning} (h : w ∈ job.reported id) :
    w.line = w.remark.line? ∧ w.column = w.remark.column?
      ∧ w.path = w.remark.places.head?.map fun place => job.paths.display place.file := by
  unfold reported at h
  split at h
  · split at h
    · obtain ⟨f, -, hwarning⟩ := List.mem_filterMap.mp h
      have htells := tells_of_warningOf? hwarning
      rw [remark_of_warningOf? hwarning]
      exact ⟨htells.line, htells.column, htells.path⟩
    · cases h
  · cases h

/-- Two warnings under an issue that are foremost about one file are ordered as
their remarks are. -/
theorem le_eq_of_isIn {file : Path} {v w : Warning} (hv : v ∈ job.reported id)
    (hw : w ∈ job.reported id) (hvin : v.remark.isIn file) (hwin : w.remark.isIn file) :
    Warning.le v w = Remark.le v.remark w.remark := by
  have hissue : v.issue = w.issue :=
    Option.some.inj ((issue_of_mem_reported hv).symm.trans (issue_of_mem_reported hw))
  -- both are shown under one path, which therefore decides nothing
  have hshown : ∀ u ∈ job.reported id, u.remark.isIn file →
      u.path = some (job.paths.display file) := by
    intro u hu huin
    obtain ⟨-, -, hpath⟩ := stands_of_mem_reported hu
    unfold Remark.isIn at huin
    cases hplace : u.remark.places.head? with
    | none =>
        rw [hplace] at huin
        cases huin
    | some place =>
        rw [hplace] at huin hpath
        have hfile : place.file = file := beq_iff_eq.mp huin
        rw [hpath, ← hfile]
        rfl
  have hpath : v.path = w.path := (hshown v hv hvin).trans (hshown w hw hwin).symm
  obtain ⟨hvline, hvcolumn, -⟩ := stands_of_mem_reported hv
  obtain ⟨hwline, hwcolumn, -⟩ := stands_of_mem_reported hw
  have hsame : Issue.compare w.issue w.issue = .eq := Std.ReflCmp.compare_self
  have hshow : Warning.compareOption w.path w.path = .eq := Std.ReflCmp.compare_self
  unfold Warning.le Warning.compare Remark.le
  rw [hissue, hpath, hsame, hshow, hvline, hwline, hvcolumn, hwcolumn]
  rfl

-- ==================================================== what a detector is told

variable {d : Detector} {file : Path} {folder : Option FolderType} {doc : Xml.Document}

/-- A detector is told of a document as it is shown it. -/
theorem markupTold_of_document? (h : job.host.document? file = some doc) :
    job.markupTold d file folder
      = (d.told doc).map (job.context file (job.host.read file) folder, ·) := by
  obtain ⟨text, htext, hparse⟩ := Host.exists_parse_of_document? h
  unfold markupTold
  simp only [htext, hparse]

theorem markupTold_of_no_document? (h : job.host.document? file = none) :
    job.markupTold d file folder = [] := by
  unfold markupTold
  cases htext : job.host.read file with
  | none => rfl
  | some text =>
      unfold Host.document? at h
      rw [htext, Option.bind_some] at h
      cases hparse : Xml.Document.parse text with
      | error e => simp only [hparse]
      | ok found =>
          rw [hparse] at h
          cases h

/-- The manifest is told to a detector of a scope that has it, where the check
opens it. -/
theorem manifestTold_of_mem {scope : Scope} (hscope : scope.manifest)
    (hmanifest : job.project.manifest ∈ job.openedManifest) :
    job.manifestTold scope d = job.markupTold d job.project.manifest none := by
  unfold openedManifest at hmanifest
  unfold manifestTold
  split at hmanifest
  · next hopened =>
      simp only [Bool.and_eq_true] at hopened
      simp only [hopened.2.1, hopened.2.2, hscope, Bool.true_and, if_true]
  · cases hmanifest

/-- A detector of the manifest is told about it, between the beginning and the
end of the project. -/
theorem told_manifestOnly (hscope : job.scope.manifest) (d : Detector) :
    job.told .manifestOnly d
      = (job.projectContext, .beforeProject)
        :: (job.manifestTold .manifestOnly d ++ [(job.projectContext, .afterProject)]) := by
  have hresources : job.resourcesTold .manifestOnly d = [] := if_neg (by decide)
  have hproguard : job.proguardTold .manifestOnly d = [] := by
    unfold proguardTold
    simp [show Scope.manifestOnly.proguard = false from rfl]
  unfold told
  simp only [hresources, hproguard, hscope, if_true, ite_self, List.append_nil,
    List.cons_append, List.nil_append]

/-- A scope that covers the manifest opens it. -/
theorem manifest_of_isSubset {scope : Scope} (h : Scope.manifestOnly.isSubset scope) :
    scope.manifest :=
  Scope.isSubset_iff.mp h .manifest (by decide)

/-- What a detector finds in a project begins with what it finds in the
manifest, where it is indifferent to the project as a whole. -/
theorem findings_manifestOnly {issues : List String} (hlocal : d.Local issues)
    (hscope : job.scope.manifest) :
    d.findings id .blank (job.told .manifestOnly d)
      = d.findings id .blank (job.manifestTold .manifestOnly d) := by
  rw [told_manifestOnly hscope, hlocal.findings_project]

end Run.Job

namespace Session

variable {s : Session} {host : Host} {scope : Option Scope} {files : List Path}
  {project : Project}

-- ============================================================ what a run does

/-- An uncanceled run of the built-in detectors that checks a project. -/
structure Checks (s : Session) (host : Host) (scope : Option Scope) (files : List Path)
    (project : Project) : Prop where
  registry : s.registry = .builtIn
  coherent : Run.Coherent host
  uncanceled : (s.analyze host files scope).1.canceled = false
  mem : project ∈ projectsFor host files

/-- A session that nobody ended checks all projects of a request, if nobody
ends it. -/
theorem checks_ofTree (hregistry : s.registry = .builtIn) (hs : s.canceled = false)
    (t : FileTree) (hproject : project ∈ projectsFor (.ofTree t fun _ => false) files) :
    s.Checks (.ofTree t fun _ => false) scope files project where
  registry := hregistry
  coherent := Run.coherent_ofTree t _
  uncanceled := canceled_analyze_builtIn hregistry (fun _ => rfl) hs
  mem := hproject

/-- What a run remarks on a project under an issue is what the check of the
project reports, in the order of a report. -/
theorem Checks.remarks_eq (h : s.Checks host scope files project) {id : String}
    (hid : id ≠ Registry.parserErrorId) :
    (s.analyze host files scope).1.remarks project id
      = (Warning.sort ((s.jobOf host scope files project).reported id)).map Warning.remark := by
  have hdirectory : ∀ (other : Project), ∀ w ∈ (s.jobOf host scope files other).reported id,
      w.projectDirectory = some other.directory := fun other w hw => by
    obtain ⟨f, -, htells⟩ := Run.Job.tells_of_mem_reported hw
    exact htells.directory
  -- of what all projects report, the part with this directory is what this one reports
  have hone : ((projectsFor host files).flatMap fun other =>
        (s.jobOf host scope files other).reported id).filter
          (·.projectDirectory == some project.directory)
      = (s.jobOf host scope files project).reported id := by
    rw [List.filter_flatMap, flatMap_eq_of_forall_ne nodup_projectsFor h.mem]
    · rw [List.filter_eq_self]
      intro w hw
      exact beq_iff_eq.mpr (hdirectory project w hw)
    · intro other hother hne
      rw [List.filter_eq_nil_iff]
      intro w hw
      rw [hdirectory other w hw, beq_iff_eq]
      exact fun heq => directory_ne hother h.mem hne (Option.some.inj heq)
  have hboth : (s.analyze host files scope).1.warnings.filter (fun w =>
        w.issue.id == id && w.projectDirectory == some project.directory)
      = ((s.analyze host files scope).1.warnings.filter (·.issue.id == id)).filter
          (·.projectDirectory == some project.directory) := by
    rw [List.filter_filter]
    exact List.filter_congr fun w _ => Bool.and_comm ..
  unfold RunResult.remarks
  rw [hboth, filter_analyze_builtIn h.registry h.coherent hid h.uncanceled, Warning.sort_filter]
  exact congrArg (fun found => (Warning.sort found).map Warning.remark) hone

/-- No detector serves the issue for files that cannot be parsed. -/
theorem ne_parserErrorId_of_serving? {id : String} {reg : Registration}
    (hserving : Registry.builtIn.serving? id = some reg) : id ≠ Registry.parserErrorId := by
  intro heq
  obtain ⟨hreg, hid⟩ := Registry.mem_of_serving? hserving
  exact Registry.orderly_builtIn.parserError reg hreg (heq ▸ hid)

/-- What a run remarks on a project under an issue that it looks for is what
the detector behind the issue finds there. -/
theorem Checks.perm_remarks (h : s.Checks host scope files project) {issue : Issue}
    (hissue : issue ∈ Registry.builtInIssues) {reg : Registration}
    (hserving : Registry.builtIn.serving? issue.id = some reg)
    (hlooks : (s.jobOf host scope files project).LooksFor issue) :
    ((s.analyze host files scope).1.remarks project issue.id).Perm
      ((reg.detector.findings issue.id .blank
        ((s.jobOf host scope files project).told issue.scope reg.detector)).map
          Finding.remark) := by
  rw [h.remarks_eq (ne_parserErrorId_of_serving? hserving),
    ← hlooks.map_remark_reported h.registry hissue hserving]
  exact (List.mergeSort_perm _ _).map _

/-- What a run remarks on a project under an issue of the manifest that it looks
for is what a local detector behind the issue finds in the document. -/
theorem Checks.perm_remarks_manifest (h : s.Checks host scope files project) {issue : Issue}
    (hissue : issue ∈ Registry.builtInIssues) (hscope : issue.scope = .manifestOnly)
    {reg : Registration} (hreg : reg ∈ Registry.builtInRegistrations)
    (hid : issue.id ∈ reg.issues) {issues : List String} (hlocal : reg.detector.Local issues)
    (hlooks : (s.jobOf host scope files project).LooksFor issue)
    (hmanifest : project.manifest ∈ (s.jobOf host scope files project).openedManifest)
    {doc : Xml.Document} (hdoc : host.document? project.manifest = some doc) :
    ((s.analyze host files scope).1.remarks project issue.id).Perm
      ((reg.detector.findings issue.id .blank
        ((reg.detector.told doc).map
          ((s.jobOf host scope files project).context project.manifest
            (host.read project.manifest) none, ·))).map Finding.remark) := by
  have hperm := h.perm_remarks hissue (Registry.serving?_builtIn hreg hid) hlooks
  have hsees := Run.Job.manifest_of_isSubset (hscope ▸ hlooks.scope)
  have htold : (s.jobOf host scope files project).manifestTold .manifestOnly reg.detector
      = (reg.detector.told doc).map ((s.jobOf host scope files project).context project.manifest
          (host.read project.manifest) none, ·) :=
    (Run.Job.manifestTold_of_mem (by decide) hmanifest).trans (Run.Job.markupTold_of_document? hdoc)
  rw [hscope, Run.Job.findings_manifestOnly hlocal hsees, htold] at hperm
  exact hperm

-- ========================================================= in resource files

section ResourceFiles

variable {issue : Issue} {reg : Registration} {issues : List String}
  {said : Path → Xml.Document → List Remark} (h : s.Checks host scope files project)
  (hissue : issue ∈ Registry.builtInIssues) (hscope : issue.scope = .resourceFileOnly)
  (hreg : reg ∈ Registry.builtInRegistrations) (hid : issue.id ∈ reg.issues)
  (hlocal : reg.detector.Local issues)
  (hlooks : (s.jobOf host scope files project).LooksFor issue)
  (hsaid : ∀ file folder doc, (reg.detector.findings issue.id .blank
    ((reg.detector.told doc).map ((s.jobOf host scope files project).context file
      (host.read file) folder, ·))).map Finding.remark = said file doc)

include h hissue hscope hreg hid hlocal hlooks hsaid

/-- What a check says under an issue that needs one resource file only, if a
local detector behind the issue finds in a document what is said. -/
theorem Checks.map_remark_reported :
    ((s.jobOf host scope files project).reported issue.id).map Warning.remark
      = (Run.Job.resourceFiles host.tree project).flatMap (host.remarksOf reg.detector said) := by
  have hsees := Run.Job.resourceFile_of_isSubset (hscope ▸ hlooks.scope)
  have hone : ∀ found ∈ Run.Job.resourceFiles host.tree project,
      (reg.detector.findings issue.id .blank
          ((s.jobOf host scope files project).resourceFileTold reg.detector found)).map
          Finding.remark
        = host.remarksOf reg.detector said found := fun found _ => by
    unfold Run.Job.resourceFileTold Host.remarksOf
    split
    · cases hdoc : host.document? found.1 with
      | none =>
          have htold : (s.jobOf host scope files project).markupTold reg.detector found.1
              (some found.2) = [] := Run.Job.markupTold_of_no_document? hdoc
          rw [htold]
          rfl
      | some doc =>
          refine Eq.trans ?_ (hsaid found.1 (some found.2) doc)
          exact congrArg (fun told => List.map Finding.remark
            (reg.detector.findings issue.id .blank told)) (Run.Job.markupTold_of_document? hdoc)
    · rfl
  rw [hlooks.map_remark_reported h.registry hissue (Registry.serving?_builtIn hreg hid), hscope,
    Run.Job.findings_told hlocal hsees, List.map_flatMap]
  exact List.flatMap_congr hone

/-- What a run remarks under such an issue. -/
theorem Checks.perm_remarks_resourceFiles :
    ((s.analyze host files scope).1.remarks project issue.id).Perm
      ((Run.Job.resourceFiles host.tree project).flatMap (host.remarksOf reg.detector said)) := by
  rw [h.remarks_eq (ne_parserErrorId_of_serving? (Registry.serving?_builtIn hreg hid)),
    ← h.map_remark_reported hissue hscope hreg hid hlocal hlooks hsaid]
  exact (List.mergeSort_perm _ _).map _

/-- What a run remarks in one of the files stands in the order of a report. -/
theorem Checks.filter_isIn_remarks
    (hin : ∀ file doc, ∀ r ∈ said file doc, r.isIn file) (hwell : host.tree.WellFormed)
    {found : Path × FolderType} (hfound : found ∈ Run.Job.resourceFiles host.tree project) :
    ((s.analyze host files scope).1.remarks project issue.id).filter (·.isIn found.1)
      = (host.remarksOf reg.detector said found).mergeSort Remark.le := by
  have hwhere : (((s.jobOf host scope files project).reported issue.id).filter
        fun w => w.remark.isIn found.1).map Warning.remark
      = host.remarksOf reg.detector said found := by
    rw [← Host.filter_isIn_remarksOf hwell (Project.distinct_ofInputs _ _ project h.mem) hin hfound,
      ← h.map_remark_reported hissue hscope hreg hid hlocal hlooks hsaid, List.filter_map]
    rfl
  rw [h.remarks_eq (ne_parserErrorId_of_serving? (Registry.serving?_builtIn hreg hid)),
    List.filter_map, ← hwhere]
  show ((Warning.sort _).filter fun w => w.remark.isIn found.1).map Warning.remark = _
  rw [Warning.sort_filter]
  refine List.map_mergeSort fun v hv w hw => ?_
  obtain ⟨hv, hvin⟩ := List.mem_filter.mp hv
  obtain ⟨hw, hwin⟩ := List.mem_filter.mp hw
  exact Run.Job.le_eq_of_isIn hv hw hvin hwin

end ResourceFiles

end Session

end ResourceLint
