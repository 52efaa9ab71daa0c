/-
Files that cannot be parsed.

A check opens a file of markup when some detector attends it; the manifest
it opens in any case.  `Job.attended` lists the files it opens, and an
uncanceled check reports a parse error for each of them that can be read
and not be parsed, and for no other file (`filter_check_parserError`).  No
detector reports parse errors itself, so it does not matter which detectors
run as long as one attends the file.

# One report for one file

In a well formed tree a walk comes to every file once, and a request keeps
no file twice (`Project.Distinct`).  So a file is opened at most once as a
resource file, and the manifest once more (`count_attended`).  A manifest is
opened both ways if it lies in a folder of resources and is asked for as a
file; and a resource file that nobody attends is not opened at all, whatever
it holds.  Exactly one report comes of the files in between (`OpensOnce`).
-/
import Mathlib.Data.List.Pairwise
import ResourceLint.Proofs.Sessions

namespace ResourceLint

namespace Run.Job

variable (job : Job)

-- ================================================== files that are opened

/-- Whether some detector attends resource files in folders of this type. -/
def attendsFolder (cast : List ActiveDetector) (folder : FolderType) : Bool :=
  cast.any fun a =>
    (a.scope.resourceFile || a.scope.allResourceFiles) && a.detector.appliesToFolder folder

/-- The manifest, where a check opens it. -/
def openedManifest : List Path :=
  if job.scope.manifest
      && (job.project.includes job.project.manifest && job.host.tree.isFile job.project.manifest)
  then [job.project.manifest] else []

/-- The resource files that a check opens. -/
def openedResources (cast : List ActiveDetector) : List Path :=
  if job.scope.resourceFile || job.scope.allResourceFiles then
    ((resourceFiles job.host.tree job.project).filter fun found =>
      attendsFolder cast found.2).map (·.1)
  else []

/-- The resource files that the scope of a check selects, with the types of
their folders. -/
def selectedResources : List (Path × FolderType) :=
  if job.scope.resourceFile || job.scope.allResourceFiles then
    resourceFiles job.host.tree job.project
  else []

/-- Of the resource files that are selected a check opens those that some
detector attends. -/
theorem mem_openedResources {cast : List ActiveDetector} {file : Path} :
    file ∈ job.openedResources cast ↔
      ∃ folder, (file, folder) ∈ job.selectedResources ∧ attendsFolder cast folder := by
  unfold openedResources selectedResources
  split
  · constructor
    · intro h
      obtain ⟨⟨found, folder⟩, hfound, rfl⟩ := List.mem_map.mp h
      exact ⟨folder, List.mem_filter.mp hfound⟩
    · rintro ⟨folder, hfound⟩
      exact List.mem_map.mpr ⟨(file, folder), List.mem_filter.mpr hfound, rfl⟩
  · exact ⟨nofun, fun ⟨_, h, _⟩ => nomatch h⟩

/-- A check opens a file once: it is the manifest, or a resource file that the
scope selects and some detector attends, and not both. -/
def OpensOnce (file : Path) : Prop :=
  ¬ (file ∈ job.openedManifest ↔
    ∃ folder, (file, folder) ∈ job.selectedResources ∧ attendsFolder job.detectors folder)

/-- The files of markup that a check opens. -/
def attended (cast : List ActiveDetector) : List Path :=
  job.openedManifest ++ job.openedResources cast

/-- The parse error of a file that can be read. -/
def fault? (file : Path) : Option (Path × Xml.ParseError) :=
  match job.host.read file with
  | none => none
  | some text =>
    match Xml.Document.parse text with
    | .error e => some (file, e)
    | .ok _ => none

/-- A file is faulty when it is read and cannot be parsed. -/
theorem fault?_eq_some_iff {file found : Path} {e : Xml.ParseError} :
    job.fault? file = some (found, e) ↔
      found = file ∧ ∃ text, job.host.read file = some text
        ∧ Xml.Document.parse text = .error e := by
  unfold fault?
  cases job.host.read file with
  | none => simp
  | some text =>
      simp only [Option.some.injEq, exists_eq_left']
      cases hparse : Xml.Document.parse text with
      | error e' => simp [eq_comm]
      | ok document => simp

/-- The warning about a parse error, with the text of its file. -/
def faultWarning? (fault : Path × Xml.ParseError) : Option Warning :=
  job.warningOf? (textOf job.host fault.1) (parseFinding fault.1 fault.2)

/-- The warnings about files that a check cannot parse. -/
def faults : List Warning :=
  ((job.attended job.detectors).filterMap job.fault?).filterMap job.faultWarning?

-- ======================================================= the script's faults

/-- The parse errors that steps come to. -/
def faultsOf (steps : List Step) : List (Path × Xml.ParseError) :=
  steps.filterMap fun
    | .fault file e => some (file, e)
    | .opened .. => none
    | .call .. => none

/-- Faults are found one step after the other. -/
theorem faultsOf_append (s t : List Step) : faultsOf (s ++ t) = faultsOf s ++ faultsOf t :=
  List.filterMap_append

/-- Calls find no fault. -/
theorem faultsOf_callSteps (context : Context) (made : List (Nat × Call)) :
    faultsOf (callSteps context made) = [] := by
  unfold faultsOf callSteps
  rw [List.filterMap_map, List.filterMap_eq_nil_iff]
  exact fun _ _ => rfl

variable {job} {cast : List ActiveDetector} {p : Progress}

/-- A markup file has its own fault, if any. -/
theorem faultsOf_markupSteps (file : Path) (folder : Option FolderType) (visitor : Visitor) :
    faultsOf (job.markupSteps cast file folder visitor) = (job.fault? file).toList := by
  unfold markupSteps fault?
  cases job.host.read file with
  | none => rfl
  | some text =>
      simp only
      cases Xml.Document.parse text with
      | error e => rfl
      | ok document => exact faultsOf_callSteps _ _

/-- The script finds the fault of the manifest when it opens it. -/
theorem faultsOf_manifestSteps :
    (if job.scope.manifest then faultsOf (job.manifestSteps cast) else [])
      = job.openedManifest.filterMap job.fault? := by
  unfold manifestSteps openedManifest
  cases hscope : job.scope.manifest with
  | false => rfl
  | true =>
      simp only [if_true, Bool.true_and]
      split
      · rw [faultsOf_markupSteps, List.filterMap_cons]
        cases job.fault? job.project.manifest <;> rfl
      · rfl

/-- A visitor serves somebody when a detector attends the folder. -/
theorem isEmpty_resourceVisitor (cast : List ActiveDetector) (folder : FolderType) :
    (Visitor.new (resourceCandidates cast) (some folder)).isEmpty
      = !attendsFolder cast folder := by
  rw [Visitor.isEmpty_new]
  unfold resourceCandidates candidates attendsFolder
  rw [List.any_filter]
  congr 1
  rw [← List.zipIdx_map_fst 0 cast, List.any_map, List.zipIdx_map_fst 0 cast]
  rfl

/-- The script finds the faults of the resource files it opens, in their
order. -/
theorem faultsOf_resourceSteps :
    (if job.scope.resourceFile || job.scope.allResourceFiles then
        faultsOf (job.resourceSteps cast) else [])
      = (job.openedResources cast).filterMap job.fault? := by
  have hfile : ∀ found : Path × FolderType, faultsOf (job.resourceFileSteps cast found)
      = if attendsFolder cast found.2 then (job.fault? found.1).toList else [] := by
    intro found
    unfold resourceFileSteps
    simp only [isEmpty_resourceVisitor]
    cases attendsFolder cast found.2 with
    | false => rfl
    | true => exact faultsOf_markupSteps ..
  unfold openedResources
  split
  · unfold resourceSteps
    generalize resourceFiles job.host.tree job.project = files
    split
    · next hempty =>
        -- without candidates nobody attends any folder
        have hnobody : ∀ folder, attendsFolder cast folder = false := by
          intro folder
          have hvisitor := isEmpty_resourceVisitor cast folder
          have hnone : (Visitor.new [] (some folder)).isEmpty = true := rfl
          rw [List.isEmpty_iff.mp hempty, hnone] at hvisitor
          simpa using hvisitor.symm
        rw [List.filter_eq_nil_iff.mpr fun found _ => by simp [hnobody]]
        rfl
    · induction files with
      | nil => rfl
      | cons found files ih =>
          rw [List.flatMap_cons, faultsOf_append, hfile, ih, List.filter_cons]
          split
          · rw [List.map_cons, List.filterMap_cons]
            cases job.fault? found.1 <;> rfl
          · rfl
  · rfl

/-- The faults of a script are those of the files that it opens. -/
theorem faultsOf_script :
    faultsOf (job.script cast) = (job.attended cast).filterMap job.fault? := by
  have hround : ∀ call, faultsOf (job.roundSteps cast call) = [] := fun _ =>
    faultsOf_callSteps _ _
  have hproguard : faultsOf (job.proguardSteps cast) = [] := by
    unfold proguardSteps
    simp only
    split
    · rfl
    · cases job.host.read job.project.proguardFile with
      | none => rfl
      | some text => exact faultsOf_callSteps _ _
  have hif : ∀ (b : Bool) (steps : List Step),
      faultsOf (if b then steps else []) = if b then faultsOf steps else [] := by
    intro b steps
    cases b <;> rfl
  unfold script attended
  simp only [faultsOf_append, hround, hif, hproguard, ite_self, List.append_nil, List.nil_append]
  rw [faultsOf_manifestSteps, faultsOf_resourceSteps, List.filterMap_append]

-- ===================================================== reports of faults

/-- Steps report the parse errors that they come to, where no detector
reports any. -/
theorem filter_foldl_perform_parserError (hcoherent : Coherent job.host)
    (hcast : ∀ b ∈ cast, b.detector.Spares Registry.parserErrorId) (steps : List Step)
    (hp : p.active.map ActiveDetector.rested = cast) (hgenuine : Genuine job.host p.sources)
    (hsound : Sound job.host p.sources steps) :
    (steps.foldl job.perform p).warnings.filter (·.issue.id == Registry.parserErrorId)
      = p.warnings.filter (·.issue.id == Registry.parserErrorId)
        ++ (faultsOf steps).filterMap job.faultWarning? := by
  induction steps generalizing p with
  | nil => exact (List.append_nil _).symm
  | cons step steps ih =>
      rw [List.foldl_cons, ih (by rw [map_rested_perform, hp]) (genuine_perform hgenuine hsound)
        hsound.perform]
      rcases step with ⟨file, text, _ | ids⟩ | ⟨file, e⟩ | ⟨context, who, made⟩
      · rfl
      · rfl
      · obtain ⟨text, hopened, -⟩ := hsound.1
        have hknown := hgenuine.sourceOf?_of_known hcoherent ⟨text, hopened⟩
        -- the warning shows the text that was opened, which is the host's
        have hwarning : job.warningOf? p.sources (parseFinding file e)
            = job.faultWarning? (file, e) :=
          warningOf?_congr (hknown.trans (sourceOf?_textOf job.host file).symm)
        have hfaults : faultsOf (.fault file e :: steps) = (file, e) :: faultsOf steps := rfl
        rw [perform, reportFault_eq, hfaults, hwarning, List.filter_append, List.filterMap_cons,
          List.append_assoc]
        cases hfound : job.faultWarning? (file, e) with
        | none => rfl
        | some warning =>
            have hid : warning.issue.id = Registry.parserErrorId := issue_of_warningOf? hfound
            simp [hid]
      · have hskip : faultsOf (.call context who made :: steps) = faultsOf steps := rfl
        rw [hskip]
        congr 1
        refine filter_perform_of_forall_ne fun f hf => ?_
        obtain ⟨b, hb, hreport⟩ := report_of_mem_findingsOf hf
        exact hcast b.rested (hp ▸ List.mem_map_of_mem (List.mem_of_getElem? hb)) _ _ _ f hreport

/-- An uncanceled check reports the parse errors of the files that it
opens. -/
theorem filter_check_parserError (horderly : job.registry.Orderly)
    (hactive : p.active = job.detectors) (hsources : p.sources = [])
    (hcoherent : Coherent job.host) (hend : (job.check p).canceled = false) :
    (job.check p).warnings.filter (·.issue.id == Registry.parserErrorId)
      = p.warnings.filter (·.issue.id == Registry.parserErrorId) ++ job.faults := by
  have hrested : p.active.map ActiveDetector.rested = job.detectors := by
    rw [hactive, map_rested_detectors]
  rw [check_eq_foldl_script hend, filter_foldl_perform_parserError hcoherent (fun b hb => ?_) _ rfl
    (hsources ▸ genuine_nil) sound_script, hrested, faultsOf_script]
  · rfl
  · rw [hrested] at hb
    obtain ⟨reg, hreg, hb⟩ := List.mem_filterMap.mp hb
    exact horderly.spares hreg (horderly.parserError reg hreg) hb

/-- Where only parse errors are looked for, no detector runs. -/
theorem detectors_eq_nil (horderly : job.registry.Orderly)
    (h : ∀ issue, job.registry.issue? issue.id = some issue → job.configuration.isEnabled issue →
      issue.id = Registry.parserErrorId) : job.detectors = [] := by
  refine List.filterMap_eq_nil_iff.mpr fun reg hreg => ?_
  have hnone : job.registry.activeIssues job.configuration.isEnabled job.scope reg = [] := by
    rw [List.eq_nil_iff_forall_not_mem]
    intro issue hissue
    obtain ⟨⟨hmem, hfound⟩, -, henabled⟩ := Registry.mem_activeIssues.mp hissue
    rw [h issue hfound henabled] at hmem
    exact horderly.parserError reg hreg hmem
  unfold Registry.activate?
  rw [hnone]

end Run.Job

-- ==================================================== every file is opened once

namespace FileTree.WellFormed

variable {t : FileTree}

/-- A walk of resources has every XML file two steps below once. -/
theorem nodup_allResourceFiles (h : t.WellFormed) (project : Project) :
    (Run.Job.allResourceFiles t project).Nodup :=
  (List.filter_sublist.map _).nodup (h.nodup_walk project.resources)

/-- The files of a walk of resources are two steps below. -/
theorem components_of_mem_allResourceFiles (h : t.WellFormed) {project : Project} {file : Path}
    (hfile : file ∈ Run.Job.allResourceFiles t project) :
    ∃ a b, file.components
      = project.directory.components ++ [.name resourcesName, .name a, .name b] := by
  unfold Run.Job.allResourceFiles at hfile
  obtain ⟨⟨path, depth, entry⟩, hwalk, rfl⟩ := List.mem_map.mp hfile
  obtain ⟨hwalk, hcond⟩ := List.mem_filter.mp hwalk
  simp only [Bool.and_eq_true, beq_iff_eq] at hcond
  obtain ⟨⟨rfl, -⟩, -⟩ := hcond
  unfold walk at hwalk
  cases hfind : t.find project.resources with
  | error fault => rw [hfind] at hwalk; cases hwalk
  | ok found =>
      obtain ⟨names, top⟩ := found
      rw [hfind] at hwalk
      rcases List.mem_cons.mp hwalk with heq | hwalk
      · cases heq
      · obtain ⟨⟨rest, below⟩, hbelow, heq⟩ := List.mem_map.mp hwalk
        simp only [Prod.mk.injEq] at heq
        obtain ⟨rfl, hlength, -⟩ := heq
        have hproper : ∀ name ∈ rest, Path.IsName name := fun name hname =>
          h.isName_of_entry? (h.mem_below.mp hbelow).1 name (List.mem_append_right _ hname)
        -- the walk counts the steps, and files are taken at the second
        obtain ⟨a, b, rfl⟩ := List.length_eq_two.mp hlength
        refine ⟨a, b, ?_⟩
        rw [Path.components_foldl_child hproper]
        unfold Project.resources
        rw [Path.components_child _ (by decide), List.append_assoc]
        rfl

end FileTree.WellFormed

namespace Run.Job

variable {job : Job} {cast : List ActiveDetector}

/-- The resource files of a project are its own or were asked for. -/
theorem of_mem_resourceFiles {t : FileTree} {project : Project} {found : Path × FolderType}
    (h : found ∈ resourceFiles t project) :
    folderOf? found.1 = some found.2
      ∧ (project.subset = none ∧ found.1 ∈ allResourceFiles t project
        ∨ project.subset.isSome ∧ isResourceFile found.1) := by
  unfold resourceFiles at h
  obtain ⟨file, hfile, hfound⟩ := List.mem_filterMap.mp h
  obtain ⟨folder, hfolder, rfl⟩ := Option.map_eq_some_iff.mp hfound
  refine ⟨hfolder, ?_⟩
  cases hsubset : project.subset with
  | none =>
      rw [hsubset] at hfile
      exact Or.inl ⟨rfl, hfile⟩
  | some files =>
      rw [hsubset] at hfile
      rw [List.mem_mergeSort] at hfile
      exact Or.inr ⟨rfl, (List.mem_filter.mp hfile).2⟩

/-- No resource file is looked at twice. -/
theorem nodup_resourceFiles {t : FileTree} (hwell : t.WellFormed) {project : Project}
    (hdistinct : project.Distinct) : ((resourceFiles t project).map (·.1)).Nodup := by
  have hsub : ∀ files : List Path, ((files.filterMap fun file =>
      (folderOf? file).map (file, ·)).map (·.1)).Sublist files := by
    intro files
    induction files with
    | nil => exact List.Sublist.slnil
    | cons file files ih =>
        rw [List.filterMap_cons]
        cases folderOf? file with
        | none => exact ih.cons file
        | some folder => exact ih.cons_cons file
  refine (hsub _).nodup ?_
  cases hsubset : project.subset with
  | none => exact hwell.nodup_allResourceFiles project
  | some files =>
      refine (List.mergeSort_perm _ _).nodup_iff.mpr (List.Nodup.filter _ ?_)
      refine (hdistinct files hsubset).imp fun {a b} hab heq => ?_
      rw [heq, Path.same_refl] at hab
      cases hab

/-- A check opens a file once as the manifest, and once as a resource file. -/
theorem count_attended (hwell : job.host.tree.WellFormed) (hdistinct : job.project.Distinct)
    (file : Path) :
    (job.attended cast).count file
      = (if file ∈ job.openedManifest then 1 else 0)
        + if file ∈ job.openedResources cast then 1 else 0 := by
  have hmanifest : job.openedManifest.Nodup := by
    unfold openedManifest
    split
    · exact List.nodup_singleton _
    · exact List.nodup_nil
  have hresources : (job.openedResources cast).Nodup := by
    unfold openedResources
    split
    · exact (List.filter_sublist.map _).nodup (nodup_resourceFiles hwell hdistinct)
    · exact List.nodup_nil
  unfold attended
  rw [List.count_append, hmanifest.count, hresources.count]

/-- A file is opened once exactly when it is attended once. -/
theorem opensOnce_iff (hwell : job.host.tree.WellFormed) (hdistinct : job.project.Distinct)
    (file : Path) : job.OpensOnce file ↔ (job.attended job.detectors).count file = 1 := by
  rw [count_attended hwell hdistinct, OpensOnce, ← mem_openedResources]
  by_cases hmanifest : file ∈ job.openedManifest <;>
    by_cases hresource : file ∈ job.openedResources job.detectors <;>
    simp [hmanifest, hresource]

/-- A file that is opened is opened once, unless it is a manifest that is a
resource file of a request as well. -/
theorem opensOnce_of_mem_attended (hwell : job.host.tree.WellFormed) {file : Path}
    (hfile : file ∈ job.attended job.detectors)
    (hmanifest : file = job.project.manifest → job.project.subset.isSome →
      isResourceFile file = false) : job.OpensOnce file := by
  unfold OpensOnce
  rw [← mem_openedResources]
  by_cases hopened : file ∈ job.openedManifest
  · have heq : file = job.project.manifest := by
      unfold openedManifest at hopened
      split at hopened
      · exact List.mem_singleton.mp hopened
      · cases hopened
    refine fun hboth => ?_
    obtain ⟨folder, hfound, -⟩ := job.mem_openedResources.mp (hboth.mp hopened)
    have hfound : (file, folder) ∈ resourceFiles job.host.tree job.project := by
      unfold selectedResources at hfound
      split at hfound
      · exact hfound
      · cases hfound
    rcases (of_mem_resourceFiles hfound).2 with ⟨-, hwalk⟩ | ⟨hsubset, hresource⟩
    · -- the manifest lies higher than the files of a walk
      obtain ⟨x, y, hcomponents⟩ := hwell.components_of_mem_allResourceFiles hwalk
      rw [heq, Project.manifest, Path.components_child _ (by decide)] at hcomponents
      have hlength := congrArg List.length hcomponents
      simp at hlength
    · rw [hmanifest heq hsubset] at hresource
      cases hresource
  · have hmem := (List.mem_append.mp hfile).resolve_left hopened
    exact fun hboth => hopened (hboth.mpr hmem)

/-- Whether a warning is about a parse error in a file of a project. -/
def isFaultOf (project : Project) (file : Path) (w : Warning) : Bool :=
  w.issue.id == Registry.parserErrorId
    && (w.projectDirectory == some project.directory && w.file == some file)

/-- A warning says which file of a project cannot be parsed, where and why. -/
structure SaysFault (project : Project) (file : Path) (e : Xml.ParseError) (w : Warning) :
    Prop where
  issue : w.issue.id = Registry.parserErrorId
  directory : w.projectDirectory = some project.directory
  file : w.file = some file
  message : w.message = e.message
  line : w.line = some e.position.line
  column : w.column = e.position.column
  offset : w.offset = some e.position.offset

/-- The warning of a fault says what is wrong, and where. -/
theorem saysFault_of_faultWarning? {file : Path} {e : Xml.ParseError} {w : Warning}
    (h : job.faultWarning? (file, e) = some w) : SaysFault job.project file e w := by
  have htells := tells_of_warningOf? h
  exact
    { issue := issue_of_warningOf? h
      directory := htells.directory
      file := htells.file
      message := htells.message
      line := htells.line
      column := htells.column
      offset := htells.offset }

/-- Parse errors are reported where they are enabled. -/
theorem isSome_faultWarning? (fault : Path × Xml.ParseError) :
    (job.faultWarning? fault).isSome = job.isEnabled Registry.parserErrorId := by
  unfold faultWarning? warningOf? isEnabled
  show (Option.bind (job.registry.issue? Registry.parserErrorId) _).isSome = _
  cases job.registry.issue? Registry.parserErrorId with
  | none => rfl
  | some issue =>
      simp only [Option.bind_some, Option.any_some, Configuration.isEnabled]
      split
      · next h => simp [h]
      · next h => simp [h]

/-- The warnings about faults are those of the attended files. -/
theorem mem_faults {w : Warning} :
    w ∈ job.faults ↔ ∃ file ∈ job.attended job.detectors, ∃ e,
      job.fault? file = some (file, e) ∧ job.faultWarning? (file, e) = some w := by
  unfold faults
  simp only [List.mem_filterMap]
  constructor
  · rintro ⟨fault, ⟨file, hfile, hfault⟩, hw⟩
    obtain ⟨found, e⟩ := fault
    obtain ⟨rfl, -⟩ := (job.fault?_eq_some_iff).mp hfault
    exact ⟨found, hfile, e, hfault, hw⟩
  · rintro ⟨file, hfile, e, hfault, hw⟩
    exact ⟨(file, e), ⟨file, hfile, hfault⟩, hw⟩

/-- A check reports the fault of a file as often as it opens the file. -/
theorem filter_faults {file : Path} {e : Xml.ParseError} {w : Warning}
    (hfault : job.fault? file = some (file, e)) (hw : job.faultWarning? (file, e) = some w) :
    job.faults.filter (isFaultOf job.project file)
      = List.replicate ((job.attended job.detectors).count file) w := by
  have hother : ∀ other, ((job.fault? other).bind job.faultWarning?).filter
      (isFaultOf job.project file)
      = if other == file then some w else none := by
    intro other
    by_cases heq : other = file
    · subst heq
      have hsays := saysFault_of_faultWarning? hw
      rw [hfault, if_pos (by simp), Option.bind_some, hw, Option.filter_some_pos]
      simp [isFaultOf, hsays.issue, hsays.directory, hsays.file]
    · rw [if_neg (by simpa using heq), Option.filter_eq_none_iff]
      intro w hw
      obtain ⟨⟨found, e'⟩, hfound, hwarning⟩ := Option.bind_eq_some_iff.mp hw
      obtain ⟨rfl, -⟩ := (job.fault?_eq_some_iff).mp hfound
      simp [isFaultOf, (saysFault_of_faultWarning? hwarning).file, heq]
  unfold faults
  rw [List.filterMap_filterMap, List.filter_filterMap, List.filterMap_congr fun other _ =>
    hother other, ← List.filterMap_filter, List.filter_beq]
  exact List.filterMap_replicate_of_some rfl

end Run.Job

namespace Session

open Run.Job (isFaultOf SaysFault)

variable {s : Session} {host : Host} {scope : Option Scope} {files : List Path}

/-- The jobs of a run. -/
def jobOf (s : Session) (host : Host) (scope : Option Scope) (files : List Path)
    (project : Project) : Run.Job :=
  s.jobFor host scope (s.pathsFor host files) project

/-- An uncanceled run of the built-in detectors reports the parse errors of
the files that its checks open. -/
theorem filter_analyze_parserError (hregistry : s.registry = .builtIn)
    (hcoherent : Run.Coherent host) (hend : (s.analyze host files scope).1.canceled = false) :
    (s.analyze host files scope).1.warnings.filter (·.issue.id == Registry.parserErrorId)
      = Warning.sort ((projectsFor host files).flatMap fun project =>
          (s.jobOf host scope files project).faults) := by
  refine filter_analyze _ (·.faults) (fun job p hjob hhost hbegins hcheck => ?_) hend
  refine Run.Job.filter_check_parserError ?_ hbegins.active hbegins.sources ?_ hcheck
  · rw [hjob, hregistry]
    exact Registry.orderly_builtIn
  · rwa [hhost]

/-- The projects of a run have different directories. -/
theorem directory_ne {p q : Project} (hp : p ∈ projectsFor host files)
    (hq : q ∈ projectsFor host files) (h : p ≠ q) : p.directory ≠ q.directory := by
  have hsymm : Std.Symm fun p q : Project => p.directory.same q.directory = false :=
    ⟨fun a b hab => by rw [Path.same_comm, hab]⟩
  have hapart := (Project.apart_ofInputs host.tree (inputs host files)).forall hp hq h
  intro heq
  rw [heq, Path.same_refl] at hapart
  cases hapart

theorem nodup_projectsFor : (projectsFor host files).Nodup :=
  (Project.apart_ofInputs host.tree (inputs host files)).imp fun {p q} hapart heq => by
    rw [heq, Path.same_refl] at hapart
    cases hapart

/-- What only one item of a list gives. -/
theorem flatMap_eq_of_forall_ne {α β : Type} {l : List α} {f : α → List β} {a : α}
    (hnodup : l.Nodup) (ha : a ∈ l) (h : ∀ b ∈ l, b ≠ a → f b = []) : l.flatMap f = f a := by
  induction l with
  | nil => cases ha
  | cons b l ih =>
      rw [List.nodup_cons] at hnodup
      rw [List.flatMap_cons]
      rcases List.mem_cons.mp ha with rfl | ha
      · have hrest : l.flatMap f = [] := List.flatMap_eq_nil_iff.mpr fun b hb =>
          h b (List.mem_cons_of_mem _ hb) fun heq => hnodup.1 (heq ▸ hb)
        rw [hrest, List.append_nil]
      · have hb : f b = [] := h b List.mem_cons_self fun heq => hnodup.1 (heq ▸ ha)
        rw [hb, List.nil_append]
        exact ih hnodup.2 ha fun b hb => h b (List.mem_cons_of_mem _ hb)

/-- The files of markup that a run opens in a project. -/
def opened (s : Session) (host : Host) (scope : Option Scope) (files : List Path)
    (project : Project) : List Path :=
  (s.jobOf host scope files project).attended (s.jobOf host scope files project).detectors

/-- The parse errors that an uncanceled run reports in a file of a project are
those that the check of this project reports. -/
theorem filter_analyze_isFaultOf (hregistry : s.registry = .builtIn)
    (hcoherent : Run.Coherent host) (hend : (s.analyze host files scope).1.canceled = false)
    {project : Project} (hproject : project ∈ projectsFor host files) (file : Path) :
    (s.analyze host files scope).1.warnings.filter (isFaultOf project file)
      = Warning.sort
          ((s.jobOf host scope files project).faults.filter (isFaultOf project file)) := by
  have hfilter := congrArg (List.filter (isFaultOf project file))
    (filter_analyze_parserError hregistry hcoherent hend)
  have honly : (fun w => isFaultOf project file w && w.issue.id == Registry.parserErrorId)
      = isFaultOf project file := by
    funext w
    unfold isFaultOf
    cases w.issue.id == Registry.parserErrorId <;> simp
  rw [List.filter_filter, honly, Warning.sort_filter, List.filter_flatMap] at hfilter
  rw [hfilter, flatMap_eq_of_forall_ne nodup_projectsFor hproject fun other hother hne => ?_]
  rw [List.filter_eq_nil_iff]
  intro w hw
  obtain ⟨found, -, e, -, hw⟩ := Run.Job.mem_faults.mp hw
  have hdirectory : w.projectDirectory = some other.directory :=
    (Run.Job.saysFault_of_faultWarning? hw).directory
  simp [isFaultOf, hdirectory, directory_ne hother hproject hne]

/-- A file that cannot be parsed is reported as often as it is opened. -/
theorem exists_filter_analyze_isFaultOf (hregistry : s.registry = .builtIn)
    (hcoherent : Run.Coherent host) (hend : (s.analyze host files scope).1.canceled = false)
    {project : Project} (hproject : project ∈ projectsFor host files)
    (henabled : (s.jobOf host scope files project).isEnabled Registry.parserErrorId)
    {file : Path} {text : String} (hread : host.read file = some text) {e : Xml.ParseError}
    (hparse : Xml.Document.parse text = .error e) :
    ∃ w, SaysFault project file e w
      ∧ (s.analyze host files scope).1.warnings.filter (isFaultOf project file)
        = List.replicate ((s.opened host scope files project).count file) w := by
  have hfault : (s.jobOf host scope files project).fault? file = some (file, e) :=
    (Run.Job.fault?_eq_some_iff _).mpr ⟨rfl, text, hread, hparse⟩
  obtain ⟨w, hw⟩ := Option.isSome_iff_exists.mp
    ((Run.Job.isSome_faultWarning? (file, e)).trans henabled)
  refine ⟨w, Run.Job.saysFault_of_faultWarning? hw, ?_⟩
  have hfaults : (s.jobOf host scope files project).faults.filter (isFaultOf project file)
      = List.replicate ((s.opened host scope files project).count file) w :=
    Run.Job.filter_faults hfault hw
  rw [filter_analyze_isFaultOf hregistry hcoherent hend hproject, hfaults]
  exact List.perm_replicate.mp (List.mergeSort_perm _ _)

/-- A parse error is reported of a file that is opened and cannot be parsed. -/
theorem exists_opened_of_parserError (hregistry : s.registry = .builtIn)
    (hcoherent : Run.Coherent host) (hend : (s.analyze host files scope).1.canceled = false)
    {w : Warning} (hw : w ∈ (s.analyze host files scope).1.warnings)
    (hid : w.issue.id = Registry.parserErrorId) :
    ∃ project ∈ projectsFor host files,
      (s.jobOf host scope files project).isEnabled Registry.parserErrorId
      ∧ ∃ file ∈ s.opened host scope files project,
        ∃ text e, host.read file = some text ∧ Xml.Document.parse text = .error e
          ∧ SaysFault project file e w := by
  have hmem : w ∈ (s.analyze host files scope).1.warnings.filter
      (·.issue.id == Registry.parserErrorId) := List.mem_filter.mpr ⟨hw, by simpa using hid⟩
  rw [filter_analyze_parserError hregistry hcoherent hend, Warning.sort, List.mem_mergeSort] at hmem
  obtain ⟨project, hproject, hmem⟩ := List.mem_flatMap.mp hmem
  obtain ⟨file, hfile, e, hfault, hwarning⟩ := Run.Job.mem_faults.mp hmem
  obtain ⟨-, text, hread, hparse⟩ := (Run.Job.fault?_eq_some_iff _).mp hfault
  refine ⟨project, hproject, ?_, file, hfile, text, e, hread, hparse,
    Run.Job.saysFault_of_faultWarning? hwarning⟩
  rw [← Run.Job.isSome_faultWarning? (file, e), hwarning]
  rfl

/-- Parse errors are reported truly, and as far as files are opened.  Where
they are enabled in a project, an uncanceled run reports exactly one for a file
of markup that can be read and not be parsed if and only if the check opens the
file once (`OpensOnce`); a file that no detector attends is passed over in
silence; and none is reported for a file that parses. -/
theorem parserErrors_analyze {t : FileTree} {cancels : List Event → Bool}
    (hregistry : s.registry = .builtIn) (hwell : t.WellFormed)
    (hend : (s.analyze (.ofTree t cancels) files scope).1.canceled = false) :
    (∀ project ∈ projectsFor (.ofTree t cancels) files,
      (s.jobOf (.ofTree t cancels) scope files project).isEnabled Registry.parserErrorId →
      ∀ file text e, t.readText file = .ok text → Xml.Document.parse text = .error e →
        ((∃ w, (s.analyze (.ofTree t cancels) files scope).1.warnings.filter
            (isFaultOf project file) = [w] ∧ SaysFault project file e w)
          ↔ (s.jobOf (.ofTree t cancels) scope files project).OpensOnce file)
        ∧ (file ∉ s.opened (.ofTree t cancels) scope files project →
          (s.analyze (.ofTree t cancels) files scope).1.warnings.filter
            (isFaultOf project file) = [])
        ∧ (file ∈ s.opened (.ofTree t cancels) scope files project →
          (file = project.manifest → project.subset.isSome → isResourceFile file = false) →
          ∃ w, (s.analyze (.ofTree t cancels) files scope).1.warnings.filter
            (isFaultOf project file) = [w] ∧ SaysFault project file e w))
    ∧ ∀ w ∈ (s.analyze (.ofTree t cancels) files scope).1.warnings,
      w.issue.id = Registry.parserErrorId →
        ∃ project ∈ projectsFor (.ofTree t cancels) files,
          (s.jobOf (.ofTree t cancels) scope files project).isEnabled Registry.parserErrorId
          ∧ ∃ file ∈ s.opened (.ofTree t cancels) scope files project,
            ∃ text e, t.readText file = .ok text ∧ Xml.Document.parse text = .error e
              ∧ SaysFault project file e w := by
  have hcoherent := Run.coherent_ofTree t cancels
  have hread : ∀ file text, (Host.ofTree t cancels).read file = some text ↔
      t.readText file = .ok text := by
    intro file text
    show (t.readText file).toOption = some text ↔ _
    cases t.readText file <;> simp [Except.toOption]
  refine ⟨fun project hproject henabled file text e htext hparse => ?_, fun w hw hid => ?_⟩
  · obtain ⟨w, hsays, hfilter⟩ := exists_filter_analyze_isFaultOf hregistry hcoherent hend hproject
      henabled ((hread file text).mpr htext) hparse
    have honce : (s.jobOf (.ofTree t cancels) scope files project).OpensOnce file
        ↔ (s.opened (.ofTree t cancels) scope files project).count file = 1 :=
      Run.Job.opensOnce_iff hwell (Project.distinct_ofInputs _ _ project hproject) file
    have hexactly : (s.jobOf (.ofTree t cancels) scope files project).OpensOnce file →
        ∃ w, (s.analyze (.ofTree t cancels) files scope).1.warnings.filter
          (isFaultOf project file) = [w] ∧ SaysFault project file e w := by
      intro hopens
      rw [honce.mp hopens] at hfilter
      exact ⟨w, hfilter, hsays⟩
    refine ⟨⟨?_, hexactly⟩, fun hopened => ?_, fun hopened hmanifest =>
      hexactly (Run.Job.opensOnce_of_mem_attended hwell hopened hmanifest)⟩
    · -- there is one report, so the file is opened once
      rintro ⟨w', hsingle, -⟩
      have hlength := congrArg List.length (hfilter.symm.trans hsingle)
      rw [List.length_replicate, List.length_singleton] at hlength
      exact honce.mpr hlength
    · rw [hfilter, List.count_eq_zero.mpr hopened]
      rfl
  · obtain ⟨project, hproject, henabled, file, hfile, text, e, htext, hparse, hsays⟩ :=
      exists_opened_of_parserError hregistry hcoherent hend hw hid
    exact ⟨project, hproject, henabled, file, hfile, text, e, (hread file text).mp htext, hparse,
      hsays⟩

/-- A project with a file of values whose element is not closed. -/
def unclosedValues : FileTree :=
  { here := ["ROOT"]
    entries :=
      [(["ROOT"], .directory),
        (["ROOT", "app"], .directory),
        (["ROOT", "app", "AndroidManifest.xml"], .file "<manifest/>".toUTF8),
        (["ROOT", "app", "res"], .directory),
        (["ROOT", "app", "res", "values"], .directory),
        (["ROOT", "app", "res", "values", "broken.xml"], .file "<resources>".toUTF8)] }

/-- The file of values. -/
def valuesFile : Path := ⟨"/ROOT/app/res/values/broken.xml"⟩

/-- The project that holds it. -/
def valuesProject : Project := .new ⟨"/ROOT/app"⟩ none

/-- A session without settings. -/
def plain : Session := new .builtIn none ⟨[], [], none⟩ default

/-- A session that looks for parse errors only. -/
def parserErrorsOnly : Session := new .builtIn none ⟨[], [], some ["ParserError"]⟩ default

theorem parse_unclosed :
    Xml.Document.parse "<resources>" = .error (.unfinished ⟨0, some 11, 11⟩) := by
  have herror : (Xml.Document.parse "<resources>").map (fun _ => ())
      = .error (.unfinished ⟨0, some 11, 11⟩) := by decide +kernel
  cases hparse : Xml.Document.parse "<resources>" with
  | error e =>
      rw [hparse] at herror
      cases herror
      rfl
  | ok document =>
      rw [hparse] at herror
      cases herror

theorem projectsFor_unclosedValues :
    projectsFor (.ofTree unclosedValues fun _ => false) [⟨"/ROOT/app"⟩]
      = [valuesProject] := by decide +kernel

/-- An element that is not closed is found where the text ends. -/
theorem parserErrors_unclosedValues :
    ∃ w, (plain.analyze (.ofTree unclosedValues fun _ => false) [⟨"/ROOT/app"⟩]
        none).1.warnings.filter (isFaultOf valuesProject valuesFile) = [w]
      ∧ w.line = some 0 ∧ w.column = some 11 := by
  have hwell : unclosedValues.WellFormed :=
    { isName := by decide +kernel
      nodup := by decide +kernel
      parents := by decide +kernel
      here := rfl }
  have hseverity : ∀ issue ∈ Registry.builtInIssues,
      issue.id = "PxUsage" ∨ issue.id = "ParserError" →
        (plain.configuration unclosedValues valuesProject.directory).1.isEnabled issue := by
    decide +kernel
  have hpx : Registry.builtIn.issue? "PxUsage" = some Dimension.pxIssue :=
    Registry.issue?_builtIn.mpr ⟨by simp [Registry.builtInIssues], rfl⟩
  have hparserError : Registry.builtIn.issue? "ParserError" = some Registry.parserError :=
    Registry.issue?_builtIn.mpr ⟨by simp [Registry.builtInIssues], rfl⟩
  have hreg : ⟨"PxUsageDetector", ["PxUsage", "SpUsage"], Dimension.detector⟩
      ∈ Registry.builtIn.registrations := by
    rw [Registry.registrations_builtIn]
    simp [Registry.builtInRegistrations]
  obtain ⟨a, ha, hscope⟩ := Registry.orderly_builtIn.activate?_eq_some hreg hpx
    (by decide) (show Dimension.pxIssue.scope.isSubset .all by decide)
    (hseverity Dimension.pxIssue (Registry.issue?_builtIn.mp hpx).1 (Or.inl rfl))
  -- a detector that looks at resource files is active, so the file is opened
  have hattended : valuesFile ∈ plain.opened (.ofTree unclosedValues fun _ => false) none
      [⟨"/ROOT/app"⟩] valuesProject := by
    refine List.mem_append_right _ (List.mem_map.mpr ⟨(valuesFile, .values), ?_, rfl⟩)
    refine List.mem_filter.mpr ⟨by decide +kernel, List.any_eq_true.mpr ⟨a, ?_, ?_⟩⟩
    · exact List.mem_filterMap.mpr ⟨_, hreg, ha⟩
    · rw [hscope, (Registry.of_activate? ha).1]
      rfl
  have henabled : (plain.jobOf (.ofTree unclosedValues fun _ => false) none [⟨"/ROOT/app"⟩]
      valuesProject).isEnabled Registry.parserErrorId := by
    show (Registry.builtIn.issue? "ParserError").any _ = true
    rw [hparserError]
    exact hseverity _ (Registry.issue?_builtIn.mp hparserError).1 (Or.inr rfl)
  obtain ⟨w, hfilter, hsays⟩ := ((parserErrors_analyze rfl hwell
    (canceled_analyze_builtIn rfl (fun _ => rfl) rfl)).1 valuesProject
    (projectsFor_unclosedValues ▸ List.mem_singleton_self _) henabled valuesFile "<resources>" _
    (by decide +kernel) parse_unclosed).2.2 hattended (fun _ h => by cases h)
  exact ⟨w, hfilter, hsays.line, hsays.column⟩

/-- A file that no detector attends is not opened, so nothing is reported
about it, although parse errors are enabled and the file is in the scope of
the run. -/
theorem parserErrors_unattended :
    (parserErrorsOnly.jobOf (.ofTree unclosedValues fun _ => false) none [⟨"/ROOT/app"⟩]
        valuesProject).isEnabled Registry.parserErrorId
      ∧ valuesProject ∈ projectsFor (.ofTree unclosedValues fun _ => false) [⟨"/ROOT/app"⟩]
      ∧ valuesProject.inferScope.resourceFile
      ∧ (valuesFile, .values) ∈ Run.Job.resourceFiles unclosedValues valuesProject
      ∧ unclosedValues.readText valuesFile = .ok "<resources>"
      ∧ Xml.Document.parse "<resources>" = .error (.unfinished ⟨0, some 11, 11⟩)
      ∧ (parserErrorsOnly.analyze (.ofTree unclosedValues fun _ => false) [⟨"/ROOT/app"⟩]
          none).1.canceled = false
      ∧ (parserErrorsOnly.analyze (.ofTree unclosedValues fun _ => false) [⟨"/ROOT/app"⟩]
          none).1.warnings.filter (·.issue.id == Registry.parserErrorId) = [] := by
  have hseverity : ∀ issue ∈ Registry.builtInIssues,
      (parserErrorsOnly.configuration unclosedValues valuesProject.directory).1.isEnabled issue
        = (issue.id == "ParserError") := by decide +kernel
  have hparserError : Registry.builtIn.issue? "ParserError" = some Registry.parserError :=
    Registry.issue?_builtIn.mpr ⟨by simp [Registry.builtInIssues], rfl⟩
  have hend : (parserErrorsOnly.analyze (.ofTree unclosedValues fun _ => false) [⟨"/ROOT/app"⟩]
      none).1.canceled = false :=
    canceled_analyze_builtIn rfl (fun _ => rfl) rfl
  have hnobody : (parserErrorsOnly.jobOf (.ofTree unclosedValues fun _ => false) none
      [⟨"/ROOT/app"⟩] valuesProject).detectors = [] := by
    refine Run.Job.detectors_eq_nil Registry.orderly_builtIn fun issue hissue henabled => ?_
    have hid := (hseverity issue (Registry.issue?_builtIn.mp hissue).1).symm.trans henabled
    exact beq_iff_eq.mp hid
  refine ⟨?_, ?_, rfl, by decide +kernel, by decide +kernel, parse_unclosed, hend, ?_⟩
  · show (Registry.builtIn.issue? "ParserError").any _ = true
    rw [hparserError]
    exact hseverity _ (Registry.issue?_builtIn.mp hparserError).1
  · rw [projectsFor_unclosedValues]
    exact List.mem_singleton_self _
  · rw [filter_analyze_parserError rfl (Run.coherent_ofTree _ _) hend, projectsFor_unclosedValues]
    have hfaults : (parserErrorsOnly.jobOf (.ofTree unclosedValues fun _ => false) none
        [⟨"/ROOT/app"⟩] valuesProject).faults = [] := by
      -- what is left to open is the manifest, which parses
      have hopened : ((parserErrorsOnly.jobOf (.ofTree unclosedValues fun _ => false) none
          [⟨"/ROOT/app"⟩] valuesProject).attended []).filterMap
            (parserErrorsOnly.jobOf (.ofTree unclosedValues fun _ => false) none
              [⟨"/ROOT/app"⟩] valuesProject).fault? = [] := by
        rw [← List.isEmpty_iff]
        decide +kernel
      unfold Run.Job.faults
      rw [hnobody, hopened]
      rfl
    rw [List.flatMap_singleton, hfaults]
    exact List.mergeSort_nil

end Session

end ResourceLint
