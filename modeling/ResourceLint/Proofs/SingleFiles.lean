/-
A file by itself, and as a part of its project.

Whoever asks for one resource file gets what a check of the whole project
finds in this file under the issues that need no other file.  The two runs
choose their files, scopes and detectors in different ways: the one goes up
from the file to the project, the other down from the project to its files.

# The way of the proof

`Located` says where the file lies; from it both requests are followed to
their projects and to the list of resource files, which holds the file once
(`filter_resourceFiles_file`, `filter_resourceFiles_project`).  An issue
that needs one resource file only is served by a local detector, which
begins every file with nothing in mind: its findings are those of the files
one by one (`Local.findings_flatMap`), and those in the file at hand are
found in the same way by both runs (`filter_reported_eq`).
-/
import ResourceLint.Proofs.ParseErrors

namespace ResourceLint

open ResourceLint.Path (IsName)

-- ===================================================== where the file lies

/-- An XML file right inside a folder of a project's resources, with no other
project between the two. -/
structure Located (t : FileTree) (names : List String) (folder name : String) : Prop where
  wellFormed : t.WellFormed
  entry : ∃ content, t.entry? (names ++ [resourcesName, folder, name]) = some (.file content)
  isXml : hasExtension name "xml"
  project : Project.isProjectDirectory t (.ofNames names)
  nearest : Project.isProjectDirectory t (.ofNames (names ++ [resourcesName])) = false
    ∧ Project.isProjectDirectory t (.ofNames (names ++ [resourcesName, folder])) = false

namespace Located

variable {t : FileTree} {names : List String} {folder name : String}

/-- The path of the file. -/
def path (names : List String) (folder name : String) : Path :=
  .ofNames (names ++ [resourcesName, folder, name])

/-- All parts of the path to a located file are names. -/
theorem isName (h : Located t names folder name) :
    ∀ n ∈ names ++ [resourcesName, folder, name], IsName n := by
  obtain ⟨content, hentry⟩ := h.entry
  exact h.wellFormed.isName_of_entry? hentry

theorem isTight (h : Located t names folder name) : (Path.ofNames names).IsTight :=
  Path.isTight_ofNames fun n hn => h.isName n (List.mem_append_left _ hn)

/-- The file is a child of a child of the resources. -/
theorem path_eq (names : List String) (folder name : String) :
    path names folder name
      = (((Path.ofNames names).child resourcesName).child folder).child name :=
  Path.ofNames_append ..

theorem isName_folder (h : Located t names folder name) : IsName folder :=
  h.isName folder (by simp)

theorem isName_name (h : Located t names folder name) : IsName name := h.isName name (by simp)

theorem isTight_resources (h : Located t names folder name) :
    ((Path.ofNames names).child resourcesName).IsTight :=
  (h.isTight.child (by decide)).1

theorem isTight_folder (h : Located t names folder name) :
    (((Path.ofNames names).child resourcesName).child folder).IsTight :=
  (h.isTight_resources.child h.isName_folder).1

theorem fileName?_path (h : Located t names folder name) :
    (path names folder name).fileName? = some name := by
  rw [path_eq, Path.fileName?_child _ h.isName_name]

theorem parent?_path (h : Located t names folder name) :
    (path names folder name).parent?
      = some (((Path.ofNames names).child resourcesName).child folder) := by
  rw [path_eq]
  exact (h.isTight_folder.child h.isName_name).2

/-- The path leads to the file. -/
theorem find_path (h : Located t names folder name) :
    ∃ content, t.find (path names folder name)
      = .ok (names ++ [resourcesName, folder, name], .file content) := by
  obtain ⟨content, hentry⟩ := h.entry
  exact ⟨content, h.wellFormed.find_ofNames hentry⟩

/-- The file counts as a resource file. -/
theorem isResourceFile_path (h : Located t names folder name) :
    isResourceFile (path names folder name) := by
  unfold isResourceFile
  rw [h.parent?_path, h.fileName?_path, Option.bind_some,
    (h.isTight_resources.child h.isName_folder).2, Option.bind_some,
    Path.fileName?_child _ (by decide)]
  simpa using h.isXml

/-- The type of the folder is read off the path. -/
theorem folderOf?_path (h : Located t names folder name) :
    Run.Job.folderOf? (path names folder name) = FolderType.ofFolderName? folder := by
  unfold Run.Job.folderOf?
  rw [h.parent?_path, Option.bind_some, Path.fileName?_child _ h.isName_folder, Option.bind_some]

/-- The file is no manifest, or its folder would hold a project. -/
theorem name_ne_manifestName (h : Located t names folder name) : name ≠ manifestName := by
  intro hname
  obtain ⟨content, hfind⟩ := h.find_path
  have hfile : t.isFile (path names folder name) := by
    unfold FileTree.isFile
    rw [hfind]
  have hproject : Project.isProjectDirectory t (.ofNames (names ++ [resourcesName, folder])) := by
    unfold Project.isProjectDirectory
    rw [← hname, Path.ofNames_append]
    rw [path_eq] at hfile
    exact hfile
  rw [h.nearest.2] at hproject
  cases hproject

/-- A request for the file implies the scope of one resource file. -/
theorem infer_path (h : Located t names folder name) :
    Scope.infer (path names folder name) false = .resourceFileOnly := by
  have hproguard : name ≠ proguardName := by
    rintro rfl
    exact absurd h.isXml (by decide)
  unfold Scope.infer
  rw [h.fileName?_path]
  simp [h.name_ne_manifestName, hproguard, h.isXml]

-- ============================================================ the requests

/-- The project that is asked for with its directory. -/
def whole (names : List String) : Project := .new (.ofNames names) none

/-- The project that is asked for with the file. -/
def single (names : List String) (folder name : String) : Project :=
  .new (.ofNames names) (some [path names folder name])

/-- The directory of the project encloses the file. -/
theorem enclosing?_path (h : Located t names folder name) :
    Project.enclosing? t (path names folder name) = some (.ofNames names) := by
  have hresources : Project.isProjectDirectory t ((Path.ofNames names).child resourcesName)
      = false := by
    rw [← h.nearest.1]
    congr 1
    exact (Path.ofNames_append names [resourcesName]).symm
  have hfolder : Project.isProjectDirectory t
      (((Path.ofNames names).child resourcesName).child folder) = false := by
    rw [← h.nearest.2]
    congr 1
    exact (Path.ofNames_append names [resourcesName, folder]).symm
  have hself : ∃ above, (Path.ofNames names).ancestors = .ofNames names :: above := by
    unfold Path.ancestors Path.ancestorsWithin
    split <;> exact ⟨_, rfl⟩
  obtain ⟨above, habove⟩ := hself
  unfold Project.enclosing?
  rw [path_eq, Path.ancestors_child h.isTight_folder h.isName_name,
    Path.ancestors_child h.isTight_resources h.isName_folder,
    Path.ancestors_child h.isTight (by decide), habove]
  simp [hfolder, hresources, h.project]

/-- A file by itself is its project, with this one file to look at. -/
theorem ofInputs_file (h : Located t names folder name) :
    Project.ofInputs t [path names folder name] = [single names folder name] := by
  obtain ⟨content, hfind⟩ := h.find_path
  have hfile : t.isFile (path names folder name) = true := by
    unfold FileTree.isFile
    rw [hfind]
  have hdirectory : t.isDirectory (path names folder name) = false := by
    unfold FileTree.isDirectory
    rw [hfind]
  show Project.request t [] (path names folder name) = _
  unfold Project.request
  rw [hdirectory, hfile, h.enclosing?_path]
  rfl

/-- The directory by itself is the whole project. -/
theorem ofInputs_project (h : Located t names folder name) :
    Project.ofInputs t [.ofNames names] = [whole names] := by
  obtain ⟨content, hentry⟩ := h.entry
  have hfind := h.wellFormed.find_ofNames
    (h.wellFormed.entry?_of_prefix hentry (List.cons_ne_nil _ _))
  have hdirectory : t.isDirectory (.ofNames names) = true := by
    unfold FileTree.isDirectory
    rw [hfind]
  show Project.request t [] (.ofNames names) = _
  unfold Project.request
  rw [hdirectory, h.project]
  rfl

/-- A single file of resources has the narrowest scope. -/
theorem inferScope_single (h : Located t names folder name) :
    (single names folder name).inferScope = .resourceFileOnly := by
  show Scope.empty.union (Scope.infer (path names folder name) false) = _
  rw [h.infer_path]
  rfl

-- ====================================================== the resource files

/-- The file with the type of its folder, where that is known. -/
def found (names : List String) (folder name : String) : List (Path × FolderType) :=
  ((FolderType.ofFolderName? folder).map (path names folder name, ·)).toList

/-- The file is all that there is to check when it is asked for. -/
theorem filter_resourceFiles_file (h : Located t names folder name) :
    (Run.Job.resourceFiles t (single names folder name)).filter (·.1 == path names folder name)
      = found names folder name := by
  have hfiles : Run.Job.resourceFiles t (single names folder name) = found names folder name := by
    unfold Run.Job.resourceFiles
    show (([path names folder name].filter isResourceFile).mergeSort Path.le).filterMap _ = _
    rw [List.filter_cons_of_pos h.isResourceFile_path, List.filter_nil, List.mergeSort_singleton,
      List.filterMap_cons, h.folderOf?_path]
    unfold found
    cases FolderType.ofFolderName? folder <;> rfl
  rw [hfiles, List.filter_eq_self]
  intro entry hentry
  obtain ⟨type, -, rfl⟩ := Option.map_eq_some_iff.mp (Option.mem_toList.mp hentry)
  exact beq_self_eq_true _

/-- A walk of the project comes to the file. -/
theorem mem_allResourceFiles (h : Located t names folder name) :
    path names folder name ∈ Run.Job.allResourceFiles t (whole names) := by
  obtain ⟨content, hentry⟩ := h.entry
  have hresources : t.find (whole names).resources
      = .ok (names ++ [resourcesName], .directory) := by
    have hpath : (whole names).resources = .ofNames (names ++ [resourcesName]) :=
      (Path.ofNames_append names [resourcesName]).symm
    have hsplit : names ++ [resourcesName, folder, name]
        = (names ++ [resourcesName]) ++ [folder, name] := by simp
    rw [hpath]
    rw [hsplit] at hentry
    exact h.wellFormed.find_ofNames
      (h.wellFormed.entry?_of_prefix hentry (List.cons_ne_nil _ _))
  -- two levels below the resources, as the walk wants it
  unfold Run.Job.allResourceFiles
  refine List.mem_map.mpr ⟨(path names folder name, 2, .file content), ?_, rfl⟩
  refine List.mem_filter.mpr ⟨?_, ?_⟩
  · unfold FileTree.walk
    rw [hresources]
    refine List.mem_cons_of_mem _ (List.mem_map.mpr ⟨([folder, name], .file content), ?_, ?_⟩)
    · refine h.wellFormed.mem_below.mpr ⟨?_, List.cons_ne_nil _ _⟩
      rw [← hentry, List.append_assoc]
      rfl
    · rw [path_eq]
      rfl
  · dsimp only
    rw [h.fileName?_path]
    simp [FileTree.Entry.isFile, h.isXml]

/-- A walk of the project comes to the file once. -/
theorem filter_resourceFiles_project (h : Located t names folder name) :
    (Run.Job.resourceFiles t (whole names)).filter (·.1 == path names folder name)
      = found names folder name := by
  have hpick : ∀ file : Path, ((Run.Job.folderOf? file).map (file, ·)).filter
        (·.1 == path names folder name)
      = if file == path names folder name
        then (Run.Job.folderOf? file).map (file, ·) else none := by
    intro file
    by_cases heq : file = path names folder name
    · rw [if_pos (by simpa using heq)]
      cases Run.Job.folderOf? file <;> simp [Option.filter, heq]
    · rw [if_neg (by simpa using heq)]
      cases Run.Job.folderOf? file <;> simp [Option.filter, heq]
  unfold Run.Job.resourceFiles
  show ((Run.Job.allResourceFiles t (whole names)).filterMap _).filter _ = _
  rw [List.filter_filterMap, List.filterMap_congr fun file _ => hpick file,
    ← List.filterMap_filter, List.filter_beq,
    List.count_eq_one_of_mem (h.wellFormed.nodup_allResourceFiles _) h.mem_allResourceFiles,
    List.replicate_one, List.filterMap_cons, h.folderOf?_path]
  unfold found
  cases FolderType.ofFolderName? folder <;> rfl

end Located

/-- The warning without the text shown for its file. -/
def Warning.erasePath (w : Warning) : Warning := { w with path := none }

/-- Whether a warning is about a file, under an issue that needs one resource
file only. -/
def Warning.isAbout (file : Path) (w : Warning) : Bool :=
  w.file == some file && w.issue.scope == .resourceFileOnly

/-- Between warnings that show one text for their files, it decides nothing. -/
theorem Warning.le_erasePath {a b : Warning} (h : a.path = b.path) :
    Warning.le a b = Warning.le a.erasePath b.erasePath := by
  have hself : Warning.compareOption b.path b.path = .eq := Std.ReflCmp.compare_self
  unfold Warning.le Warning.compare
  rw [h, hself]
  rfl

namespace Run.Job

variable {job j₁ j₂ : Job} {d : Detector} {issues : List String} {id : String}

-- ================================================ what is found in one file

/-- What a detector is told about a file begins with the file. -/
theorem resourceFileTold_cases (d : Detector) (found : Path × FolderType) :
    job.resourceFileTold d found = [] ∨ ∃ context more,
      job.resourceFileTold d found = (context, .beforeFile) :: more := by
  unfold resourceFileTold markupTold
  split
  · cases job.host.read found.1 with
    | none => exact Or.inl rfl
    | some text =>
        simp only
        cases Xml.Document.parse text with
        | error e => exact Or.inl rfl
        | ok document => exact Or.inr ⟨_, _, rfl⟩
  · exact Or.inl rfl

/-- What is told about a file comes with its text. -/
theorem of_mem_resourceFileTold {found : Path × FolderType} {told : Context × Call}
    (h : told ∈ job.resourceFileTold d found) :
    told.1.file = found.1 ∧ ∃ text, told.1.contents = some text := by
  unfold resourceFileTold markupTold at h
  split at h
  · split at h
    · cases h
    · next text _ =>
        split at h
        · cases h
        · obtain ⟨call, -, rfl⟩ := List.mem_map.mp h
          exact ⟨rfl, text, rfl⟩
  · cases h

/-- A detector of resource files is told about these only. -/
theorem told_resourceFileOnly (hscope : job.scope.resourceFile) (d : Detector) :
    job.told .resourceFileOnly d
      = (job.projectContext, .beforeProject)
        :: ((resourceFiles job.host.tree job.project).flatMap (job.resourceFileTold d)
          ++ [(job.projectContext, .afterProject)]) := by
  have hmanifest : job.manifestTold .resourceFileOnly d = [] := by
    unfold manifestTold
    simp [show Scope.resourceFileOnly.manifest = false from rfl]
  have hproguard : job.proguardTold .resourceFileOnly d = [] := by
    unfold proguardTold
    simp [show Scope.resourceFileOnly.proguard = false from rfl]
  have hresources : job.resourcesTold .resourceFileOnly d
      = (resourceFiles job.host.tree job.project).flatMap (job.resourceFileTold d) := if_pos rfl
  unfold told
  simp only [hmanifest, hproguard, hresources, hscope, Bool.true_or, if_true, ite_self,
    List.append_nil, List.cons_append, List.nil_append]

/-- What a local detector of resource files finds in a project is what it
finds in its files one by one. -/
theorem findings_told (hlocal : d.Local issues) (hscope : job.scope.resourceFile) :
    d.findings id .blank (job.told .resourceFileOnly d)
      = (resourceFiles job.host.tree job.project).flatMap fun found =>
          d.findings id .blank (job.resourceFileTold d found) := by
  rw [told_resourceFileOnly hscope, hlocal.findings_project]
  exact hlocal.findings_flatMap (resourceFiles job.host.tree job.project)
    (job.resourceFileTold d) (resourceFileTold_cases d) id []

/-- Warnings from one file. -/
def fromFile (job : Job) (id : String) (d : Detector) (found : Path × FolderType) : List Warning :=
  (d.findings id .blank (job.resourceFileTold d found)).filterMap
    (job.warningOf? (textOf job.host found.1))

/-- What comes from a file is reported in it. -/
theorem file_of_mem_fromFile (hlocal : d.Local issues) {found : Path × FolderType} {w : Warning}
    (hw : w ∈ job.fromFile id d found) : w.file = some found.1 := by
  obtain ⟨f, hf, hwarning⟩ := List.mem_filterMap.mp hw
  rw [(tells_of_warningOf? hwarning).file,
    hlocal.file_of_mem_findings (fun t ht => (of_mem_resourceFileTold ht).1) hf]

/-- A finding in a file leads to the same warning whether only the text of
this file is known or all that was read before. -/
theorem filterMap_warningOf?_told (hlocal : d.Local issues) (hscope : job.scope.resourceFile)
    (hcoherent : Coherent job.host) {found : Path × FolderType}
    (hfound : found ∈ resourceFiles job.host.tree job.project) :
    (d.findings id .blank (job.resourceFileTold d found)).filterMap
        (job.warningOf? (sourcesTold (job.told .resourceFileOnly d)))
      = job.fromFile id d found := by
  refine List.filterMap_congr fun f hf => warningOf?_congr ?_
  have hfile : f.place.file = found.1 :=
    hlocal.file_of_mem_findings (fun t ht => (of_mem_resourceFileTold ht).1) hf
  -- something was told about the file, so its text is known
  obtain ⟨t, ht⟩ : ∃ t, t ∈ job.resourceFileTold d found := by
    cases hlist : job.resourceFileTold d found with
    | nil =>
        rw [hlist] at hf
        cases hf
    | cons t more => exact ⟨t, List.mem_cons_self⟩
  obtain ⟨hcontext, text, htext⟩ := of_mem_resourceFileTold ht
  have hknown : Known (sourcesTold (job.told .resourceFileOnly d)) found.1 := by
    refine ⟨text, List.mem_filterMap.mpr ⟨t, ?_, by rw [htext, hcontext]; rfl⟩⟩
    rw [told_resourceFileOnly hscope]
    exact List.mem_cons_of_mem _ (List.mem_append_left _
      (List.mem_flatMap.mpr ⟨found, hfound, ht⟩))
  rw [hfile, (genuine_told .resourceFileOnly d).sourceOf?_of_known hcoherent hknown,
    sourceOf?_textOf]

/-- What some items of a list give. -/
theorem flatMap_ite {α β : Type} (test : α → Bool) (f : α → List β) (l : List α) :
    (l.flatMap fun a => if test a then f a else []) = (l.filter test).flatMap f := by
  induction l with
  | nil => rfl
  | cons a l ih =>
      rw [List.flatMap_cons, List.filter_cons, ih]
      split <;> rfl

/-- The warnings about a file are those that are found in it. -/
theorem filter_findings (hlocal : d.Local issues) (hscope : job.scope.resourceFile)
    (hcoherent : Coherent job.host) (file : Path) :
    (job.findings id .resourceFileOnly d).filter (·.file == some file)
      = ((resourceFiles job.host.tree job.project).filter (·.1 == file)).flatMap
          (job.fromFile id d) := by
  -- what a local detector finds in a file is about that file
  have hpick : ∀ found : Path × FolderType,
      (job.fromFile id d found).filter (·.file == some file)
        = if found.1 == file then job.fromFile id d found else [] := by
    intro found
    split
    · next heq =>
        rw [List.filter_eq_self]
        intro w hw
        rw [file_of_mem_fromFile hlocal hw]
        simpa using heq
    · next hne =>
        rw [List.filter_eq_nil_iff]
        intro w hw
        rw [file_of_mem_fromFile hlocal hw]
        simpa using hne
  unfold findings
  rw [findings_told hlocal hscope, List.filterMap_flatMap, List.flatMap_congr fun found hfound =>
    filterMap_warningOf?_told hlocal hscope hcoherent hfound, List.filter_flatMap,
    List.flatMap_congr fun found _ => hpick found]
  exact flatMap_ite _ _ _

-- ============================================================ two checks

/-- Checks of one project under one configuration, whatever part of it they
are about. -/
structure Beside (j₁ j₂ : Job) : Prop where
  registry : j₁.registry = j₂.registry
  options : j₁.options = j₂.options
  configuration : j₁.configuration = j₂.configuration
  name : j₁.project.name = j₂.project.name
  directory : j₁.project.directory = j₂.project.directory
  read : j₁.host.read = j₂.host.read

namespace Beside

/-- The two checks report the same issues. -/
theorem isEnabled (h : Beside j₁ j₂) (id : String) : j₁.isEnabled id = j₂.isEnabled id := by
  unfold Job.isEnabled
  rw [h.registry, h.configuration]

/-- A finding leads to the same warning, up to the text shown for its file. -/
theorem warningOf?_eq (h : Beside j₁ j₂) (sources : List (Path × String)) (f : Finding) :
    (j₁.warningOf? sources f).map Warning.erasePath
      = (j₂.warningOf? sources f).map Warning.erasePath := by
  unfold warningOf?
  rw [h.registry, h.options, h.configuration, h.name, h.directory]
  cases j₂.registry.issue? f.issue with
  | none => rfl
  | some issue =>
      simp only [Option.bind_eq_bind, Option.bind_some]
      split <;> rfl

/-- A local detector finds the same in a file. -/
theorem findings_eq (h : Beside j₁ j₂) (hlocal : d.Local issues) (hid : id ∈ issues)
    (found : Path × FolderType) :
    d.findings id .blank (j₁.resourceFileTold d found)
      = d.findings id .blank (j₂.resourceFileTold d found) := by
  unfold resourceFileTold markupTold
  split
  · rw [h.read]
    cases j₂.host.read found.1 with
    | none => rfl
    | some text =>
        simp only
        cases Xml.Document.parse text with
        | error e => rfl
        | ok document =>
            simp only
            generalize Memory.blank = memory
            generalize d.told document = calls
            -- the memories stay the same, call by call
            induction calls generalizing memory with
            | nil => rfl
            | cons call calls ih =>
                obtain ⟨hmemory, hheard⟩ := hlocal.depends id hid memory
                  (j₁.context found.1 (some text) found.2) (j₂.context found.1 (some text) found.2)
                  call ⟨rfl, rfl, rfl, h.isEnabled id⟩
                rw [List.map_cons, List.map_cons, Detector.findings, Detector.findings, hheard,
                  hmemory, ih]
  · rfl

/-- Two checks of one project find the same in a file, but for the path it is
shown with. -/
theorem fromFile_eq (h : Beside j₁ j₂) (hlocal : d.Local issues) (hid : id ∈ issues)
    (found : Path × FolderType) :
    (j₁.fromFile id d found).map Warning.erasePath
      = (j₂.fromFile id d found).map Warning.erasePath := by
  unfold fromFile textOf
  rw [h.findings_eq hlocal hid, h.read, List.map_filterMap, List.map_filterMap]
  exact List.filterMap_congr fun f _ => h.warningOf?_eq _ f

end Beside

/-- What is reported under an issue tells of a finding under it. -/
theorem tells_of_mem_reported {w : Warning} (h : w ∈ job.reported id) :
    ∃ f : Finding, f.issue = id ∧ job.Tells f w := by
  unfold reported at h
  split at h
  · split at h
    · obtain ⟨f, hf, hwarning⟩ := List.mem_filterMap.mp h
      exact ⟨f, Detector.issue_of_mem_findings hf, tells_of_warningOf? hwarning⟩
    · cases h
  · cases h

/-- What is reported under an issue is about it. -/
theorem issue_of_mem_reported {w : Warning} (h : w ∈ job.reported id) :
    job.registry.issue? id = some w.issue := by
  obtain ⟨f, rfl, htells⟩ := tells_of_mem_reported h
  exact htells.issue

/-- A scope that covers single files covers resource files. -/
theorem resourceFile_of_isSubset {scope : Scope} (h : Scope.resourceFileOnly.isSubset scope) :
    scope.resourceFile :=
  Scope.isSubset_iff.mp h .resourceFile (by decide)

/-- Under an issue that needs one resource file, to be about a file is to be
in it. -/
theorem filter_isAbout_reported {issue : Issue} (hissue : job.registry.issue? id = some issue)
    (hscope : issue.scope = .resourceFileOnly) (file : Path) :
    (job.reported id).filter (Warning.isAbout file)
      = (job.reported id).filter (·.file == some file) := by
  refine List.filter_congr fun w hw => ?_
  have hw := issue_of_mem_reported hw
  rw [hissue] at hw
  cases hw
  simp [Warning.isAbout, hscope]

/-- Under any other issue nothing is about a file. -/
theorem filter_isAbout_eq_nil
    (hscope : ∀ issue, job.registry.issue? id = some issue → issue.scope ≠ .resourceFileOnly)
    (file : Path) : (job.reported id).filter (Warning.isAbout file) = [] := by
  rw [List.filter_eq_nil_iff]
  intro w hw habout
  simp only [Warning.isAbout, Bool.and_eq_true, beq_iff_eq] at habout
  exact hscope w.issue (issue_of_mem_reported hw) habout.2

/-- What two checks report about a file, under an issue that needs no other
file, is the same when both come to the file alike. -/
theorem filter_reported_eq (h : Beside j₁ j₂) (hregistry : j₁.registry = .builtIn)
    (hscope₁ : Scope.resourceFileOnly.isSubset j₁.scope)
    (hscope₂ : Scope.resourceFileOnly.isSubset j₂.scope)
    (hcoherent₁ : Coherent j₁.host) (hcoherent₂ : Coherent j₂.host) {file : Path}
    (hfiles : (resourceFiles j₁.host.tree j₁.project).filter (·.1 == file)
      = (resourceFiles j₂.host.tree j₂.project).filter (·.1 == file)) :
    ((j₁.reported id).filter (Warning.isAbout file)).map Warning.erasePath
      = ((j₂.reported id).filter (Warning.isAbout file)).map Warning.erasePath := by
  -- an issue with a wider scope has nothing to say about the file alone
  by_cases hnarrow : ∃ issue, j₁.registry.issue? id = some issue
      ∧ issue.scope = .resourceFileOnly
  · obtain ⟨issue, hissue, hscope⟩ := hnarrow
    rw [filter_isAbout_reported hissue hscope,
      filter_isAbout_reported (h.registry ▸ hissue) hscope]
    unfold reported
    rw [← h.registry, hissue]
    cases hserving : j₁.registry.serving? id with
    | none => rfl
    | some reg =>
        simp only [hscope, hscope₁, hscope₂, Bool.true_and, h.configuration]
        split
        · obtain ⟨hreg, hmem⟩ := Registry.mem_of_serving? hserving
          have hbuiltIn : Registry.builtIn.issue? id = some issue := hregistry ▸ hissue
          obtain ⟨hissueMem, hissueId⟩ := Registry.issue?_builtIn.mp hbuiltIn
          have hlocal := Registry.isLocal_of_resourceFileOnly (hregistry ▸ hreg) hissueMem
            (hissueId ▸ hmem) hscope
          rw [filter_findings hlocal (resourceFile_of_isSubset hscope₁) hcoherent₁,
            filter_findings hlocal (resourceFile_of_isSubset hscope₂) hcoherent₂, hfiles,
            List.map_flatMap, List.map_flatMap]
          exact List.flatMap_congr fun found _ => h.fromFile_eq hlocal hmem found
        · rfl
  · have hnone : ∀ issue, j₁.registry.issue? id = some issue →
        issue.scope ≠ .resourceFileOnly := fun issue hissue hscope =>
      hnarrow ⟨issue, hissue, hscope⟩
    rw [filter_isAbout_eq_nil hnone, filter_isAbout_eq_nil (h.registry ▸ hnone)]

end Run.Job

namespace Session

open Located (path single whole)

variable {s : Session} {host : Host} {files : List Path} {project : Project} {file : Path}

/-- Where one project is checked, a warning about a file under an issue that
needs no other file is one that its check reports under the issue. -/
theorem mem_reported_of_isAbout (hregistry : s.registry = .builtIn)
    (hcoherent : Run.Coherent host) (hend : (s.analyze host files none).1.canceled = false)
    (hproject : projectsFor host files = [project]) {w : Warning}
    (hw : w ∈ (s.analyze host files none).1.warnings) (habout : w.isAbout file) :
    w.issue.id ≠ Registry.parserErrorId
      ∧ w ∈ (s.jobOf host none files project).reported w.issue.id := by
  have hmem : w ∈ (s.analyze host files none).1.warnings.filter (·.issue.id == w.issue.id) :=
    List.mem_filter.mpr ⟨hw, beq_self_eq_true _⟩
  by_cases hid : w.issue.id = Registry.parserErrorId
  · rw [hid, filter_analyze_parserError hregistry hcoherent hend, hproject, Warning.sort,
      List.mem_mergeSort, List.flatMap_singleton] at hmem
    obtain ⟨found, -, e, -, hwarning⟩ := Run.Job.mem_faults.mp hmem
    have hissue := (Run.Job.tells_of_warningOf? hwarning).issue
    change s.registry.issue? _ = _ at hissue
    rw [hregistry] at hissue
    have hscope : ∀ issue ∈ Registry.builtInIssues, issue.id = Registry.parserErrorId →
        issue.scope ≠ .resourceFileOnly := by decide
    simp only [Warning.isAbout, Bool.and_eq_true, beq_iff_eq] at habout
    exact absurd habout.2 (hscope _ (Registry.issue?_builtIn.mp hissue).1 hid)
  · refine ⟨hid, ?_⟩
    rw [filter_analyze_builtIn hregistry hcoherent hid hend, hproject, Warning.sort,
      List.mem_mergeSort, List.flatMap_singleton] at hmem
    exact hmem

/-- What a check reports about a file shows the text for the file. -/
theorem path_of_mem_reported {id : String} {w : Warning}
    (hw : w ∈ (s.jobOf host none files project).reported id) (habout : w.isAbout file) :
    w.path = some ((s.pathsFor host files).display file) := by
  obtain ⟨f, -, htells⟩ := Run.Job.tells_of_mem_reported hw
  simp only [Warning.isAbout, Bool.and_eq_true, beq_iff_eq] at habout
  have hfile := habout.1
  rw [htells.file, Option.some.injEq] at hfile
  rw [htells.path, hfile]
  rfl

/-- The text shown for a file is the same in all warnings about it. -/
theorem path_of_isAbout (hregistry : s.registry = .builtIn)
    (hcoherent : Run.Coherent host) (hend : (s.analyze host files none).1.canceled = false)
    (hproject : projectsFor host files = [project]) {w : Warning}
    (hw : w ∈ (s.analyze host files none).1.warnings) (habout : w.isAbout file) :
    w.path = some ((s.pathsFor host files).display file) :=
  path_of_mem_reported (mem_reported_of_isAbout hregistry hcoherent hend hproject hw habout).2
    habout

/-- Warnings about a file, without the text shown for it. -/
def about (s : Session) (host : Host) (files : List Path) (file : Path) : List Warning :=
  ((s.analyze host files none).1.warnings.filter (Warning.isAbout file)).map Warning.erasePath

/-- The warnings about a file stand in the order of a report. -/
theorem pairwise_about (hregistry : s.registry = .builtIn) (hcoherent : Run.Coherent host)
    (hend : (s.analyze host files none).1.canceled = false)
    (hproject : projectsFor host files = [project]) :
    (s.about host files file).Pairwise fun a b => Warning.le a b := by
  have hsorted : (s.analyze host files none).1.warnings.Pairwise fun a b => Warning.le a b :=
    List.pairwise_mergeSort Warning.le_trans Warning.le_total _
  refine List.pairwise_map.mpr ((hsorted.filter _).imp_of_mem fun {a b} ha hb hab => ?_)
  obtain ⟨ha, ha'⟩ := List.mem_filter.mp ha
  obtain ⟨hb, hb'⟩ := List.mem_filter.mp hb
  rw [← Warning.le_erasePath]
  · exact hab
  · rw [path_of_isAbout hregistry hcoherent hend hproject ha ha',
      path_of_isAbout hregistry hcoherent hend hproject hb hb']

/-- The warnings about a file under one issue are those that the check of its
project reports, in order. -/
theorem filter_about (hregistry : s.registry = .builtIn) (hcoherent : Run.Coherent host)
    (hend : (s.analyze host files none).1.canceled = false)
    (hproject : projectsFor host files = [project]) (id : String) :
    (s.about host files file).filter (·.issue.id == id)
      = if id = Registry.parserErrorId then []
        else Warning.sort ((((s.jobOf host none files project).reported id).filter
          (Warning.isAbout file)).map Warning.erasePath) := by
  unfold about
  rw [List.filter_map]
  show List.map _ (List.filter (fun w : Warning => w.issue.id == id) _) = _
  split
  · next hid =>
      rw [List.map_eq_nil_iff, List.filter_eq_nil_iff]
      intro w hw hwid
      obtain ⟨hw, habout⟩ := List.mem_filter.mp hw
      refine (mem_reported_of_isAbout hregistry hcoherent hend hproject hw habout).1 ?_
      rw [← hid]
      simpa using hwid
  · next hid =>
      -- the two filters are about different things
      have hcomm : ((s.analyze host files none).1.warnings.filter (Warning.isAbout file)).filter
            (·.issue.id == id)
          = ((s.analyze host files none).1.warnings.filter (·.issue.id == id)).filter
            (Warning.isAbout file) := by
        rw [List.filter_filter, List.filter_filter]
        exact List.filter_congr fun w _ => Bool.and_comm ..
      rw [hcomm, filter_analyze_builtIn hregistry hcoherent hid hend, hproject,
        List.flatMap_singleton, Warning.sort_filter]
      -- all of them show one path, so the order does not see it
      have hshown : ∀ {w : Warning}, w ∈ ((s.jobOf host none files project).reported id).filter
          (Warning.isAbout file) → w.path = some ((s.pathsFor host files).display file) := by
        intro w hw
        obtain ⟨hw, habout⟩ := List.mem_filter.mp hw
        exact path_of_mem_reported hw habout
      refine List.map_mergeSort fun a ha b hb => Warning.le_erasePath ?_
      rw [hshown ha, hshown hb]

/-- A request that leads to a place is for this place. -/
theorem projectsFor_singleton {t : FileTree} {c : List Event → Bool} {p : Path}
    {names : List String} {entry : FileTree.Entry} (h : t.find p = .ok (names, entry)) :
    projectsFor (.ofTree t c) [p] = Project.ofInputs t [.ofNames names] := by
  have hcanonical : t.canonical? p = some (.ofNames names) := by
    unfold FileTree.canonical?
    rw [h]
  unfold projectsFor inputs
  rw [List.map_singleton]
  show Project.ofInputs t [(t.canonical? p).getD p] = _
  rw [hcanonical]
  rfl

/-- The check of a file by itself agrees with the check of its project.  Where
neither is ended early, the two runs give the same warnings about the file
under the issues that need one resource file only, in the same order, whatever
else the project holds; the text that is shown for the file may differ. -/
theorem analyze_file_eq_analyze_project (hregistry : s.registry = .builtIn) {t : FileTree}
    {names : List String} {folder name : String} (hlocated : Located t names folder name)
    {p directory : Path} {content : ByteArray} {c₁ c₂ : List Event → Bool}
    (hfile : t.find p = .ok (names ++ [resourcesName, folder, name], .file content))
    (hdirectory : t.find directory = .ok (names, .directory))
    (hend₁ : (s.analyze (.ofTree t c₁) [p] none).1.canceled = false)
    (hend₂ : (s.analyze (.ofTree t c₂) [directory] none).1.canceled = false) :
    s.about (.ofTree t c₁) [p] (path names folder name)
      = s.about (.ofTree t c₂) [directory] (path names folder name) := by
  have hproject₁ : projectsFor (.ofTree t c₁) [p] = [single names folder name] :=
    (projectsFor_singleton hfile).trans hlocated.ofInputs_file
  have hproject₂ : projectsFor (.ofTree t c₂) [directory] = [whole names] :=
    (projectsFor_singleton hdirectory).trans hlocated.ofInputs_project
  have hcoherent₁ := Run.coherent_ofTree t c₁
  have hcoherent₂ := Run.coherent_ofTree t c₂
  have hbeside : Run.Job.Beside
      (s.jobOf (.ofTree t c₁) none [p] (single names folder name))
      (s.jobOf (.ofTree t c₂) none [directory] (whole names)) := ⟨rfl, rfl, rfl, rfl, rfl, rfl⟩
  have hscope₁ : Scope.resourceFileOnly.isSubset
      (s.jobOf (.ofTree t c₁) none [p] (single names folder name)).scope := by
    show Scope.resourceFileOnly.isSubset (single names folder name).inferScope = true
    rw [hlocated.inferScope_single]
    rfl
  -- warnings of one issue are the same, and the order of a report keeps
  -- the issues apart
  have hissues : ∀ id, (s.about (.ofTree t c₁) [p] (path names folder name)).filter
        (·.issue.id == id)
      = (s.about (.ofTree t c₂) [directory] (path names folder name)).filter
        (·.issue.id == id) := by
    intro id
    rw [filter_about hregistry hcoherent₁ hend₁ hproject₁,
      filter_about hregistry hcoherent₂ hend₂ hproject₂,
      Run.Job.filter_reported_eq hbeside hregistry hscope₁ rfl hcoherent₁ hcoherent₂]
    exact hlocated.filter_resourceFiles_file.trans hlocated.filter_resourceFiles_project.symm
  refine Sorting.eq_of_classes Warning.le_total
    (pairwise_about hregistry hcoherent₁ hend₁ hproject₁)
    (pairwise_about hregistry hcoherent₂ hend₂ hproject₂) fun a => ?_
  have hclass : ∀ l : List Warning, l.filter (Sorting.tied Warning.le a)
      = (l.filter (·.issue.id == a.issue.id)).filter (Sorting.tied Warning.le a) := by
    intro l
    rw [List.filter_filter]
    refine List.filter_congr fun b _ => ?_
    by_cases htied : Sorting.tied Warning.le a b
    · simp [htied, Warning.id_eq_of_tied htied]
    · simp [htied]
  rw [hclass, hissues, ← hclass]

/-- A project with two layouts. -/
def twoLayouts : FileTree :=
  { here := ["ROOT"]
    entries :=
      [(["ROOT"], .directory),
        (["ROOT", "app"], .directory),
        (["ROOT", "app", "AndroidManifest.xml"], .file "<manifest/>".toUTF8),
        (["ROOT", "app", "res"], .directory),
        (["ROOT", "app", "res", "layout"], .directory),
        (["ROOT", "app", "res", "layout", "main.xml"],
          .file "<View a:text=\"hi\" a:textSize=\"4px\"/>".toUTF8),
        (["ROOT", "app", "res", "layout", "side.xml"],
          .file "<View a:text=\"ho\" a:textSize=\"5px\"/>".toUTF8)] }

/-- One of two layouts, asked for by itself or with its project. -/
theorem about_twoLayouts :
    (new .builtIn none ⟨[], [], none⟩ default).about (.ofTree twoLayouts fun _ => false)
        [⟨"app/res/layout/main.xml"⟩] ⟨"/ROOT/app/res/layout/main.xml"⟩
      = (new .builtIn none ⟨[], [], none⟩ default).about (.ofTree twoLayouts fun _ => false)
        [⟨"/ROOT/app"⟩] ⟨"/ROOT/app/res/layout/main.xml"⟩ := by
  have hwell : twoLayouts.WellFormed :=
    { isName := by decide +kernel
      nodup := by decide +kernel
      parents := by decide +kernel
      here := rfl }
  have hlocated : Located twoLayouts ["ROOT", "app"] "layout" "main.xml" :=
    { wellFormed := hwell
      entry := ⟨"<View a:text=\"hi\" a:textSize=\"4px\"/>".toUTF8, rfl⟩
      isXml := by decide +kernel
      project := by decide +kernel
      nearest := by decide +kernel }
  have hpath : path ["ROOT", "app"] "layout" "main.xml" = ⟨"/ROOT/app/res/layout/main.xml"⟩ := by
    decide +kernel
  have hfile : twoLayouts.find ⟨"app/res/layout/main.xml"⟩
      = .ok (["ROOT", "app", "res", "layout", "main.xml"],
        .file "<View a:text=\"hi\" a:textSize=\"4px\"/>".toUTF8) := by decide +kernel
  have hdirectory : twoLayouts.find ⟨"/ROOT/app"⟩ = .ok (["ROOT", "app"], .directory) := by
    decide +kernel
  rw [← hpath]
  exact analyze_file_eq_analyze_project rfl hlocated hfile hdirectory
    (canceled_analyze_builtIn rfl (fun _ => rfl) rfl)
    (canceled_analyze_builtIn rfl (fun _ => rfl) rfl)

end Session

end ResourceLint
