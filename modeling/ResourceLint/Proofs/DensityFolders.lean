/-
Bitmaps and the folders for screen densities.

The folders are compared at the end of a project (`findings_told`).  In a tree
of files in order those that take part are the directories among a few fixed
names, by name (`folders_eq`), and a folder holds the bitmaps whose files stand
in it (`contains_bitmapsIn`).  So a run remarks, once each, on the bitmaps that
are in some of the scaled folders and not in all, at the files that are there,
and once on the required folders that are not there; and on neither where
single files were asked for (`remarks_densities`).
-/
import ResourceLint.Proofs.Listings
import ResourceLint.Proofs.Meeting
import ResourceLint.Proofs.PartialViews
import ResourceLint.Proofs.Remarks

namespace ResourceLint

-- ===================================================== the end of a project

namespace Run.Job

variable {job : Job} {d : Detector}

/-- No file is told of the end of the project. -/
theorem ne_afterProject_of_mem_markupTold (hinside : ∀ doc, Call.afterProject ∉ d.told doc)
    {file : Path} {folder : Option FolderType} {t : Context × Call}
    (ht : t ∈ job.markupTold d file folder) : t.2 ≠ .afterProject := by
  cases hdoc : job.host.document? file with
  | none =>
      rw [markupTold_of_no_document? hdoc] at ht
      cases ht
  | some doc =>
      rw [markupTold_of_document? hdoc] at ht
      obtain ⟨call, hcall, rfl⟩ := List.mem_map.mp ht
      intro heq
      exact hinside doc (heq ▸ hcall)

/-- The end of a project is told last, and only then. -/
theorem exists_told_eq (hinside : ∀ doc, Call.afterProject ∉ d.told doc) (scope : Scope) :
    ∃ before, job.told scope d = before ++ [(job.projectContext, .afterProject)]
      ∧ ∀ t ∈ before, t.2 ≠ .afterProject := by
  refine ⟨_, rfl, fun t ht => ?_⟩
  simp only [List.mem_append] at ht
  -- part by part of what is told: the beginning, the manifest, the resources, the rules
  rcases ht with ((ht | ht) | ht) | ht
  · rw [List.mem_singleton.mp ht]
    exact fun heq => by cases heq
  · split at ht
    · unfold manifestTold at ht
      dsimp only at ht
      split at ht
      · exact ne_afterProject_of_mem_markupTold hinside ht
      · cases ht
    · cases ht
  · split at ht
    · unfold resourcesTold at ht
      split at ht
      · obtain ⟨found, -, ht⟩ := List.mem_flatMap.mp ht
        unfold resourceFileTold at ht
        split at ht
        · exact ne_afterProject_of_mem_markupTold hinside ht
        · cases ht
      · cases ht
    · cases ht
  · split at ht
    · unfold proguardTold at ht
      dsimp only at ht
      split at ht
      · split at ht
        · cases ht
        · rw [List.mem_singleton.mp ht]
          exact fun heq => by cases heq
      · cases ht
    · cases ht

/-- A detector that answers at the end of a project only finds there what it
finds. -/
theorem findings_told_of_silent {id : String} (hinside : ∀ doc, Call.afterProject ∉ d.told doc)
    (hsilent : ∀ memory c call, call ≠ .afterProject → d.react memory c call = (memory, []))
    (scope : Scope) (memory : Memory) :
    d.findings id memory (job.told scope d)
      = d.heard id memory job.projectContext .afterProject := by
  obtain ⟨before, htold, hbefore⟩ := @exists_told_eq job d hinside scope
  rw [htold]
  clear htold
  induction before with
  | nil =>
      rw [List.nil_append, Detector.findings]
      exact List.append_nil _
  | cons t before ih =>
      obtain ⟨context, call⟩ := t
      have hone := hsilent memory context call (hbefore _ List.mem_cons_self)
      rw [List.cons_append, Detector.findings, Detector.heard, hone,
        ih fun t ht => hbefore t (List.mem_cons_of_mem _ ht)]
      rfl

end Run.Job

/-- Reports under one issue count as they stand. -/
theorem Emission.under_map_report {id : String} {found : List Finding}
    (h : ∀ f ∈ found, f.issue = id) : under id (found.map .report) = found := by
  unfold under
  rw [List.filterMap_map]
  have hsame : found.filterMap (finding? ∘ .report) = found := List.filterMap_some
  rw [hsame]
  exact List.filter_eq_self.mpr fun f hf => beq_iff_eq.mpr (h f hf)

namespace Icons

open ResourceLint.Path (IsName)

variable {c : Context} {tree : FileTree} {lowDensity : Bool} {resources : Path}
  {folder bitmap : String}

-- ============================================================ what is there

/-- The folders that take part, by name. -/
def densityFolders (lowDensity : Bool) : List String :=
  ["drawable-hdpi"] ++ (if lowDensity then ["drawable-ldpi"] else [])
    ++ ["drawable-mdpi", "drawable-nodpi", "drawable-xhdpi"]

/-- Those of them that are there. -/
def standing (tree : FileTree) (lowDensity : Bool) (resources : Path) : List String :=
  (densityFolders lowDensity).filter fun folder => tree.isDirectory (resources.child folder)

/-- Those whose bitmaps stand for a density. -/
def scaled (tree : FileTree) (lowDensity : Bool) (resources : Path) : List String :=
  (standing tree lowDensity resources).filter (· != unscaledFolder)

/-- The required folders that are not there. -/
def missing (tree : FileTree) (lowDensity : Bool) (resources : Path) : List String :=
  (requiredFolders lowDensity).filter fun folder => !tree.isDirectory (resources.child folder)

/-- Where a bitmap is in a folder. -/
def fileIn (resources : Path) (folder bitmap : String) : Path :=
  (resources.child folder).child bitmap

/-- A bitmap that is in some of the scaled folders and not in all. -/
structure IsPartial (tree : FileTree) (lowDensity : Bool) (resources : Path) (bitmap : String) :
    Prop where
  isName : IsName bitmap
  isBitmap : isBitmap bitmap
  present : ∃ folder ∈ scaled tree lowDensity resources, tree.isFile (fileIn resources folder bitmap)
  absent : ∃ folder ∈ scaled tree lowDensity resources,
    tree.isFile (fileIn resources folder bitmap) = false

/-- A bitmap is partial when some of the folders for scaled bitmaps have it and
some have not. -/
theorem isPartial_iff :
    IsPartial tree lowDensity resources bitmap
      ↔ IsName bitmap ∧ isBitmap bitmap
        ∧ (∃ folder ∈ scaled tree lowDensity resources,
          tree.isFile (fileIn resources folder bitmap))
        ∧ ∃ folder ∈ scaled tree lowDensity resources,
          tree.isFile (fileIn resources folder bitmap) = false := by
  constructor
  · intro h
    exact ⟨h.isName, h.isBitmap, h.present, h.absent⟩
  · intro ⟨hname, hbitmap, hpresent, habsent⟩
    exact ⟨hname, hbitmap, hpresent, habsent⟩

instance : Decidable (IsPartial tree lowDensity resources bitmap) :=
  decidable_of_iff' _ isPartial_iff

/-- The remark about a bitmap, at its files in the order of the folders. -/
def partialRemark (tree : FileTree) (lowDensity : Bool) (resources : Path) (bitmap : String) :
    Remark :=
  let folders := scaled tree lowDensity resources
  let present := folders.filter fun folder => tree.isFile (fileIn resources folder bitmap)
  let absent := folders.filter fun folder => !tree.isFile (fileIn resources folder bitmap)
  { message :=
      "Missing the following drawables in " ++ listing absent 5 ++ ": " ++ bitmap
        ++ " (found in " ++ listing present 5 ++ ")"
    places := present.map fun folder => .ofFile (fileIn resources folder bitmap) }

/-- The remark about folders that are not there. -/
def missingRemark (resources : Path) (missing : List String) : Remark :=
  { message :=
      "Missing density variation folders in " ++ resourcesName ++ ": " ++ ", ".intercalate missing
    places := [.ofFile resources] }

/-- The folders for densities are those in the list. -/
theorem isDensityFolder_iff {name : String} :
    isDensityFolder lowDensity name ↔ name ∈ densityFolders lowDensity := by
  cases lowDensity <;> simp [isDensityFolder, densityFolders, requiredFolders, unscaledFolder] <;>
    tauto

theorem isName_of_mem_densityFolders (h : folder ∈ densityFolders lowDensity) : IsName folder := by
  have hall : ∀ lowDensity, ∀ folder ∈ densityFolders lowDensity, IsName folder := by decide
  exact hall lowDensity folder h

theorem increasing_densityFolders (lowDensity : Bool) :
    Assoc.Increasing compare (densityFolders lowDensity) := by
  unfold Assoc.Increasing
  revert lowDensity
  decide +kernel

/-- The required folders are among them. -/
theorem mem_densityFolders_of_required (h : folder ∈ requiredFolders lowDensity) :
    folder ∈ densityFolders lowDensity := by
  have hall : ∀ lowDensity, ∀ folder ∈ requiredFolders lowDensity,
      folder ∈ densityFolders lowDensity := by decide
  exact hall lowDensity folder h

/-- The folders that stand are the density folders that are directories of the
project. -/
theorem mem_standing :
    folder ∈ standing tree lowDensity resources
      ↔ folder ∈ densityFolders lowDensity ∧ tree.isDirectory (resources.child folder) :=
  List.mem_filter

/-- A folder that is there stands in the folder of the resources. -/
theorem isDirectory_resources {project : Project}
    (h : folder ∈ standing tree lowDensity project.resources) :
    tree.isDirectory project.resources := by
  obtain ⟨hfolder, hdirectory⟩ := mem_standing.mp h
  obtain ⟨found, hfound, -⟩ := FileTree.isDirectory_iff.mp hdirectory
  exact FileTree.isDirectory_of_find_child (by decide) (isName_of_mem_densityFolders hfolder)
    hfound

-- ============================================================== the comparison

/-- The bitmaps that a folder lists. -/
def bitmapsIn (tree : FileTree) (resources : Path) (folder : String) : List String :=
  (tree.children (resources.child folder) true).filter isBitmap

/-- The bitmaps that are in some of the scaled folders. -/
def knownBitmaps (tree : FileTree) (lowDensity : Bool) (resources : Path) : List String :=
  Assoc.keySet compare ((scaled tree lowDensity resources).flatMap (bitmapsIn tree resources))

/-- The folders that are compared are those that are there, by name. -/
theorem folders_eq (hwell : c.tree.WellFormed) (hordered : c.tree.Ordered)
    (hresources : c.tree.isDirectory resources) :
    folders c resources
      = (standing c.tree c.lowDensity resources).map fun name =>
        ⟨name, bitmapsIn c.tree resources name⟩ := by
  have hnames : (c.tree.children resources false).filter (isDensityFolder c.lowDensity)
      = standing c.tree c.lowDensity resources := by
    refine Assoc.Increasing.eq_of_mem_iff
      ((FileTree.increasing_children hordered resources false).filter _)
      ((increasing_densityFolders c.lowDensity).filter _) fun name => ?_
    rw [List.mem_filter, FileTree.mem_children_directories hwell hresources, mem_standing,
      isDensityFolder_iff]
    constructor
    · intro ⟨⟨_, hdirectory⟩, hfolder⟩
      exact ⟨hfolder, hdirectory⟩
    · intro ⟨hfolder, hdirectory⟩
      exact ⟨⟨isName_of_mem_densityFolders hfolder, hdirectory⟩, hfolder⟩
  unfold folders bitmapsIn
  rw [hnames]

/-- A folder that is there holds the bitmaps whose files stand in it. -/
theorem mem_bitmapsIn (hwell : tree.WellFormed)
    (hfolder : folder ∈ standing tree lowDensity resources) :
    bitmap ∈ bitmapsIn tree resources folder
      ↔ IsName bitmap ∧ isBitmap bitmap ∧ tree.isFile (fileIn resources folder bitmap) := by
  unfold bitmapsIn fileIn
  rw [List.mem_filter, FileTree.mem_children_files hwell (mem_standing.mp hfolder).2, and_assoc,
    and_comm (b := isBitmap bitmap = true)]

/-- A folder has a bitmap when there is such a file. -/
theorem contains_bitmapsIn (hwell : tree.WellFormed)
    (hfolder : folder ∈ standing tree lowDensity resources) (hname : IsName bitmap)
    (hbitmap : isBitmap bitmap) :
    (bitmapsIn tree resources folder).contains bitmap
      = tree.isFile (fileIn resources folder bitmap) := by
  rw [Bool.eq_iff_iff, List.contains_iff_mem, mem_bitmapsIn hwell hfolder]
  simp [hname, hbitmap]

section Coverage

variable (hwell : c.tree.WellFormed) (hordered : c.tree.Ordered)
  (hresources : c.tree.isDirectory resources)

include hwell hordered hresources

/-- The folders to compare are the standing ones but the unscaled. -/
theorem filter_scaled_folders :
    (folders c resources).filter (·.name != unscaledFolder)
      = (scaled c.tree c.lowDensity resources).map fun name =>
        ⟨name, bitmapsIn c.tree resources name⟩ := by
  rw [folders_eq hwell hordered hresources, List.filter_map]
  rfl

/-- Which of the scaled folders hold a bitmap, and which do not. -/
theorem map_name_filter_scaled (hname : IsName bitmap) (hbitmap : isBitmap bitmap)
    (test : Bool → Bool) :
    ((((folders c resources).filter (·.name != unscaledFolder)).filter fun folder =>
        test (folder.bitmaps.contains bitmap))).map (·.name)
      = (scaled c.tree c.lowDensity resources).filter fun folder =>
        test (c.tree.isFile (fileIn resources folder bitmap)) := by
  have hholds : ∀ folder ∈ scaled c.tree c.lowDensity resources,
      test ((bitmapsIn c.tree resources folder).contains bitmap)
        = test (c.tree.isFile (fileIn resources folder bitmap)) := by
    intro folder hfolder
    rw [contains_bitmapsIn hwell (List.mem_filter.mp hfolder).1 hname hbitmap]
  rw [filter_scaled_folders hwell hordered hresources, List.filter_map, List.map_map,
    ← List.filter_congr hholds]
  exact List.map_id _

/-- The finding about a bitmap that is in one of the scaled folders. -/
theorem map_remark_coverage? (hname : IsName bitmap) (hbitmap : isBitmap bitmap)
    (hpresent : ∃ folder ∈ scaled c.tree c.lowDensity resources,
      c.tree.isFile (fileIn resources folder bitmap)) :
    (coverage? resources ((folders c resources).filter (·.name != unscaledFolder)) bitmap).map
        Finding.remark
      = if (scaled c.tree c.lowDensity resources).all fun folder =>
            c.tree.isFile (fileIn resources folder bitmap) then none
        else some (partialRemark c.tree c.lowDensity resources bitmap) := by
  have hin := map_name_filter_scaled hwell hordered hresources hname hbitmap id
  have hout := map_name_filter_scaled hwell hordered hresources hname hbitmap not
  dsimp only [id] at hin
  have hsome : ((scaled c.tree c.lowDensity resources).filter fun folder =>
      c.tree.isFile (fileIn resources folder bitmap)) ≠ [] := by
    obtain ⟨folder, hfolder, hfile⟩ := hpresent
    exact List.ne_nil_of_mem (List.mem_filter.mpr ⟨hfolder, hfile⟩)
  -- no folder lacks the bitmap when all of them have it
  have hnone : ((scaled c.tree c.lowDensity resources).filter fun folder =>
        !c.tree.isFile (fileIn resources folder bitmap)) = []
      ↔ (scaled c.tree c.lowDensity resources).all fun folder =>
        c.tree.isFile (fileIn resources folder bitmap) := by
    simp only [List.filter_eq_nil_iff, List.all_eq_true, Bool.not_eq_true', Bool.not_eq_false]
  obtain ⟨first, further, hpresent⟩ := List.exists_cons_of_ne_nil hsome
  unfold coverage? partialRemark
  dsimp only
  rw [hin, hout, hpresent]
  -- it is reported when some folder lacks it, at the first of those that have it
  by_cases hall : (scaled c.tree c.lowDensity resources).all fun folder =>
      c.tree.isFile (fileIn resources folder bitmap)
  · rw [if_pos hall, hnone.mpr hall]
    rfl
  · obtain ⟨missing, more, habsent⟩ := List.exists_cons_of_ne_nil (mt hnone.mp hall)
    rw [if_neg hall, habsent]
    rfl

omit hordered hresources in
/-- The bitmaps to compare are those of any of these folders. -/
theorem mem_knownBitmaps :
    bitmap ∈ knownBitmaps c.tree c.lowDensity resources
      ↔ IsName bitmap ∧ isBitmap bitmap
        ∧ ∃ folder ∈ scaled c.tree c.lowDensity resources,
          c.tree.isFile (fileIn resources folder bitmap) := by
  unfold knownBitmaps
  rw [Assoc.mem_keySet, List.mem_flatMap]
  constructor
  · intro ⟨folder, hfolder, hmem⟩
    obtain ⟨hname, hbitmap, hfile⟩ :=
      (mem_bitmapsIn hwell (List.mem_filter.mp hfolder).1).mp hmem
    exact ⟨hname, hbitmap, folder, hfolder, hfile⟩
  · intro ⟨hname, hbitmap, folder, hfolder, hfile⟩
    exact ⟨folder, hfolder,
      (mem_bitmapsIn hwell (List.mem_filter.mp hfolder).1).mpr ⟨hname, hbitmap, hfile⟩⟩

/-- Every bitmap is compared by itself. -/
theorem under_reportCoverage :
    Emission.under densitiesIssue.id (reportCoverage resources (folders c resources))
      = (knownBitmaps c.tree c.lowDensity resources).filterMap
        (coverage? resources ((folders c resources).filter (·.name != unscaledFolder))) := by
  have hall : reportCoverage resources (folders c resources)
      = ((knownBitmaps c.tree c.lowDensity resources).filterMap
        (coverage? resources ((folders c resources).filter (·.name != unscaledFolder)))).map
          .report := by
    unfold reportCoverage knownBitmaps
    dsimp only
    rw [filter_scaled_folders hwell hordered hresources, List.flatMap_map]
  rw [hall]
  refine Emission.under_map_report fun f hf => ?_
  obtain ⟨f', heq, hissue, -⟩ := mem_reportCoverage (hall ▸ List.mem_map_of_mem hf)
  cases heq
  exact hissue

/-- Whether a bitmap is in all of the scaled folders. -/
def isEverywhere (tree : FileTree) (lowDensity : Bool) (resources : Path) (bitmap : String) :
    Bool :=
  (scaled tree lowDensity resources).all fun folder => tree.isFile (fileIn resources folder bitmap)

/-- Reported are the bitmaps that are in some of the scaled folders and not in
all, each once. -/
theorem exists_map_remark_reportCoverage :
    ∃ bitmaps : List String, bitmaps.Nodup
      ∧ (∀ bitmap, bitmap ∈ bitmaps ↔ IsPartial c.tree c.lowDensity resources bitmap)
      ∧ (Emission.under densitiesIssue.id (reportCoverage resources (folders c resources))).map
          Finding.remark = bitmaps.map (partialRemark c.tree c.lowDensity resources) := by
  refine ⟨(knownBitmaps c.tree c.lowDensity resources).filter
    (!isEverywhere c.tree c.lowDensity resources ·),
    (Assoc.increasing_keySet _).nodup.filter _, fun bitmap => ?_, ?_⟩
  · rw [List.mem_filter, mem_knownBitmaps hwell, Bool.not_eq_true', isEverywhere,
      List.all_eq_false, isPartial_iff]
    simp only [and_assoc, Bool.not_eq_true]
  · have hsaid : ∀ bitmap ∈ knownBitmaps c.tree c.lowDensity resources, _ = _ :=
      fun bitmap hbitmap =>
        let ⟨hname, his, hpresent⟩ := (mem_knownBitmaps hwell).mp hbitmap
        map_remark_coverage? hwell hordered hresources hname his hpresent
    rw [under_reportCoverage hwell hordered hresources, List.map_filterMap,
      List.filterMap_congr hsaid, ← List.filterMap_eq_map, List.filterMap_filter]
    refine List.filterMap_congr fun bitmap _ => ?_
    change (if isEverywhere c.tree c.lowDensity resources bitmap then none else some _) = _
    cases isEverywhere c.tree c.lowDensity resources bitmap <;> rfl

/-- Reported are the required folders that are not there, together. -/
theorem map_remark_reportMissingFolders :
    (Emission.under missingFolderIssue.id
        (reportMissingFolders c resources (folders c resources))).map Finding.remark
      = if missing c.tree c.lowDensity resources = [] then []
        else [missingRemark resources (missing c.tree c.lowDensity resources)] := by
  have hmissing : missingFolders c.lowDensity (folders c resources)
      = missing c.tree c.lowDensity resources := by
    unfold missingFolders missing
    refine List.filter_congr fun name hname => congrArg (! ·) ?_
    rw [folders_eq hwell hordered hresources, List.any_map, Bool.eq_iff_iff, List.any_eq_true]
    constructor
    · intro ⟨other, hother, heq⟩
      exact beq_iff_eq.mp heq ▸ (mem_standing.mp hother).2
    · intro hdirectory
      exact ⟨name, mem_standing.mpr ⟨mem_densityFolders_of_required hname, hdirectory⟩,
        beq_self_eq_true name⟩
  unfold reportMissingFolders
  rw [hmissing]
  cases hnames : missing c.tree c.lowDensity resources with
  | nil => rfl
  | cons first more =>
      -- the limit of the listing is the length of the list, so nothing is cut off
      have hlisting : listing (first :: more) (first :: more).length
          = ", ".intercalate (first :: more) := if_pos le_rfl
      dsimp only
      rw [hlisting, if_neg (List.cons_ne_nil _ _)]
      rfl

end Coverage

-- ============================================================ at the end

section AtTheEnd

variable (hwell : c.tree.WellFormed) (hordered : c.tree.Ordered)
  (hwhole : c.project.subset = none)

include hwell hordered hwhole

/-- The folders are compared where there is one of them. -/
theorem compareFolders_eq :
    compareFolders c
      = if standing c.tree c.lowDensity c.project.resources = [] then []
        else
          (if c.isEnabled missingFolderIssue.id then
            reportMissingFolders c c.project.resources (folders c c.project.resources) else [])
            ++ (if c.isEnabled densitiesIssue.id then
              reportCoverage c.project.resources (folders c c.project.resources) else []) := by
  unfold compareFolders
  dsimp only
  rw [hwhole, Option.isSome_none, Bool.false_or]
  cases hresources : c.tree.isDirectory c.project.resources with
  | false =>
      have hnone : standing c.tree c.lowDensity c.project.resources = [] := by
        rw [List.eq_nil_iff_forall_not_mem]
        intro folder hfolder
        rw [isDirectory_resources hfolder] at hresources
        cases hresources
      rw [hnone]
      rfl
  | true =>
      rw [folders_eq hwell hordered hresources]
      cases standing c.tree c.lowDensity c.project.resources <;> rfl

/-- The bitmaps that are reported at the end of a project. -/
theorem exists_map_remark_densities (henabled : c.isEnabled densitiesIssue.id) :
    ∃ bitmaps : List String, bitmaps.Nodup
      ∧ (∀ bitmap, bitmap ∈ bitmaps
          ↔ IsPartial c.tree c.lowDensity c.project.resources bitmap)
      ∧ (Emission.under densitiesIssue.id (compareFolders c)).map Finding.remark
          = bitmaps.map (partialRemark c.tree c.lowDensity c.project.resources) := by
  rw [compareFolders_eq hwell hordered hwhole]
  by_cases hnone : standing c.tree c.lowDensity c.project.resources = []
  · refine ⟨[], List.nodup_nil, fun bitmap => ?_, by rw [if_pos hnone]; rfl⟩
    rw [iff_false_left List.not_mem_nil]
    intro h
    obtain ⟨folder, hfolder, -⟩ := h.present
    have hmem := (List.mem_filter.mp hfolder).1
    rw [hnone] at hmem
    cases hmem
  · obtain ⟨folder, hfolder⟩ := List.exists_mem_of_ne_nil _ hnone
    -- the other half of the comparison reports another issue
    have hother : Emission.under densitiesIssue.id (if c.isEnabled missingFolderIssue.id then
        reportMissingFolders c c.project.resources (folders c c.project.resources) else []) = [] := by
      split
      · refine Emission.under_eq_nil (fun e he => ?_)
          (by decide : missingFolderIssue.id ≠ densitiesIssue.id)
        obtain ⟨f, hf, hissue, -⟩ := mem_reportMissingFolders he
        exact ⟨f, hf, hissue⟩
      · rfl
    rw [if_neg hnone, if_pos henabled, Emission.under_append, hother, List.nil_append]
    exact exists_map_remark_reportCoverage hwell hordered (isDirectory_resources hfolder)

/-- The folders that are reported at the end of a project. -/
theorem map_remark_missing (henabled : c.isEnabled missingFolderIssue.id) :
    (Emission.under missingFolderIssue.id (compareFolders c)).map Finding.remark
      = if standing c.tree c.lowDensity c.project.resources = []
            ∨ missing c.tree c.lowDensity c.project.resources = [] then []
        else
          [missingRemark c.project.resources
            (missing c.tree c.lowDensity c.project.resources)] := by
  rw [compareFolders_eq hwell hordered hwhole]
  by_cases hnone : standing c.tree c.lowDensity c.project.resources = []
  · rw [if_pos hnone, if_pos (Or.inl hnone)]
    rfl
  · obtain ⟨folder, hfolder⟩ := List.exists_mem_of_ne_nil _ hnone
    have hother : Emission.under missingFolderIssue.id (if c.isEnabled densitiesIssue.id then
        reportCoverage c.project.resources (folders c c.project.resources) else []) = [] := by
      split
      · refine Emission.under_eq_nil (fun e he => ?_)
          (by decide : densitiesIssue.id ≠ missingFolderIssue.id)
        obtain ⟨f, hf, hissue, -⟩ := mem_reportCoverage he
        exact ⟨f, hf, hissue⟩
      · rfl
    rw [if_neg hnone, if_pos henabled, Emission.under_append, hother, List.append_nil,
      map_remark_reportMissingFolders hwell hordered (isDirectory_resources hfolder)]
    simp only [hnone, false_or]

end AtTheEnd

-- ========================================================================= runs

theorem mem_registration :
    ⟨"IconDetector", ["IconDensities", "IconMissingDensityFolder"], detector⟩
      ∈ Registry.builtInRegistrations := by
  simp [Registry.builtInRegistrations]

/-- What is found in a project is found at its end. -/
theorem findings_told {job : Run.Job} (id : String) (scope : Scope) (memory : Memory) :
    detector.findings id memory (job.told scope detector)
      = Emission.under id (compareFolders job.projectContext) := by
  have hplain : detector.IsPlain := ⟨trivial, trivial⟩
  have hinside : ∀ doc, Call.afterProject ∉ detector.told doc := by
    intro doc hmem
    rw [Detector.told_eq_seen hplain, Detector.seen_of_no_interest rfl rfl] at hmem
    simp at hmem
  refine Run.Job.findings_told_of_silent hinside (fun memory c call hcall => ?_) scope memory
  cases call with
  | afterProject => exact absurd rfl hcall
  | _ => rfl

section Runs

variable {s : Session} {host : Host} {scope : Option Scope} {files : List Path}
  {project : Project} (h : s.Checks host scope files project)

include h

/-- Nothing is remarked where single files were asked for. -/
theorem remarks_eq_nil_of_subset (hsubset : project.subset.isSome) {issue : Issue}
    (hissue : issue.id ∈ ["IconDensities", "IconMissingDensityFolder"]) :
    (s.analyze host files scope).1.remarks project issue.id = [] := by
  have hserving := Registry.serving?_builtIn mem_registration hissue
  have hnone : ∀ scope', (s.jobOf host scope files project).findings issue.id scope' detector
      = [] := by
    intro scope'
    have hquiet : compareFolders (s.jobOf host scope files project).projectContext = [] :=
      answers_of_subset hsubset .blank .afterProject
    unfold Run.Job.findings
    rw [findings_told, hquiet]
    rfl
  have hreported : (s.jobOf host scope files project).reported issue.id = [] := by
    have hregistry : (s.jobOf host scope files project).registry = .builtIn := h.registry
    unfold Run.Job.reported
    rw [hregistry, hserving]
    cases Registry.builtIn.issue? issue.id with
    | none => rfl
    | some _ =>
        dsimp only
        rw [hnone, ite_self]
  rw [h.remarks_eq (Session.ne_parserErrorId_of_serving? hserving), hreported]
  simp [Warning.sort]

/-- What a run remarks on the bitmaps that are in some of the scaled folders only. -/
theorem exists_perm_remarks_densities (hwhole : project.subset = none)
    (hwell : host.tree.WellFormed) (hordered : host.tree.Ordered)
    (hlooks : (s.jobOf host scope files project).LooksFor densitiesIssue) :
    ∃ bitmaps : List String, bitmaps.Nodup
      ∧ (∀ bitmap, bitmap ∈ bitmaps
          ↔ IsPartial host.tree (s.jobOf host scope files project).options.lowDensity
            project.resources bitmap)
      ∧ ((s.analyze host files scope).1.remarks project densitiesIssue.id).Perm
          (bitmaps.map (partialRemark host.tree
            (s.jobOf host scope files project).options.lowDensity project.resources)) := by
  have hknown : densitiesIssue ∈ Registry.builtInIssues := by simp [Registry.builtInIssues]
  have hperm := h.perm_remarks hknown (Registry.serving?_builtIn mem_registration (by decide)) hlooks
  obtain ⟨bitmaps, hnodup, hmem, hremarks⟩ := @exists_map_remark_densities
    (s.jobOf host scope files project).projectContext hwell hordered hwhole
    (hlooks.isEnabled h.registry hknown)
  rw [findings_told] at hperm
  exact ⟨bitmaps, hnodup, hmem, hremarks ▸ hperm⟩

/-- What a run remarks on the folders that are not there. -/
theorem remarks_missingFolder (hwhole : project.subset = none)
    (hwell : host.tree.WellFormed) (hordered : host.tree.Ordered)
    (hlooks : (s.jobOf host scope files project).LooksFor missingFolderIssue) :
    let lowDensity := (s.jobOf host scope files project).options.lowDensity
    (s.analyze host files scope).1.remarks project missingFolderIssue.id
      = if standing host.tree lowDensity project.resources = []
            ∨ missing host.tree lowDensity project.resources = [] then []
        else
          [missingRemark project.resources
            (missing host.tree lowDensity project.resources)] := by
  intro lowDensity
  have hknown : missingFolderIssue ∈ Registry.builtInIssues := by simp [Registry.builtInIssues]
  have hperm := h.perm_remarks hknown (Registry.serving?_builtIn mem_registration (by decide)) hlooks
  have hfolders := @map_remark_missing (s.jobOf host scope files project).projectContext hwell
    hordered hwhole (hlooks.isEnabled h.registry hknown)
  rw [findings_told, hfolders] at hperm
  change List.Perm _ (if standing host.tree lowDensity project.resources = []
    ∨ missing host.tree lowDensity project.resources = [] then [] else _) at hperm
  -- a permutation of one remark or of none is that list
  by_cases hquiet : standing host.tree lowDensity project.resources = []
      ∨ missing host.tree lowDensity project.resources = []
  · rw [if_pos hquiet] at hperm ⊢
    exact List.perm_nil.mp hperm
  · rw [if_neg hquiet] at hperm ⊢
    exact List.perm_singleton.mp hperm

/-- Icon coverage.  Where single files of a project were asked for, nothing is
remarked.  Otherwise a run remarks, once each, on the bitmaps that are in some
of the scaled folders and not in all, at the files that are there in the order
of the folders, and once on the required folders that are not there, if any of
the folders is. -/
theorem remarks_densities :
    (project.subset.isSome →
      (s.analyze host files scope).1.remarks project densitiesIssue.id = []
        ∧ (s.analyze host files scope).1.remarks project missingFolderIssue.id = [])
    ∧ (project.subset = none → host.tree.WellFormed → host.tree.Ordered →
      (s.jobOf host scope files project).LooksFor densitiesIssue →
      (s.jobOf host scope files project).LooksFor missingFolderIssue →
        let lowDensity := (s.jobOf host scope files project).options.lowDensity
        (∃ bitmaps : List String, bitmaps.Nodup
          ∧ (∀ bitmap, bitmap ∈ bitmaps
              ↔ IsPartial host.tree lowDensity project.resources bitmap)
          ∧ ((s.analyze host files scope).1.remarks project densitiesIssue.id).Perm
              (bitmaps.map (partialRemark host.tree lowDensity project.resources)))
        ∧ (s.analyze host files scope).1.remarks project missingFolderIssue.id
            = if standing host.tree lowDensity project.resources = []
                  ∨ missing host.tree lowDensity project.resources = [] then []
              else
                [missingRemark project.resources
                  (missing host.tree lowDensity project.resources)]) := by
  refine ⟨fun hsubset => ⟨remarks_eq_nil_of_subset h hsubset (by decide),
    remarks_eq_nil_of_subset h hsubset (by decide)⟩, ?_⟩
  intro hwhole hwell hordered hdensities hmissing
  exact ⟨exists_perm_remarks_densities h hwhole hwell hordered hdensities,
    remarks_missingFolder h hwhole hwell hordered hmissing⟩

end Runs

/-- A project whose bitmaps are drawn for two densities, one of them for the first
only. -/
def drawn : FileTree :=
  { here := ["ROOT"]
    entries :=
      [(["ROOT"], .directory),
        (["ROOT", "app"], .directory),
        (["ROOT", "app", "AndroidManifest.xml"], .file "<manifest/>".toUTF8),
        (["ROOT", "app", "res"], .directory),
        (["ROOT", "app", "res", "drawable-hdpi"], .directory),
        (["ROOT", "app", "res", "drawable-hdpi", "both.png"], .file .empty),
        (["ROOT", "app", "res", "drawable-hdpi", "one.png"], .file .empty),
        (["ROOT", "app", "res", "drawable-mdpi"], .directory),
        (["ROOT", "app", "res", "drawable-mdpi", "both.png"], .file .empty),
        (["ROOT", "app", "res", "drawable-nodpi"], .directory),
        (["ROOT", "app", "res", "drawable-nodpi", "none.png"], .file .empty)] }

def drawnHost : Host := .ofTree drawn fun _ => false

def drawnProject : Project := .new ⟨"/ROOT/app"⟩ none

def drawnRemarks (issue : Issue) : List Remark :=
  (Session.plain.analyze drawnHost [⟨"/ROOT/app"⟩] none).1.remarks drawnProject issue.id

/-- The bitmap is remarked on at its one file, and so is the folder that is not
there. -/
theorem remarks_densities_drawn :
    (∃ bitmaps : List String, bitmaps.Nodup
      ∧ "one.png" ∈ bitmaps ∧ "both.png" ∉ bitmaps ∧ "none.png" ∉ bitmaps
      ∧ (drawnRemarks densitiesIssue).Perm
          (bitmaps.map (partialRemark drawn false ⟨"/ROOT/app/res"⟩)))
    ∧ partialRemark drawn false ⟨"/ROOT/app/res"⟩ "one.png"
        = ⟨"Missing the following drawables in drawable-mdpi: one.png (found in drawable-hdpi)",
            [.ofFile ⟨"/ROOT/app/res/drawable-hdpi/one.png"⟩]⟩
    ∧ drawnRemarks missingFolderIssue
        = [⟨"Missing density variation folders in res: drawable-xhdpi",
            [.ofFile ⟨"/ROOT/app/res"⟩]⟩] := by
  have hwell : drawn.WellFormed :=
    { isName := by decide +kernel
      nodup := by decide +kernel
      parents := by decide +kernel
      here := rfl }
  have hordered : drawn.Ordered := by
    unfold FileTree.Ordered Assoc.Increasing
    decide +kernel
  have hprojects : Session.projectsFor drawnHost [⟨"/ROOT/app"⟩] = [drawnProject] := by
    decide +kernel
  have hchecks : Session.plain.Checks drawnHost none [⟨"/ROOT/app"⟩] drawnProject :=
    Session.checks_ofTree rfl rfl drawn (hprojects ▸ List.mem_singleton_self _)
  have hlooks : ∀ issue ∈ [densitiesIssue, missingFolderIssue],
      (Session.plain.jobOf drawnHost none [⟨"/ROOT/app"⟩] drawnProject).LooksFor issue := by
    intro issue hissue
    simp only [List.mem_cons, List.not_mem_nil, or_false] at hissue
    rcases hissue with rfl | rfl <;> exact ⟨by decide +kernel, by decide +kernel⟩
  have hresources : drawnProject.resources = ⟨"/ROOT/app/res"⟩ := by decide +kernel
  have hscaled : scaled drawn false ⟨"/ROOT/app/res"⟩ = ["drawable-hdpi", "drawable-mdpi"] := by
    decide +kernel
  have hone : IsPartial drawn false ⟨"/ROOT/app/res"⟩ "one.png" := by
    rw [isPartial_iff, hscaled]
    decide +kernel
  -- one is in both folders, the other in none
  have hothers : ∀ bitmap ∈ ["both.png", "none.png"],
      ¬ IsPartial drawn false ⟨"/ROOT/app/res"⟩ bitmap := by
    simp only [isPartial_iff, hscaled]
    decide +kernel
  have hremark : partialRemark drawn false ⟨"/ROOT/app/res"⟩ "one.png"
      = ⟨"Missing the following drawables in drawable-mdpi: one.png (found in drawable-hdpi)",
          [.ofFile ⟨"/ROOT/app/res/drawable-hdpi/one.png"⟩]⟩ := by
    unfold partialRemark
    rw [hscaled]
    decide +kernel
  obtain ⟨-, hwhole⟩ := remarks_densities hchecks
  obtain ⟨⟨bitmaps, hnodup, hmem, hremarks⟩, hmissing⟩ := hwhole rfl hwell hordered
    (hlooks _ (by simp)) (hlooks _ (by simp))
  rw [hresources] at hmem hremarks hmissing
  refine ⟨⟨bitmaps, hnodup, (hmem _).mpr hone, fun hboth => ?_, fun hnone => ?_, hremarks⟩,
    hremark, hmissing.trans (by decide +kernel)⟩
  · exact hothers _ (by simp) ((hmem _).mp hboth)
  · exact hothers _ (by simp) ((hmem _).mp hnone)

end Icons

end ResourceLint
