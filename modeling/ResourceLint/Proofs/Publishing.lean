/-
What a multi-page report publishes.

The pages divide the findings among the projects: each project has one page,
with findings or without, and each finding is on the page of its project, in
the order of the findings.  The index has a row for each page with what is
counted on it, and the counts add up to the findings (`Publishes`).

Files of pages differ, and in any case of their letters unless a sigma at the
end of a name is in the way: names are compared without the ending of the
files, where such a sigma has another lower case than before it
(`not_distinct_ignoring_case`).
-/
import ResourceLint.Proofs.Filing
import ResourceLint.Proofs.IndexPage
import ResourceLint.Proofs.PageNames
import ResourceLint.Proofs.Printing

namespace ResourceLint

namespace Report

open Html Warning
open FileTree (ChangedAt)
open ResourceLint.Text (endsInSigma lowercase)

variable {options : PagesOptions} {found : List Warning} {t u : FileTree}

-- ==================================================================== the rows

/-- The stems of the files of pages, by project. -/
def pageStems (options : PagesOptions) (found : List Warning) : List String :=
  stems [indexStem] ((byProject options.projects found).map (·.project.name))

/-- The rows of the index are the projects with findings, in order. -/
theorem map_fst_pageRows (options : PagesOptions) (found : List Warning) :
    (pageRows options found).map (·.1) = byProject options.projects found := by
  unfold pageRows
  rw [List.map_map]
  exact List.map_fst_zip (by rw [length_stems, List.length_map])

theorem map_file_pageRows (options : PagesOptions) (found : List Warning) :
    (pageRows options found).map (·.2.file) = (pageStems options found).map pageFile := by
  have hzip : ((byProject options.projects found).zip (pageStems options found)).map (·.2)
      = pageStems options found := by
    refine List.map_snd_zip ?_
    unfold pageStems
    rw [length_stems, List.length_map]
  rw [← hzip, List.map_map]
  unfold pageRows
  rw [List.map_map]
  rfl

/-- Whether a row says what is known of a project and its findings. -/
structure Tells (findings : ProjectFindings) (row : ProjectSummary) : Prop where
  name : row.name = findings.project.name
  directory : row.directory = findings.project.directory
  errors : row.errors = (findings.warnings.filter (·.isError)).length
  all : row.errors + row.warnings = findings.warnings.length

/-- A row tells of the findings of its project. -/
theorem tells_of_mem {entry : ProjectFindings × ProjectSummary}
    (h : entry ∈ pageRows options found) : Tells entry.1 entry.2 := by
  obtain ⟨pair, -, rfl⟩ := List.mem_map.mp h
  exact ⟨rfl, rfl, rfl, Nat.add_sub_cancel' (List.length_filter_le _ _)⟩

-- =================================================================== the names

/-- Whether files are different, even in any case of their letters as far as
no sigma at the end of a stem is in the way, and none is the index. -/
structure AreNamed (files : List String) : Prop where
  stems : ∃ stems : List String, files = stems.map pageFile ∧ (stems.map lowercase).Nodup
    ∧ ∀ a ∈ stems, ∀ b ∈ stems, lowercase (pageFile a) = lowercase (pageFile b) →
      a = b ∨ endsInSigma a ≠ endsInSigma b
  nodup : files.Nodup
  notIndex : ∀ file ∈ files, lowercase file ≠ "index.html"

/-- Pages have names that differ in small letters, too. -/
theorem areNamed_pageRows (options : PagesOptions) (found : List Warning) :
    AreNamed ((pageRows options found).map (·.2.file)) := by
  obtain ⟨hnodup, hfree⟩ := areFree_stems [indexStem]
    ((byProject options.projects found).map (·.project.name))
  rw [map_file_pageRows]
  refine ⟨⟨pageStems options found, rfl, hnodup, fun a ha b hb heq => ?_⟩, ?_, ?_⟩
  · by_cases hlower : lowercase a = lowercase b
    · exact .inl (List.inj_on_of_nodup_map hnodup ha hb hlower)
    · exact .inr (endsInSigma_ne hlower heq)
  · exact (List.Nodup.of_map _ hnodup).map fun a b heq => pageFile_injective heq
  · intro file hfile
    obtain ⟨stem, hstem, rfl⟩ := List.mem_map.mp hfile
    exact lowercase_pageFile_ne fun heq => hfree stem hstem (heq ▸ List.mem_cons_self)

theorem isName_of_mem_pageRows {entry : ProjectFindings × ProjectSummary}
    (h : entry ∈ pageRows options found) : Path.IsName entry.2.file := by
  have hfile : entry.2.file ∈ (pageRows options found).map (·.2.file) := List.mem_map_of_mem h
  rw [map_file_pageRows] at hfile
  obtain ⟨stem, hstem, heq⟩ := List.mem_map.mp hfile
  rw [← heq]
  exact isName_pageFile (slash_not_mem_stems stem hstem)

/-- No page takes the name of the index. -/
theorem ne_index_of_mem_pageRows {entry : ProjectFindings × ProjectSummary}
    (h : entry ∈ pageRows options found) : entry.2.file ≠ pageFile indexStem := by
  intro heq
  have hindex : lowercase (pageFile indexStem) = "index.html" := by decide +kernel
  exact (areNamed_pageRows options found).notIndex _ (List.mem_map_of_mem h) (heq ▸ hindex)

-- ===================================================================== the run

/-- What a run that does not fail does, step by step. -/
theorem exists_run (h : perform t (writePages options found) = (none, u)) :
    ∃ made written opened, t.makeDirectory options.directory = .ok made
      ∧ Prints options made (printings options made (pageRows options found)) written
      ∧ perform written (openOutput (indexPath options.directory)) = (none, opened)
      ∧ perform opened (writeOutput (indexPath options.directory)
        (index options.time ((pageRows options found).map (·.2)))) = (none, u) := by
  have hrun : perform t (do
      change fun t => (t.makeDirectory options.directory).mapError .file
      (pageRows options found).forM fun entry => writePage options entry.1 entry.2
      openOutput (indexPath options.directory)
      writeOutput (indexPath options.directory)
        (index options.time ((pageRows options found).map (·.2)))) = (none, u) := h
  obtain ⟨made, hmake, hrest⟩ := perform_bind_eq_none_iff.mp hrun
  obtain ⟨written, hpages, hrest⟩ := perform_bind_eq_none_iff.mp hrest
  obtain ⟨opened, hopen, hindex⟩ := perform_bind_eq_none_iff.mp hrest
  exact ⟨made, written, opened, mapError_eq_ok_iff.mp (perform_change_eq_none_iff.mp hmake),
    prints_printings hpages, hopen, hindex⟩

/-- What a multi-page report has published in a tree. -/
structure Publishes (options : PagesOptions) (found : List Warning) (u : FileTree) : Prop where
  partitions : Partitions options.projects found ((pageRows options found).map (·.1))
  named : AreNamed ((pageRows options found).map (·.2.file))
  rows : ∀ entry ∈ pageRows options found, Tells entry.1 entry.2
  /-- each page accounts for the findings of its project -/
  pages : ∀ entry ∈ pageRows options found, ∃ text nodes ids lines,
    u.readText (options.directory.child entry.2.file) = .ok text ∧ readPage? text = some nodes
      ∧ Accounts (optionsFor options entry.2) entry.1.warnings nodes ids lines
  /-- the index has a line for each page, in order -/
  index : ∃ text nodes, ∃ lines : List ProjectSummary, u.readText (indexPath options.directory) = .ok text
    ∧ readPage? text = some nodes ∧ indexLines? nodes = some (lines.map .of)
    ∧ lines.Perm ((pageRows options found).map (·.2)) ∧ lines.Pairwise ProjectSummary.Before
  total : ((pageRows options found).map fun entry => entry.2.errors + entry.2.warnings).sum
    = found.length

/-- A report that is written publishes all findings, each where it belongs, and
the search for a name ends whatever names are taken. -/
theorem publishes_writePages
    (hdistinct : options.projects.Pairwise fun p q => ¬ p.directory.same q.directory)
    (h : perform t (writePages options found) = (none, u)) :
    Publishes options found u ∧ ∀ base taken, ∃ n, freeStem base taken = nameAt base n
      ∧ lowercase (nameAt base n) ∉ taken ∧ ∀ m < n, lowercase (nameAt base m) ∈ taken := by
  obtain ⟨made, written, opened, -, hprints, hopen, hindex⟩ := exists_run h
  have hps := map_entry_printings options made (pageRows options found)
  generalize printings options made (pageRows options found) = ps at hps hprints
  have hpartitions : Partitions options.projects found ((pageRows options found).map (·.1)) := by
    rw [map_fst_pageRows]
    exact partitions_byProject hdistinct
  have hnamed := areNamed_pageRows options found
  have hentry : ∀ p ∈ ps, p.entry ∈ pageRows options found :=
    fun p hp => hps ▸ List.mem_map_of_mem hp
  have hnames : ∀ p ∈ ps, Path.IsName p.row.file :=
    fun p hp => isName_of_mem_pageRows (hentry p hp)
  have hnodup : (ps.map (·.row.file)).Nodup := by
    have hfiles := hnamed.nodup
    rw [← hps, List.map_map] at hfiles
    exact hfiles
  have hindexName : Path.IsName (pageFile indexStem) := by decide
  have hopened := changedAt_openOutput hopen
  obtain ⟨hwritten, hread⟩ := changedAt_writeOutput hindex
  refine ⟨⟨hpartitions, hnamed, fun entry => tells_of_mem, ?_, ?_, ?_⟩, exists_freeStem⟩
  · intro entry hmem
    rw [← hps] at hmem
    obtain ⟨p, hp, rfl⟩ := List.mem_map.mp hmem
    -- no page stands where the index does, so writing the index leaves it as it is
    have hplace : ∀ here, (p.path options).namesFrom here
        ≠ (indexPath options.directory).namesFrom here := by
      intro here heq
      have hchild : (options.directory.child p.row.file).namesFrom here
          = (options.directory.child (pageFile indexStem)).namesFrom here := heq
      rw [Path.namesFrom_child (hnames p hp), Path.namesFrom_child hindexName] at hchild
      exact ne_index_of_mem_pageRows (hentry p hp) (List.cons.inj (List.append_cancel_left hchild)).1
    have hpage := hwritten.readBytes (hopened.readBytes (hprints.readBytes hnames hnodup p hp)
      (hplace _)) (hplace _)
    exact ⟨_, _, _, _, FileTree.readText_of_readBytes hpage, readPage?_page _ _ _ _ _,
      accounts_pageNodes _ _ _ _ _⟩
  · obtain ⟨nodes, hnodes, hlines⟩ :=
      exists_indexLines options.time ((pageRows options found).map (·.2))
    exact ⟨_, nodes, _, FileTree.readText_of_readBytes hread, hnodes, hlines,
      ProjectSummary.perm_byRank _, ProjectSummary.pairwise_byRank _⟩
  · rw [← hpartitions.total, List.map_map]
    exact congrArg List.sum (List.map_congr_left fun entry hmem => (tells_of_mem hmem).all)

/-- Pages of two projects. -/
def pairPages (name other : String) : PagesOptions :=
  { directory := ⟨"/out"⟩, projects := [⟨name, ⟨"/a"⟩⟩, ⟨other, ⟨"/b"⟩⟩], simple := true
    urls := .empty, paths := .asWritten, time := "" }

/-- An error in the second of two projects. -/
def pairFound : List Warning :=
  [{ Warning.new (.new "HardcodedText" "" "" .internationalization 5 .warning .empty) "here" .error with
    project := "App", projectDirectory := some ⟨"/b"⟩ }]

theorem perform_eq {writing : ExceptT WriteFault (StateM FileTree) Unit}
    (h : (perform t writing).1 = none) : perform t writing = (none, (perform t writing).2) :=
  Prod.ext h rfl

/-- Two projects, one with a finding. -/
theorem publishes_pair : ∃ u,
    perform (.empty []) (writePages (pairPages "app" "App") pairFound) = (none, u)
      ∧ Publishes (pairPages "app" "App") pairFound u := by
  have hnone : (perform (.empty []) (writePages (pairPages "app" "App") pairFound)).1 = none := by
    decide +kernel
  have hdistinct : (pairPages "app" "App").projects.Pairwise
      fun p q => ¬ p.directory.same q.directory := by decide +kernel
  exact ⟨_, perform_eq hnone, (publishes_writePages hdistinct (perform_eq hnone)).1⟩

/-- The names of two files may be the same in lower case. -/
theorem not_distinct_ignoring_case : ¬ ∀ (options : PagesOptions) (found : List Warning)
    (t u : FileTree), (options.projects.Pairwise fun p q => ¬ p.directory.same q.directory) →
      perform t (writePages options found) = (none, u) →
        ((pageRows options found).map fun entry => lowercase entry.2.file).Nodup := by
  intro h
  have hnone : (perform (.empty [])
      (writePages (pairPages "\u0391\u03A3" "\u03B1\u03C3") [])).1 = none := by decide +kernel
  have hdistinct : (pairPages "\u0391\u03A3" "\u03B1\u03C3").projects.Pairwise
      fun p q => ¬ p.directory.same q.directory := by decide +kernel
  have hnot : ¬ ((pageRows (pairPages "\u0391\u03A3" "\u03B1\u03C3") []).map
      fun entry => lowercase entry.2.file).Nodup := by decide +kernel
  exact hnot (h (pairPages "\u0391\u03A3" "\u03B1\u03C3") [] (.empty []) _ hdistinct
    (perform_eq hnone))

end Report
end ResourceLint
