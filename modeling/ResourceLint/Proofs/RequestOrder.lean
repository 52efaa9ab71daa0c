/-
Requests in any order.

Which projects a run checks, and what of them, is decided by the paths that
are asked for and not by their order or by how often they come.  A project
is there when anything is asked for in it (`mem_directories_ofInputs`); it is
checked as a whole when anybody asks for the whole of it, before or after
others ask for files (`subset_eq_none_iff`); and otherwise its files are those
that are asked for in it (`mem_files_iff`).  All three speak of the paths as a
set, so paths with the same members come to the same work
(`sameWork_ofInputs`).

# One name for one directory

Directories are compared by what their paths denote, and a project bears the
path by which it was asked for first.  Canonical paths leave no choice here:
every directory that they ask for is canonical (`exists_ofNames_of_mem_asks`),
and two canonical paths that denote the same are one path.
-/
import ResourceLint.Proofs.NearestProject

namespace ResourceLint

namespace Project

open ResourceLint.Path (IsName)

variable {t : FileTree} {inputs : List Path} {asked : List (Path × Option (List Path))} {e : Path}

-- ============================================== whole projects stay whole

/-- Adding a file leaves a whole project whole, and makes none of another. -/
theorem subset_addFile_eq_none {p : Project} (file : Path) :
    (p.addFile file).subset = none ↔ p.subset = none := by
  unfold addFile
  split
  · next files hfiles =>
      split
      · exact Iff.rfl
      · simp [hfiles]
  · exact Iff.rfl

theorem subset_foldl_addFile_eq_none (files : List Path) {p : Project} :
    (files.foldl addFile p).subset = none ↔ p.subset = none := by
  induction files generalizing p with
  | nil => exact Iff.rfl
  | cons file files ih => rw [List.foldl_cons, ih, subset_addFile_eq_none]

/-- A project is whole as soon as the whole of it was asked for once. -/
theorem subset_eq_none_of_find? {p : Project}
    (h : (asked.foldl ask []).find? (·.directory.same e) = some p) :
    p.subset = none ↔ ∃ a ∈ asked, a.1.same e ∧ a.2 = none := by
  induction asked using List.reverseRecOn generalizing p with
  | nil => cases h
  | append_singleton asked a ih =>
      have hlast : (∃ b ∈ asked ++ [a], b.1.same e ∧ b.2 = none)
          ↔ (∃ b ∈ asked, b.1.same e ∧ b.2 = none) ∨ (a.1.same e ∧ a.2 = none) := by
        simp only [List.mem_append, List.mem_singleton, or_and_right, exists_or, exists_eq_left]
      rw [List.foldl_concat, ask, find?_update (directory_grant a.2)] at h
      rw [hlast]
      by_cases hsame : a.1.same e
      · rw [if_pos hsame] at h
        obtain rfl := Option.some.inj h
        obtain ⟨directory, _ | files⟩ := a
        · exact iff_of_true rfl (Or.inr ⟨hsame, rfl⟩)
        · -- files add nothing to the question, and a new project begins without any
          have hno : ¬ (directory.same e = true ∧ (some files : Option (List Path)) = none) :=
            fun hwhole => Option.some_ne_none files hwhole.2
          rw [grant, subset_foldl_addFile_eq_none, or_iff_left hno]
          have hanswers := answers_foldl_ask asked e
          cases hfind : (asked.foldl ask []).find? (·.directory.same e) with
          | some q => exact ih hfind
          | none =>
              rw [hfind] at hanswers
              refine iff_of_false (Option.some_ne_none []) ?_
              rintro ⟨b, hb, hbe, -⟩
              rw [hanswers b hb] at hbe
              cases hbe
      · rw [if_neg hsame] at h
        rw [ih h]
        exact (or_iff_left fun hwhole => hsame hwhole.1).symm

-- ================================================ where there are projects

/-- A project is where something was asked for. -/
theorem exists_asked_of_mem {p : Project} (hp : p ∈ asked.foldl ask []) :
    ∃ a ∈ asked, p.directory = a.1 := by
  induction asked using List.reverseRecOn generalizing p with
  | nil => cases hp
  | append_singleton asked a ih =>
      rw [List.foldl_concat] at hp
      rcases mem_update (directory_grant a.2) hp with hp | ⟨q, hq, hp⟩
      · exact ⟨a, List.mem_append_right _ (List.mem_singleton_self a), hp⟩
      · obtain ⟨b, hb, hqb⟩ := ih hq
        exact ⟨b, List.mem_append_left _ hb, hp.trans hqb⟩

/-- Where something was asked for, there is a project. -/
theorem exists_project_of_asked {a : Path × Option (List Path)} (ha : a ∈ asked) :
    ∃ p ∈ asked.foldl ask [], p.directory.same a.1 := by
  have hanswers := answers_foldl_ask asked a.1
  cases hfind : (asked.foldl ask []).find? (·.directory.same a.1) with
  | none =>
      rw [hfind] at hanswers
      have hself := hanswers a ha
      rw [Path.same_refl] at hself
      cases hself
  | some p =>
      have hsame : p.directory.same a.1 := by simpa using List.find?_some hfind
      exact ⟨p, List.mem_of_find?_eq_some hfind, hsame⟩

-- ====================================================== canonical requests

/-- Canonical paths ask for canonical directories. -/
theorem exists_ofNames_of_mem_asks (hwell : t.WellFormed) {input : Path}
    (h : t.canonical? input = some input) {a : Path × Option (List Path)}
    (ha : a ∈ asks t input) : ∃ names, (∀ n ∈ names, IsName n) ∧ a.1 = .ofNames names := by
  obtain ⟨names, entry, rfl, hentry⟩ := exists_entry?_of_canonical? h
  have hnames := hwell.isName_of_entry? hentry
  have hencloses : ∀ d, enclosing? t (.ofNames names) = some d →
      ∃ above, (∀ n ∈ above, IsName n) ∧ d = .ofNames above := by
    intro d hd
    obtain ⟨above, rest, rfl, -, rfl⟩ := eq_ofNames_of_enclosing? hnames hd
    exact ⟨above, fun n hn => hnames n (List.mem_append_left _ hn), rfl⟩
  -- a directory is asked for itself, through the one around it or through those
  unfold asks at ha
  split at ha
  · split at ha
    · rw [List.mem_singleton.mp ha]
      exact ⟨names, hnames, rfl⟩
    · split at ha
      · next d hd =>
          rw [List.mem_singleton.mp ha]
          exact hencloses d hd
      · obtain ⟨d, hd, rfl⟩ := List.mem_map.mp ha
        obtain ⟨rest, hrest, rfl⟩ :=
          (hwell.mem_directoriesBelow_ofNames hentry).mp (List.mem_filter.mp hd).1
        exact ⟨names ++ rest, hwell.isName_of_entry? hrest, rfl⟩
  · split at ha
    · split at ha
      · next d hd =>
          rw [List.mem_singleton.mp ha]
          exact hencloses d hd
      · cases ha
    · cases ha

/-- Directories that canonical paths ask for are equal when they denote the
same. -/
theorem eq_of_same_of_mem_asks (hwell : t.WellFormed)
    (hinputs : ∀ input ∈ inputs, t.canonical? input = some input)
    {a b : Path × Option (List Path)} (ha : a ∈ inputs.flatMap (asks t))
    (hb : b ∈ inputs.flatMap (asks t)) (hsame : a.1.same b.1) : a.1 = b.1 := by
  obtain ⟨input, hinput, ha⟩ := List.mem_flatMap.mp ha
  obtain ⟨other, hother, hb⟩ := List.mem_flatMap.mp hb
  obtain ⟨m, hm, ham⟩ := exists_ofNames_of_mem_asks hwell (hinputs input hinput) ha
  obtain ⟨n, hn, hbn⟩ := exists_ofNames_of_mem_asks hwell (hinputs other hother) hb
  rw [ham, hbn] at hsame ⊢
  rw [Path.ofNames_injective_of_same hm hn hsame]

/-- The directories of the projects are those in which anything is asked
for. -/
theorem mem_directories_ofInputs (hwell : t.WellFormed)
    (hinputs : ∀ input ∈ inputs, t.canonical? input = some input) {d : Path} :
    d ∈ (ofInputs t inputs).map (·.directory)
      ↔ ∃ input ∈ inputs, ∃ wanted, (d, wanted) ∈ asks t input := by
  rw [ofInputs_eq_foldl_ask]
  constructor
  · intro hd
    obtain ⟨p, hp, rfl⟩ := List.mem_map.mp hd
    obtain ⟨⟨directory, wanted⟩, ha, heq⟩ := exists_asked_of_mem hp
    obtain ⟨input, hinput, ha⟩ := List.mem_flatMap.mp ha
    exact ⟨input, hinput, wanted, heq ▸ ha⟩
  · rintro ⟨input, hinput, wanted, ha⟩
    have hmem := List.mem_flatMap.mpr ⟨input, hinput, ha⟩
    obtain ⟨p, hp, hsame⟩ := exists_project_of_asked hmem
    obtain ⟨b, hb, hpb⟩ := exists_asked_of_mem hp
    rw [hpb] at hsame
    have heq := eq_of_same_of_mem_asks hwell hinputs hb hmem hsame
    exact List.mem_map.mpr ⟨p, hp, hpb.trans heq⟩

/-- What is asked for under the directory of a project is asked for in the
project. -/
theorem mem_asks_iff_same (hwell : t.WellFormed)
    (hinputs : ∀ input ∈ inputs, t.canonical? input = some input) {p : Project}
    (hp : p ∈ ofInputs t inputs) {wanted : Option (List Path)} :
    (∃ d, (d, wanted) ∈ inputs.flatMap (asks t) ∧ d.same p.directory)
      ↔ ∃ input ∈ inputs, (p.directory, wanted) ∈ asks t input := by
  constructor
  · rintro ⟨d, hd, hsame⟩
    rw [ofInputs_eq_foldl_ask] at hp
    obtain ⟨b, hb, hpb⟩ := exists_asked_of_mem hp
    rw [hpb] at hsame ⊢
    have heq : d = b.1 := eq_of_same_of_mem_asks hwell hinputs hd hb hsame
    rw [heq] at hd
    exact List.mem_flatMap.mp hd
  · rintro ⟨input, hinput, ha⟩
    exact ⟨p.directory, List.mem_flatMap.mpr ⟨input, hinput, ha⟩, Path.same_refl _⟩

/-- A project is checked as a whole when one of the paths asks for the whole
of it. -/
theorem subset_eq_none_iff (hwell : t.WellFormed)
    (hinputs : ∀ input ∈ inputs, t.canonical? input = some input) {p : Project}
    (hp : p ∈ ofInputs t inputs) :
    p.subset = none ↔ ∃ input ∈ inputs, (p.directory, none) ∈ asks t input := by
  have hfind := find?_directory (apart_ofInputs t inputs) hp
  rw [ofInputs_eq_foldl_ask] at hfind
  rw [← mem_asks_iff_same hwell hinputs hp, subset_eq_none_of_find? hfind]
  constructor
  · rintro ⟨⟨d, wanted⟩, ha, hsame, rfl⟩
    exact ⟨d, ha, hsame⟩
  · rintro ⟨d, ha, hsame⟩
    exact ⟨(d, none), ha, hsame, rfl⟩

/-- The files of a project, if it is not whole, are those that the paths ask
for in it. -/
theorem mem_files_iff (hwell : t.WellFormed)
    (hinputs : ∀ input ∈ inputs, t.canonical? input = some input) {p : Project}
    (hp : p ∈ ofInputs t inputs) {files : List Path} (hfiles : p.subset = some files) {f : Path} :
    f ∈ files ↔ ∃ input ∈ inputs, ∃ more, (p.directory, some more) ∈ asks t input ∧ f ∈ more := by
  constructor
  · intro hf
    obtain ⟨d, more, ha, hsame, hmore⟩ := (answers_ofInputs hp).wasAsked files hfiles f hf
    obtain ⟨input, hinput, hask⟩ := (mem_asks_iff_same hwell hinputs hp).mp ⟨d, ha, hsame⟩
    exact ⟨input, hinput, more, hask, hmore⟩
  · rintro ⟨input, hinput, more, hask, hmore⟩
    exact mem_files_of_mem_asks hwell hinputs hp hfiles hinput hask (Path.same_refl _) hmore

-- ================================================================ any order

/-- Projects that come to the same work: their directories are the same, each
once, and in each there is the whole to check, or the same files, each
once. -/
structure SameWork (projects others : List Project) : Prop where
  apart : Apart projects ∧ Apart others
  distinct : ∀ p, p ∈ projects ∨ p ∈ others → Distinct p
  directories : ∀ d, d ∈ projects.map (·.directory) ↔ d ∈ others.map (·.directory)
  subsets : ∀ p ∈ projects, ∀ q ∈ others, p.directory = q.directory →
    (p.subset = none ∧ q.subset = none)
      ∨ ∃ files more, p.subset = some files ∧ q.subset = some more ∧ ∀ f, f ∈ files ↔ f ∈ more

/-- Canonical paths ask for the same work in any order, and however often they
come. -/
theorem sameWork_ofInputs (hwell : t.WellFormed) {others : List Path}
    (hinputs : ∀ input ∈ inputs, t.canonical? input = some input)
    (hothers : ∀ input, input ∈ others ↔ input ∈ inputs) :
    SameWork (ofInputs t inputs) (ofInputs t others) := by
  have hcanonical : ∀ input ∈ others, t.canonical? input = some input :=
    fun input h => hinputs input ((hothers input).mp h)
  refine ⟨⟨apart_ofInputs t inputs, apart_ofInputs t others⟩, ?_, ?_, ?_⟩
  · rintro p (hp | hp)
    · exact distinct_ofInputs t inputs p hp
    · exact distinct_ofInputs t others p hp
  · intro d
    rw [mem_directories_ofInputs hwell hinputs, mem_directories_ofInputs hwell hcanonical]
    simp only [hothers]
  · intro p hp q hq hdirectory
    -- whether a directory is asked for as a whole does not go by the order either
    have hwhole : p.subset = none ↔ q.subset = none := by
      rw [subset_eq_none_iff hwell hinputs hp, subset_eq_none_iff hwell hcanonical hq, hdirectory]
      simp only [hothers]
    cases hfiles : p.subset with
    | none => exact Or.inl ⟨rfl, hwhole.mp hfiles⟩
    | some files =>
        have hpart : q.subset ≠ none := by
          intro hnone
          rw [hwhole.mpr hnone] at hfiles
          cases hfiles
        obtain ⟨more, hmore⟩ := Option.ne_none_iff_exists'.mp hpart
        refine Or.inr ⟨files, more, rfl, hmore, fun f => ?_⟩
        rw [mem_files_iff hwell hinputs hp hfiles, mem_files_iff hwell hcanonical hq hmore,
          hdirectory]
        simp only [hothers]

/-- Files of the outer project, what lies between the projects, and the inner
project after one of its files; or all of this the other way round, with a
path twice. -/
theorem sameWork_nestedProject :
    SameWork
      (ofInputs nestedProject
        [⟨"/ROOT/app/AndroidManifest.xml"⟩, ⟨"/ROOT/app/libs"⟩,
          ⟨"/ROOT/app/libs/one/res/values/a.xml"⟩, ⟨"/ROOT/app/libs/one"⟩])
      (ofInputs nestedProject
        [⟨"/ROOT/app/libs/one"⟩, ⟨"/ROOT/app/libs/one/res/values/a.xml"⟩, ⟨"/ROOT/app/libs"⟩,
          ⟨"/ROOT/app/AndroidManifest.xml"⟩, ⟨"/ROOT/app/libs/one"⟩]) := by
  refine sameWork_ofInputs wellFormed_nestedProject (by decide +kernel) fun input => ?_
  simp only [List.mem_cons, List.not_mem_nil, or_false]
  tauto

/-- The whole of a project is checked although a file of it was asked for
first. -/
example :
    (ofInputs nestedProject
        [⟨"/ROOT/app/libs/one/res/values/a.xml"⟩, ⟨"/ROOT/app/libs/one"⟩]).map (·.subset)
      = [none] := by decide +kernel

end Project

end ResourceLint
