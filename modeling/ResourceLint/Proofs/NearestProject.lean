/-
The project that a file is checked in, and the nearest one.

A file belongs to the nearest directory above it that holds a project.  A
file that is asked for by itself is checked there; a file that is asked for
with a directory is checked in the project that is nearest to the directory,
which is another one when a project lies in between.  A request `Swallows`
such projects, and this is the only way for a file to be checked where it
does not belong (`allNearest_ofInputs_iff`).

# The way of the proof

The files of a project are those that the requests ask for in it
(`answers_ofInputs`), so it is enough to look at the files of one request.
These go by the names of their paths: going up from a file, one comes past
the directory that was asked for (`nearest?_append`), unless a project that
it swallows is met before.
-/
import ResourceLint.Proofs.Requests
import ResourceLint.Proofs.Trees

namespace ResourceLint

namespace Project

open ResourceLint.Path (IsName)

variable {t : FileTree} {directory : Path} {inputs : List Path}

-- ==================================================== where files belong

/-- The nearest directory above a path that holds a project. -/
def nearest? (t : FileTree) (p : Path) : Option Path :=
  (p.ancestors.drop 1).find? (isProjectDirectory t)

/-- Whether all files are checked in the projects that they belong to. -/
def AllNearest (t : FileTree) (projects : List Project) : Prop :=
  ∀ p ∈ projects, ∀ files, p.subset = some files → ∀ f ∈ files, ∀ d, nearest? t f = some d →
    p.directory.same d

/-- A directory that is asked for as a part of some project, while projects
lie in the directory. -/
structure Swallows (t : FileTree) (projects : List Project) (input : Path) : Prop where
  isDirectory : t.isDirectory input
  noProject : isProjectDirectory t input = false
  inside : ∃ e, enclosing? t input = some e
    ∧ ∃ p ∈ projects, p.directory.same e ∧ p.subset ≠ none
  below : ∃ g ∈ t.directoriesBelow input, isProjectDirectory t g

/-- The nearest project encloses. -/
theorem enclosing?_of_nearest? {p d : Path} (h : nearest? t p = some d) :
    enclosing? t p = some d := by
  unfold nearest? at h
  unfold enclosing?
  simp only
  rw [h]

variable {names rest : List String}

/-- What encloses a canonical path leaves out names at its end. -/
theorem eq_ofNames_of_enclosing? (hnames : ∀ n ∈ names, IsName n) {e : Path}
    (h : enclosing? t (.ofNames names) = some e) :
    ∃ above rest, names = above ++ rest ∧ rest ≠ [] ∧ e = .ofNames above := by
  unfold enclosing? at h
  simp only at h
  split at h
  · next d hd =>
      cases h
      exact Path.eq_ofNames_of_mem_above hnames (List.mem_of_find?_eq_some hd)
  · -- without a manifest, what holds the resources encloses
    obtain ⟨resources, hfind, hparent⟩ := Option.bind_eq_some_iff.mp h
    obtain ⟨above, rest, rfl, hrest, rfl⟩ :=
      Path.eq_ofNames_of_mem_above hnames (List.mem_of_find?_eq_some hfind)
    have habove : ∀ n ∈ above, IsName n := fun n hn => hnames n (List.mem_append_left _ hn)
    rcases List.eq_nil_or_concat above with rfl | ⟨init, last, rfl⟩
    · cases hparent
    · rw [List.concat_eq_append] at habove hparent ⊢
      rw [Path.parent?_ofNames_concat habove] at hparent
      cases hparent
      exact ⟨init, last :: rest, List.append_assoc .., List.cons_ne_nil _ _, rfl⟩

/-- What is nearest to a child is its parent, if that holds a project. -/
theorem nearest?_concat {name : String} (hnames : ∀ n ∈ names ++ [name], IsName n) :
    nearest? t (.ofNames (names ++ [name]))
      = if isProjectDirectory t (.ofNames names) then some (.ofNames names)
        else nearest? t (.ofNames names) := by
  have htight := Path.isTight_ofNames fun n hn => hnames n (List.mem_append_left _ hn)
  unfold nearest?
  rw [Path.ofNames_concat, Path.ancestors_child htight (hnames name (by simp)),
    List.drop_succ_cons, List.drop_zero, Path.ancestors_eq_cons, List.find?_cons]
  cases isProjectDirectory t (.ofNames names) <;> rfl

/-- Where no project lies in between, what is nearest to a directory is
nearest to what is below. -/
theorem nearest?_append (hwell : t.WellFormed) {entry : FileTree.Entry}
    (hentry : t.entry? (names ++ rest) = some entry)
    (hnone : ∀ between, t.entry? (names ++ between) = some .directory →
      isProjectDirectory t (.ofNames (names ++ between)) = false) :
    nearest? t (.ofNames (names ++ rest)) = nearest? t (.ofNames names) := by
  induction rest using List.reverseRecOn generalizing entry with
  | nil => rw [List.append_nil]
  | append_singleton rest name ih =>
      rw [← List.append_assoc] at hentry ⊢
      have hparent := hwell.entry?_of_prefix hentry (List.cons_ne_nil _ _)
      rw [nearest?_concat (hwell.isName_of_entry? hentry), hnone rest hparent,
        if_neg Bool.false_ne_true]
      exact ih hparent

/-- The manifest of a directory that holds a project. -/
theorem entry?_manifest (hwell : t.WellFormed) (hdirectory : t.entry? names = some .directory)
    (hproject : isProjectDirectory t (.ofNames names)) :
    ∃ content, t.entry? (names ++ [manifestName]) = some (.file content) := by
  have hname : IsName manifestName := by decide
  unfold isProjectDirectory FileTree.isFile at hproject
  rw [FileTree.find_child_of_find (hwell.find_ofNames hdirectory) hname] at hproject
  cases hmanifest : t.entry? (names ++ [manifestName]) with
  | none => simp [hmanifest] at hproject
  | some entry =>
      cases entry with
      | directory => simp [hmanifest] at hproject
      | file content => exact ⟨content, rfl⟩

-- ======================================================= canonical inputs

/-- A canonical path goes by the names of what stands there. -/
theorem exists_entry?_of_canonical? {input : Path} (h : t.canonical? input = some input) :
    ∃ names entry, input = .ofNames names ∧ t.entry? names = some entry := by
  unfold FileTree.canonical? at h
  split at h
  · next names entry hfind =>
      exact ⟨names, entry, (Option.some.inj h).symm, (FileTree.find_eq_ok_iff.mp hfind).2⟩
  · cases h

/-- The files that a canonical path asks for are canonical. -/
theorem exists_entry?_of_mem_asks (hwell : t.WellFormed) {input : Path}
    (h : t.canonical? input = some input) {files : List Path}
    (hasks : (directory, some files) ∈ asks t input) {f : Path} (hf : f ∈ files) :
    ∃ names entry, f = .ofNames names ∧ t.entry? names = some entry := by
  obtain ⟨names, entry, rfl, hentry⟩ := exists_entry?_of_canonical? h
  rcases (mem_asks hasks).2 with ⟨-, -, rfl⟩ | rfl
  · obtain ⟨rest, content, hrest, rfl⟩ := (hwell.mem_filesBelow_ofNames hentry).mp hf
    exact ⟨_, _, rfl, hrest⟩
  · exact ⟨names, entry, List.mem_singleton.mp hf, hentry⟩

/-- Where nothing is swallowed, a path asks for its files where they belong. -/
theorem directory_eq_of_mem_asks (hwell : t.WellFormed) {input : Path}
    (h : t.canonical? input = some input) {files : List Path}
    (hasks : (directory, some files) ∈ asks t input)
    (hnone : t.isDirectory input → isProjectDirectory t input = false →
      ∀ g ∈ t.directoriesBelow input, isProjectDirectory t g = false)
    {f d : Path} (hf : f ∈ files) (hd : nearest? t f = some d) : directory = d := by
  obtain ⟨henclosing, hkind⟩ := mem_asks hasks
  have hnearest : nearest? t input = some d := by
    rcases hkind with ⟨hdirectory, hproject, rfl⟩ | rfl
    · obtain ⟨names, entry, rfl, hentry⟩ := exists_entry?_of_canonical? h
      obtain ⟨rest, content, hrest, rfl⟩ := (hwell.mem_filesBelow_ofNames hentry).mp hf
      rw [← nearest?_append hwell hrest fun between hbetween => ?_]
      · exact hd
      · exact hnone hdirectory hproject _
          ((hwell.mem_directoriesBelow_ofNames hentry).mpr ⟨between, hbetween, rfl⟩)
    · rw [← List.mem_singleton.mp hf]
      exact hd
  rw [enclosing?_of_nearest? hnearest] at henclosing
  exact (Option.some.inj henclosing).symm

/-- A file that a canonical path asks for is among those of its project. -/
theorem mem_files_of_mem_asks (hwell : t.WellFormed)
    (hinputs : ∀ input ∈ inputs, t.canonical? input = some input)
    {p : Project} (hp : p ∈ ofInputs t inputs) {files : List Path} (hfiles : p.subset = some files)
    {input : Path} (hinput : input ∈ inputs) {more : List Path}
    (hasks : (directory, some more) ∈ asks t input) (hsame : directory.same p.directory)
    {f : Path} (hf : f ∈ more) : f ∈ files := by
  have hanswers := answers_ofInputs hp
  have hthere := hanswers.isThere files hfiles directory more
    (List.mem_flatMap.mpr ⟨input, hinput, hasks⟩) hsame f hf
  obtain ⟨known, hknown, hnamed⟩ := List.any_eq_true.mp hthere
  obtain ⟨_, earlier, hmem, -, hearlier⟩ := hanswers.wasAsked files hfiles known hknown
  obtain ⟨other, hother, hmem⟩ := List.mem_flatMap.mp hmem
  -- both are canonical, so they are one path
  obtain ⟨a, _, rfl, ha⟩ := exists_entry?_of_mem_asks hwell (hinputs other hother) hmem hearlier
  obtain ⟨b, _, rfl, hb⟩ := exists_entry?_of_mem_asks hwell (hinputs input hinput) hasks hf
  rwa [← Path.ofNames_injective_of_same (hwell.isName_of_entry? ha) (hwell.isName_of_entry? hb)
    hnamed]

/-- What encloses a directory does not lie in it. -/
theorem not_same_of_enclosing? (hnames : ∀ n ∈ names ++ rest, IsName n) {e : Path}
    (h : enclosing? t (.ofNames names) = some e) : ¬ e.same (.ofNames (names ++ rest)) := by
  obtain ⟨above, between, rfl, hbetween, rfl⟩ :=
    eq_ofNames_of_enclosing? (fun n hn => hnames n (List.mem_append_left _ hn)) h
  have habove : ∀ n ∈ above, IsName n := fun n hn =>
    hnames n (List.mem_append_left _ (List.mem_append_left _ hn))
  intro hsame
  have hlength := congrArg List.length (Path.ofNames_injective_of_same habove hnames hsame)
  have hpositive : 0 < between.length := List.length_pos_iff.mpr hbetween
  simp only [List.length_append] at hlength
  omega

/-- The manifest of a project that is swallowed is checked in another one. -/
theorem Swallows.not_allNearest (hwell : t.WellFormed)
    (hinputs : ∀ input ∈ inputs, t.canonical? input = some input) {input : Path}
    (hinput : input ∈ inputs) (h : Swallows t (ofInputs t inputs) input) :
    ¬ AllNearest t (ofInputs t inputs) := by
  intro hall
  obtain ⟨hdirectory, hproject, ⟨e, henclosing, p, hp, hsame, hsubset⟩, g, hg, hgproject⟩ := h
  obtain ⟨files, hfiles⟩ := Option.ne_none_iff_exists'.mp hsubset
  obtain ⟨names, entry, rfl, hentry⟩ := exists_entry?_of_canonical? (hinputs _ hinput)
  obtain ⟨inner, hinner, rfl⟩ := (hwell.mem_directoriesBelow_ofNames hentry).mp hg
  obtain ⟨content, hmanifest⟩ := entry?_manifest hwell hinner hgproject
  have hnearest : nearest? t (.ofNames (names ++ inner ++ [manifestName]))
      = some (.ofNames (names ++ inner)) := by
    rw [nearest?_concat (hwell.isName_of_entry? hmanifest), if_pos hgproject]
  -- the manifest is asked for in the project that encloses the input
  have hbelow : Path.ofNames (names ++ inner ++ [manifestName])
      ∈ t.filesBelow (.ofNames names) := by
    rw [List.append_assoc] at hmanifest ⊢
    exact (hwell.mem_filesBelow_ofNames hentry).mpr ⟨_, content, hmanifest, rfl⟩
  have hasks : (e, some (t.filesBelow (.ofNames names))) ∈ asks t (.ofNames names) := by
    unfold asks
    rw [if_pos hdirectory, hproject, if_neg Bool.false_ne_true, henclosing]
    exact List.mem_singleton_self _
  have hchecked := mem_files_of_mem_asks hwell hinputs hp hfiles hinput hasks
    (Path.same_comm _ _ ▸ hsame) hbelow
  have hinnermost := hall p hp files hfiles _ hchecked _ hnearest
  rw [Path.same_congr_left hsame] at hinnermost
  exact not_same_of_enclosing? (hwell.isName_of_entry? hinner) henclosing hinnermost

/-- All files that canonical paths ask for are checked in the nearest
project, unless one of the paths swallows a project. -/
theorem allNearest_ofInputs_iff (hwell : t.WellFormed)
    (hinputs : ∀ input ∈ inputs, t.canonical? input = some input) :
    AllNearest t (ofInputs t inputs)
      ↔ ∀ input ∈ inputs, ¬ Swallows t (ofInputs t inputs) input := by
  constructor
  · intro hall input hinput hswallows
    exact hswallows.not_allNearest hwell hinputs hinput hall
  · intro hnone p hp files hfiles f hf d hd
    obtain ⟨directory, more, hmem, hsame, hmore⟩ :=
      (answers_ofInputs hp).wasAsked files hfiles f hf
    obtain ⟨input, hinput, hasks⟩ := List.mem_flatMap.mp hmem
    have hdirectory : directory = d := by
      refine directory_eq_of_mem_asks hwell (hinputs input hinput) hasks ?_ hmore hd
      intro hkind hproject g hg
      rw [Bool.eq_false_iff]
      intro hgproject
      -- a file of a nearer project would be swallowed by this input
      refine hnone input hinput ⟨hkind, hproject, ⟨directory, (mem_asks hasks).1, p, hp, ?_, ?_⟩,
        g, hg, hgproject⟩
      · rw [Path.same_comm]
        exact hsame
      · rw [hfiles]
        exact Option.some_ne_none files
    rw [Path.same_comm, ← hdirectory]
    exact hsame

/-- A project inside another one. -/
def nestedProject : FileTree :=
  { here := ["ROOT"]
    entries :=
      [(["ROOT"], .directory),
        (["ROOT", "app"], .directory),
        (["ROOT", "app", "AndroidManifest.xml"], .file "<manifest/>".toUTF8),
        (["ROOT", "app", "libs"], .directory),
        (["ROOT", "app", "libs", "one"], .directory),
        (["ROOT", "app", "libs", "one", "AndroidManifest.xml"], .file "<manifest/>".toUTF8),
        (["ROOT", "app", "libs", "one", "res"], .directory),
        (["ROOT", "app", "libs", "one", "res", "values"], .directory),
        (["ROOT", "app", "libs", "one", "res", "values", "a.xml"],
          .file "<resources/>".toUTF8)] }

theorem wellFormed_nestedProject : nestedProject.WellFormed :=
  { isName := by decide +kernel
    nodup := by decide +kernel
    parents := by decide +kernel
    here := rfl }

/-- Files of the inner project, and the manifest of the outer one. -/
theorem allNearest_nestedProject :
    AllNearest nestedProject (ofInputs nestedProject
      [⟨"/ROOT/app/libs/one/res"⟩, ⟨"/ROOT/app/AndroidManifest.xml"⟩]) := by
  refine (allNearest_ofInputs_iff wellFormed_nestedProject (by decide +kernel)).mpr ?_
  rintro input hinput ⟨hdirectory, -, -, hbelow⟩
  have hnone : ∀ input ∈ [(⟨"/ROOT/app/libs/one/res"⟩ : Path), ⟨"/ROOT/app/AndroidManifest.xml"⟩],
      nestedProject.isDirectory input → ∀ g ∈ nestedProject.directoriesBelow input,
        ¬ isProjectDirectory nestedProject g := by
    decide +kernel
  obtain ⟨g, hg, hproject⟩ := hbelow
  exact hnone input hinput hdirectory g hg hproject

/-- Not all files are checked in the nearest project: the directory between
two projects is enough to ask for the files of the inner one in the outer. -/
theorem not_allNearest_ofInputs :
    ¬ ∀ (t : FileTree) (inputs : List Path), t.WellFormed →
      (∀ input ∈ inputs, t.canonical? input = some input) → AllNearest t (ofInputs t inputs) := by
  intro hall
  have hnested := hall nestedProject [⟨"/ROOT/app/libs"⟩] wellFormed_nestedProject
    (by decide +kernel)
  have hwrong : ¬ ∀ p ∈ ofInputs nestedProject [⟨"/ROOT/app/libs"⟩],
      ∀ files ∈ p.subset, ∀ f ∈ files, ∀ d ∈ nearest? nestedProject f,
        p.directory.same d := by
    decide +kernel
  refine hwrong fun p hp files hfiles f hf d hd => ?_
  exact hnested p hp files (Option.mem_def.mp hfiles) f hf d (Option.mem_def.mp hd)

end Project

end ResourceLint
