/-
What requested paths ask for, and the projects that come of it.

Requests come in three kinds, but all they do is to ask: for whole projects,
or for files in them (`ofInputs_eq_foldl_ask`).  What is asked for changes
the one project with its directory, or adds it at the end.  So no two
projects have the same directory (`apart_ofInputs`), no file is in one twice
(`distinct_ofInputs`), and looking a project up is undisturbed by what is
asked for elsewhere (`find?_update`): by induction over what was asked for,
the files of a project are those that were asked for in it
(`answers_ofInputs`).
-/
import Mathlib.Data.List.Basic
import Mathlib.Data.List.Induction
import ResourceLint.Proofs.Paths
import ResourceLint.Project

namespace ResourceLint

namespace Project

variable {t : FileTree} {directory : Path} {subset : Option (List Path)}
  {change : Project → Project} {projects : List Project} {inputs : List Path}

-- =================================================== what a request asks

/-- What a requested path asks for, project by project: some files of it, or
all of it. -/
def asks (t : FileTree) (input : Path) : List (Path × Option (List Path)) :=
  if t.isDirectory input then
    if isProjectDirectory t input then [(input, none)]
    else
      match enclosing? t input with
      | some directory => [(directory, some (t.filesBelow input))]
      | none => ((t.directoriesBelow input).filter (isProjectDirectory t)).map (·, none)
  else if t.isFile input then
    match enclosing? t input with
    | some directory => [(directory, some [input])]
    | none => []
  else []

/-- A project that is to be checked as a whole, or in some files too. -/
def grant : Option (List Path) → Project → Project
  | none, p => { p with subset := none }
  | some files, p => files.foldl addFile p

/-- Asks for some files of a project, or for all of it. -/
def ask (projects : List Project) (a : Path × Option (List Path)) : List Project :=
  update a.1 (a.2.map fun _ => []) (grant a.2) projects

/-- An input is requested project by project. -/
theorem request_eq_foldl_ask (t : FileTree) (projects : List Project) (input : Path) :
    request t projects input = (asks t input).foldl ask projects := by
  unfold request asks
  split
  · split
    · rfl
    · cases enclosing? t input with
      | some directory => rfl
      | none =>
          rw [List.foldl_map]
          rfl
  · split
    · cases enclosing? t input <;> rfl
    · rfl

/-- Requests do nothing but to ask. -/
theorem ofInputs_eq_foldl_ask (t : FileTree) (inputs : List Path) :
    ofInputs t inputs = (inputs.flatMap (asks t)).foldl ask [] := by
  have hrequest : request t = fun projects input => (asks t input).foldl ask projects := by
    funext projects input
    exact request_eq_foldl_ask t projects input
  unfold ofInputs
  rw [hrequest, List.foldl_flatMap]

/-- Files are asked for in the project that encloses what was requested. -/
theorem mem_asks {input : Path} {files : List Path}
    (h : (directory, some files) ∈ asks t input) :
    enclosing? t input = some directory
      ∧ ((t.isDirectory input ∧ isProjectDirectory t input = false ∧ files = t.filesBelow input)
        ∨ files = [input]) := by
  -- only two of the branches ask for a list of files
  unfold asks at h
  split at h
  · next hdirectory =>
      split at h
      · cases List.mem_singleton.mp h
      · next hproject =>
          split at h
          · next henclosing =>
              cases List.mem_singleton.mp h
              exact ⟨henclosing, Or.inl ⟨hdirectory, by simpa using hproject, rfl⟩⟩
          · obtain ⟨_, -, heq⟩ := List.mem_map.mp h
            cases heq
  · split at h
    · split at h
      · next henclosing =>
          cases List.mem_singleton.mp h
          exact ⟨henclosing, Or.inr rfl⟩
      · cases h
    · cases h

-- ==================================================== no project twice

/-- Whether no two projects have the same directory. -/
def Apart (projects : List Project) : Prop :=
  projects.Pairwise fun p q => p.directory.same q.directory = false

/-- Asking for more in a project moves no project. -/
theorem mem_update (hchange : ∀ p, (change p).directory = p.directory) {projects : List Project}
    {q : Project} (h : q ∈ update directory subset change projects) :
    q.directory = directory ∨ ∃ p ∈ projects, q.directory = p.directory := by
  induction projects with
  | nil =>
      rw [update, List.mem_singleton] at h
      rw [h, hchange]
      exact Or.inl rfl
  | cons p projects ih =>
      unfold update at h
      split at h
      · rcases List.mem_cons.mp h with rfl | h
        · exact Or.inr ⟨p, List.mem_cons_self, hchange p⟩
        · exact Or.inr ⟨q, List.mem_cons_of_mem _ h, rfl⟩
      · rcases List.mem_cons.mp h with rfl | h
        · exact Or.inr ⟨q, List.mem_cons_self, rfl⟩
        · rcases ih h with h | ⟨p', hp', h⟩
          · exact Or.inl h
          · exact Or.inr ⟨p', List.mem_cons_of_mem _ hp', h⟩

/-- Projects stay apart when a change keeps their directories. -/
theorem apart_update (hchange : ∀ p, (change p).directory = p.directory) {projects : List Project}
    (h : Apart projects) : Apart (update directory subset change projects) := by
  induction projects with
  | nil => exact List.pairwise_singleton _ _
  | cons p projects ih =>
      obtain ⟨hp, hrest⟩ := List.pairwise_cons.mp h
      unfold update
      split
      · refine List.pairwise_cons.mpr ⟨fun q hq => ?_, hrest⟩
        rw [hchange]
        exact hp q hq
      · next hdirectory =>
          refine List.pairwise_cons.mpr ⟨fun q hq => ?_, ih hrest⟩
          rcases mem_update hchange hq with hq | ⟨p', hp', hq⟩
          · rw [hq]
            simpa using hdirectory
          · rw [hq]
            exact hp p' hp'

/-- Adding a file keeps the directory. -/
theorem directory_addFile (p : Project) (file : Path) :
    (p.addFile file).directory = p.directory := by
  unfold addFile
  split
  · split <;> rfl
  · rfl

theorem directory_foldl_addFile (files : List Path) (p : Project) :
    (files.foldl addFile p).directory = p.directory := by
  induction files generalizing p with
  | nil => rfl
  | cons file files ih => rw [List.foldl_cons, ih, directory_addFile]

theorem directory_grant (wanted : Option (List Path)) (p : Project) :
    (grant wanted p).directory = p.directory := by
  cases wanted with
  | none => rfl
  | some files => exact directory_foldl_addFile files p

/-- Whether no file was asked for twice. -/
def Distinct (p : Project) : Prop :=
  ∀ files, p.subset = some files → files.Pairwise fun a b => a.same b = false

/-- No file is added twice. -/
theorem distinct_addFile {p : Project} (h : Distinct p) (file : Path) :
    Distinct (p.addFile file) := by
  unfold addFile
  split
  · next files hfiles =>
      split
      · exact h
      · next hnew =>
          intro all hall
          cases hall
          refine List.pairwise_append.mpr ⟨h files hfiles, List.pairwise_singleton _ _, ?_⟩
          intro a ha b hb
          rw [List.mem_singleton.mp hb]
          simpa using List.any_eq_false.mp (by simpa using hnew) a ha
  · exact h

theorem distinct_foldl_addFile (files : List Path) {p : Project} (h : Distinct p) :
    Distinct (files.foldl addFile p) := by
  induction files generalizing p with
  | nil => exact h
  | cons file files ih => exact ih (distinct_addFile h file)

/-- Where a change keeps files distinct, so does an update. -/
theorem distinct_update (hchange : ∀ p, Distinct p → Distinct (change p))
    (hnew : Distinct (new directory subset)) {projects : List Project}
    (h : ∀ p ∈ projects, Distinct p) :
    ∀ p ∈ update directory subset change projects, Distinct p := by
  induction projects with
  | nil =>
      intro p hp
      rw [List.mem_singleton.mp hp]
      exact hchange _ hnew
  | cons first projects ih =>
      unfold update
      split
      · intro p hp
        rcases List.mem_cons.mp hp with rfl | hp
        · exact hchange _ (h first List.mem_cons_self)
        · exact h p (List.mem_cons_of_mem _ hp)
      · intro p hp
        rcases List.mem_cons.mp hp with rfl | hp
        · exact h p List.mem_cons_self
        · exact ih (fun q hq => h q (List.mem_cons_of_mem _ hq)) p hp

/-- Granting adds no file twice. -/
theorem distinct_grant (wanted : Option (List Path)) {p : Project} (h : Distinct p) :
    Distinct (grant wanted p) := by
  cases wanted with
  | none => exact fun files hfiles => by cases hfiles
  | some files => exact distinct_foldl_addFile files h

theorem distinct_new (wanted : Option (List Path)) :
    Distinct (new directory (wanted.map fun _ => [])) := by
  intro files hfiles
  obtain ⟨_, -, rfl⟩ := Option.map_eq_some_iff.mp hfiles
  exact List.Pairwise.nil

/-- What holds of no projects and is kept by asking holds of the projects of
a run. -/
theorem ofInputs_induction {P : List Project → Prop} (t : FileTree) (inputs : List Path)
    (hnil : P []) (hask : ∀ projects a, P projects → P (ask projects a)) :
    P (ofInputs t inputs) := by
  rw [ofInputs_eq_foldl_ask]
  generalize inputs.flatMap (asks t) = asked
  generalize ([] : List Project) = projects at hnil
  induction asked generalizing projects with
  | nil => exact hnil
  | cons a asked ih => exact ih _ (hask projects a hnil)

/-- No two projects of a run have the same directory. -/
theorem apart_ofInputs (t : FileTree) (inputs : List Path) : Apart (ofInputs t inputs) :=
  ofInputs_induction t inputs List.Pairwise.nil fun _ a h =>
    apart_update (directory_grant a.2) h

/-- No file is asked for twice in a project of a run. -/
theorem distinct_ofInputs (t : FileTree) (inputs : List Path) :
    ∀ p ∈ ofInputs t inputs, Distinct p :=
  ofInputs_induction t inputs (P := fun projects => ∀ p ∈ projects, Distinct p)
    (fun _ hp => by cases hp) fun _ a h =>
      distinct_update (fun _ hp => distinct_grant a.2 hp) (distinct_new a.2) h

-- ================================================= looking a project up

/-- A change to one project leaves what is found under other directories. -/
theorem find?_update (hchange : ∀ p, (change p).directory = p.directory)
    (projects : List Project) (e : Path) :
    (update directory subset change projects).find? (·.directory.same e)
      = if directory.same e then
          some (change ((projects.find? (·.directory.same e)).getD (new directory subset)))
        else projects.find? (·.directory.same e) := by
  have hnew : (new directory subset).directory = directory := rfl
  induction projects with
  | nil =>
      rw [update, List.find?_cons, hchange, hnew]
      cases directory.same e <;> rfl
  | cons p projects ih =>
      unfold update
      by_cases hp : p.directory.same directory
      · rw [if_pos hp, List.find?_cons, List.find?_cons, hchange, Path.same_congr_left hp]
        cases directory.same e <;> rfl
      · rw [if_neg hp, List.find?_cons, List.find?_cons, ih]
        cases hpe : p.directory.same e with
        | false => rfl
        | true =>
            -- one project answers to one directory only
            have hother : directory.same e = false := by
              rw [Bool.eq_false_iff]
              intro he
              apply hp
              rw [Path.same_congr_left hpe, Path.same_comm]
              exact he
            rw [hother]
            rfl

/-- A project found under its own directory is the one that is there. -/
theorem find?_directory (hapart : Apart projects) {p : Project} (hp : p ∈ projects) :
    projects.find? (·.directory.same p.directory) = some p := by
  induction projects with
  | nil => cases hp
  | cons first projects ih =>
      obtain ⟨hfirst, hrest⟩ := List.pairwise_cons.mp hapart
      rcases List.mem_cons.mp hp with rfl | hp
      · rw [List.find?_cons, Path.same_refl]
      · rw [List.find?_cons, hfirst p hp]
        exact ih hrest hp

/-- The files of a project after one more, which may have been there in another
spelling. -/
theorem subset_addFile {p : Project} {file : Path} {files : List Path}
    (h : (p.addFile file).subset = some files) :
    ∃ old, p.subset = some old ∧ (∀ f ∈ files, f ∈ old ∨ f = file)
      ∧ ∀ f, old.any (·.same f) ∨ f = file → files.any (·.same f) := by
  unfold addFile at h
  split at h
  · next old hold =>
      refine ⟨old, hold, ?_⟩
      split at h
      · -- it is there already, maybe in another spelling
        next hthere =>
          obtain rfl : old = files := Option.some.inj (hold.symm.trans h)
          refine ⟨fun f hf => Or.inl hf, ?_⟩
          rintro f (hf | rfl)
          · exact hf
          · exact hthere
      · cases h
        refine ⟨fun f hf => ?_, ?_⟩
        · exact (List.mem_append.mp hf).imp_right List.mem_singleton.mp
        · rintro f (hf | rfl)
          · rw [List.any_append, hf, Bool.true_or]
          · simp
  · next hwhole =>
      rw [hwhole] at h
      cases h

/-- Where files are added, the files of a project are those from before and
those that are added. -/
theorem subset_foldl_addFile {p : Project} {more files : List Path}
    (h : (more.foldl addFile p).subset = some files) :
    ∃ old, p.subset = some old ∧ (∀ f ∈ files, f ∈ old ∨ f ∈ more)
      ∧ ∀ f, old.any (·.same f) ∨ f ∈ more → files.any (·.same f) := by
  induction more generalizing p with
  | nil =>
      refine ⟨files, h, fun f hf => Or.inl hf, fun f hf => ?_⟩
      exact hf.resolve_right List.not_mem_nil
  | cons file more ih =>
      obtain ⟨added, hadded, hof, hkept⟩ := ih h
      obtain ⟨old, hold, hofOne, hkeptOne⟩ := subset_addFile hadded
      refine ⟨old, hold, fun f hf => ?_, fun f hf => ?_⟩
      · rcases hof f hf with hf | hf
        · exact (hofOne f hf).imp_right fun (heq : f = file) => heq ▸ List.mem_cons_self
        · exact Or.inr (List.mem_cons_of_mem _ hf)
      · rw [List.mem_cons, ← or_assoc] at hf
        exact hkept f (hf.imp_left (hkeptOne f))

/-- Where all projects are asked for as a whole, the first to ask names the
project. -/
theorem find?_foldl_ask_whole {asked : List (Path × Option (List Path))}
    (h : ∀ a ∈ asked, a.2 = none) (e : Path) :
    (asked.foldl ask []).find? (·.directory.same e)
      = (asked.find? (·.1.same e)).map fun a => new a.1 none := by
  induction asked using List.reverseRecOn with
  | nil => rfl
  | append_singleton asked a ih =>
      have hbefore : ∀ a ∈ asked, a.2 = none := fun a ha => h a (List.mem_append_left _ ha)
      have hlast : a.2 = none := h a (List.mem_append_right _ (List.mem_singleton_self a))
      rw [List.foldl_concat, ask, hlast, find?_update (directory_grant none), ih hbefore,
        List.find?_append, List.find?_singleton]
      by_cases hsame : a.1.same e
      · rw [if_pos hsame, if_pos hsame]
        cases asked.find? (·.1.same e) <;> rfl
      · rw [if_neg hsame, if_neg hsame, Option.or_none]

-- ============================================= the files of a project

/-- The files of a project, if it is not whole, are those that were asked for
under its directory. -/
structure Answers (asked : List (Path × Option (List Path))) (e : Path) (p : Project) : Prop where
  wasAsked : ∀ files, p.subset = some files → ∀ f ∈ files,
    ∃ directory more, (directory, some more) ∈ asked ∧ directory.same e ∧ f ∈ more
  isThere : ∀ files, p.subset = some files → ∀ directory more, (directory, some more) ∈ asked →
    directory.same e → ∀ f ∈ more, files.any (·.same f)

variable {asked : List (Path × Option (List Path))} {e : Path}

/-- What is asked for elsewhere is nothing to a project. -/
theorem Answers.elsewhere {p : Project} (h : Answers asked e p) {a : Path × Option (List Path)}
    (ha : a.1.same e = false) : Answers (asked ++ [a]) e p := by
  refine ⟨fun files hfiles f hf => ?_, fun files hfiles directory more hmem hsame f hf => ?_⟩
  · obtain ⟨directory, more, hmem, hsame, hmore⟩ := h.wasAsked files hfiles f hf
    exact ⟨directory, more, List.mem_append_left _ hmem, hsame, hmore⟩
  · rcases List.mem_append.mp hmem with hmem | hmem
    · exact h.isThere files hfiles directory more hmem hsame f hf
    · rw [← List.mem_singleton.mp hmem, hsame] at ha
      cases ha

/-- What is asked for in a project is granted. -/
theorem Answers.granted {p : Project} (h : Answers asked e p) (hsame : directory.same e)
    (wanted : Option (List Path)) :
    Answers (asked ++ [(directory, wanted)]) e (grant wanted p) := by
  cases wanted with
  | none =>
      constructor
      · intro files hfiles
        cases hfiles
      · intro files hfiles
        cases hfiles
  | some more =>
      constructor
      · intro files hfiles f hf
        obtain ⟨old, hold, hof, -⟩ := subset_foldl_addFile hfiles
        rcases hof f hf with hf | hf
        · obtain ⟨known, earlier, hmem, hknown, hf⟩ := h.wasAsked old hold f hf
          exact ⟨known, earlier, List.mem_append_left _ hmem, hknown, hf⟩
        · exact ⟨directory, more, List.mem_append_right _ List.mem_cons_self, hsame, hf⟩
      · intro files hfiles known earlier hmem hknown f hf
        obtain ⟨old, hold, -, hkept⟩ := subset_foldl_addFile hfiles
        -- asked for before, or just now
        rcases List.mem_append.mp hmem with hmem | hmem
        · exact hkept f (Or.inl (h.isThere old hold known earlier hmem hknown f hf))
        · cases List.mem_singleton.mp hmem
          exact hkept f (Or.inr hf)

/-- A project is there as soon as anything is asked for in it. -/
theorem answers_new (h : ∀ a ∈ asked, a.1.same e = false) (wanted : Option (List Path)) :
    Answers asked e (new directory (wanted.map fun _ => [])) := by
  have hnone : ∀ known (earlier : List Path), (known, some earlier) ∈ asked →
      ¬ known.same e := by
    intro known earlier hmem
    rw [h (known, some earlier) hmem]
    exact Bool.false_ne_true
  constructor
  · intro files hfiles f hf
    obtain ⟨_, -, rfl⟩ := Option.map_eq_some_iff.mp hfiles
    cases hf
  · intro files _ known earlier hmem hknown
    exact absurd hknown (hnone known earlier hmem)

/-- What is found under a directory answers to what was asked for, and where
nothing is found, nothing was asked for. -/
theorem answers_foldl_ask (asked : List (Path × Option (List Path))) (e : Path) :
    match (asked.foldl ask []).find? (·.directory.same e) with
    | some p => Answers asked e p
    | none => ∀ a ∈ asked, a.1.same e = false := by
  -- the last request is the one that decides, so the induction is from behind
  induction asked using List.reverseRecOn with
  | nil => exact fun _ h => by cases h
  | append_singleton asked a ih =>
      obtain ⟨directory, wanted⟩ := a
      rw [List.foldl_concat, ask, find?_update (directory_grant wanted)]
      by_cases hsame : directory.same e
      · rw [if_pos hsame]
        cases hfind : (asked.foldl ask []).find? (·.directory.same e) with
        | none =>
            rw [hfind] at ih
            exact (answers_new ih wanted).granted hsame wanted
        | some p =>
            rw [hfind] at ih
            exact Answers.granted ih hsame wanted
      · rw [if_neg hsame]
        have hother : directory.same e = false := by simpa using hsame
        cases hfind : (asked.foldl ask []).find? (·.directory.same e) with
        | none =>
            rw [hfind] at ih
            intro a ha
            rcases List.mem_append.mp ha with ha | ha
            · exact ih a ha
            · rw [List.mem_singleton.mp ha]
              exact hother
        | some p =>
            rw [hfind] at ih
            exact Answers.elsewhere ih hother

/-- The files of a project are those that the requests ask for in it. -/
theorem answers_ofInputs {p : Project} (hp : p ∈ ofInputs t inputs) :
    Answers (inputs.flatMap (asks t)) p.directory p := by
  have hall := answers_foldl_ask (inputs.flatMap (asks t)) p.directory
  rw [← ofInputs_eq_foldl_ask, find?_directory (apart_ofInputs t inputs) hp] at hall
  exact hall

end Project

end ResourceLint
