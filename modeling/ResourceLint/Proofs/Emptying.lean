/-
Report files that are made anew, and what becomes of the tree.

Opening a report file deletes what stands under its name and puts an empty
file there.  Whether that can be done is a matter of the directories alone:
the path has to lead into a directory, and not to one (`filePlace?`).  No
file that is opened changes the directories, so whether a report can be
opened is known from the tree at the start, whatever was opened before it.

# What opening leaves

`Emptied places t u` frames a writing: under the places stand empty files
afterwards, and everything else is as it was.  Frames compose.  One opening
is a frame of one place (`perform_openOutput_of_filePlace?`), and one that
fails changes nothing (`perform_openOutput_of_no_filePlace?`).  The openings
of several reports end at the first that fails, and the frame of those before
it remains (`perform_forM_openOutput`): nothing is undone.
-/
import ResourceLint.Proofs.Keys
import ResourceLint.Proofs.Trees
import ResourceLint.Report.Writing

namespace ResourceLint

namespace FileTree

variable {t u v : FileTree} {names : List String} {p : Path}

instance : Std.LawfulEqCmp order :=
  inferInstanceAs (Std.LawfulEqCmp (List.compareLex (compare : String → String → Ordering)))

-- ================================================================ entries

/-- After an entry is put its names lead to it, and all others to where they
led. -/
theorem entry?_put (hne : names ≠ []) (entry : Entry) (other : List String) :
    entry? (t.put names entry) other = if other = names then some entry else t.entry? other := by
  unfold entry? put
  cases other with
  | nil => rw [if_neg (Ne.symm hne)]; rfl
  | cons => exact Assoc.lookup?_insert names _ entry t.entries

/-- What a removal leaves. -/
def without (t : FileTree) (names : List String) : FileTree :=
  { t with entries := t.entries.filter (·.1 != names) }

/-- After an entry is taken away its names lead nowhere. -/
theorem entry?_without (hne : names ≠ []) (other : List String) :
    entry? (t.without names) other = if other = names then none else t.entry? other := by
  unfold entry? without
  cases other with
  | nil => rw [if_neg (Ne.symm hne)]; rfl
  | cons => exact Assoc.lookup?_filter_ne names _ t.entries

/-- The root is a directory. -/
theorem ne_nil_of_entry?_ne (h : t.entry? names ≠ some .directory) : names ≠ [] := by
  rintro rfl
  exact h rfl

-- ============================================================ directories

/-- Whether both trees have the same directories and are used from the same
one. -/
structure SameDirectories (t u : FileTree) : Prop where
  here : u.here = t.here
  directory : ∀ names, u.entry? names = some .directory ↔ t.entry? names = some .directory

/-- A difference in what is no directory leaves the directories. -/
theorem sameDirectories_of_entry (hhere : u.here = t.here)
    (hentry : ∀ other, other ≠ names → u.entry? other = t.entry? other)
    (ht : t.entry? names ≠ some .directory) (hu : u.entry? names ≠ some .directory) :
    SameDirectories t u where
  here := hhere
  directory := by
    intro other
    by_cases hother : other = names
    · rw [hother]
      exact iff_of_false hu ht
    · rw [hentry other hother]

/-- A step of a lookup succeeds in a directory. -/
theorem step_eq_ok_iff {piece : List Char} {after : List String} :
    t.step names piece = .ok after ↔
      t.entry? names = some .directory
        ∧ after = (Path.stepOf? piece).toList.foldl Path.stepFrom names := by
  constructor
  · intro h
    refine ⟨?_, eq_of_step h⟩
    unfold step at h
    split at h
    · cases h
    · cases h
    · next hentry => exact hentry
  · rintro ⟨hentry, rfl⟩
    unfold step
    rw [hentry]
    cases hs : Path.stepOf? piece with
    | none => rfl
    | some s => rcases Path.eq_of_stepOf? hs with rfl | ⟨text, rfl⟩ <;> rfl

/-- Where a path leads is a matter of the directories. -/
theorem SameDirectories.locate (h : SameDirectories t u) :
    u.locate p = .ok names ↔ t.locate p = .ok names := by
  have hfold : ∀ (pieces : List (List Char)) (start : List String),
      pieces.foldlM u.step start = .ok names ↔ pieces.foldlM t.step start = .ok names := by
    intro pieces
    induction pieces with
    | nil => exact fun _ => Iff.rfl
    | cons piece pieces ih =>
        intro start
        simp only [List.foldlM_cons, bind_eq_ok_iff, step_eq_ok_iff, h.directory, ih]
  unfold FileTree.locate
  split
  · simp
  · simp only [h.here]
    exact hfold _ _

/-- Whether a file can be put under some names: no directory stands there,
and one stands above. -/
def Takes (t : FileTree) (names : List String) : Prop :=
  t.entry? names ≠ some .directory ∧ t.entry? names.dropLast = some .directory

instance (t : FileTree) (names : List String) : Decidable (t.Takes names) :=
  inferInstanceAs (Decidable (_ ∧ _))

/-- The names under which a file can be written, of a path to one. -/
def filePlace? (t : FileTree) (p : Path) : Option (List String) :=
  match t.locate p with
  | .ok names => if t.Takes names then some names else none
  | .error _ => none

/-- A path leads to a place for a file when the place takes one. -/
theorem filePlace?_eq_some_iff :
    t.filePlace? p = some names ↔ t.locate p = .ok names ∧ t.Takes names := by
  unfold filePlace?
  cases t.locate p with
  | error fault => simp
  | ok found =>
      simp only [Option.ite_none_right_eq_some, Option.some.injEq, Except.ok.injEq]
      constructor
      · rintro ⟨htakes, rfl⟩
        exact ⟨rfl, htakes⟩
      · rintro ⟨rfl, htakes⟩
        exact ⟨htakes, rfl⟩

namespace SameDirectories

/-- Trees with the same directories take files at the same places. -/
theorem takes (h : SameDirectories t u) : u.Takes names ↔ t.Takes names := by
  unfold Takes
  rw [ne_eq, h.directory, h.directory]

/-- So are the places for files. -/
theorem filePlace? (h : SameDirectories t u) (p : Path) : u.filePlace? p = t.filePlace? p := by
  refine Option.ext fun names => ?_
  rw [filePlace?_eq_some_iff, filePlace?_eq_some_iff, h.locate, h.takes]

end SameDirectories

/-- Whether every file lies in a directory. -/
def Nested (t : FileTree) : Prop :=
  ∀ names content, t.entry? names = some (.file content) →
    t.entry? names.dropLast = some .directory

theorem WellFormed.nested (h : t.WellFormed) : t.Nested := by
  intro names content hentry
  have hne : names ≠ [] := ne_nil_of_entry?_ne (t := t) (by simp [hentry])
  exact h.parents _ (mem_entries_of_found hentry hne)

-- ================================================================= frames

/-- Whether both trees are one and the same to who looks things up. -/
structure Alike (t u : FileTree) : Prop where
  here : u.here = t.here
  entry : ∀ names, u.entry? names = t.entry? names

/-- Whether empty files have been put under some places, where files may
stand, and all else is as it was. -/
structure Emptied (places : List (List String)) (t u : FileTree) : Prop where
  takes : ∀ names ∈ places, t.Takes names
  here : u.here = t.here
  entry : ∀ names,
    u.entry? names = if names ∈ places then some (.file .empty) else t.entry? names

namespace Emptied

variable {places more : List (List String)}

theorem nil (t : FileTree) : Emptied [] t t where
  takes := by simp
  here := rfl
  entry := by simp

/-- Emptying files changes no directory. -/
theorem sameDirectories (h : Emptied places t u) : SameDirectories t u where
  here := h.here
  directory := by
    intro names
    rw [h.entry]
    split
    · next hmem => simp [(h.takes names hmem).1]
    · exact Iff.rfl

/-- One frame after another. -/
theorem append (h : Emptied places t u) (hmore : Emptied more u v) :
    Emptied (places ++ more) t v where
  takes := by
    intro names hmem
    rcases List.mem_append.mp hmem with hmem | hmem
    · exact h.takes names hmem
    · exact h.sameDirectories.takes.mp (hmore.takes names hmem)
  here := hmore.here.trans h.here
  entry := by
    intro names
    rw [hmore.entry, h.entry]
    by_cases hlater : names ∈ more
    · simp [hlater]
    · simp [hlater]

/-- An empty file lies in a directory as well. -/
theorem nested (h : Emptied places t u) (ht : t.Nested) : u.Nested := by
  intro names content hentry
  rw [h.sameDirectories.directory]
  rw [h.entry] at hentry
  split at hentry
  · next hmem => exact (h.takes names hmem).2
  · exact ht names content hentry

/-- Nothing is changed where empty files stood before. -/
theorem alike_iff (h : Emptied places t u) :
    Alike t u ↔ ∀ names ∈ places, t.entry? names = some (.file .empty) := by
  constructor
  · intro halike names hmem
    rw [← halike.entry, h.entry, if_pos hmem]
  · intro hempty
    refine ⟨h.here, fun names => ?_⟩
    rw [h.entry]
    split
    · next hmem => exact (hempty names hmem).symm
    · rfl

end Emptied

/-- A file that is removed and made anew, or only made. -/
theorem emptied_put (htakes : t.Takes names) (hhere : u.here = t.here)
    (hentry : ∀ other, other ≠ names → u.entry? other = t.entry? other) :
    Emptied [names] t (u.put names (.file .empty)) where
  takes := by simpa using htakes
  here := hhere
  entry := by
    intro other
    rw [entry?_put (ne_nil_of_entry?_ne htakes.1)]
    by_cases hother : other = names
    · simp [hother]
    · simp [hother, hentry other hother]

/-- Where a file can be put, it is written there. -/
theorem write_of_filePlace? (h : t.filePlace? p = some names) (content : ByteArray) :
    t.write p content = .ok (t.put names (.file content)) := by
  obtain ⟨hlocate, hdirectory, habove⟩ := filePlace?_eq_some_iff.mp h
  unfold write
  rw [hlocate]
  simp only [bind, Except.bind]
  cases hentry : t.entry? names with
  | none => simp only [habove]
  | some entry =>
      cases entry with
      | directory => exact absurd hentry hdirectory
      | file old => rfl

/-- Where no file can be put, none is written. -/
theorem write_of_filePlace?_eq_none (ht : t.Nested) (h : t.filePlace? p = none)
    (content : ByteArray) : ∃ fault, t.write p content = .error fault := by
  unfold write
  cases hlocate : t.locate p with
  | error fault => exact ⟨fault, rfl⟩
  | ok names =>
      have hplace : ¬ t.Takes names := by
        intro htakes
        have hsome := filePlace?_eq_some_iff.mpr ⟨hlocate, htakes⟩
        rw [h] at hsome
        cases hsome
      simp only [bind, Except.bind]
      -- what stands there, or what is missing above it, tells the fault
      cases hentry : t.entry? names with
      | none =>
          cases habove : t.entry? names.dropLast with
          | none => exact ⟨.notFound, rfl⟩
          | some above =>
              cases above with
              | file content => exact ⟨.notADirectory, rfl⟩
              | directory => exact absurd ⟨by simp [hentry], habove⟩ hplace
      | some entry =>
          cases entry with
          | directory => exact ⟨.isADirectory, rfl⟩
          | file old => exact absurd ⟨by simp [hentry], ht names old hentry⟩ hplace

end FileTree

-- ================================================================ opening

namespace Report

open FileTree (Emptied)

variable {t u : FileTree} {names : List String} {path : Path}

theorem perform_pure (t : FileTree) : perform t (pure ()) = (none, t) := rfl

/-- A writing after another goes on where that one ended, unless it failed. -/
theorem perform_bind (t : FileTree) (first second : ExceptT WriteFault (StateM FileTree) Unit) :
    perform t (do first; second)
      = match perform t first with
        | (some fault, u) => (some fault, u)
        | (none, u) => perform u second := by
  have hrun : (do first; second : ExceptT WriteFault (StateM FileTree) Unit).run.run t
      = match first.run.run t with
        | (.ok (), u) => second.run.run u
        | (.error fault, u) => (.error fault, u) := by
    rw [ExceptT.run_bind, StateT.run_bind]
    cases first.run.run t with
    | mk outcome u => cases outcome <;> rfl
  unfold perform
  rw [hrun]
  cases first.run.run t with
  | mk outcome u => cases outcome <;> rfl

theorem perform_change (t : FileTree) (step : FileTree → Except WriteFault FileTree) :
    perform t (change step)
      = match step t with
        | .ok u => (none, u)
        | .error fault => (some fault, t) := by
  have hrun : (change step).run.run t
      = match step t with
        | .ok u => (.ok (), u)
        | .error fault => (.error fault, t) := by
    change ((match step t with
      | .ok u => set u
      | .error fault => throw fault : ExceptT WriteFault (StateM FileTree) Unit)).run.run t = _
    cases step t <;> rfl
  unfold perform
  rw [hrun]
  cases step t <;> rfl

/-- Two writings do not fail if neither of them does. -/
theorem perform_bind_eq_none_iff {first second : ExceptT WriteFault (StateM FileTree) Unit} :
    perform t (do first; second) = (none, u)
      ↔ ∃ between, perform t first = (none, between) ∧ perform between second = (none, u) := by
  rw [perform_bind]
  obtain ⟨fault, between⟩ := perform t first
  cases fault <;> simp

/-- A change that was carried out left no fault. -/
theorem perform_change_eq_none_iff {step : FileTree → Except WriteFault FileTree} :
    perform t (change step) = (none, u) ↔ step t = .ok u := by
  rw [perform_change]
  cases step t <;> simp

/-- What stands where a file can be put is deleted. -/
theorem prepareOutput_of_filePlace? (h : t.filePlace? path = some names) :
    ∃ u, prepareOutput t path = .ok u ∧ u.here = t.here
      ∧ (∀ other, other ≠ names → u.entry? other = t.entry? other)
      ∧ u.entry? names = none := by
  obtain ⟨hlocate, htakes⟩ := FileTree.filePlace?_eq_some_iff.mp h
  have hne := FileTree.ne_nil_of_entry?_ne htakes.1
  -- nothing is deleted where nothing stands
  cases hentry : t.entry? names with
  | none =>
      have hfile : t.isFile path = false := by
        unfold FileTree.isFile FileTree.find
        simp [hlocate, hentry, bind, Except.bind]
      refine ⟨t, ?_, rfl, fun _ _ => rfl, hentry⟩
      unfold prepareOutput
      rw [hfile, if_neg Bool.false_ne_true]
  | some entry =>
      cases entry with
      | directory => exact absurd hentry htakes.1
      | file content =>
          have hfind := FileTree.find_eq_ok_iff.mpr ⟨hlocate, hentry⟩
          have hfile : t.isFile path = true := by
            unfold FileTree.isFile
            rw [hfind]
          refine ⟨t.without names, ?_, rfl, fun other hother => ?_, ?_⟩
          · unfold prepareOutput FileTree.remove
            rw [hfile, if_pos rfl, hfind]
            rfl
          · rw [FileTree.entry?_without hne, if_neg hother]
          · rw [FileTree.entry?_without hne, if_pos rfl]

/-- A report file that has a place is made anew there. -/
theorem perform_openOutput_of_filePlace? (h : t.filePlace? path = some names) :
    ∃ u, perform t (openOutput path) = (none, u) ∧ Emptied [names] t u := by
  obtain ⟨prepared, hprepare, hhere, hentry, hnone⟩ := prepareOutput_of_filePlace? h
  have htakes := (FileTree.filePlace?_eq_some_iff.mp h).2
  have hsame := FileTree.sameDirectories_of_entry hhere hentry htakes.1 (by simp [hnone])
  have hcreate : createOutput prepared path = .ok (prepared.put names (.file .empty)) := by
    unfold createOutput
    rw [FileTree.write_of_filePlace? ((hsame.filePlace? path).trans h)]
    rfl
  refine ⟨prepared.put names (.file .empty), ?_, FileTree.emptied_put htakes hhere hentry⟩
  unfold openOutput
  rw [perform_bind, perform_change, hprepare]
  simp only [perform_change, hcreate]

/-- One that has no place is not made, and nothing is deleted. -/
theorem perform_openOutput_of_no_filePlace? (ht : t.Nested) (h : t.filePlace? path = none) :
    ∃ fault, perform t (openOutput path) = (some fault, t) := by
  -- what is a file has a place
  have hfile : t.isFile path = false := by
    rw [Bool.eq_false_iff]
    intro hfile
    unfold FileTree.isFile at hfile
    split at hfile
    · next names content hfind =>
        obtain ⟨hlocate, hentry⟩ := FileTree.find_eq_ok_iff.mp hfind
        have hplace := FileTree.filePlace?_eq_some_iff.mpr
          ⟨hlocate, by simp [hentry], ht names content hentry⟩
        rw [h] at hplace
        cases hplace
    · cases hfile
  obtain ⟨fault, hwrite⟩ := FileTree.write_of_filePlace?_eq_none ht h .empty
  have hprepare : prepareOutput t path = .ok t := by
    unfold prepareOutput
    rw [hfile, if_neg Bool.false_ne_true]
  have hcreate : createOutput t path = .error (.file fault) := by
    unfold createOutput
    rw [hwrite]
    rfl
  refine ⟨.file fault, ?_⟩
  unfold openOutput
  rw [perform_bind, perform_change, hprepare]
  simp only [perform_change, hcreate]

-- ================================================ one report after another

/-- The places of the report files that are made, up to the first that has
none. -/
def placesMade (t : FileTree) : List Path → List (List String)
  | [] => []
  | path :: more =>
    match t.filePlace? path with
    | some names => names :: placesMade t more
    | none => []

/-- They are known from the directories. -/
theorem placesMade_congr (h : FileTree.SameDirectories t u) (paths : List Path) :
    placesMade u paths = placesMade t paths := by
  induction paths with
  | nil => rfl
  | cons path paths ih =>
      unfold placesMade
      rw [h.filePlace?, ih]

/-- All files are made if all have places; otherwise those before the first
that has none are made and stay. -/
theorem perform_forM_openOutput (ht : t.Nested) (paths : List Path) :
    Emptied (placesMade t paths) t (perform t (paths.forM openOutput)).2
      ∧ ((perform t (paths.forM openOutput)).1 = none
        ↔ ∀ path ∈ paths, (t.filePlace? path).isSome) := by
  induction paths generalizing t with
  | nil => exact ⟨.nil t, by simp [perform_pure]⟩
  | cons path paths ih =>
      have hcons : perform t ((path :: paths).forM openOutput)
          = perform t (do openOutput path; paths.forM openOutput) := rfl
      rw [hcons, perform_bind]
      unfold placesMade
      cases hplace : t.filePlace? path with
      | none =>
          obtain ⟨fault, hopen⟩ := perform_openOutput_of_no_filePlace? ht hplace
          rw [hopen]
          exact ⟨.nil t, by simp [hplace]⟩
      | some names =>
          obtain ⟨u, hopen, hu⟩ := perform_openOutput_of_filePlace? hplace
          rw [hopen]
          obtain ⟨hrest, hnone⟩ := ih (hu.nested ht)
          rw [placesMade_congr hu.sameDirectories] at hrest
          refine ⟨hu.append hrest, hnone.trans ?_⟩
          simp [hplace, hu.sameDirectories.filePlace?]

end Report
end ResourceLint
