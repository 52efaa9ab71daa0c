/-
What writing changes.

A step of a writing leaves all directories where they are, and all files but
those at the places it writes to (`ChangedAt`).  Such frames compose, so that
it is enough to know the places of each step.  Where a path leads does not
change, since it is a matter of the directories (`ChangedAt.locate`), and what
is read through it does not change either, unless it leads to such a place
(`ChangedAt.readBytes`).
-/
import ResourceLint.Proofs.Emptying

namespace ResourceLint

namespace Path

/-- A child is found under one more name. -/
theorem namesFrom_child {p : Path} {name : String} (h : IsName name) (here : List String) :
    (p.child name).namesFrom here = p.namesFrom here ++ [name] := by
  unfold namesFrom
  rw [components_child p h, List.foldl_concat]
  rfl

/-- Spellings of one path lead to the same names. -/
theorem namesFrom_congr {p q : Path} (h : p.same q) (here : List String) :
    p.namesFrom here = q.namesFrom here := by
  have hcomponents : p.components = q.components := by simpa [same] using h
  unfold namesFrom
  rw [hcomponents]

end Path

namespace FileTree

variable {t u v : FileTree} {places more : List String → Prop} {names : List String} {p : Path}
  {content : ByteArray}

/-- Whether the directories of one tree are still there in the other, and only
files at some places differ. -/
structure ChangedAt (places : List String → Prop) (t u : FileTree) : Prop where
  here : u.here = t.here
  directory : ∀ names, t.entry? names = some .directory → u.entry? names = some .directory
  file : ∀ names content, ¬ places names →
    (u.entry? names = some (.file content) ↔ t.entry? names = some (.file content))

namespace ChangedAt

theorem refl (places : List String → Prop) (t : FileTree) : ChangedAt places t t :=
  ⟨rfl, fun _ => id, fun _ _ _ => Iff.rfl⟩

/-- What is changed twice is changed at these places. -/
theorem trans (h : ChangedAt places t u) (hmore : ChangedAt places u v) : ChangedAt places t v where
  here := hmore.here.trans h.here
  directory names hentry := hmore.directory names (h.directory names hentry)
  file names content hplace := (hmore.file names content hplace).trans (h.file names content hplace)

/-- More places may be allowed to change. -/
theorem mono (h : ChangedAt places t u) (hsub : ∀ names, places names → more names) :
    ChangedAt more t u where
  here := h.here
  directory := h.directory
  file names content hplace := h.file names content fun hmem => hplace (hsub names hmem)

/-- What a path led to, it leads to still. -/
theorem locate (h : ChangedAt places t u) (hlocate : t.locate p = .ok names) :
    u.locate p = .ok names := by
  have hfold : ∀ (pieces : List (List Char)) (start : List String),
      pieces.foldlM t.step start = .ok names → pieces.foldlM u.step start = .ok names := by
    intro pieces
    induction pieces with
    | nil => exact fun _ => id
    | cons piece pieces ih =>
        intro start hstart
        rw [List.foldlM_cons, bind_eq_ok_iff] at hstart ⊢
        obtain ⟨next, hstep, hrest⟩ := hstart
        obtain ⟨hentry, hnext⟩ := step_eq_ok_iff.mp hstep
        exact ⟨next, step_eq_ok_iff.mpr ⟨h.directory _ hentry, hnext⟩, ih next hrest⟩
  unfold FileTree.locate at hlocate ⊢
  split at hlocate
  · cases hlocate
  · next hsome =>
      rw [if_neg hsome, h.here]
      exact hfold _ _ hlocate

/-- A change moves no path. -/
theorem namesFrom (h : ChangedAt places t u) (p : Path) : p.namesFrom u.here = p.namesFrom t.here := by
  rw [h.here]

end ChangedAt

/-- What is read through a path, and where it is. -/
theorem readBytes_eq_ok_iff : t.readBytes p = .ok content
    ↔ t.locate p = .ok (p.namesFrom t.here)
      ∧ t.entry? (p.namesFrom t.here) = some (.file content) := by
  rw [readBytes_eq_ok_iff_exists]
  constructor
  · rintro ⟨names, hfind⟩
    obtain ⟨hlocate, hentry⟩ := find_eq_ok_iff.mp hfind
    obtain rfl := locate_eq_namesFrom hlocate
    exact ⟨hlocate, hentry⟩
  · exact fun h => ⟨_, find_eq_ok_iff.mpr h⟩

/-- The bytes of a file do not depend on how its path is written. -/
theorem readBytes_congr_same {q : Path} {other : ByteArray} (h : p.same q)
    (hp : t.readBytes p = .ok content) (hq : t.readBytes q = .ok other) : other = content := by
  obtain ⟨-, hentry⟩ := readBytes_eq_ok_iff.mp hp
  obtain ⟨-, hother⟩ := readBytes_eq_ok_iff.mp hq
  rw [← Path.namesFrom_congr h, hentry] at hother
  exact (Entry.file.inj (Option.some.inj hother)).symm

/-- What was read through a path that leads elsewhere is read still. -/
theorem ChangedAt.readBytes (h : ChangedAt places t u) (hread : t.readBytes p = .ok content)
    (hplace : ¬ places (p.namesFrom t.here)) : u.readBytes p = .ok content := by
  obtain ⟨hlocate, hentry⟩ := readBytes_eq_ok_iff.mp hread
  rw [readBytes_eq_ok_iff, h.namesFrom]
  exact ⟨h.locate hlocate, (h.file _ _ hplace).mpr hentry⟩

theorem fromUTF8?_toUTF8 (text : String) : String.fromUTF8? text.toUTF8 = some text :=
  dif_pos text.isValidUTF8

/-- A text is read from its bytes. -/
theorem readText_of_readBytes {text : String} (h : t.readBytes p = .ok text.toUTF8) :
    t.readText p = .ok text := by
  unfold readText
  rw [h]
  simp only [bind, Except.bind]
  rw [fromUTF8?_toUTF8]

-- ==================================================================== one step

/-- Writing a file changes its place alone. -/
theorem changedAt_put_file (hne : names ≠ []) (hentry : t.entry? names ≠ some .directory)
    (content : ByteArray) : ChangedAt (· = names) t (t.put names (.file content)) where
  here := rfl
  directory other hother := by
    rw [entry?_put hne, if_neg]
    · exact hother
    · rintro rfl
      exact hentry hother
  file other old hplace := by rw [entry?_put hne, if_neg hplace]

/-- A directory that is made is no change at any file. -/
theorem changedAt_put_directory (hentry : t.entry? names = none) :
    ChangedAt (fun _ => False) t (t.put names .directory) := by
  have hne : names ≠ [] := ne_nil_of_entry?_ne (t := t) (by simp [hentry])
  refine ⟨rfl, fun other hother => ?_, fun other content _ => ?_⟩
  · rw [entry?_put hne]
    split
    · rfl
    · exact hother
  · rw [entry?_put hne]
    split
    · next heq => simp [heq, hentry]
    · exact Iff.rfl

theorem changedAt_stepMaking {start after : List String} {piece : List Char}
    (h : stepMaking (t, start) piece = .ok (u, after)) : ChangedAt (fun _ => False) t u := by
  obtain ⟨found, -, h⟩ := bind_eq_ok_iff.mp h
  split at h
  · cases h
    exact .refl _ _
  · cases h
  · next hnone =>
      cases h
      exact changedAt_put_directory hnone

/-- Making directories changes no file. -/
theorem changedAt_foldlM_stepMaking {pieces : List (List Char)} {start after : List String}
    (h : pieces.foldlM stepMaking (t, start) = .ok (u, after)) :
    ChangedAt (fun _ => False) t u := by
  induction pieces generalizing t start with
  | nil =>
      cases h
      exact .refl _ _
  | cons piece pieces ih =>
      rw [List.foldlM_cons] at h
      obtain ⟨next, hstep, hrest⟩ := bind_eq_ok_iff.mp h
      exact (changedAt_stepMaking hstep).trans (ih hrest)

/-- Making directories changes no file. -/
theorem changedAt_makeDirectory (h : t.makeDirectory p = .ok u) :
    ChangedAt (fun _ => False) t u := by
  obtain ⟨⟨made, names⟩, hmake, hdone⟩ := bind_eq_ok_iff.mp h
  cases hdone
  exact changedAt_foldlM_stepMaking hmake

/-- A file is put where its path leads, where no directory stands. -/
theorem eq_of_write (h : t.write p content = .ok u) :
    t.locate p = .ok (p.namesFrom t.here) ∧ t.entry? (p.namesFrom t.here) ≠ some .directory
      ∧ u = t.put (p.namesFrom t.here) (.file content) := by
  obtain ⟨names, hlocate, h⟩ := bind_eq_ok_iff.mp h
  obtain rfl := locate_eq_namesFrom hlocate
  refine ⟨hlocate, ?_⟩
  split at h
  · cases h
  · next hentry =>
      cases h
      exact ⟨by simp [hentry], rfl⟩
  · next hentry =>
      split at h
      · cases h
        exact ⟨by simp [hentry], rfl⟩
      · cases h
      · cases h

/-- What is written to a file, and what it leaves. -/
theorem changedAt_write (h : t.write p content = .ok u) :
    ChangedAt (· = p.namesFrom t.here) t u ∧ u.readBytes p = .ok content := by
  obtain ⟨hlocate, hentry, rfl⟩ := eq_of_write h
  have hne := ne_nil_of_entry?_ne hentry
  have hchanged := changedAt_put_file hne hentry content
  refine ⟨hchanged, readBytes_eq_ok_iff.mpr ?_⟩
  rw [hchanged.namesFrom]
  exact ⟨hchanged.locate hlocate, by rw [entry?_put hne, if_pos rfl]⟩

/-- Removing a file changes its place alone. -/
theorem changedAt_remove (h : t.remove p = .ok u) : ChangedAt (· = p.namesFrom t.here) t u := by
  obtain ⟨⟨names, entry⟩, hfind, h⟩ := bind_eq_ok_iff.mp h
  obtain ⟨hlocate, hentry⟩ := find_eq_ok_iff.mp hfind
  obtain rfl := locate_eq_namesFrom hlocate
  cases entry with
  | directory => cases h
  | file old =>
      cases h
      have hne : p.namesFrom t.here ≠ [] := ne_nil_of_entry?_ne (t := t) (by simp [hentry])
      change ChangedAt _ t (t.without (p.namesFrom t.here))
      refine ⟨rfl, fun other hother => ?_, fun other content hplace => ?_⟩
      · rw [entry?_without hne, if_neg]
        · exact hother
        · rintro rfl
          rw [hentry] at hother
          cases hother
      · rw [entry?_without hne, if_neg hplace]

/-- A copy holds what was copied, unless it was put in place of that. -/
theorem changedAt_copy {source target : Path} (h : t.copy source target = .ok u) :
    ChangedAt (· = target.namesFrom t.here) t u
      ∧ ∃ content, t.readBytes source = .ok content
        ∧ (source.namesFrom t.here ≠ target.namesFrom t.here → u.readBytes target = .ok content) := by
  obtain ⟨content, hread, h⟩ := bind_eq_ok_iff.mp h
  split at h
  · next hsame =>
      refine ⟨(changedAt_write h).1, content, hread, fun hne => absurd ?_ hne⟩
      rw [(readBytes_eq_ok_iff.mp hread).1] at hsame
      cases htarget : t.locate target with
      | error fault =>
          rw [htarget] at hsame
          cases hsame
      | ok names =>
          rw [htarget] at hsame
          exact (Option.some.inj hsame).trans (locate_eq_namesFrom htarget)
  · exact ⟨(changedAt_write h).1, content, hread, fun _ => (changedAt_write h).2⟩

end FileTree

namespace Report

open FileTree (ChangedAt)

variable {t u : FileTree} {path : Path}

/-- Preparing a target changes its place alone. -/
theorem changedAt_prepareOutput (h : prepareOutput t path = .ok u) :
    ChangedAt (· = path.namesFrom t.here) t u := by
  unfold prepareOutput at h
  split at h
  · exact FileTree.changedAt_remove (mapError_eq_ok_iff.mp h)
  · cases h
    exact .refl _ _

/-- Making a report file anew changes what is there, and nothing else. -/
theorem changedAt_openOutput (h : perform t (openOutput path) = (none, u)) :
    ChangedAt (· = path.namesFrom t.here) t u := by
  obtain ⟨prepared, hprepare, hcreate⟩ := perform_bind_eq_none_iff.mp h
  have hprepared := changedAt_prepareOutput (perform_change_eq_none_iff.mp hprepare)
  have hwrite := mapError_eq_ok_iff.mp (perform_change_eq_none_iff.mp hcreate)
  refine hprepared.trans ?_
  rw [← hprepared.namesFrom]
  exact (FileTree.changedAt_write hwrite).1

/-- A report that was written can be read. -/
theorem changedAt_writeOutput {text : String} (h : perform t (writeOutput path text) = (none, u)) :
    ChangedAt (· = path.namesFrom t.here) t u ∧ u.readBytes path = .ok text.toUTF8 :=
  FileTree.changedAt_write (mapError_eq_ok_iff.mp (perform_change_eq_none_iff.mp h))

end Report
end ResourceLint
