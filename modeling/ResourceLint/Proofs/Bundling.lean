/-
The images of a report and their copies.

The parent of a report is the directory that it was put into
(`exists_parent_child`), and so the copies lie in a folder beside the report.

A bundle that takes a file either has it already, does not take it, fails, or
copies it under a name that is free (`adds_add`).  Whatever happens, only the
places of copies change (`Grows`).  As long as the files that are copied lie
outside the folder, no copy is put in place of another: different files have
different names, and each copy holds what its file holds (`Stocked.add`).
-/
import ResourceLint.Proofs.Frames
import ResourceLint.Proofs.Urls
import ResourceLint.Report.Bundle

namespace ResourceLint

namespace Path

-- ============================================================== the parent

/-- What stands before the last piece is a beginning. -/
theorem prefix_of_lastPiece? {body before piece : List Char}
    (h : lastPiece? body = some (before, piece)) : before <+: body := by
  unfold lastPiece? at h
  split at h
  · cases h
  · obtain ⟨rfl, -⟩ := Prod.mk.inj (Option.some.inj h)
    rw [← List.reverse_suffix, List.reverse_reverse]
    exact ((dropIdle_suffix _).trans (List.dropWhile_suffix _)).trans (dropIdle_suffix _)

/-- What stands before the last piece is no lone dot. -/
theorem ne_dot_of_lastPiece? {body before piece : List Char}
    (h : lastPiece? body = some (before, piece)) : before ≠ ['.'] := by
  unfold lastPiece? at h
  split at h
  · cases h
  · obtain ⟨rfl, -⟩ := Prod.mk.inj (Option.some.inj h)
    intro heq
    rw [List.reverse_eq_iff] at heq
    exact ((dropIdle_eq_cons heq).2 rfl).1 rfl

/-- A text without its last piece is divided as before. -/
theorem splitHead_of_lastPiece? {s head body before piece : List Char}
    (hsplit : splitHead s = (head, body)) (hlast : lastPiece? body = some (before, piece)) :
    splitHead (head ++ before) = (head, before) := by
  have hprefix := prefix_of_lastPiece? hlast
  unfold splitHead at hsplit
  split at hsplit
  · obtain ⟨rfl, rfl⟩ := Prod.mk.inj hsplit
    rfl
  · obtain ⟨rfl, rfl⟩ := Prod.mk.inj hsplit
    cases hlast
  · obtain ⟨rfl, rfl⟩ := Prod.mk.inj hsplit
    cases before with
    | nil => rfl
    | cons c before =>
        obtain ⟨rfl, -⟩ := List.cons_prefix_cons.mp hprefix
        rfl
  · -- without a beginning of its own the text must not get one by losing its end
    next hslash _ hdotSlash =>
      obtain ⟨rfl, rfl⟩ := Prod.mk.inj hsplit
      cases before with
      | nil => rfl
      | cons c before =>
          obtain ⟨rest, hrest⟩ := hprefix
          refine splitHead_of_plain (fun hc => ?_) fun hc => ⟨fun hnil => ?_, fun hhead => ?_⟩
          · subst hc
            exact hslash _ hrest.symm
          · exact ne_dot_of_lastPiece? hlast (by rw [hc, hnil])
          · subst hc
            obtain ⟨more, rfl⟩ := List.head?_eq_some_iff.mp hhead
            exact hdotSlash _ hrest.symm

/-- A child has a parent, which is the same as the directory. -/
theorem exists_parent_child (p : Path) {name : String} (h : IsName name) :
    ∃ parent, (p.child name).parent? = some parent ∧ parent.same p := by
  cases hsplit : splitHead (p.child name).text.toList with
  | mk head body =>
      have hchild := components_child p h
      rw [components_eq, hsplit] at hchild
      cases hlast : lastPiece? body with
      | none =>
          -- the name would be no step
          simp only [steps_of_lastPiece?_none hlast, List.append_nil] at hchild
          have hstep := congrArg List.getLast? hchild
          rw [List.getLast?_concat] at hstep
          unfold headOf at hstep
          split at hstep <;> cases hstep
      | some found =>
          obtain ⟨before, piece⟩ := found
          refine ⟨_, parent?_of_lastPiece? hsplit hlast, ?_⟩
          obtain ⟨s, -, hsteps⟩ := steps_of_lastPiece? hlast
          simp only at hchild
          rw [hsteps, ← List.append_assoc] at hchild
          unfold same
          rw [components_eq, String.toList_ofList, splitHead_of_lastPiece? hsplit hlast, beq_iff_eq]
          exact (List.append_inj' hchild rfl).1

-- =========================================================== the file name

/-- The last piece has no slash. -/
theorem slash_not_mem_of_lastPiece? {body before piece : List Char}
    (h : lastPiece? body = some (before, piece)) : '/' ∉ piece := by
  unfold lastPiece? at h
  split at h
  · cases h
  · obtain ⟨-, rfl⟩ := Prod.mk.inj (Option.some.inj h)
    rw [List.mem_reverse]
    intro hmem
    simpa using List.all_eq_true.mp List.all_takeWhile _ hmem

/-- A file name is the name of an entry. -/
theorem isName_of_fileName? {p : Path} {name : String} (h : p.fileName? = some name) :
    IsName name := by
  unfold fileName? at h
  cases hlast : lastPiece? (splitHead p.text.toList).2 with
  | none =>
      rw [hlast] at h
      cases h
  | some found =>
      obtain ⟨before, piece⟩ := found
      simp only [hlast] at h
      split at h
      · next hstep =>
          obtain rfl := Option.some.inj h
          exact isName_of_stepOf? (slash_not_mem_of_lastPiece? hlast) hstep
      · cases h

/-- It is one with underscores in front, too. -/
theorem isName_underscores {name : String} (h : IsName name) (n : Nat) :
    IsName (String.ofList (List.replicate n '_') ++ name) := by
  cases n with
  | zero => simpa using h
  | succ n =>
      have hlist : (String.ofList (List.replicate (n + 1) '_') ++ name).toList
          = '_' :: (List.replicate n '_' ++ name.toList) := by
        rw [String.toList_append, String.toList_ofList, List.replicate_succ, List.cons_append]
      have hne : ∀ s : String, s.toList.head? ≠ some '_' →
          String.ofList (List.replicate (n + 1) '_') ++ name ≠ s := by
        rintro s hs rfl
        rw [hlist] at hs
        exact hs rfl
      refine ⟨hne _ (by decide), ?_, hne _ (by decide), hne _ (by decide)⟩
      rw [hlist, List.mem_cons, List.mem_append, not_or, not_or]
      exact ⟨by decide, fun hmem => absurd (List.eq_of_mem_replicate hmem) (by decide), h.2.1⟩

end Path

namespace Bundle

open FileTree (ChangedAt)
open ResourceLint.Path (IsName)

variable {b b' b'' : Bundle} {t t' t'' u v : FileTree} {file : Path} {name : String}

-- ============================================================== taking a file

/-- The address of a copy. -/
def urlOf (b : Bundle) (name : String) : String := b.folder ++ "/" ++ encodeUrl name

/-- The bundle with one copy more. -/
def withCopy (b : Bundle) (file : Path) (name : String) : Bundle :=
  { b with names := b.names ++ [(name, file)], urls := b.urls ++ [(file, b.urlOf name)] }

/-- What can come of a bundle that is given a file. -/
inductive Adds (b : Bundle) (t : FileTree) (file : Path) :
    Except FileError (Option String) × Bundle × FileTree → Prop
  /-- it has the file -/
  | known (url : String) (h : b.url? file = some url) : Adds b t file (.ok (some url), b, t)
  /-- it does not take the file, or has no free name for it -/
  | refused (hnew : b.url? file = none)
      (h : ∀ base, file.fileName?.filter takes = some base → b.freeName? file base = none) :
      Adds b t file (.ok none, b, t)
  /-- the copy fails, after directories have been made or before -/
  | failed (fault : FileError) (u : FileTree) (h : ChangedAt (fun _ => False) t u) :
      Adds b t file (.error fault, b, u)
  | copied (base name : String) (u v : FileTree) (hnew : b.url? file = none)
      (hbase : file.fileName?.filter takes = some base) (hfree : b.freeName? file base = some name)
      (hmake : t.makeDirectory b.directory = .ok u)
      (hcopy : u.copy file (b.directory.child name) = .ok v) :
      Adds b t file (.ok (some (b.urlOf name)), b.withCopy file name, v)

/-- A file is added under a free name, or nothing is. -/
theorem adds_add (b : Bundle) (t : FileTree) (file : Path) : Adds b t file (b.add t file) := by
  unfold add
  -- one outcome a case, in the order in which the bundle gives up
  cases hurl : b.url? file with
  | some url => exact .known url hurl
  | none =>
      cases hbase : file.fileName?.filter takes with
      | none => exact .refused hurl (fun base h => by rw [hbase] at h; cases h)
      | some base =>
          simp only
          cases hfree : b.freeName? file base with
          | none =>
              refine .refused hurl fun other h => ?_
              rw [hbase] at h
              rw [← Option.some.inj h, hfree]
          | some name =>
              simp only
              unfold store
              cases hmake : t.makeDirectory b.directory with
              | error fault => exact .failed fault t (.refl _ _)
              | ok u =>
                  simp only
                  cases hcopy : u.copy file (b.directory.child name) with
                  | error fault => exact .failed fault u (FileTree.changedAt_makeDirectory hmake)
                  | ok v => exact .copied base name u v hurl hbase hfree hmake hcopy

/-- A free name is the base behind underscores. -/
theorem exists_underscores {base : String} (h : b.freeName? file base = some name) :
    ∃ n, name = String.ofList (List.replicate n '_') ++ base := by
  obtain ⟨n, -, hname⟩ := List.mem_map.mp (List.mem_of_find?_eq_some h)
  exact ⟨n, hname.symm⟩

/-- Copies have proper names. -/
theorem isName_of_freeName? {base : String} (hbase : file.fileName?.filter takes = some base)
    (hfree : b.freeName? file base = some name) : IsName name := by
  obtain ⟨n, rfl⟩ := exists_underscores hfree
  exact Path.isName_underscores (Path.isName_of_fileName? (Option.eq_some_of_filter_eq_some hbase)) n

-- ================================================================== growth

/-- Where a copy is. -/
def placeOf (b : Bundle) (here : List String) (name : String) : List String :=
  b.directory.namesFrom here ++ [name]

/-- A copy stands in the directory of its bundle. -/
theorem namesFrom_child_directory (h : IsName name) (here : List String) :
    (b.directory.child name).namesFrom here = b.placeOf here name :=
  Path.namesFrom_child h here

/-- Whether a bundle has become another one by taking files, and only its
copies have changed. -/
structure Grows (b : Bundle) (t : FileTree) (b' : Bundle) (t' : FileTree) : Prop where
  directory : b'.directory = b.directory
  folder : b'.folder = b.folder
  names : b.names <+: b'.names
  changed : ChangedAt (fun names => ∃ entry ∈ b'.names, names = b.placeOf t.here entry.1) t t'

namespace Grows

/-- A bundle grows by nothing. -/
theorem refl (b : Bundle) (t : FileTree) : Grows b t b t :=
  ⟨rfl, rfl, List.prefix_rfl, .refl _ _⟩

/-- A bundle that grows stays where it is. -/
theorem placeOf (h : Grows b t b' t') (name : String) :
    b'.placeOf t'.here name = b.placeOf t.here name := by
  unfold Bundle.placeOf
  rw [h.directory, h.changed.here]

theorem trans (h : Grows b t b' t') (hmore : Grows b' t' b'' t'') : Grows b t b'' t'' where
  directory := hmore.directory.trans h.directory
  folder := hmore.folder.trans h.folder
  names := h.names.trans hmore.names
  changed := by
    refine (h.changed.mono ?_).trans (hmore.changed.mono ?_)
    · rintro names ⟨entry, hentry, rfl⟩
      exact ⟨entry, hmore.names.subset hentry, rfl⟩
    · rintro names ⟨entry, hentry, rfl⟩
      exact ⟨entry, hentry, h.placeOf _⟩

end Grows

/-- A copy that is made. -/
theorem grows_copied (hname : IsName name) (hmake : t.makeDirectory b.directory = .ok u)
    (hcopy : u.copy file (b.directory.child name) = .ok v) : Grows b t (b.withCopy file name) v where
  directory := rfl
  folder := rfl
  names := List.prefix_append _ _
  changed := by
    have hmade := FileTree.changedAt_makeDirectory hmake
    refine (hmade.mono fun _ => False.elim).trans ((FileTree.changedAt_copy hcopy).1.mono ?_)
    rintro _ rfl
    refine ⟨(name, file), List.mem_append_right _ List.mem_cons_self, ?_⟩
    rw [hmade.namesFrom, namesFrom_child_directory hname]

/-- Adding a file grows the bundle. -/
theorem Adds.grows {result : Except FileError (Option String) × Bundle × FileTree}
    (h : Adds b t file result) : Grows b t result.2.1 result.2.2 := by
  cases h with
  | known => exact .refl b t
  | refused => exact .refl b t
  | failed fault u hchanged =>
      exact ⟨rfl, rfl, List.prefix_rfl, hchanged.mono fun _ => False.elim⟩
  | copied base name u v hnew hbase hfree hmake hcopy =>
      exact grows_copied (isName_of_freeName? hbase hfree) hmake hcopy

/-- A copy more is one of the file. -/
theorem Adds.mem_names {result : Except FileError (Option String) × Bundle × FileTree}
    (h : Adds b t file result) : ∀ entry ∈ result.2.1.names, entry ∈ b.names ∨ entry.2 = file := by
  intro entry hentry
  cases h with
  | known => exact .inl hentry
  | refused => exact .inl hentry
  | failed => exact .inl hentry
  | copied base name =>
      rcases List.mem_append.mp hentry with hentry | hentry
      · exact .inl hentry
      · exact .inr (by rw [List.mem_singleton.mp hentry])

-- ================================================================== the stock

/-- Whether names lie in the folder of a bundle. -/
def IsInside (b : Bundle) (here names : List String) : Prop := b.directory.namesFrom here <+: names

/-- Whether the copies of a bundle are at hand, under different names, and hold
what the files hold, which lie elsewhere. -/
structure Stocked (t : FileTree) (b : Bundle) : Prop where
  urls : b.urls = b.names.map fun entry => (entry.2, b.urlOf entry.1)
  isName : ∀ entry ∈ b.names, IsName entry.1
  nodup : (b.names.map (·.1)).Nodup
  outside : ∀ entry ∈ b.names, ¬ b.IsInside t.here (entry.2.namesFrom t.here)
  copies : ∀ entry ∈ b.names, ∃ content,
    t.readBytes (b.directory.child entry.1) = .ok content ∧ t.readBytes entry.2 = .ok content

/-- A new bundle has no copies. -/
theorem stocked_forReport (report : Path) (t : FileTree) : Stocked t (forReport report) :=
  ⟨rfl, nofun, List.nodup_nil, nofun, nofun⟩

/-- The place of a copy is inside of the bundle. -/
theorem isInside_placeOf (b : Bundle) (here : List String) (name : String) :
    b.IsInside here (b.placeOf here name) := List.prefix_append _ _

/-- Other names have other places. -/
theorem placeOf_ne {other : String} {here : List String} (h : other ≠ name) :
    b.placeOf here other ≠ b.placeOf here name := by
  unfold placeOf
  intro heq
  exact h (List.cons.inj (List.append_cancel_left heq)).1

/-- A name that is free for a new file is no other's. -/
theorem Stocked.name_not_mem {base : String} (h : Stocked t b) (hnew : b.url? file = none)
    (hfree : b.freeName? file base = some name) : name ∉ b.names.map (·.1) := by
  intro hmem
  have hisFree : b.isFree file name := List.find?_some hfree
  unfold isFree at hisFree
  cases hlookup : b.names.lookup name with
  | none =>
      obtain ⟨entry, hentry, rfl⟩ := List.mem_map.mp hmem
      simpa using List.lookup_eq_none_iff.mp hlookup entry hentry
  | some owner =>
      -- the file would have an address
      rw [hlookup, Option.all_some] at hisFree
      have howner : (name, owner) ∈ b.names := by
        obtain ⟨before, after, heq, -⟩ := List.lookup_eq_some_iff.mp hlookup
        exact heq ▸ List.mem_append_right _ List.mem_cons_self
      have hnone : b.urls.find? (fun entry => entry.1.same file) = none :=
        Option.map_eq_none_iff.mp hnew
      rw [h.urls, List.find?_eq_none] at hnone
      exact hnone _ (List.mem_map_of_mem howner) hisFree

/-- Directories may be made. -/
theorem Stocked.of_changedAt (h : Stocked t b) (hchanged : ChangedAt (fun _ => False) t u) :
    Stocked u b := by
  refine ⟨h.urls, h.isName, h.nodup, fun entry hentry => ?_, fun entry hentry => ?_⟩
  · rw [IsInside, hchanged.namesFrom, hchanged.here]
    exact h.outside entry hentry
  · obtain ⟨content, hcopy, hsource⟩ := h.copies entry hentry
    exact ⟨content, hchanged.readBytes hcopy id, hchanged.readBytes hsource id⟩

/-- Where files differ at one new copy, the others are at hand still. -/
theorem Stocked.copies_of_changedAt (h : Stocked t b) (hname : name ∉ b.names.map (·.1))
    (hchanged : ChangedAt (· = b.placeOf t.here name) t u) : ∀ entry ∈ b.names, ∃ content,
      u.readBytes (b.directory.child entry.1) = .ok content
        ∧ u.readBytes entry.2 = .ok content := by
  intro entry hentry
  obtain ⟨content, hcopy, hsource⟩ := h.copies entry hentry
  refine ⟨content, hchanged.readBytes hcopy ?_, hchanged.readBytes hsource ?_⟩
  · rw [namesFrom_child_directory (h.isName entry hentry)]
    refine placeOf_ne fun heq => hname ?_
    exact heq ▸ List.mem_map_of_mem hentry
  · intro heq
    exact h.outside entry hentry (heq ▸ isInside_placeOf b t.here name)

theorem forall_mem_names_withCopy {P : String × Path → Prop} (h : ∀ entry ∈ b.names, P entry)
    (hnew : P (name, file)) : ∀ entry ∈ (b.withCopy file name).names, P entry := by
  intro entry hentry
  rcases List.mem_append.mp hentry with hentry | hentry
  · exact h entry hentry
  · exact List.mem_singleton.mp hentry ▸ hnew

/-- A copy under a new name is one more of a bundle that is stocked. -/
theorem Stocked.withCopy (h : Stocked t b) (hname : IsName name)
    (hnotMem : name ∉ b.names.map (·.1)) (houtside : ¬ b.IsInside t.here (file.namesFrom t.here))
    (hcopy : t.copy file (b.directory.child name) = .ok u) : Stocked u (b.withCopy file name) := by
  obtain ⟨hchanged, content, hsource, htarget⟩ := FileTree.changedAt_copy hcopy
  rw [namesFrom_child_directory hname] at hchanged htarget
  -- the file is no copy, so copying does not change it
  have hne : file.namesFrom t.here ≠ b.placeOf t.here name :=
    fun heq => houtside (heq ▸ isInside_placeOf b t.here name)
  refine ⟨?_, forall_mem_names_withCopy h.isName hname, ?_, forall_mem_names_withCopy ?_ ?_,
    forall_mem_names_withCopy ?_ ?_⟩
  · unfold Bundle.withCopy
    simp only [h.urls, List.map_append]
    rfl
  · unfold Bundle.withCopy
    rw [List.map_append, List.nodup_append]
    refine ⟨h.nodup, List.nodup_singleton _, ?_⟩
    rintro other hother _ hmem rfl
    obtain rfl : other = name := List.mem_singleton.mp hmem
    exact hnotMem hother
  · intro entry hentry
    rw [hchanged.namesFrom, hchanged.here]
    exact h.outside entry hentry
  · rw [hchanged.namesFrom, hchanged.here]
    exact houtside
  · exact h.copies_of_changedAt hnotMem hchanged
  · exact ⟨content, htarget hne, hchanged.readBytes hsource hne⟩

/-- A bundle stays stocked, whatever comes of a file. -/
theorem Stocked.add {result : Except FileError (Option String) × Bundle × FileTree}
    (h : Stocked t b) (hfile : ¬ b.IsInside t.here (file.namesFrom t.here))
    (hadds : Adds b t file result) : Stocked result.2.2 result.2.1 := by
  cases hadds with
  | known => exact h
  | refused => exact h
  | failed fault u hchanged => exact h.of_changedAt hchanged
  | copied base name u v hnew hbase hfree hmake hcopy =>
      have hmade := FileTree.changedAt_makeDirectory hmake
      refine (h.of_changedAt hmade).withCopy (isName_of_freeName? hbase hfree)
        (h.name_not_mem hnew hfree) ?_ hcopy
      rwa [IsInside, hmade.namesFrom, hmade.here]

end Bundle
end ResourceLint
