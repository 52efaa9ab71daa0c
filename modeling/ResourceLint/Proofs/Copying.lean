/-
A bundle that is given files one after another.

Every file has its turn (`addAll`).  A file that has an address gets it again
(`add_of_url?`) and keeps it (`Adds.url?_mono`), so the bundle at the end
knows every address that was issued (`url?_of_mem_addAll`).  What it holds
then decides the rest: it is stocked, different files have different names
there, and a name can be read off its address.

What does not change with the turns is packaged once (`addAll_induction`).
-/
import ResourceLint.Proofs.Bundling

namespace ResourceLint

namespace Bundle

variable {b : Bundle} {t u : FileTree} {file other : Path} {files : List Path} {url : String}
  {result : Except FileError (Option String) × Bundle × FileTree}

/-- A file that a bundle was given. -/
structure Turn where
  file : Path
  outcome : Except FileError (Option String)
  before : Bundle
  after : Bundle

/-- Whether the file got an address. -/
def Turn.Issues (x : Turn) (url : String) : Prop := x.outcome = .ok (some url)

/-- Gives files to a bundle one after another. -/
def addAll : List Path → Bundle → FileTree → List Turn × Bundle × FileTree
  | [], b, t => ([], b, t)
  | file :: files, b, t =>
    let (outcome, after, u) := b.add t file
    let (turns, last) := addAll files after u
    (⟨file, outcome, b, after⟩ :: turns, last)

-- ================================================================== one turn

/-- The address of a file does not depend on how its path is written. -/
theorem url?_congr (h : file.same other) : b.url? file = b.url? other := by
  have hsame : ∀ known : Path, known.same file = known.same other := fun known => by
    rw [Path.same_comm known, Path.same_comm known, Path.same_congr_left h]
  unfold url?
  simp only [hsame]

/-- A file that is in the bundle is not copied again. -/
theorem add_of_url? (h : b.url? file = some url) (t : FileTree) :
    b.add t file = (.ok (some url), b, t) := by
  unfold add
  rw [h]

/-- Addresses stay. -/
theorem Adds.url?_mono (h : Adds b t file result) (hurl : b.url? other = some url) :
    result.2.1.url? other = some url := by
  cases h with
  | known => exact hurl
  | refused => exact hurl
  | failed => exact hurl
  | copied base name =>
      obtain ⟨entry, hfind, rfl⟩ := Option.map_eq_some_iff.mp hurl
      unfold url? withCopy
      rw [List.find?_append, hfind]
      rfl

/-- A file has the address that it gets. -/
theorem Adds.url?_of_issues (h : Adds b t file result) (hissues : result.1 = .ok (some url)) :
    result.2.1.url? file = some url := by
  cases h with
  | known other hurl =>
      rw [hurl]
      exact Except.ok.inj hissues
  | refused => cases hissues
  | failed => cases hissues
  | copied base name u v hnew =>
      have hnone : b.urls.find? (fun entry => entry.1.same file) = none :=
        Option.map_eq_none_iff.mp hnew
      have hself : [(file, b.urlOf name)].find? (fun entry => entry.1.same file)
          = some (file, b.urlOf name) := List.find?_cons_of_pos (Path.same_refl file)
      unfold url? withCopy
      rw [List.find?_append, hnone, Option.none_or, hself]
      exact Except.ok.inj hissues

/-- A bundle that issues no address is left as it was. -/
theorem Adds.eq_of_not_issues (h : Adds b t file result)
    (hnone : ∀ url, result.1 ≠ .ok (some url)) : result.2.1 = b := by
  cases h with
  | known => rfl
  | refused => rfl
  | failed => rfl
  | copied base name => exact absurd rfl (hnone (b.urlOf name))

/-- An image is refused only where others have all the names that are tried. -/
theorem Adds.exists_owner (h : Adds b t file result) (hnone : result.1 = .ok none) {name : String}
    (hname : file.fileName? = some name) (htakes : takes name) {n : Nat}
    (hn : n ≤ mostUnderscores) :
    ∃ owner, b.names.lookup (String.ofList (List.replicate n '_') ++ name) = some owner
      ∧ ¬ owner.same file := by
  cases h with
  | known => cases hnone
  | failed => cases hnone
  | copied => cases hnone
  | refused hnew hfull =>
      have hfree : b.freeName? file name = none :=
        hfull name (by rw [hname, Option.filter_some_pos htakes])
      have hnot := List.find?_eq_none.mp hfree _
        (List.mem_map_of_mem (List.mem_range.mpr (Nat.lt_succ_of_le hn)))
      unfold isFree at hnot
      cases hlookup : b.names.lookup (String.ofList (List.replicate n '_') ++ name) with
      | none =>
          rw [hlookup] at hnot
          exact absurd rfl hnot
      | some owner =>
          rw [hlookup] at hnot
          exact ⟨owner, rfl, hnot⟩

/-- An address more is that of the file, which is one that is taken. -/
theorem Adds.mem_urls (h : Adds b t file result) : ∀ entry ∈ result.2.1.urls,
    entry ∈ b.urls
      ∨ result.1 = .ok (some entry.2) ∧ entry.1 = file ∧ (file.fileName?.filter takes).isSome := by
  intro entry hentry
  cases h with
  | known => exact .inl hentry
  | refused => exact .inl hentry
  | failed => exact .inl hentry
  | copied base name u v hnew hbase =>
      rcases List.mem_append.mp hentry with hentry | hentry
      · exact .inl hentry
      · rw [List.mem_singleton.mp hentry]
        exact .inr ⟨rfl, rfl, by rw [hbase]; rfl⟩

-- ================================================================== all turns

/-- What holds of a bundle and a tree, and is kept whenever a file is added,
holds at the end and before every turn. -/
theorem addAll_induction {P : Bundle → FileTree → Prop} (h : P b t)
    (hadd : ∀ b t, P b t → ∀ file ∈ files, P (b.add t file).2.1 (b.add t file).2.2) :
    P (addAll files b t).2.1 (addAll files b t).2.2
      ∧ ∀ x ∈ (addAll files b t).1, ∃ v, P x.before v
        ∧ (x.before.add v x.file).1 = x.outcome ∧ (x.before.add v x.file).2.1 = x.after := by
  induction files generalizing b t with
  | nil => exact ⟨h, nofun⟩
  | cons file files ih =>
      obtain ⟨hlast, hturns⟩ := ih (hadd b t h file List.mem_cons_self)
        fun b t h file hfile => hadd b t h file (List.mem_cons_of_mem _ hfile)
      refine ⟨hlast, fun x hx => ?_⟩
      rcases List.mem_cons.mp hx with rfl | hx
      · exact ⟨t, h, rfl, rfl⟩
      · exact hturns x hx

/-- Every turn is a file that is added. -/
theorem exists_adds {x : Turn} (hx : x ∈ (addAll files b t).1) :
    ∃ v, Adds x.before v x.file (x.outcome, x.after, (x.before.add v x.file).2.2) := by
  obtain ⟨v, -, houtcome, hafter⟩ := (addAll_induction (P := fun _ _ => True) trivial
    fun _ _ _ _ _ => trivial).2 x hx
  rw [← houtcome, ← hafter]
  exact ⟨v, adds_add x.before v x.file⟩

/-- What is in a bundle keeps its address. -/
theorem url?_addAll (h : b.url? other = some url) (files : List Path) (t : FileTree) :
    (addAll files b t).2.1.url? other = some url :=
  (addAll_induction (P := fun b _ => b.url? other = some url) h
    fun b t h file _ => (adds_add b t file).url?_mono h).1

/-- The bundle at the end has every address that was issued. -/
theorem url?_of_mem_addAll {x : Turn} (hx : x ∈ (addAll files b t).1) (h : x.Issues url) :
    (addAll files b t).2.1.url? x.file = some url := by
  induction files generalizing b t with
  | nil => cases hx
  | cons file files ih =>
      rcases List.mem_cons.mp hx with rfl | hx
      · exact url?_addAll ((adds_add b t file).url?_of_issues h) _ _
      · exact ih hx

/-- A file that has an address gets it at every turn. -/
theorem issues_of_url? (h : b.url? other = some url) (files : List Path) (t : FileTree) :
    ∀ x ∈ (addAll files b t).1, other.same x.file → x.Issues url := by
  intro x hx hsame
  obtain ⟨v, hurl, houtcome, -⟩ := (addAll_induction (P := fun b _ => b.url? other = some url) h
    fun b t h file _ => (adds_add b t file).url?_mono h).2 x hx
  rw [url?_congr hsame] at hurl
  rw [Turn.Issues, ← houtcome, add_of_url? hurl]

/-- A file gets the address again that it got before. -/
theorem pairwise_addAll (files : List Path) (b : Bundle) (t : FileTree) :
    (addAll files b t).1.Pairwise fun x y =>
      ∀ url, x.Issues url → x.file.same y.file → y.Issues url := by
  induction files generalizing b t with
  | nil => exact .nil
  | cons file files ih =>
      refine List.pairwise_cons.mpr ⟨fun y hy url hissues hsame => ?_, ih _ _⟩
      exact issues_of_url? ((adds_add b t file).url?_of_issues hissues) _ _ y hy hsame

/-- Every address at the end was there before or is that of a turn. -/
theorem mem_urls_addAll (files : List Path) (b : Bundle) (t : FileTree) :
    ∀ entry ∈ (addAll files b t).2.1.urls,
      entry ∈ b.urls ∨ ∃ x ∈ (addAll files b t).1, x.file = entry.1 ∧ x.Issues entry.2 := by
  induction files generalizing b t with
  | nil => exact fun entry hentry => .inl hentry
  | cons file files ih =>
      intro entry hentry
      rcases ih (b.add t file).2.1 (b.add t file).2.2 entry hentry with hold | ⟨x, hx, hissues⟩
      · rcases (adds_add b t file).mem_urls entry hold with hold | ⟨hissues, hfile, -⟩
        · exact .inl hold
        · exact .inr ⟨_, List.mem_cons_self, hfile.symm, hissues⟩
      · exact .inr ⟨x, List.mem_cons_of_mem _ hx, hissues⟩

-- ==================================================== files that are not taken

/-- Whether all files with addresses are such as are taken. -/
def OnlyTaken (b : Bundle) : Prop :=
  ∀ entry ∈ b.urls, (entry.1.fileName?.filter takes).isSome

/-- Only files of the right kind are taken in. -/
theorem OnlyTaken.add (h : b.OnlyTaken) (t : FileTree) (file : Path) :
    (b.add t file).2.1.OnlyTaken := by
  intro entry hentry
  rcases (adds_add b t file).mem_urls entry hentry with hold | ⟨-, rfl, htaken⟩
  · exact h entry hold
  · exact htaken

/-- Files that are no images, or are to be stretched, are not taken. -/
theorem filter_takes_eq_none (h : ∀ name, file.fileName? = some name →
      Text.endsWith ".png" (Text.lowercase name) = false
        ∨ Text.endsWith ".9.png" (Text.lowercase name) = true) :
    file.fileName?.filter takes = none := by
  refine Option.filter_eq_none_iff.mpr fun name hname htakes => ?_
  unfold takes at htakes
  rw [Bool.and_eq_true, Bool.not_eq_true'] at htakes
  rcases h name hname with hnot | hstretches
  · rw [htakes.1] at hnot
    cases hnot
  · rw [htakes.2] at hstretches
    cases hstretches

theorem onlyTaken_forReport (report : Path) : (forReport report).OnlyTaken :=
  fun _ hentry => absurd hentry List.not_mem_nil

/-- A file that is not taken is refused. -/
theorem OnlyTaken.add_eq (h : b.OnlyTaken) (hfile : file.fileName?.filter takes = none)
    (t : FileTree) : b.add t file = (.ok none, b, t) := by
  have hnone : b.url? file = none := by
    refine Option.map_eq_none_iff.mpr (List.find?_eq_none.mpr fun entry hentry hsame => ?_)
    have htaken := h entry hentry
    rw [Path.fileName?_congr hsame, hfile] at htaken
    cases htaken
  unfold Bundle.add
  rw [hnone, hfile]

-- ============================================================= what is served

/-- What files get that a bundle was given, and what is in their copies then. -/
structure Serves (b : Bundle) (turns : List Turn) (u : FileTree) : Prop where
  /-- different files have different addresses -/
  apart : ∀ x ∈ turns, ∀ y ∈ turns, ∀ url, x.Issues url → y.Issues url → x.file.same y.file
  /-- a file gets the address again that it got before -/
  again : turns.Pairwise fun x y => ∀ url, x.Issues url → x.file.same y.file → y.Issues url
  /-- at each address is what the file holds that it was issued for -/
  copies : ∀ x ∈ turns, ∀ url, x.Issues url → ∃ y ∈ turns, y.Issues url ∧ y.file.same x.file
    ∧ ∃ name content, url = b.folder ++ "/" ++ encodeUrl name
      ∧ u.readBytes (b.directory.child name) = .ok content ∧ u.readBytes y.file = .ok content
      ∧ ∀ other, u.readBytes x.file = .ok other → other = content
  /-- only images are taken, and of these none that stretches -/
  images : ∀ x ∈ turns, (∀ name, x.file.fileName? = some name →
      Text.endsWith ".png" (Text.lowercase name) = false
        ∨ Text.endsWith ".9.png" (Text.lowercase name) = true) → x.outcome = .ok none
  /-- an image has none only where others have all the names that are tried -/
  full : ∀ x ∈ turns, x.outcome = .ok none → ∀ name, x.file.fileName? = some name → takes name →
    ∀ n ≤ mostUnderscores, ∃ owner,
      x.before.names.lookup (String.ofList (List.replicate n '_') ++ name) = some owner
        ∧ ¬ owner.same x.file
  /-- a bundle that issues no address is left as it was -/
  untouched : ∀ x ∈ turns, (∀ url, ¬ x.Issues url) → x.after = x.before

/-- Copies of other names have other addresses. -/
theorem urlOf_injective {name name' : String} (h : b.urlOf name = b.urlOf name') :
    name = name' := by
  refine encodeUrl_injective (String.toList_inj.mp ?_)
  have hlist := congrArg String.toList h
  unfold urlOf at hlist
  simp only [String.toList_append] at hlist
  exact List.append_cancel_left hlist

/-- A file with an address has a copy there. -/
theorem Stocked.exists_name (h : Stocked t b) (hurl : b.url? file = some url) :
    ∃ entry ∈ b.names, entry.2.same file ∧ url = b.urlOf entry.1 := by
  obtain ⟨found, hfind, rfl⟩ := Option.map_eq_some_iff.mp hurl
  have hmem := List.mem_of_find?_eq_some hfind
  rw [h.urls] at hmem
  obtain ⟨entry, hentry, rfl⟩ := List.mem_map.mp hmem
  have hsame := List.find?_some hfind
  exact ⟨entry, hentry, hsame, rfl⟩

/-- Files with one address are the same. -/
theorem Stocked.same_of_url? (h : Stocked t b) (hurl : b.url? file = some url)
    (hother : b.url? other = some url) : file.same other := by
  obtain ⟨entry, hentry, hsame, rfl⟩ := h.exists_name hurl
  obtain ⟨entry', hentry', hsame', heq⟩ := h.exists_name hother
  obtain rfl := List.inj_on_of_nodup_map h.nodup hentry hentry' (urlOf_injective heq)
  rwa [← Path.same_congr_left hsame]

/-- A bundle that is given files from outside its folder stays stocked. -/
theorem stocked_addAll (h : Stocked t b)
    (houtside : ∀ file ∈ files, ¬ b.IsInside t.here (file.namesFrom t.here)) :
    Grows b t (addAll files b t).2.1 (addAll files b t).2.2
      ∧ Stocked (addAll files b t).2.2 (addAll files b t).2.1 := by
  refine (addAll_induction (P := fun b' t' => Grows b t b' t' ∧ Stocked t' b') ⟨.refl b t, h⟩
    fun b' t' ⟨hgrows, hstocked⟩ file hfile => ?_).1
  have hadds := adds_add b' t' file
  refine ⟨hgrows.trans hadds.grows, hstocked.add ?_ hadds⟩
  unfold IsInside
  rw [hgrows.directory, hgrows.changed.here]
  exact houtside file hfile

/-- Whatever files the bundle of a report is given, from outside its folder. -/
theorem serves_addAll (report : Path) (t : FileTree) (files : List Path)
    (houtside : ∀ file ∈ files,
      ¬ (forReport report).IsInside t.here (file.namesFrom t.here)) :
    Serves (forReport report) (addAll files (forReport report) t).1
      (addAll files (forReport report) t).2.2 := by
  obtain ⟨hgrows, hstocked⟩ := stocked_addAll (stocked_forReport report t) houtside
  refine ⟨fun x hx y hy url hissues hagain => ?_, pairwise_addAll _ _ _,
    fun x hx url hissues => ?_, fun x hx hname => ?_,
    fun x hx hnone name hname htakes n hn => ?_, fun x hx hnone => ?_⟩
  · exact hstocked.same_of_url? (url?_of_mem_addAll hx hissues) (url?_of_mem_addAll hy hagain)
  · -- an address leads to the copy of some file given, of which its name was issued
    obtain ⟨entry, hentry, hsame, rfl⟩ := hstocked.exists_name (url?_of_mem_addAll hx hissues)
    obtain ⟨content, hcopy, hfile⟩ := hstocked.copies entry hentry
    have hurl : (entry.2, (addAll files (forReport report) t).2.1.urlOf entry.1)
        ∈ (addAll files (forReport report) t).2.1.urls := by
      rw [hstocked.urls]
      exact List.mem_map_of_mem hentry
    rcases mem_urls_addAll _ _ _ _ hurl with hold | ⟨y, hy, hyfile, hyissues⟩
    · cases hold
    · rw [hgrows.directory] at hcopy
      refine ⟨y, hy, hyissues, hyfile ▸ hsame, entry.1, content, ?_, hcopy, hyfile ▸ hfile, ?_⟩
      · rw [urlOf, hgrows.folder]
      · exact fun other hother => FileTree.readBytes_congr_same hsame hfile hother
  · -- a file that is no image is not even asked for a name
    obtain ⟨v, htaken, houtcome, -⟩ := (addAll_induction (P := fun b _ => b.OnlyTaken)
      (onlyTaken_forReport report) fun b t h file _ => h.add t file).2 x hx
    rw [← houtcome, htaken.add_eq (filter_takes_eq_none hname)]
  · obtain ⟨v, hadds⟩ := exists_adds hx
    exact hadds.exists_owner hnone hname htakes hn
  · obtain ⟨v, hadds⟩ := exists_adds hx
    exact hadds.eq_of_not_issues hnone

/-- Images of which two have one name, and another has it with an underscore. -/
def collidingImages : FileTree :=
  { here := []
    entries :=
      [(["a"], .directory),
        (["a", "_icon.png"], .file "three".toUTF8),
        (["a", "icon.png"], .file "one".toUTF8),
        (["b"], .directory),
        (["b", "frame.9.png"], .file "nine".toUTF8),
        (["b", "icon.png"], .file "two".toUTF8)] }

/-- What a report shows of them, and an image that is missing. -/
def collidingFiles : List Path :=
  [⟨"/a/icon.png"⟩, ⟨"/b/icon.png"⟩, ⟨"/a/_icon.png"⟩, ⟨"/c/icon.png"⟩, ⟨"/b/frame.9.png"⟩,
    ⟨"/a/icon.png"⟩]

/-- Three images of one name, the first of them given again, and two that get
no address. -/
theorem serves_collidingImages :
    (addAll collidingFiles (forReport ⟨"/report.html"⟩) collidingImages).1.map (·.outcome)
        = [.ok (some "report_files/icon.png"), .ok (some "report_files/_icon.png"),
          .ok (some "report_files/__icon.png"), .error .notFound, .ok none,
          .ok (some "report_files/icon.png")]
      ∧ Serves (forReport ⟨"/report.html"⟩)
        (addAll collidingFiles (forReport ⟨"/report.html"⟩) collidingImages).1
        (addAll collidingFiles (forReport ⟨"/report.html"⟩) collidingImages).2.2 := by
  refine ⟨by decide +kernel, serves_addAll _ _ _ ?_⟩
  unfold IsInside
  decide +kernel

end Bundle
end ResourceLint
