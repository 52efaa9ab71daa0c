/-
The images that are copied for a page.

What holds of the copies before a page is made, and is kept by each of its
images, holds when the page is made (`page_keeps`).  The copies of a page that
lies in a directory are in one folder there, which is named after the page
(`changedAt_page`), and where the images lie outside the directory, each address
that was given out is that of a copy with the bytes of its image
(`copiesHold_page`).
-/
import ResourceLint.Proofs.Bundling
import ResourceLint.Proofs.Grouping
import ResourceLint.Report.Page

namespace ResourceLint

namespace Report

open FileTree (ChangedAt)

-- ========================================================== image by image

section Keeps

variable {options : PageOptions} {P : Copies → Prop} {copies : Copies}

/-- Images in a row keep of the copies what each of them keeps. -/
theorem imagesAt_keeps {places : List Place}
    (himage : ∀ place ∈ places, ∀ c, P c → P (imageUrl options c place.file).2) (h : P copies) :
    P (imagesAt options copies places).2 := by
  induction places generalizing copies with
  | nil => exact h
  | cons place places ih =>
      rw [List.forall_mem_cons] at himage
      have hrest := ih himage.2 (himage.1 copies h)
      rw [imagesAt]
      simp only
      split <;> exact hrest

theorem occurrence_keeps {w : Warning}
    (himage : ∀ place ∈ w.places, ∀ c, P c → P (imageUrl options c place.file).2) (h : P copies) :
    P (occurrence options copies w).2 :=
  imagesAt_keeps himage h

theorem occurrences_keeps {found : List Warning}
    (himage : ∀ w ∈ found, ∀ place ∈ w.places, ∀ c, P c → P (imageUrl options c place.file).2)
    (h : P copies) : P (occurrences options copies found).2 := by
  induction found generalizing copies with
  | nil => exact h
  | cons w found ih =>
      rw [List.forall_mem_cons] at himage
      exact ih himage.2 (occurrence_keeps himage.1 h)

/-- The sections of a page keep of the copies what every image in them keeps. -/
theorem sections_keeps {groups : List Warning.Group}
    (himage : ∀ g ∈ groups, ∀ w ∈ g.warnings, ∀ place ∈ w.places, ∀ c, P c →
      P (imageUrl options c place.file).2) (h : P copies) :
    P (sections options copies groups).2 := by
  induction groups generalizing copies with
  | nil => exact h
  | cons g groups ih =>
      rw [List.forall_mem_cons] at himage
      exact ih himage.2 (occurrences_keeps himage.1 h)

/-- What each image of a page keeps, the page keeps. -/
theorem page_keeps {errors warnings : Nat} {found : List Warning}
    (himage : ∀ w ∈ found, ∀ place ∈ w.places, ∀ c, P c → P (imageUrl options c place.file).2)
    (h : P copies) : P (page options copies errors warnings found).2 := by
  refine sections_keeps (fun g hg w hw => himage w ?_) h
  rw [(Warning.groups_groupByIssue found).warnings g hg] at hw
  exact List.mem_of_mem_filter hw

end Keeps

-- ================================================================ the copies

/-- The copies, by name, with the images that were copied. -/
def Copies.names (copies : Copies) : List (String × Path) := (copies.bundle.map (·.names)).getD []

/-- The addresses that were given out for copies, with their images. -/
def Copies.issued (copies : Copies) : List (Path × String) := (copies.bundle.map (·.urls)).getD []

/-- The copies before a page is made. -/
def startFor (simple : Bool) (t : FileTree) (target : Path) : Copies :=
  ⟨if simple then none else some (Bundle.forReport target), t⟩

/-- A page begins with the bundle of its own report. -/
theorem eq_of_startFor {simple : Bool} {t : FileTree} {target : Path} {b : Bundle}
    (h : (startFor simple t target).bundle = some b) : Bundle.forReport target = b := by
  unfold startFor at h
  split at h
  · cases h
  · exact Option.some.inj h

/-- What can become of the copies while a page is made. -/
inductive Grown (start : Copies) : Copies → Prop
  | plain (h : start.bundle = none) : Grown start start
  | bundled (b b' : Bundle) (t' : FileTree) (hstart : start.bundle = some b)
      (h : b.Grows start.tree b' t') : Grown start ⟨some b', t'⟩

theorem Grown.refl (start : Copies) : Grown start start := by
  cases hbundle : start.bundle with
  | none => exact .plain hbundle
  | some b =>
      have hgrown := Grown.bundled b b start.tree hbundle (.refl _ _)
      rwa [← hbundle] at hgrown

/-- The copies grow by one image at most. -/
theorem Grown.imageUrl {start copies : Copies} (h : Grown start copies) (options : PageOptions)
    (file : Path) : Grown start (imageUrl options copies file).2 := by
  unfold Report.imageUrl
  split
  · exact h
  · cases h with
    | plain hnone =>
        rw [hnone]
        exact .plain hnone
    | bundled b b' t' hstart hgrows =>
        have hadd := (Bundle.adds_add b' t' file).grows
        simp only
        split <;> exact .bundled b _ _ hstart (hgrows.trans hadd)

/-- A page leaves copies that have grown from those it began with. -/
theorem page_grown (options : PageOptions) (start : Copies) (errors warnings : Nat)
    (found : List Warning) : Grown start (page options start errors warnings found).2 :=
  page_keeps (fun _ _ place _ _ h => h.imageUrl options place.file) (.refl start)

-- ================================================================ the folder

/-- The folder of the copies for a page. -/
def folderOf (file : String) : String :=
  String.ofList (file.toList.takeWhile (· != '.')) ++ "_files"

/-- The folder of a report is a name. -/
theorem isName_folderOf {file : String} (h : '/' ∉ file.toList) : Path.IsName (folderOf file) := by
  have hlong : ∀ short : String, short.toList.length < 6 → folderOf file ≠ short := by
    rintro short hshort rfl
    have hending : "_files".toList.length = 6 := rfl
    rw [folderOf, String.toList_append, List.length_append] at hshort
    omega
  refine ⟨hlong _ (by decide), ?_, hlong _ (by decide), hlong _ (by decide)⟩
  rw [folderOf, String.toList_append, String.toList_ofList, List.mem_append, not_or]
  exact ⟨fun hmem => h ((List.takeWhile_sublist _).subset hmem), by decide⟩

/-- The copies for a page in a directory lie in a folder there. -/
theorem forReport_child (directory : Path) {file : String} (h : Path.IsName file) :
    ∃ parent : Path, parent.same directory ∧ Bundle.forReport (directory.child file)
      = { directory := parent.child (folderOf file), folder := folderOf file, urls := [],
          names := [] } := by
  obtain ⟨parent, hparent, hsame⟩ := Path.exists_parent_child directory h
  refine ⟨parent, hsame, ?_⟩
  unfold Bundle.forReport
  rw [hparent, Path.fileName?_child directory h]
  rfl

/-- Where a copy is. -/
def copyPlace (names : List String) (file name : String) : List String :=
  names ++ [folderOf file, name]

variable {directory : Path} {file : String} {t : FileTree}

/-- A copy has its place in the folder of the report. -/
theorem placeOf_forReport (h : Path.IsName file) (here : List String) (name : String) :
    (Bundle.forReport (directory.child file)).placeOf here name
      = copyPlace (directory.namesFrom here) file name := by
  obtain ⟨parent, hsame, heq⟩ := forReport_child directory h
  rw [heq, Bundle.placeOf, Path.namesFrom_child (isName_folderOf h.2.1),
    Path.namesFrom_congr hsame, List.append_assoc]
  rfl

/-- Only the places of its copies change while a page is made. -/
theorem changedAt_page (options : PageOptions) (h : Path.IsName file) (t : FileTree)
    (errors warnings : Nat) (found : List Warning) :
    let copies := (page options (startFor options.simple t (directory.child file)) errors warnings
      found).2
    ChangedAt (fun names => ∃ entry ∈ copies.names,
      names = copyPlace (directory.namesFrom t.here) file entry.1) t copies.tree := by
  intro copies
  have hgrown : Grown (startFor options.simple t (directory.child file)) copies :=
    page_grown options _ errors warnings found
  clear_value copies
  cases hgrown with
  | plain => exact .refl _ t
  | bundled b b' t' hstart hgrows =>
      obtain rfl := eq_of_startFor hstart
      refine hgrows.changed.mono fun names hplace => ?_
      obtain ⟨entry, hentry, hnames⟩ := hplace
      exact ⟨entry, hentry, hnames.trans (placeOf_forReport h _ _)⟩

-- ============================================================ what copies hold

/-- What is known of the copies for a page. -/
structure CopiesHold (directory : Path) (file : String) (copies : Copies) : Prop where
  issued : copies.issued
    = copies.names.map fun entry => (entry.2, folderOf file ++ "/" ++ encodeUrl entry.1)
  isName : ∀ entry ∈ copies.names, Path.IsName entry.1
  nodup : (copies.names.map (·.1)).Nodup
  /-- the images lie outside the directory -/
  outside : ∀ entry ∈ copies.names,
    ¬ directory.namesFrom copies.tree.here <+: entry.2.namesFrom copies.tree.here
  bytes : ∀ entry ∈ copies.names, ∃ content,
    copies.tree.readBytes ((directory.child (folderOf file)).child entry.1) = .ok content
      ∧ copies.tree.readBytes entry.2 = .ok content

/-- Whether a bundle has all of its copies, and none of a file in the directory. -/
def IsSound (directory : Path) (copies : Copies) : Prop :=
  ∀ b, copies.bundle = some b → b.Stocked copies.tree ∧ ∀ entry ∈ b.names,
    ¬ directory.namesFrom copies.tree.here <+: entry.2.namesFrom copies.tree.here

/-- Names in the folder of a page are in its directory. -/
theorem prefix_of_isInside {b : Bundle} {here names : List String} (h : Path.IsName file)
    (hb : b.directory = (Bundle.forReport (directory.child file)).directory)
    (hinside : b.IsInside here names) : directory.namesFrom here <+: names := by
  obtain ⟨parent, hsame, heq⟩ := forReport_child directory h
  unfold Bundle.IsInside at hinside
  rw [hb, heq, Path.namesFrom_child (isName_folderOf h.2.1), Path.namesFrom_congr hsame] at hinside
  exact (List.prefix_append _ _).trans hinside

/-- One image, which lies outside the directory. -/
theorem IsSound.imageUrl {start copies : Copies} (h : IsSound directory copies)
    (hfile : Path.IsName file)
    (hstart : ∀ b, start.bundle = some b → Bundle.forReport (directory.child file) = b)
    (hgrown : Grown start copies) (options : PageOptions) (image : Path)
    (houtside : isImage image →
      ¬ directory.namesFrom start.tree.here <+: image.namesFrom start.tree.here) :
    IsSound directory (imageUrl options copies image).2 := by
  unfold Report.imageUrl
  split
  · exact h
  · next himage =>
      have hne := houtside (by simpa using himage)
      cases hgrown with
      | plain hnone =>
          rw [hnone]
          intro b hb
          rw [hnone] at hb
          cases hb
      | bundled b b' t' hbundle hgrows =>
          obtain ⟨hstocked, hnames⟩ := h b' rfl
          have hadds := Bundle.adds_add b' t' image
          have hdirectory : b'.directory
              = (Bundle.forReport (directory.child file)).directory := by
            rw [hgrows.directory, ← hstart b hbundle]
          have hhere := hgrows.changed.here
          -- what lies outside the directory lies outside the folder of the report
          have hinside : ¬ b'.IsInside t'.here (image.namesFrom t'.here) := by
            intro hinside
            rw [hhere] at hinside
            exact hne (prefix_of_isInside hfile hdirectory hinside)
          have hadded : IsSound directory
              ⟨some (b'.add t' image).2.1, (b'.add t' image).2.2⟩ := by
            rintro b'' hb''
            obtain rfl := Option.some.inj hb''
            refine ⟨hstocked.add hinside hadds, fun entry hentry => ?_⟩
            rw [hadds.grows.changed.here]
            rcases hadds.mem_names entry hentry with hold | rfl
            · exact hnames entry hold
            · rw [hhere]
              exact hne
          simp only
          split <;> exact hadded

/-- Files are read alike through paths that are the same. -/
theorem readBytes_child_congr (t : FileTree) {p q : Path} (h : p.same q) {name : String}
    (hname : Path.IsName name) : t.readBytes (p.child name) = t.readBytes (q.child name) := by
  unfold FileTree.readBytes
  rw [FileTree.find_child_congr t h hname]

/-- At the beginning nothing was copied, which is sound. -/
theorem isSound_startFor (h : Path.IsName file) (simple : Bool) (t : FileTree) :
    IsSound directory (startFor simple t (directory.child file)) := by
  obtain ⟨parent, -, hreport⟩ := forReport_child directory h
  intro b hb
  obtain rfl := eq_of_startFor hb
  refine ⟨Bundle.stocked_forReport _ _, fun entry hentry => ?_⟩
  rw [hreport] at hentry
  cases hentry

/-- No copy is of a file in the directory, if the images lie outside of it. -/
theorem isSound_page (options : PageOptions) (h : Path.IsName file) (t : FileTree)
    (errors warnings : Nat) (found : List Warning)
    (houtside : ∀ w ∈ found, ∀ place ∈ w.places, isImage place.file →
      ¬ directory.namesFrom t.here <+: place.file.namesFrom t.here) :
    IsSound directory
      (page options (startFor options.simple t (directory.child file)) errors warnings found).2 := by
  -- the bundle stays the page's own, which is kept along with what is claimed
  refine (page_keeps (P := fun c => Grown (startFor options.simple t (directory.child file)) c
    ∧ IsSound directory c) (fun w hw place hplace c hc => ?_) ?_).2
  · exact ⟨hc.1.imageUrl options place.file, hc.2.imageUrl h (fun _ => eq_of_startFor) hc.1 options
      place.file (houtside w hw place hplace)⟩
  · exact ⟨.refl _, isSound_startFor h options.simple t⟩

/-- Without a bundle there are no copies to hold. -/
theorem CopiesHold.of_none {copies : Copies} (h : copies.bundle = none) :
    CopiesHold directory file copies := by
  have hnames : copies.names = [] := by rw [Copies.names, h]; rfl
  have hissued : copies.issued = [] := by rw [Copies.issued, h]; rfl
  constructor
  all_goals simp [hnames, hissued]

/-- A bundle that has grown from the beginning holds its copies. -/
theorem CopiesHold.of_grows {b : Bundle} {t' : FileTree} (h : Path.IsName file)
    (hgrows : (Bundle.forReport (directory.child file)).Grows t b t')
    (hsound : IsSound directory ⟨some b, t'⟩) : CopiesHold directory file ⟨some b, t'⟩ := by
  obtain ⟨hstocked, houtside⟩ := hsound b rfl
  obtain ⟨parent, hsame, hreport⟩ := forReport_child directory h
  rw [hreport] at hgrows
  have hsameFolder : (parent.child (folderOf file)).same (directory.child (folderOf file)) := by
    unfold Path.same
    rw [beq_iff_eq, Path.components_child _ (isName_folderOf h.2.1),
      Path.components_child _ (isName_folderOf h.2.1), beq_iff_eq.mp hsame]
  refine ⟨?_, hstocked.isName, hstocked.nodup, houtside, fun entry hentry => ?_⟩
  · refine hstocked.urls.trans (List.map_congr_left fun entry _ => ?_)
    rw [Bundle.urlOf, hgrows.folder]
  · rw [← readBytes_child_congr t' hsameFolder (hstocked.isName entry hentry)]
    have hbytes := hstocked.copies entry hentry
    rwa [hgrows.directory] at hbytes

/-- The copies for a page hold what its images hold, if these lie outside the
directory. -/
theorem copiesHold_page (options : PageOptions) (h : Path.IsName file) (t : FileTree)
    (errors warnings : Nat) (found : List Warning)
    (houtside : ∀ w ∈ found, ∀ place ∈ w.places, isImage place.file →
      ¬ directory.namesFrom t.here <+: place.file.namesFrom t.here) :
    CopiesHold directory file
      (page options (startFor options.simple t (directory.child file)) errors warnings found).2 := by
  have hsound := isSound_page options h t errors warnings found houtside
  have hgrown := page_grown options (startFor options.simple t (directory.child file)) errors
    warnings found
  generalize (page options (startFor options.simple t (directory.child file)) errors warnings
    found).2 = copies at hgrown hsound
  cases hgrown with
  | plain hnone => exact .of_none hnone
  | bundled b b' t' hbundle hgrows =>
      obtain rfl := eq_of_startFor hbundle
      exact .of_grows h hgrows hsound

end Report
end ResourceLint
