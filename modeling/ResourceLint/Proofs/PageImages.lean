/-
The images on the pages of a report, once all pages are written.

Each page gives out addresses for the copies of its images, in a folder that is
named after the page up to the first dot.  Two pages can have one folder in this
way, and then the later one puts its copies in place of those of the earlier
one.  So an address leads to the image that it was last given out for
(`leadsTo_of_lastIssued?`): the images of all pages are shown exactly where no
address is given out again for an image with other contents, as it is where no
two pages have one folder.
-/
import ResourceLint.Proofs.Publishing

namespace ResourceLint

namespace Report

open FileTree (ChangedAt)

variable {options : PagesOptions} {found : List Warning} {t u v : FileTree}
  {p : Printing} {ps : List Printing} {url : String} {image : Path}

-- ================================================================ addresses

/-- The file that an address leads to from a directory: the folder there is
written as it is, and the name in it is encoded. -/
def resolve? (directory : Path) (url : String) : Option Path :=
  match Text.cutLast? '/' url.toList with
  | some (folder, name) =>
    (decodeUrl? (String.ofList name)).map (directory.child (String.ofList folder)).child
  | none => none

/-- Whether an address leads to what an image holds. -/
def LeadsTo (u : FileTree) (directory : Path) (url : String) (image : Path) : Prop :=
  ∃ path content, resolve? directory url = some path ∧ u.readBytes path = .ok content
    ∧ u.readBytes image = .ok content

/-- The address of a copy under a name. -/
def copyUrl (file name : String) : String := folderOf file ++ "/" ++ encodeUrl name

theorem cutLast?_copyUrl (file name : String) : Text.cutLast? '/' (copyUrl file name).toList
    = some ((folderOf file).toList, (encodeUrl name).toList) := by
  rw [Text.cutLast?_eq_some_iff]
  refine ⟨?_, slash_not_mem_encodeUrl name⟩
  unfold copyUrl
  rw [String.toList_append, String.toList_append, List.append_assoc]
  rfl

/-- The address of a copy leads to the copy. -/
theorem resolve?_copyUrl (directory : Path) (file name : String) :
    resolve? directory (copyUrl file name) = some ((directory.child (folderOf file)).child name) := by
  unfold resolve?
  rw [cutLast?_copyUrl]
  simp only
  rw [String.ofList_toList, String.ofList_toList, decodeUrl?_encodeUrl]
  rfl

/-- Copies with one address have one folder and one name. -/
theorem copyUrl_injective {file other name name' : String}
    (h : copyUrl file name = copyUrl other name') : folderOf file = folderOf other ∧ name = name' := by
  have hcut := cutLast?_copyUrl file name
  rw [h, cutLast?_copyUrl] at hcut
  obtain ⟨hfolder, hname⟩ := Prod.mk.inj (Option.some.inj hcut)
  exact ⟨(String.toList_inj.mp hfolder).symm, encodeUrl_injective (String.toList_inj.mp hname).symm⟩

-- ================================================================ giving out

/-- The addresses that a page gives out for copies, with their images. -/
def Printing.issued (options : PagesOptions) (p : Printing) : List (Path × String) :=
  (p.result options).2.issued

/-- The image that an address was last given out for. -/
def lastIssued? (options : PagesOptions) : List Printing → String → Option Path
  | [], _ => none
  | p :: ps, url =>
    (lastIssued? options ps url).or (((p.issued options).find? (·.2 == url)).map (·.1))

theorem lastIssued?_eq_none_iff :
    lastIssued? options ps url = none ↔ ∀ p ∈ ps, ∀ entry ∈ p.issued options, entry.2 ≠ url := by
  induction ps with
  | nil => simp [lastIssued?]
  | cons p ps ih =>
      rw [lastIssued?, Option.or_eq_none_iff, ih, Option.map_eq_none_iff, List.find?_eq_none,
        List.forall_mem_cons, and_comm]
      simp

/-- An address was last given out by one of the pages. -/
theorem exists_of_lastIssued? (h : lastIssued? options ps url = some image) :
    ∃ p ∈ ps, (image, url) ∈ p.issued options := by
  induction ps with
  | nil => cases h
  | cons p ps ih =>
      rw [lastIssued?, Option.or_eq_some_iff] at h
      rcases h with hlater | ⟨-, hhere⟩
      · obtain ⟨q, hq, hmem⟩ := ih hlater
        exact ⟨q, List.mem_cons_of_mem _ hq, hmem⟩
      · obtain ⟨entry, hfind, rfl⟩ := Option.map_eq_some_iff.mp hhere
        have hurl : entry.2 = url := by simpa using List.find?_some hfind
        exact ⟨p, List.mem_cons_self, hurl ▸ List.mem_of_find?_eq_some hfind⟩

/-- An address that was given out was last given out for some image. -/
theorem exists_lastIssued? (hp : p ∈ ps) {entry : Path × String} (hentry : entry ∈ p.issued options) :
    ∃ last, lastIssued? options ps entry.2 = some last := by
  cases hlast : lastIssued? options ps entry.2 with
  | some last => exact ⟨last, rfl⟩
  | none => exact absurd rfl (lastIssued?_eq_none_iff.mp hlast p hp entry hentry)

-- =================================================================== a copy

/-- Whether a copy in the folder of a page holds what its image holds, which
lies outside of the directory. -/
structure HasCopy (u : FileTree) (directory : Path) (file name : String) (image : Path) : Prop where
  isFile : Path.IsName file
  isName : Path.IsName name
  outside : ¬ directory.namesFrom u.here <+: image.namesFrom u.here
  bytes : ∃ content, u.readBytes ((directory.child (folderOf file)).child name) = .ok content
    ∧ u.readBytes image = .ok content

section Copy

variable {directory : Path} {file name : String} {places : List String → Prop}

theorem namesFrom_copy (hfile : Path.IsName file) (hname : Path.IsName name) (here : List String) :
    ((directory.child (folderOf file)).child name).namesFrom here
      = copyPlace (directory.namesFrom here) file name := by
  rw [Path.namesFrom_child hname, Path.namesFrom_child (isName_folderOf hfile.2.1),
    List.append_assoc]
  rfl

theorem copyPlace_ne (names : List String) (file name other : String) :
    copyPlace names file name ≠ names ++ [other] := by
  intro heq
  have hlength := congrArg List.length heq
  simp [copyPlace] at hlength

/-- What is changed in the directory, but not in place of the copy, leaves both
alone. -/
theorem HasCopy.of_changedAt (h : HasCopy u directory file name image)
    (hchanged : ChangedAt places u v)
    (hinside : ∀ names, places names → directory.namesFrom u.here <+: names)
    (hplace : ¬ places (copyPlace (directory.namesFrom u.here) file name)) :
    HasCopy v directory file name image := by
  obtain ⟨content, hcopy, himage⟩ := h.bytes
  refine ⟨h.isFile, h.isName, ?_, content, hchanged.readBytes hcopy ?_, hchanged.readBytes himage ?_⟩
  · rw [hchanged.here]
    exact h.outside
  · rwa [namesFrom_copy h.isFile h.isName]
  · intro htaken
    exact h.outside (hinside _ htaken)

/-- The address of a copy leads to what its image holds. -/
theorem HasCopy.leadsTo (h : HasCopy u directory file name image) :
    LeadsTo u directory (copyUrl file name) image := by
  obtain ⟨content, hcopy, himage⟩ := h.bytes
  exact ⟨_, content, resolve?_copyUrl directory file name, hcopy, himage⟩

end Copy

-- ================================================================== one page

/-- Whether the images of findings lie outside a directory. -/
def LieOutside (directory : Path) (here : List String) (found : List Warning) : Prop :=
  ∀ w ∈ found, ∀ place ∈ w.places, isImage place.file →
    ¬ directory.namesFrom here <+: place.file.namesFrom here

namespace Printing

/-- What is known of the copies for a page that was made. -/
theorem copiesHold (hname : Path.IsName p.row.file)
    (houtside : LieOutside options.directory p.opened.here p.findings.warnings) :
    CopiesHold options.directory p.row.file (p.result options).2 :=
  copiesHold_page _ hname _ _ _ _ houtside

/-- Every address is that of a copy. -/
theorem exists_hasCopy (hname : Path.IsName p.row.file)
    (h : CopiesHold options.directory p.row.file (p.result options).2) {entry : Path × String}
    (hentry : entry ∈ p.issued options) : ∃ name, entry.2 = copyUrl p.row.file name
      ∧ HasCopy (p.result options).2.tree options.directory p.row.file name entry.1 := by
  unfold issued at hentry
  rw [h.issued] at hentry
  obtain ⟨copy, hcopy, rfl⟩ := List.mem_map.mp hentry
  exact ⟨copy.1, rfl, hname, h.isName copy hcopy, h.outside copy hcopy, h.bytes copy hcopy⟩

/-- Every copy has its address. -/
theorem issued_of_mem (h : CopiesHold options.directory p.row.file (p.result options).2)
    {copy : String × Path} (hcopy : copy ∈ (p.result options).2.names) :
    (copy.2, copyUrl p.row.file copy.1) ∈ p.issued options := by
  unfold issued
  rw [h.issued]
  exact List.mem_map_of_mem hcopy

/-- One address is given out for one image. -/
theorem eq_of_issued (h : CopiesHold options.directory p.row.file (p.result options).2)
    {a b : Path × String} (ha : a ∈ p.issued options) (hb : b ∈ p.issued options)
    (heq : a.2 = b.2) : a.1 = b.1 := by
  unfold issued at ha hb
  rw [h.issued] at ha hb
  obtain ⟨copy, hcopy, rfl⟩ := List.mem_map.mp ha
  obtain ⟨other, hother, rfl⟩ := List.mem_map.mp hb
  have hnames : copy.1 = other.1 := (copyUrl_injective heq).2
  rw [List.inj_on_of_nodup_map h.nodup hcopy hother hnames]

/-- A page touches nothing outside of the directory. -/
theorem prefix_of_touches {directory names : List String}
    (h : p.Touches options directory names) : directory <+: names := by
  rcases h with rfl | ⟨entry, -, rfl⟩
  · exact List.prefix_append _ _
  · exact List.prefix_append _ _

/-- A page that touches a copy gives out its address. -/
theorem exists_issued_of_touches {directory : List String} {file name : String}
    (h : CopiesHold options.directory p.row.file (p.result options).2)
    (htouches : p.Touches options directory (copyPlace directory file name)) :
    ∃ entry ∈ p.issued options, entry.2 = copyUrl file name := by
  rcases htouches with heq | ⟨copy, hcopy, heq⟩
  · exact absurd heq (copyPlace_ne directory file name p.row.file)
  · unfold copyPlace at heq
    obtain ⟨hfolder, hname⟩ := List.cons.inj (List.append_cancel_left heq)
    refine ⟨_, p.issued_of_mem h hcopy, ?_⟩
    unfold copyUrl
    rw [hfolder, (List.cons.inj hname).1]

end Printing

-- ================================================================= all pages

/-- Pages are made where their report is. -/
theorem Prints.opened_here (h : Prints options t ps v) (hnames : ∀ p ∈ ps, Path.IsName p.row.file) :
    ∀ p ∈ ps, p.opened.here = t.here := by
  induction h with
  | nil t => exact nofun
  | @cons t u v p ps hopen hwrite hrest ih =>
      rw [List.forall_mem_cons] at hnames ⊢
      have hfirst := changedAt_printing hnames.1 hopen hwrite
      refine ⟨(changedAt_openOutput hopen).here, fun q hq => ?_⟩
      rw [ih hnames.2 q hq, hfirst.here]

/-- An address that pages have given out is that of a copy of the image that it
was last given out for. -/
theorem Prints.exists_hasCopy (h : Prints options t ps v)
    (hnames : ∀ p ∈ ps, Path.IsName p.row.file)
    (hhold : ∀ p ∈ ps, CopiesHold options.directory p.row.file (p.result options).2)
    (hlast : lastIssued? options ps url = some image) :
    ∃ file name, url = copyUrl file name ∧ HasCopy v options.directory file name image := by
  induction h with
  | nil t => cases hlast
  | @cons t u v p ps hopen hwrite hrest ih =>
      rw [List.forall_mem_cons] at hnames hhold
      rw [lastIssued?, Option.or_eq_some_iff] at hlast
      rcases hlast with hlater | ⟨hnone, hhere⟩
      · exact ih hnames.2 hhold.2 hlater
      · rw [lastIssued?_eq_none_iff] at hnone
        obtain ⟨entry, hfind, rfl⟩ := Option.map_eq_some_iff.mp hhere
        have hurl : entry.2 = url := by simpa using List.find?_some hfind
        obtain ⟨name, haddress, hcopy⟩ :=
          p.exists_hasCopy hnames.1 hhold.1 (List.mem_of_find?_eq_some hfind)
        refine ⟨p.row.file, name, by rw [← hurl, haddress], ?_⟩
        -- first the page itself is written, and then those behind it
        have hwritten := (changedAt_writeOutput hwrite).1
        have hpage : (p.path options).namesFrom (p.result options).2.tree.here
            = options.directory.namesFrom (p.result options).2.tree.here ++ [p.row.file] :=
          Path.namesFrom_child hnames.1 _
        have hkept : HasCopy u options.directory p.row.file name entry.1 := by
          refine hcopy.of_changedAt hwritten ?_ ?_
          · rintro names rfl
            rw [hpage]
            exact List.prefix_append _ _
          · rw [hpage]
            exact copyPlace_ne _ _ _ _
        refine hkept.of_changedAt (hrest.changedAt hnames.2) ?_ ?_
        · rintro names ⟨q, -, htouches⟩
          exact q.prefix_of_touches htouches
        · -- a page that touched the copy would give out its address again
          rintro ⟨q, hq, htouches⟩
          obtain ⟨again, hagain, heq⟩ := q.exists_issued_of_touches (hhold.2 q hq) htouches
          exact hnone q hq again hagain (by rw [heq, ← haddress, hurl])

-- ================================================================ the report

/-- The pages of a report that is written to a tree. -/
def pagesOf (options : PagesOptions) (found : List Warning) (t : FileTree) : List Printing :=
  match t.makeDirectory options.directory with
  | .ok made => printings options made (pageRows options found)
  | .error _ => []

theorem map_entry_pagesOf (h : perform t (writePages options found) = (none, u)) :
    (pagesOf options found t).map Printing.entry = pageRows options found := by
  obtain ⟨made, -, -, hmake, -⟩ := exists_run h
  unfold pagesOf
  rw [hmake]
  exact map_entry_printings options made _

/-- The findings of a page are findings of the report. -/
theorem mem_of_mem_pageRows {entry : ProjectFindings × ProjectSummary}
    (h : entry ∈ pageRows options found) : ∀ w ∈ entry.1.warnings, w ∈ found := by
  have hproject : entry.1 ∈ byProject options.projects found :=
    map_fst_pageRows options found ▸ List.mem_map_of_mem h
  obtain ⟨project, -, heq⟩ := mem_byProject.mp hproject
  rw [heq]
  exact fun w hw => List.mem_of_mem_filter hw

/-- What is known of the copies for the pages of a report. -/
theorem copiesHold_of_mem_pagesOf (h : perform t (writePages options found) = (none, u))
    (houtside : LieOutside options.directory t.here found) :
    ∀ p ∈ pagesOf options found t, Path.IsName p.row.file
      ∧ CopiesHold options.directory p.row.file (p.result options).2 := by
  have hentries := map_entry_pagesOf h
  obtain ⟨made, written, -, hmake, hprints, -⟩ := exists_run h
  have hpages : pagesOf options found t = printings options made (pageRows options found) := by
    unfold pagesOf
    rw [hmake]
  intro p hp
  have hrow : p.entry ∈ pageRows options found := hentries ▸ List.mem_map_of_mem hp
  have hnames : ∀ q ∈ pagesOf options found t, Path.IsName q.row.file := by
    intro q hq
    have hother : q.entry ∈ pageRows options found := hentries ▸ List.mem_map_of_mem hq
    exact isName_of_mem_pageRows hother
  refine ⟨hnames p hp, p.copiesHold (hnames p hp) fun w hw => ?_⟩
  rw [hpages] at hp hnames
  rw [hprints.opened_here hnames p hp, (FileTree.changedAt_makeDirectory hmake).here]
  exact houtside w (mem_of_mem_pageRows hrow w hw)

/-- An address leads to the image that it was last given out for. -/
theorem leadsTo_of_lastIssued? (h : perform t (writePages options found) = (none, u))
    (houtside : LieOutside options.directory t.here found)
    (hlast : lastIssued? options (pagesOf options found t) url = some image) :
    LeadsTo u options.directory url image := by
  have hhold := copiesHold_of_mem_pagesOf h houtside
  obtain ⟨made, written, opened, hmake, hprints, hopen, hindex⟩ := exists_run h
  have hpages : pagesOf options found t = printings options made (pageRows options found) := by
    unfold pagesOf
    rw [hmake]
  rw [hpages] at hhold hlast
  obtain ⟨file, name, rfl, hcopy⟩ := hprints.exists_hasCopy (fun p hp => (hhold p hp).1)
    (fun p hp => (hhold p hp).2) hlast
  -- the index is in the directory itself
  have hindexName : Path.IsName (pageFile indexStem) := by decide
  have hplace : ∀ here, (indexPath options.directory).namesFrom here
      = options.directory.namesFrom here ++ [pageFile indexStem] :=
    Path.namesFrom_child hindexName
  have hkept : ∀ {v w : FileTree}, HasCopy v options.directory file name image →
      ChangedAt (· = (indexPath options.directory).namesFrom v.here) v w →
        HasCopy w options.directory file name image := by
    intro v w hv hchanged
    refine hv.of_changedAt hchanged ?_ ?_
    · rintro names rfl
      rw [hplace]
      exact List.prefix_append _ _
    · rw [hplace]
      exact copyPlace_ne _ _ _ _
  exact (hkept (hkept hcopy (changedAt_openOutput hopen)) (changedAt_writeOutput hindex).1).leadsTo

/-- Whether the addresses on all pages lead to what their images hold. -/
def AllLead (options : PagesOptions) (u : FileTree) (pages : List Printing) : Prop :=
  ∀ p ∈ pages, ∀ entry ∈ p.issued options, LeadsTo u options.directory entry.2 entry.1

/-- Whether no address was given out again for an image with other contents. -/
def NoneReplaced (options : PagesOptions) (u : FileTree) (pages : List Printing) : Prop :=
  ∀ p ∈ pages, ∀ entry ∈ p.issued options, ∀ last,
    lastIssued? options pages entry.2 = some last → u.readBytes last = u.readBytes entry.1

/-- The images of all pages are shown exactly if no copy was put in place of
another one with other contents, as it is where no two pages have one folder. -/
theorem allLead_writePages_iff (h : perform t (writePages options found) = (none, u))
    (houtside : LieOutside options.directory t.here found) :
    (AllLead options u (pagesOf options found t) ↔ NoneReplaced options u (pagesOf options found t))
      ∧ (((pagesOf options found t).map fun p => folderOf p.row.file).Nodup →
        AllLead options u (pagesOf options found t)) := by
  have hlast : ∀ {url image}, lastIssued? options (pagesOf options found t) url = some image →
      LeadsTo u options.directory url image := fun hurl => leadsTo_of_lastIssued? h houtside hurl
  have hhold := copiesHold_of_mem_pagesOf h houtside
  refine ⟨⟨fun hall p hp entry hentry last hurl => ?_, fun hnone p hp entry hentry => ?_⟩,
    fun hfolders p hp entry hentry => ?_⟩
  · obtain ⟨path, content, hpath, hcopy, himage⟩ := hlast hurl
    obtain ⟨path', content', hpath', hcopy', himage'⟩ := hall p hp entry hentry
    obtain rfl := Option.some.inj (hpath.symm.trans hpath')
    obtain rfl := Except.ok.inj (hcopy.symm.trans hcopy')
    rw [himage, himage']
  · obtain ⟨last, hurl⟩ := exists_lastIssued? hp hentry
    obtain ⟨path, content, hpath, hcopy, himage⟩ := hlast hurl
    exact ⟨path, content, hpath, hcopy, by rw [← hnone p hp entry hentry last hurl, himage]⟩
  · obtain ⟨last, hurl⟩ := exists_lastIssued? hp hentry
    obtain ⟨q, hq, hagain⟩ := exists_of_lastIssued? hurl
    obtain ⟨name, haddress, -⟩ := p.exists_hasCopy (hhold p hp).1 (hhold p hp).2 hentry
    obtain ⟨name', haddress', -⟩ := q.exists_hasCopy (hhold q hq).1 (hhold q hq).2 hagain
    have hsame : folderOf p.row.file = folderOf q.row.file :=
      (copyUrl_injective (haddress.symm.trans haddress')).1
    -- pages of different folders issue no address of each other
    obtain rfl : p = q := List.inj_on_of_nodup_map hfolders hp hq hsame
    have heq := p.eq_of_issued (hhold p hp).2 hentry hagain rfl
    rw [heq]
    exact hlast hurl

/-- An image in each of two projects, under one name. -/
def twoImages : FileTree :=
  { here := []
    entries :=
      [(["a"], .directory),
        (["a", "icon.png"], .file "one".toUTF8),
        (["b"], .directory),
        (["b", "icon.png"], .file "two".toUTF8)] }

/-- Pages of two projects that show images. -/
def imagePages (name other : String) : PagesOptions := { pairPages name other with simple := false }

/-- A finding about the image of a project. -/
def imageFound (directory : String) : Warning :=
  { Warning.new (.new "IconDensities" "" "" .icons 4 .warning .empty) "here" .warning with
    projectDirectory := some ⟨directory⟩, places := [.ofFile (.child ⟨directory⟩ "icon.png")] }

/-- Two projects whose pages have folders of their own. -/
theorem allLead_ownFolders : ∃ u,
    perform twoImages (writePages (imagePages "app" "lib") [imageFound "/a", imageFound "/b"])
        = (none, u)
      ∧ ((pagesOf (imagePages "app" "lib") [imageFound "/a", imageFound "/b"] twoImages).map
        fun p => p.issued (imagePages "app" "lib"))
          = [[(⟨"/a/icon.png"⟩, "app_files/icon.png")], [(⟨"/b/icon.png"⟩, "lib_files/icon.png")]]
      ∧ AllLead (imagePages "app" "lib") u
        (pagesOf (imagePages "app" "lib") [imageFound "/a", imageFound "/b"] twoImages) := by
  have hnone : (perform twoImages
      (writePages (imagePages "app" "lib") [imageFound "/a", imageFound "/b"])).1 = none := by
    decide +kernel
  have houtside : LieOutside (imagePages "app" "lib").directory twoImages.here
      [imageFound "/a", imageFound "/b"] := by
    unfold LieOutside
    decide +kernel
  refine ⟨_, perform_eq hnone, by decide +kernel,
    (allLead_writePages_iff (perform_eq hnone) houtside).2 (by decide +kernel)⟩

/-- Two projects whose pages have one folder, where an image is put in place of
another one. -/
theorem not_allLead_sharedFolder : ¬ ∀ (options : PagesOptions) (found : List Warning)
    (t u : FileTree), perform t (writePages options found) = (none, u) →
      LieOutside options.directory t.here found → AllLead options u (pagesOf options found t) := by
  intro h
  have hnone : (perform twoImages
      (writePages (imagePages "app.one" "app.two") [imageFound "/a", imageFound "/b"])).1 = none := by
    decide +kernel
  have houtside : LieOutside (imagePages "app.one" "app.two").directory twoImages.here
      [imageFound "/a", imageFound "/b"] := by
    unfold LieOutside
    decide +kernel
  have hall := h (imagePages "app.one" "app.two") [imageFound "/a", imageFound "/b"] twoImages _
    (perform_eq hnone) houtside
  generalize hu : (perform twoImages
    (writePages (imagePages "app.one" "app.two") [imageFound "/a", imageFound "/b"])).2 = u at hall
  -- the address of the first page would have to lead to its own image
  have hbytes : ∀ p ∈ pagesOf (imagePages "app.one" "app.two") [imageFound "/a", imageFound "/b"]
      twoImages, ∀ entry ∈ p.issued (imagePages "app.one" "app.two"),
        (resolve? (imagePages "app.one" "app.two").directory entry.2).map
          (fun path => (u.readBytes path).toOption) = some (u.readBytes entry.1).toOption := by
    intro p hp entry hentry
    obtain ⟨path, content, hpath, hcopy, himage⟩ := hall p hp entry hentry
    rw [hpath, Option.map_some, hcopy, himage]
  subst hu
  revert hbytes
  decide +kernel

end Report
end ResourceLint
