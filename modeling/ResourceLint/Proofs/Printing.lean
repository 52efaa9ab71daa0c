/-
The pages of a multi-page report, one after the other.

Each page is opened, made, which may copy images, and written (`Prints`).
Only its file and its copies change meanwhile (`Prints.changedAt`), and since
the files of pages are in the directory itself and the copies in folders of it,
no page is written over: all can be read in the end (`Prints.readBytes`).
-/
import ResourceLint.Proofs.PageCopies
import ResourceLint.Report.Pages

namespace ResourceLint

namespace Report

open FileTree (ChangedAt)

variable {options : PagesOptions} {t u v : FileTree}

-- ================================================================= one page

/-- How the page of a row is made. -/
def optionsFor (options : PagesOptions) (row : ProjectSummary) : PageOptions :=
  { title := "Lint Report for " ++ row.name, simple := options.simple, urls := options.urls
    paths := options.paths, time := options.time }

/-- A page that is written: what it shows, its row, and the tree that it is
made in. -/
structure Printing where
  findings : ProjectFindings
  row : ProjectSummary
  opened : FileTree

namespace Printing

/-- The project and the row. -/
def entry (p : Printing) : ProjectFindings × ProjectSummary := (p.findings, p.row)

def path (options : PagesOptions) (p : Printing) : Path := options.directory.child p.row.file

/-- The text of the page, and the copies of its images. -/
def result (options : PagesOptions) (p : Printing) : String × Copies :=
  page (optionsFor options p.row) (startFor options.simple p.opened (p.path options)) p.row.errors
    p.row.warnings p.findings.warnings

/-- Whether names are those of the page or of one of its copies, where the
directory has the given ones. -/
def Touches (options : PagesOptions) (directory : List String) (p : Printing)
    (names : List String) : Prop :=
  names = directory ++ [p.row.file]
    ∨ ∃ entry ∈ (p.result options).2.names, names = copyPlace directory p.row.file entry.1

end Printing

/-- Pages that are written one after the other. -/
inductive Prints (options : PagesOptions) : FileTree → List Printing → FileTree → Prop
  | nil (t : FileTree) : Prints options t [] t
  | cons {t u v : FileTree} {p : Printing} {ps : List Printing}
      (hopen : perform t (openOutput (p.path options)) = (none, p.opened))
      (hwrite : perform (p.result options).2.tree
        (writeOutput (p.path options) (p.result options).1) = (none, u))
      (hrest : Prints options u ps v) : Prints options t (p :: ps) v

theorem perform_get_set (t : FileTree) (make : FileTree → String × FileTree)
    (next : String → ExceptT WriteFault (StateM FileTree) Unit) :
    perform t (do
      let (content, t) := make (← get)
      set t
      next content) = perform (make t).2 (next (make t).1) := rfl

/-- A page does not fail if it can be opened and written. -/
theorem perform_writePage_eq_none_iff {findings : ProjectFindings} {row : ProjectSummary} :
    perform t (writePage options findings row) = (none, u)
      ↔ ∃ opened, perform t (openOutput (options.directory.child row.file)) = (none, opened)
        ∧ perform ((Printing.mk findings row opened).result options).2.tree
          (writeOutput (options.directory.child row.file)
            ((Printing.mk findings row opened).result options).1) = (none, u) := by
  unfold writePage
  rw [perform_bind_eq_none_iff]
  refine exists_congr fun opened => and_congr_right fun _ => ?_
  have hmake := perform_get_set opened
    (fun t => pageFor (optionsFor options row) t (options.directory.child row.file) row.errors
      row.warnings findings.warnings) (writeOutput (options.directory.child row.file))
  exact iff_of_eq (congrArg (· = (none, u)) hmake)

/-- The pages of some rows, as far as each can be opened and written. -/
def printings (options : PagesOptions) (t : FileTree) :
    List (ProjectFindings × ProjectSummary) → List Printing
  | [] => []
  | entry :: rows =>
    ⟨entry.1, entry.2, (perform t (openOutput (options.directory.child entry.2.file))).2⟩
      :: printings options (perform t (writePage options entry.1 entry.2)).2 rows

theorem map_entry_printings (options : PagesOptions) (t : FileTree)
    (rows : List (ProjectFindings × ProjectSummary)) :
    (printings options t rows).map Printing.entry = rows := by
  induction rows generalizing t with
  | nil => rfl
  | cons entry rows ih =>
      have hrest := ih (perform t (writePage options entry.1 entry.2)).2
      rw [printings, List.map_cons, hrest]
      rfl

/-- A writing that does not fail writes all pages. -/
theorem prints_printings {rows : List (ProjectFindings × ProjectSummary)}
    (h : perform t (rows.forM fun entry => writePage options entry.1 entry.2) = (none, v)) :
    Prints options t (printings options t rows) v := by
  induction rows generalizing t with
  | nil =>
      cases h
      exact .nil _
  | cons entry rows ih =>
      have hcons : perform t (do
          writePage options entry.1 entry.2
          rows.forM fun entry => writePage options entry.1 entry.2) = (none, v) := h
      obtain ⟨u, hpage, hrest⟩ := perform_bind_eq_none_iff.mp hcons
      obtain ⟨opened, hopen, hwrite⟩ := perform_writePage_eq_none_iff.mp hpage
      rw [printings, hpage, hopen]
      exact .cons hopen hwrite (ih hrest)

-- ============================================================ what is changed

section Frame

variable {p : Printing} {ps : List Printing}

/-- The files that one page changes. -/
theorem changedAt_printing (hname : Path.IsName p.row.file)
    (hopen : perform t (openOutput (p.path options)) = (none, p.opened))
    (hwrite : perform (p.result options).2.tree
      (writeOutput (p.path options) (p.result options).1) = (none, u)) :
    ChangedAt (p.Touches options (options.directory.namesFrom t.here)) t u := by
  have hplace : (p.path options).namesFrom t.here
      = options.directory.namesFrom t.here ++ [p.row.file] := Path.namesFrom_child hname t.here
  have hopened := changedAt_openOutput hopen
  have hmade : ChangedAt (fun names => ∃ entry ∈ (p.result options).2.names,
      names = copyPlace (options.directory.namesFrom p.opened.here) p.row.file entry.1)
      p.opened (p.result options).2.tree := changedAt_page _ hname _ _ _ _
  have hwritten := (changedAt_writeOutput hwrite).1
  refine (hopened.mono ?_).trans ((hmade.mono ?_).trans (hwritten.mono ?_))
  · rintro names rfl
    exact .inl hplace
  · rintro names ⟨entry, hentry, rfl⟩
    exact .inr ⟨entry, hentry, by rw [hopened.here]⟩
  · rintro names rfl
    rw [hmade.namesFrom, hopened.namesFrom]
    exact .inl hplace

/-- The files that pages change. -/
theorem Prints.changedAt (h : Prints options t ps v) (hnames : ∀ p ∈ ps, Path.IsName p.row.file) :
    ChangedAt (fun names => ∃ p ∈ ps,
      p.Touches options (options.directory.namesFrom t.here) names) t v := by
  induction h with
  | nil t => exact .refl _ t
  | @cons t u v p ps hopen hwrite hrest ih =>
      rw [List.forall_mem_cons] at hnames
      have hfirst := changedAt_printing hnames.1 hopen hwrite
      have hlater := ih hnames.2
      rw [hfirst.namesFrom] at hlater
      refine (hfirst.mono fun names hnames => ?_).trans (hlater.mono fun names hnames => ?_)
      · exact ⟨p, List.mem_cons_self, hnames⟩
      · obtain ⟨q, hq, htouches⟩ := hnames
        exact ⟨q, List.mem_cons_of_mem _ hq, htouches⟩

/-- A page touches no file in the directory but its own. -/
theorem Printing.not_touches {file : String} (h : file ≠ p.row.file) (directory : List String) :
    ¬ p.Touches options directory (directory ++ [file]) := by
  rintro (heq | ⟨entry, -, heq⟩)
  · exact h (List.cons.inj (List.append_cancel_left heq)).1
  · have hlength := congrArg List.length heq
    simp [copyPlace] at hlength

/-- A file that is none of the pages is read as before. -/
theorem Prints.readBytes_of_ne (h : Prints options t ps v)
    (hnames : ∀ p ∈ ps, Path.IsName p.row.file) {file : String} (hfile : Path.IsName file)
    (hne : ∀ p ∈ ps, file ≠ p.row.file) {content : ByteArray}
    (hread : t.readBytes (options.directory.child file) = .ok content) :
    v.readBytes (options.directory.child file) = .ok content := by
  refine (h.changedAt hnames).readBytes hread ?_
  rintro ⟨p, hp, htouches⟩
  rw [Path.namesFrom_child hfile] at htouches
  exact p.not_touches (hne p hp) _ htouches

/-- All pages can be read in the end. -/
theorem Prints.readBytes (h : Prints options t ps v) (hnames : ∀ p ∈ ps, Path.IsName p.row.file)
    (hnodup : (ps.map (·.row.file)).Nodup) :
    ∀ p ∈ ps, v.readBytes (p.path options) = .ok (p.result options).1.toUTF8 := by
  induction h with
  | nil t => exact nofun
  | @cons t u v p ps hopen hwrite hrest ih =>
      rw [List.forall_mem_cons] at hnames ⊢
      rw [List.map_cons, List.nodup_cons] at hnodup
      refine ⟨hrest.readBytes_of_ne hnames.2 hnames.1 (fun q hq heq => ?_)
        (changedAt_writeOutput hwrite).2, ih hnames.2 hnodup.2⟩
      exact hnodup.1 (heq ▸ List.mem_map_of_mem hq)

end Frame

end Report
end ResourceLint
