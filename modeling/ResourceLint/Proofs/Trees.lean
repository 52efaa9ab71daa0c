/-
Lookups in a file tree.

A lookup that succeeds ends at the names that the components of the path
spell (`locate_eq_namesFrom`), so what a file holds does not depend on how
its path is written (`readText_congr_same`).  Whether it succeeds may depend
on that, but not below a directory: children of paths that are the same are
found alike (`find_child_congr`).  Lookups are chains of steps that may fail,
and `bind_eq_ok_iff` takes such a chain apart.

# The shape of a tree

Everything but the bytes of a file follows from the shape of the tree: the
names of its entries and whether each is a file.  A tree locates and walks
like its `shape` and divides requests into the same projects.  Trees that
`AgreeOutside` some file names have one shape and moreover the same text in
every other file; this is how two trees are compared that differ in their
settings only.

# Well formed trees

`WellFormed` is what a directory structure on a disk guarantees: entries
have proper names, each under one name only, and each lies in a directory
that has an entry itself.  In such a tree the canonical path of an entry
leads to it (`find_ofNames`).
-/
import Mathlib.Data.List.Forall2
import Mathlib.Data.List.Induction
import Mathlib.Data.List.Nodup
import ResourceLint.FileTree
import ResourceLint.Proofs.Paths
import ResourceLint.Project

namespace ResourceLint

-- =================================================== results that may fail

/-- What is done in two steps gives something if both of them do. -/
theorem bind_eq_ok_iff {ε α β : Type} {x : Except ε α} {f : α → Except ε β} {b : β} :
    (x >>= f) = .ok b ↔ ∃ a, x = .ok a ∧ f a = .ok b := by
  cases x with
  | error e => exact iff_of_false (fun h => nomatch h) fun ⟨_, h, _⟩ => nomatch h
  | ok a =>
      refine ⟨fun h => ⟨a, rfl, h⟩, ?_⟩
      rintro ⟨_, ha, h⟩
      cases ha
      exact h

/-- Another error makes no other success. -/
theorem mapError_eq_ok_iff {ε ε' α : Type} {x : Except ε α} {f : ε → ε'} {a : α} :
    x.mapError f = .ok a ↔ x = .ok a := by
  cases x <;> simp [Except.mapError]

namespace FileTree

open ResourceLint.Path (IsName)

variable {t u : FileTree}

-- ====================================================== where a path leads

/-- One step of a lookup goes where the step of the path goes. -/
theorem eq_of_step {names after : List String} {piece : List Char}
    (h : t.step names piece = .ok after) :
    after = (Path.stepOf? piece).toList.foldl Path.stepFrom names := by
  unfold step at h
  split at h
  · cases h
  · cases h
  · cases hs : Path.stepOf? piece with
    | none =>
        simp only [hs, Except.ok.injEq] at h
        exact h.symm
    | some s =>
        rcases Path.eq_of_stepOf? hs with rfl | ⟨text, rfl⟩
        · simp only [hs, Except.ok.injEq] at h
          exact h.symm
        · simp only [hs, Except.ok.injEq] at h
          exact h.symm

/-- A lookup of pieces in order follows their steps. -/
theorem eq_of_foldlM_step {pieces : List (List Char)} :
    ∀ {names after : List String}, pieces.foldlM t.step names = .ok after →
      after = (pieces.filterMap Path.stepOf?).foldl Path.stepFrom names := by
  induction pieces with
  | nil =>
      intro names after h
      cases h
      rfl
  | cons piece pieces ih =>
      intro names after h
      rw [List.foldlM_cons] at h
      obtain ⟨next, hs, hrest⟩ := bind_eq_ok_iff.mp h
      rw [ih hrest, eq_of_step hs]
      cases hstep : Path.stepOf? piece with
      | none => rw [List.filterMap_cons_none hstep]; rfl
      | some s => rw [List.filterMap_cons_some hstep]; rfl

/-- Pieces that denote nothing may be left out in front. -/
theorem filterMap_dropWhile_isEmpty (pieces : List (List Char)) :
    (pieces.dropWhile (·.isEmpty)).filterMap Path.stepOf? = pieces.filterMap Path.stepOf? := by
  induction pieces with
  | nil => rfl
  | cons piece pieces ih =>
      cases piece with
      | nil =>
          have hnone : Path.stepOf? [] = none := rfl
          rw [List.dropWhile_cons_of_pos rfl, ih, List.filterMap_cons_none hnone]
      | cons c piece => rw [List.dropWhile_cons_of_neg (by simp)]

/-- The names that a path spells, step by step. -/
theorem namesFrom_eq (here : List String) (p : Path) :
    p.namesFrom here
      = (Path.steps p.text.toList).foldl Path.stepFrom (if p.isAbsolute then [] else here) := by
  have hhead : (Path.headOf (Path.splitHead p.text.toList).1).foldl Path.stepFrom here
      = if p.isAbsolute then [] else here := by
    unfold Path.isAbsolute
    generalize p.text.toList = s
    fun_cases Path.splitHead s with
    | case1 => rfl
    | case2 => rfl
    | case3 => rfl
    | case4 body hslash =>
        rw [if_neg]
        · rfl
        · intro hhead
          obtain ⟨rest, hrest⟩ := List.head?_eq_some_iff.mp (by simpa using hhead)
          exact hslash rest hrest
  unfold Path.namesFrom
  rw [Path.components_eq, List.foldl_append, hhead, Path.steps_splitHead]

/-- A lookup ends at the names that the components of the path spell. -/
theorem locate_eq_namesFrom {p : Path} {names : List String} (h : t.locate p = .ok names) :
    names = p.namesFrom t.here := by
  unfold locate at h
  split at h
  · cases h
  · have hfold := eq_of_foldlM_step h
    rw [filterMap_dropWhile_isEmpty] at hfold
    rw [hfold, namesFrom_eq]
    rfl

/-- Paths that are the same lead to the same names, where they lead
anywhere. -/
theorem locate_congr_same {p q : Path} {a b : List String} (h : p.same q)
    (hp : t.locate p = .ok a) (hq : t.locate q = .ok b) : a = b := by
  have hcomp : p.components = q.components := by simpa [Path.same] using h
  rw [locate_eq_namesFrom hp, locate_eq_namesFrom hq, Path.namesFrom, Path.namesFrom, hcomp]

/-- A lookup of a path with a file name ends at that name. -/
theorem getLast?_of_locate {p : Path} {names : List String} {name : String}
    (h : t.locate p = .ok names) (hname : p.fileName? = some name) :
    names.getLast? = some name := by
  rw [Path.fileName?_eq_getLast?, Option.bind_eq_some_iff] at hname
  obtain ⟨last, hlast, hname⟩ := hname
  obtain ⟨before, hbefore⟩ := List.getLast?_eq_some_iff.mp hlast
  have hlast : last = .name name := by
    cases last <;> simp_all [Path.Component.name?]
  rw [locate_eq_namesFrom h, Path.namesFrom, hbefore, List.foldl_append, hlast]
  exact List.getLast?_concat

/-- What a lookup finds is what stands under the names it ends at. -/
theorem find_eq_ok_iff {p : Path} {names : List String} {entry : Entry} :
    t.find p = .ok (names, entry) ↔ t.locate p = .ok names ∧ t.entry? names = some entry := by
  unfold find
  rw [bind_eq_ok_iff]
  constructor
  · rintro ⟨found, hlocate, h⟩
    split at h
    · next hentry =>
        cases h
        exact ⟨hlocate, hentry⟩
    · cases h
  · rintro ⟨hlocate, hentry⟩
    exact ⟨names, hlocate, by rw [hentry]⟩

/-- The bytes that can be read are those of a file that is found. -/
theorem readBytes_eq_ok_iff_exists {p : Path} {content : ByteArray} :
    t.readBytes p = .ok content ↔ ∃ names, t.find p = .ok (names, .file content) := by
  unfold readBytes
  rw [bind_eq_ok_iff]
  constructor
  · rintro ⟨⟨names, entry⟩, hfind, h⟩
    cases entry with
    | directory => cases h
    | file old =>
        cases h
        exact ⟨names, hfind⟩
  · rintro ⟨names, hfind⟩
    exact ⟨_, hfind, rfl⟩

/-- The text of a file that can be read. -/
theorem readText_eq_ok_iff {p : Path} {text : String} :
    t.readText p = .ok text ↔
      ∃ names content, t.find p = .ok (names, .file content)
        ∧ String.fromUTF8? content = some text := by
  unfold readText
  rw [bind_eq_ok_iff]
  constructor
  · rintro ⟨content, hbytes, h⟩
    obtain ⟨names, hfind⟩ := readBytes_eq_ok_iff_exists.mp hbytes
    split at h
    · next htext =>
        cases h
        exact ⟨names, content, hfind, htext⟩
    · cases h
  · rintro ⟨names, content, hfind, htext⟩
    exact ⟨content, readBytes_eq_ok_iff_exists.mpr ⟨names, hfind⟩, by rw [htext]⟩

/-- What a file holds does not depend on how its path is written. -/
theorem readText_congr_same {p q : Path} {a b : String} (h : p.same q)
    (hp : t.readText p = .ok a) (hq : t.readText q = .ok b) : a = b := by
  obtain ⟨names, content, hfind, htext⟩ := readText_eq_ok_iff.mp hp
  obtain ⟨names', content', hfind', htext'⟩ := readText_eq_ok_iff.mp hq
  obtain ⟨hl, he⟩ := find_eq_ok_iff.mp hfind
  obtain ⟨hl', he'⟩ := find_eq_ok_iff.mp hfind'
  rw [locate_congr_same h hl hl', he'] at he
  injection he with he
  injection he with he
  rw [he, htext] at htext'
  exact Option.some.inj htext'

-- =============================================================== children

/-- One step of a lookup, given as the component of a path. -/
def enter (t : FileTree) (names : List String) (c : Path.Component) :
    Except FileError (List String) :=
  match t.entry? names with
  | none => .error .notFound
  | some (.file _) => .error .notADirectory
  | some .directory => .ok (Path.stepFrom names c)

/-- One piece of a path that is a step enters as that step does. -/
theorem step_of_stepOf? {piece : List Char} {c : Path.Component}
    (h : Path.stepOf? piece = some c) (names : List String) :
    t.step names piece = t.enter names c := by
  unfold step enter
  rcases Path.eq_of_stepOf? h with rfl | ⟨text, rfl⟩ <;> rw [h] <;> rfl

/-- An idle piece asks for nothing that a step after it does not ask for. -/
theorem step_bind_enter {piece : List Char} (h : Path.stepOf? piece = none) (names : List String)
    (c : Path.Component) : (t.step names piece >>= (t.enter · c)) = t.enter names c := by
  unfold step
  rw [h]
  cases hentry : t.entry? names with
  | none => simp [enter, hentry, bind, Except.bind]
  | some entry => cases entry <;> simp [enter, hentry, bind, Except.bind]

/-- A lookup of pieces that end in a step goes by the steps alone. -/
theorem foldlM_step_concat {before : List (List Char)} {last : List Char} {c : Path.Component}
    (h : Path.stepOf? last = some c) (names : List String) :
    (before ++ [last]).foldlM t.step names
      = (before.filterMap Path.stepOf? ++ [c]).foldlM t.enter names := by
  induction before generalizing names with
  | nil =>
      rw [List.nil_append, List.filterMap_nil, List.nil_append, List.foldlM_cons, List.foldlM_cons,
        step_of_stepOf? h]
      rfl
  | cons piece before ih =>
      rw [List.cons_append, List.foldlM_cons]
      cases hpiece : Path.stepOf? piece with
      | none =>
          rw [List.filterMap_cons_none hpiece]
          obtain ⟨first, rest, hsteps⟩ := List.exists_cons_of_ne_nil
            (List.append_ne_nil_of_right_ne_nil (before.filterMap Path.stepOf?)
              (List.cons_ne_nil c []))
          simp only [ih, hsteps, List.foldlM_cons]
          rw [← step_bind_enter hpiece names first, bind_assoc]
      | some step =>
          rw [List.filterMap_cons_some hpiece, List.cons_append, List.foldlM_cons,
            step_of_stepOf? hpiece]
          simp only [ih]

/-- The pieces of a child are its name and pieces with the steps of the
directory. -/
theorem exists_splitAt_child (p : Path) {name : String} (h : IsName name) :
    ∃ before, Text.splitAt '/' (p.child name).text.toList = before ++ [name.toList]
      ∧ before.filterMap Path.stepOf? = Path.steps p.text.toList := by
  rw [Path.child_toList h]
  split
  · next hidle =>
      rcases hidle with hnil | hlast
      · refine ⟨[], ?_, by rw [hnil]; rfl⟩
        rw [hnil, List.nil_append, Text.splitAt_of_not_mem h.2.1]
        rfl
      · obtain ⟨s, hs⟩ := List.getLast?_eq_some_iff.mp hlast
        refine ⟨Text.splitAt '/' s, ?_, ?_⟩
        · rw [hs, List.append_assoc, List.singleton_append, Text.splitAt_append_cons,
            Text.splitAt_of_not_mem h.2.1]
        · rw [hs, Path.steps_append_slash, Path.steps_nil, List.append_nil]
          rfl
  · refine ⟨Text.splitAt '/' p.text.toList, ?_, rfl⟩
    rw [List.append_assoc, List.singleton_append, Text.splitAt_append_cons,
      Text.splitAt_of_not_mem h.2.1]

/-- A lookup of a child follows the components of the directory. -/
theorem locate_child (t : FileTree) (p : Path) {name : String} (h : IsName name) :
    t.locate (p.child name)
      = (Path.steps p.text.toList ++ [Path.Component.name name]).foldlM t.enter
        (if p.isAbsolute then [] else t.here) := by
  obtain ⟨before, hpieces, hsteps⟩ := exists_splitAt_child p h
  -- a name is no empty piece, so nothing of it is dropped
  have hdrop : (before ++ [name.toList]).dropWhile (·.isEmpty)
      = before.dropWhile (·.isEmpty) ++ [name.toList] := by
    have hname : name.toList.isEmpty = false := by simpa using h.toList_ne_nil
    rw [List.dropWhile_append]
    split
    · next hempty =>
        rw [List.isEmpty_iff.mp hempty, List.dropWhile_cons_of_neg (by simp [hname])]
        rfl
    · rfl
  have hsome : (p.child name).text.isEmpty = false := by
    obtain ⟨lead, hlead⟩ := Path.child_toList_suffix p name
    rw [String.isEmpty_eq_false_iff]
    intro hempty
    rw [hempty] at hlead
    exact h.toList_ne_nil (List.append_eq_nil_iff.mp hlead.symm).2
  unfold locate
  rw [if_neg (by simp [hsome])]
  simp only
  rw [hpieces, hdrop, foldlM_step_concat h.stepOf?, filterMap_dropWhile_isEmpty, hsteps,
    Path.isAbsolute_child p h]

/-- The children of paths that are the same are found alike. -/
theorem find_child_congr (t : FileTree) {p q : Path} (h : p.same q) {name : String}
    (hname : IsName name) : t.find (p.child name) = t.find (q.child name) := by
  have hcomponents : p.components = q.components := by simpa [Path.same] using h
  unfold find
  rw [locate_child t p hname, locate_child t q hname, Path.steps_eq_filter_components p,
    Path.steps_eq_filter_components q, Path.isAbsolute_eq_head?_components p,
    Path.isAbsolute_eq_head?_components q, hcomponents]

/-- A lookup that succeeds goes by the steps alone. -/
theorem foldlM_enter_of_foldlM_step {pieces : List (List Char)} {names after : List String}
    (h : pieces.foldlM t.step names = .ok after) :
    (pieces.filterMap Path.stepOf?).foldlM t.enter names = .ok after := by
  induction pieces generalizing names with
  | nil => exact h
  | cons piece pieces ih =>
      rw [List.foldlM_cons] at h
      obtain ⟨next, hs, hrest⟩ := bind_eq_ok_iff.mp h
      cases hpiece : Path.stepOf? piece with
      | none =>
          have hstays : next = names := by
            rw [eq_of_step hs, hpiece]
            rfl
          rw [List.filterMap_cons_none hpiece]
          exact ih (hstays ▸ hrest)
      | some c =>
          rw [List.filterMap_cons_some hpiece, List.foldlM_cons, ← step_of_stepOf? hpiece, hs]
          exact ih hrest

/-- The children of a directory are found under its names. -/
theorem find_child_of_find {p : Path} {names : List String}
    (h : t.find p = .ok (names, .directory)) {name : String} (hname : IsName name) :
    t.find (p.child name)
      = match t.entry? (names ++ [name]) with
        | some entry => .ok (names ++ [name], entry)
        | none => .error .notFound := by
  obtain ⟨hlocate, hentry⟩ := find_eq_ok_iff.mp h
  have hchild : t.locate (p.child name) = .ok (names ++ [name]) := by
    -- the steps to the directory come first, then one more
    rw [locate_child t p hname, List.foldlM_append]
    unfold locate at hlocate
    split at hlocate
    · cases hlocate
    · have hsteps := foldlM_enter_of_foldlM_step hlocate
      rw [filterMap_dropWhile_isEmpty] at hsteps
      change (Path.steps p.text.toList).foldlM t.enter _ = _ at hsteps
      rw [hsteps]
      change ([Path.Component.name name]).foldlM t.enter names = _
      rw [List.foldlM_cons]
      unfold enter
      rw [hentry]
      rfl
  unfold find
  rw [hchild]
  rfl

-- ================================================== the shape of a tree

/-- An entry of which only the kind is left. -/
def Entry.blank : Entry → Entry
  | .directory => .directory
  | .file _ => .file .empty

@[simp] theorem Entry.isFile_blank (e : Entry) : e.blank.isFile = e.isFile := by
  cases e <;> rfl

/-- The tree with every file emptied. -/
def shape (t : FileTree) : FileTree :=
  { t with entries := t.entries.map fun (names, entry) => (names, entry.blank) }

@[simp] theorem here_shape (t : FileTree) : t.shape.here = t.here := rfl

/-- A shape has the entries of its tree, with blank texts. -/
theorem entry?_shape (t : FileTree) (names : List String) :
    t.shape.entry? names = (t.entry? names).map Entry.blank := by
  unfold entry? shape
  by_cases hroot : names.isEmpty
  · rw [if_pos hroot, if_pos hroot]
    rfl
  · rw [if_neg hroot, if_neg hroot]
    generalize t.entries = entries
    induction entries with
    | nil => rfl
    | cons entry entries ih =>
        simp only [List.map_cons, Assoc.lookup?]
        split
        · rfl
        · exact ih

/-- No step looks into a file. -/
theorem step_shape (t : FileTree) (names : List String) (piece : List Char) :
    t.shape.step names piece = t.step names piece := by
  unfold step
  rw [entry?_shape]
  cases t.entry? names with
  | none => rfl
  | some e => cases e <;> rfl

@[simp] theorem locate_shape (t : FileTree) (p : Path) : t.shape.locate p = t.locate p := by
  unfold locate
  rw [funext fun names => funext fun piece => step_shape t names piece, here_shape]

/-- A path leads in the shape to where it leads in the tree. -/
theorem find_shape (t : FileTree) (p : Path) :
    t.shape.find p = (t.find p).map fun (names, entry) => (names, entry.blank) := by
  unfold find
  rw [locate_shape]
  cases t.locate p with
  | error fault => rfl
  | ok names =>
      simp only [bind, Except.bind, entry?_shape]
      cases t.entry? names <;> rfl

@[simp] theorem isFile_shape (t : FileTree) (p : Path) : t.shape.isFile p = t.isFile p := by
  unfold isFile
  rw [find_shape]
  cases t.find p with
  | error fault => rfl
  | ok found => obtain ⟨names, entry⟩ := found; cases entry <;> rfl

@[simp] theorem isDirectory_shape (t : FileTree) (p : Path) :
    t.shape.isDirectory p = t.isDirectory p := by
  unfold isDirectory
  rw [find_shape]
  cases t.find p with
  | error fault => rfl
  | ok found => obtain ⟨names, entry⟩ := found; cases entry <;> rfl

@[simp] theorem canonical?_shape (t : FileTree) (p : Path) :
    t.shape.canonical? p = t.canonical? p := by
  unfold canonical?
  rw [find_shape]
  cases t.find p <;> rfl

/-- Below a directory the shape has the same entries, blank. -/
theorem below_shape (t : FileTree) (names : List String) :
    t.shape.below names = (t.below names).map fun (rest, entry) => (rest, entry.blank) := by
  unfold below shape
  rw [List.filterMap_map, List.map_filterMap]
  congr 1
  funext (path, entry)
  simp only [Function.comp]
  split <;> rfl

/-- A walk meets the same entries in the same order. -/
theorem walk_shape (t : FileTree) (p : Path) :
    t.shape.walk p = (t.walk p).map fun (path, depth, entry) => (path, depth, entry.blank) := by
  unfold walk
  rw [find_shape]
  cases t.find p with
  | error fault => rfl
  | ok found =>
      simp only [Except.map, below_shape, List.map_map, List.map_cons]
      rfl

@[simp] theorem filesBelow_shape (t : FileTree) (p : Path) :
    t.shape.filesBelow p = t.filesBelow p := by
  unfold filesBelow
  rw [walk_shape]
  induction t.walk p with
  | nil => rfl
  | cons found more ih =>
      simp only [List.map_cons, List.filter_cons, Entry.isFile_blank]
      split
      · rw [List.map_cons, List.map_cons, ih]
      · exact ih

@[simp] theorem directoriesBelow_shape (t : FileTree) (p : Path) :
    t.shape.directoriesBelow p = t.directoriesBelow p := by
  unfold directoriesBelow
  rw [walk_shape]
  induction t.walk p with
  | nil => rfl
  | cons found more ih =>
      simp only [List.map_cons, List.filter_cons, Entry.isFile_blank]
      split
      · rw [List.map_cons, List.map_cons, ih]
      · exact ih

@[simp] theorem children_shape (t : FileTree) (p : Path) (files : Bool) :
    t.shape.children p files = t.children p files := by
  unfold children
  rw [find_shape]
  cases t.find p with
  | error fault => rfl
  | ok found =>
      simp only [Except.map, below_shape, List.filterMap_map]
      congr 1
      funext (rest, entry)
      rcases rest with _ | ⟨name, _ | ⟨next, rest⟩⟩
      · rfl
      · show (if (Entry.isFile entry.blank == files) = true then _ else _) = _
        rw [Entry.isFile_blank]
      · rfl

-- ===================================================== agreeing on files

/-- Two trees with one shape that hold the same in every file whose name is
not exempt. -/
structure AgreeOutside (exempt : List String) (t u : FileTree) : Prop where
  shape : t.shape = u.shape
  entry : ∀ names name, names.getLast? = some name → name ∉ exempt → t.entry? names = u.entry? names

/-- The order of the entries tells different names apart. -/
theorem eq_of_order {a b : List String} (h : order a b = .eq) : a = b := by
  unfold order at h
  exact Std.LawfulEqCmp.eq_of_compare h

/-- Entries that may differ in an exempt file. -/
def EntriesAgree (exempt : List String) (a b : List String × Entry) : Prop :=
  a.1 = b.1 ∧ a.2.blank = b.2.blank ∧ (a.2 = b.2 ∨ ∃ name ∈ exempt, a.1.getLast? = some name)

/-- Trees agree when their entries do, one by one. -/
theorem agreeOutside_of_entries {exempt : List String} (hhere : t.here = u.here)
    (h : List.Forall₂ (EntriesAgree exempt) t.entries u.entries) : AgreeOutside exempt t u := by
  obtain ⟨entries, here⟩ := t
  obtain ⟨entries', here'⟩ := u
  obtain rfl : here = here' := hhere
  refine ⟨?_, fun names name hname hexempt => ?_⟩
  · have hentries : entries.map (fun (names, entry) => (names, entry.blank))
        = entries'.map fun (names, entry) => (names, entry.blank) := by
      simp only at h
      induction h with
      | nil => rfl
      | @cons a b _ _ hab _ ih =>
          have hentry : (a.1, a.2.blank) = (b.1, b.2.blank) := by rw [hab.1, hab.2.1]
          exact List.cons_eq_cons.mpr ⟨hentry, ih⟩
    unfold shape
    rw [hentries]
  · simp only at h
    unfold entry?
    simp only
    split
    · rfl
    · induction h with
      | nil => rfl
      | @cons a b _ _ hab _ ih =>
          obtain ⟨hnames, -, hentry⟩ := hab
          unfold Assoc.lookup?
          rw [← hnames, ih]
          split
          · next heq =>
              -- the entry looked up is not exempt
              rcases hentry with hentry | ⟨other, hother, hlast⟩
              · rw [hentry]
              · have hsame : names = a.1 := eq_of_order (by simpa using heq)
                rw [← hsame, hname] at hlast
                cases hlast
                exact absurd hother hexempt
          · rfl

/-- A file whose name is not exempt has one text in both trees. -/
theorem AgreeOutside.readText {exempt : List String} (h : AgreeOutside exempt t u) {p : Path}
    {name : String} (hname : p.fileName? = some name) (hexempt : name ∉ exempt) :
    t.readText p = u.readText p := by
  have hlocate : t.locate p = u.locate p := by rw [← locate_shape, h.shape, locate_shape]
  have hfind : t.find p = u.find p := by
    unfold find
    rw [hlocate]
    cases hl : u.locate p with
    | error fault => rfl
    | ok names =>
        simp only [bind, Except.bind]
        rw [h.entry names name (getLast?_of_locate hl hname) hexempt]
  unfold FileTree.readText readBytes
  rw [hfind]

-- ===================================================== well formed trees

/-- A tree as directories on a disk make it. -/
structure WellFormed (t : FileTree) : Prop where
  isName : ∀ entry ∈ t.entries, ∀ name ∈ entry.1, IsName name
  nodup : (t.entries.map (·.1)).Nodup
  parents : ∀ entry ∈ t.entries, t.entry? entry.1.dropLast = some .directory
  here : t.entry? t.here = some .directory

/-- An entry other than the root is one of the list. -/
theorem mem_entries_of_found {names : List String} {entry : Entry} (h : t.entry? names = some entry)
    (hne : names ≠ []) : (names, entry) ∈ t.entries := by
  unfold entry? at h
  rw [if_neg (by simpa using hne)] at h
  generalize t.entries = entries at h ⊢
  induction entries with
  | nil => cases h
  | cons first entries ih =>
      obtain ⟨key, value⟩ := first
      unfold Assoc.lookup? at h
      split at h
      · next heq =>
          cases h
          have hsame : names = key := eq_of_order (by simpa using heq)
          rw [hsame]
          exact List.mem_cons_self
      · exact List.mem_cons_of_mem _ (ih h)

namespace WellFormed

/-- The entry of the list under some names is the one found there. -/
theorem entry?_of_mem (h : t.WellFormed) {names : List String} {entry : Entry}
    (hmem : (names, entry) ∈ t.entries) (hne : names ≠ []) : t.entry? names = some entry := by
  unfold entry?
  rw [if_neg (by simpa using hne)]
  have hnodup := h.nodup
  generalize t.entries = entries at hmem hnodup
  -- the first entry under some names is the only one
  induction entries with
  | nil => cases hmem
  | cons first entries ih =>
      obtain ⟨key, value⟩ := first
      rw [List.map_cons, List.nodup_cons] at hnodup
      unfold Assoc.lookup?
      rcases List.mem_cons.mp hmem with heq | hmem
      · cases heq
        have hself : order names names = .eq := by
          unfold order
          exact Std.ReflCmp.compare_self
        rw [hself]
        rfl
      · rw [if_neg]
        · exact ih hmem hnodup.2
        · intro heq
          have hsame : names = key := eq_of_order (by simpa using heq)
          exact hnodup.1 (List.mem_map.mpr ⟨(names, entry), hmem, hsame⟩)

/-- The names that lead to an entry are proper names. -/
theorem isName_of_entry? (h : t.WellFormed) {names : List String} {entry : Entry}
    (hentry : t.entry? names = some entry) : ∀ name ∈ names, IsName name := by
  cases names with
  | nil => exact fun _ hname => by cases hname
  | cons first names =>
      exact h.isName _ (mem_entries_of_found hentry (List.cons_ne_nil _ _))

/-- What an entry lies in are directories. -/
theorem entry?_of_prefix (h : t.WellFormed) {above below : List String} {entry : Entry}
    (hentry : t.entry? (above ++ below) = some entry) (hne : below ≠ []) :
    t.entry? above = some .directory := by
  induction below using List.reverseRecOn generalizing entry with
  | nil => exact absurd rfl hne
  | append_singleton below name ih =>
      have hparent : t.entry? (above ++ below) = some .directory := by
        have hmem := mem_entries_of_found hentry (by simp)
        have hdir := h.parents _ hmem
        rwa [← List.append_assoc, List.dropLast_concat] at hdir
      by_cases hbelow : below = []
      · rwa [hbelow, List.append_nil] at hparent
      · exact ih hparent hbelow

/-- A lookup of proper names goes through directories. -/
theorem foldlM_step_names (h : t.WellFormed) {names : List String} :
    ∀ {above : List String} {entry : Entry}, t.entry? (above ++ names) = some entry →
      (names.map String.toList).foldlM t.step above = .ok (above ++ names) := by
  induction names with
  | nil => exact fun _ => by rw [List.append_nil]; rfl
  | cons name names ih =>
      intro above entry hentry
      have hname := h.isName_of_entry? hentry name (by simp)
      have hdir : t.entry? above = some .directory :=
        h.entry?_of_prefix hentry (List.cons_ne_nil _ _)
      have hstep : t.step above name.toList = .ok (above ++ [name]) := by
        unfold step
        rw [hdir, hname.stepOf?]
        rfl
      rw [List.map_cons, List.foldlM_cons, hstep]
      show (names.map String.toList).foldlM t.step (above ++ [name]) = _
      have hnames : above ++ name :: names = above ++ [name] ++ names := List.append_cons ..
      rw [hnames] at hentry ⊢
      exact ih hentry

/-- The canonical path of an entry leads to it. -/
theorem find_ofNames (h : t.WellFormed) {names : List String} {entry : Entry}
    (hentry : t.entry? names = some entry) : t.find (.ofNames names) = .ok (names, entry) := by
  have hnames := h.isName_of_entry? hentry
  refine find_eq_ok_iff.mpr ⟨?_, hentry⟩
  obtain ⟨body, htext, -⟩ := Path.isTight_ofNames hnames
  have habsolute : (Path.ofNames names).isAbsolute = true := by
    unfold Path.isAbsolute
    rw [htext]
    rfl
  have hnonempty : (Path.ofNames names).text.isEmpty = false := by
    rw [Bool.eq_false_iff, ne_eq, String.isEmpty_iff]
    intro hempty
    rw [hempty] at htext
    cases htext
  unfold locate
  rw [hnonempty, habsolute, if_neg Bool.false_ne_true, if_pos rfl]
  -- the top has no names, and all others begin behind its slash
  cases names with
  | nil => rfl
  | cons name names =>
      rw [Path.splitAt_ofNames hnames (List.cons_ne_nil _ _)]
      have hfirst : name.toList ≠ [] := (hnames name List.mem_cons_self).toList_ne_nil
      have hpieces : ([] :: (name :: names).map String.toList).dropWhile (·.isEmpty)
          = (name :: names).map String.toList := by
        rw [List.dropWhile_cons_of_pos (by rfl), List.map_cons,
          List.dropWhile_cons_of_neg (by simpa using hfirst)]
      simp only [hpieces]
      rw [← List.nil_append (name :: names)] at hentry
      exact h.foldlM_step_names hentry

-- ---------------------------------------------------------------- walks

/-- Below a directory is what has its names in front, and more of them. -/
theorem mem_below (h : t.WellFormed) {names rest : List String} {entry : Entry} :
    (rest, entry) ∈ t.below names ↔ t.entry? (names ++ rest) = some entry ∧ rest ≠ [] := by
  unfold below
  rw [List.mem_filterMap]
  constructor
  · rintro ⟨⟨path, entry'⟩, hmem, hif⟩
    simp only at hif
    split at hif
    · next hcond =>
        cases hif
        simp only [Bool.and_eq_true, List.isPrefixOf_iff_prefix, bne_iff_ne, ne_eq] at hcond
        obtain ⟨⟨rest, rfl⟩, hlength⟩ := hcond
        have hrest : rest ≠ [] := by
          rintro rfl
          exact hlength (by simp)
        rw [List.drop_left]
        exact ⟨h.entry?_of_mem hmem (by simp [hrest]), hrest⟩
    · cases hif
  · rintro ⟨hentry, hrest⟩
    have hne : names ++ rest ≠ [] := by simp [hrest]
    refine ⟨(names ++ rest, entry), mem_entries_of_found hentry hne, ?_⟩
    have hstart : names.isPrefixOf (names ++ rest) := by
      rw [List.isPrefixOf_iff_prefix]
      exact List.prefix_append _ _
    simp only [hstart, Bool.true_and, List.drop_left]
    rw [if_pos]
    simpa using hrest

/-- Below a directory nothing is met twice. -/
theorem nodup_below (h : t.WellFormed) (names : List String) :
    ((t.below names).map (·.1)).Nodup := by
  unfold below
  rw [List.map_filterMap]
  have hnodup := h.nodup
  generalize t.entries = entries at hnodup
  induction entries with
  | nil => exact List.nodup_nil
  | cons first entries ih =>
      obtain ⟨path, entry⟩ := first
      rw [List.map_cons, List.nodup_cons] at hnodup
      rw [List.filterMap_cons]
      split
      · exact ih hnodup.2
      · next rest hrest =>
          refine List.nodup_cons.mpr ⟨fun hmem => hnodup.1 ?_, ih hnodup.2⟩
          obtain ⟨⟨path', entry'⟩, hmem', hrest'⟩ := List.mem_filterMap.mp hmem
          simp only [Option.map_if, Option.ite_none_right_eq_some, Option.some.injEq,
            Bool.and_eq_true, List.isPrefixOf_iff_prefix] at hrest hrest'
          obtain ⟨⟨⟨a, rfl⟩, -⟩, ha⟩ := hrest
          obtain ⟨⟨⟨b, rfl⟩, -⟩, hb⟩ := hrest'
          rw [List.drop_left] at ha hb
          exact List.mem_map.mpr ⟨(names ++ b, entry'), hmem', by rw [hb, ha]⟩

/-- A walk comes to every path once. -/
theorem nodup_walk (h : t.WellFormed) (p : Path) : ((t.walk p).map (·.1)).Nodup := by
  unfold walk
  cases hfind : t.find p with
  | error fault => exact List.nodup_nil
  | ok found =>
      obtain ⟨names, entry⟩ := found
      simp only [List.map_cons, List.map_map]
      have hproper : ∀ found ∈ t.below names, ∀ name ∈ found.1, IsName name := by
        intro found hfound name hname
        exact h.isName_of_entry? (h.mem_below.mp hfound).1 name
          (List.mem_append_right _ hname)
      have hcomponents : ∀ found ∈ t.below names,
          (found.1.foldl Path.child p).components = p.components ++ found.1.map .name :=
        fun found hfound => Path.components_foldl_child (hproper found hfound) p
      -- the directory itself is not below it
      refine List.nodup_cons.mpr ⟨fun hmem => ?_, ?_⟩
      · obtain ⟨found, hfound, hp⟩ := List.mem_map.mp hmem
        have hp : found.1.foldl Path.child p = p := hp
        have hself := hcomponents found hfound
        rw [hp] at hself
        have hnil : found.1 = [] := by simpa using hself
        exact (h.mem_below.mp hfound).2 hnil
      · refine List.Nodup.map_on (fun a ha b hb hab => ?_) (h.nodup_below names).of_map
        have hab : a.1.foldl Path.child p = b.1.foldl Path.child p := hab
        have hcomponents_eq := hcomponents a ha
        rw [hab, hcomponents b hb] at hcomponents_eq
        have hnames : a.1 = b.1 := by
          have hinj : ∀ x y, Path.Component.name x = Path.Component.name y → x = y :=
            fun x y hxy => by injection hxy
          exact (List.map_inj_right hinj).mp (List.append_cancel_left hcomponents_eq).symm
        obtain ⟨rest, entryA⟩ := a
        obtain ⟨rest', entryB⟩ := b
        obtain rfl : rest = rest' := hnames
        have hA := (h.mem_below.mp ha).1
        rw [(h.mem_below.mp hb).1] at hA
        cases hA
        rfl

/-- A walk from a canonical path comes to what stands there and below. -/
theorem mem_walk_ofNames (h : t.WellFormed) {names : List String} {entry : Entry}
    (hentry : t.entry? names = some entry) {p : Path} {found : Entry} :
    (∃ depth, (p, depth, found) ∈ t.walk (.ofNames names))
      ↔ ∃ rest, t.entry? (names ++ rest) = some found ∧ p = .ofNames (names ++ rest) := by
  unfold walk
  rw [h.find_ofNames hentry]
  simp only
  constructor
  · rintro ⟨depth, hmem⟩
    rcases List.mem_cons.mp hmem with heq | hmem
    · cases heq
      exact ⟨[], by rw [List.append_nil]; exact hentry, by rw [List.append_nil]⟩
    · obtain ⟨⟨rest, below⟩, hbelow, heq⟩ := List.mem_map.mp hmem
      cases heq
      exact ⟨rest, (h.mem_below.mp hbelow).1, (Path.ofNames_append names rest).symm⟩
  · rintro ⟨rest, hfound, rfl⟩
    -- the entry itself, or one below it
    by_cases hrest : rest = []
    · subst hrest
      rw [List.append_nil, hentry] at hfound
      cases hfound
      rw [List.append_nil]
      exact ⟨0, List.mem_cons_self⟩
    · refine ⟨rest.length, List.mem_cons_of_mem _ (List.mem_map.mpr ⟨(rest, found), ?_, ?_⟩)⟩
      · exact h.mem_below.mpr ⟨hfound, hrest⟩
      · rw [Path.ofNames_append]

/-- The directories that are come to from a canonical path. -/
theorem mem_directoriesBelow_ofNames (h : t.WellFormed) {names : List String} {entry : Entry}
    (hentry : t.entry? names = some entry) {p : Path} :
    p ∈ t.directoriesBelow (.ofNames names)
      ↔ ∃ rest, t.entry? (names ++ rest) = some .directory ∧ p = .ofNames (names ++ rest) := by
  rw [← h.mem_walk_ofNames hentry]
  unfold directoriesBelow
  constructor
  · intro hp
    obtain ⟨⟨_, depth, found⟩, hfound, rfl⟩ := List.mem_map.mp hp
    obtain ⟨hwalk, hkind⟩ := List.mem_filter.mp hfound
    cases found with
    | directory => exact ⟨depth, hwalk⟩
    | file content => cases hkind
  · rintro ⟨depth, hwalk⟩
    exact List.mem_map.mpr ⟨_, List.mem_filter.mpr ⟨hwalk, rfl⟩, rfl⟩

/-- The files that are come to from a canonical path. -/
theorem mem_filesBelow_ofNames (h : t.WellFormed) {names : List String} {entry : Entry}
    (hentry : t.entry? names = some entry) {p : Path} :
    p ∈ t.filesBelow (.ofNames names)
      ↔ ∃ rest content, t.entry? (names ++ rest) = some (.file content)
          ∧ p = .ofNames (names ++ rest) := by
  unfold filesBelow
  constructor
  · intro hp
    obtain ⟨⟨_, depth, found⟩, hfound, rfl⟩ := List.mem_map.mp hp
    obtain ⟨hwalk, hkind⟩ := List.mem_filter.mp hfound
    cases found with
    | directory => cases hkind
    | file content =>
        obtain ⟨rest, hrest, hpath⟩ := (h.mem_walk_ofNames hentry).mp ⟨depth, hwalk⟩
        exact ⟨rest, content, hrest, hpath⟩
  · rintro ⟨rest, content, hrest, hpath⟩
    obtain ⟨depth, hwalk⟩ := (h.mem_walk_ofNames hentry).mpr ⟨rest, hrest, hpath⟩
    exact List.mem_map.mpr ⟨_, List.mem_filter.mpr ⟨hwalk, rfl⟩, rfl⟩

end WellFormed

end FileTree

-- ================================================= requests and the shape

namespace Project

@[simp] theorem isProjectDirectory_shape (t : FileTree) :
    isProjectDirectory t.shape = isProjectDirectory t :=
  funext fun directory => FileTree.isFile_shape t (directory.child manifestName)

@[simp] theorem enclosing?_shape (t : FileTree) (path : Path) :
    enclosing? t.shape path = enclosing? t path := by
  unfold enclosing?
  rw [isProjectDirectory_shape]

/-- What a request asks for follows from the shape of the tree. -/
theorem ofInputs_shape (t : FileTree) (inputs : List Path) :
    ofInputs t.shape inputs = ofInputs t inputs := by
  unfold ofInputs
  congr 1
  funext projects input
  unfold request
  simp

end Project

end ResourceLint
