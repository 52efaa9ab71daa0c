/-
What a directory lists.

A name is listed exactly where it is a proper one under which the path of the
child finds a file, or a directory (`mem_children_files`,
`mem_children_directories`).  Where the entries of a tree are in order, as
they are said to be, a directory lists its children by name
(`increasing_children`).
-/
import ResourceLint.Proofs.Keys
import ResourceLint.Proofs.Trees

namespace ResourceLint.FileTree

open ResourceLint.Path (IsName)

variable {t : FileTree} {p : Path} {names : List String} {name : String}

-- ========================================================== what is listed

/-- What has children is a directory, if its own name is a proper one. -/
theorem isDirectory_of_find_child {directory : Path} {outer : String} (houter : IsName outer)
    (hname : IsName name) {found : List String × Entry}
    (h : t.find ((directory.child outer).child name) = .ok found) :
    t.isDirectory (directory.child outer) := by
  obtain ⟨hlocate, -⟩ := find_eq_ok_iff.mp (show t.find _ = .ok (found.1, found.2) from h)
  rw [locate_child t _ hname, List.foldlM_append, Path.steps_child directory houter,
    Path.isAbsolute_child directory houter, ← locate_child t directory houter] at hlocate
  obtain ⟨names, hwhere, henter⟩ := bind_eq_ok_iff.mp hlocate
  rw [List.foldlM_cons] at henter
  unfold enter at henter
  unfold isDirectory
  cases hentry : t.entry? names with
  | none =>
      rw [hentry] at henter
      cases henter
  | some entry =>
      rw [hentry] at henter
      cases entry with
      | file content => cases henter
      | directory => rw [find_eq_ok_iff.mpr ⟨hwhere, hentry⟩]

theorem isFile_iff :
    t.isFile p ↔ ∃ found, t.find p = .ok found ∧ found.2.isFile = true := by
  unfold isFile
  cases hfind : t.find p with
  | error fault => simp
  | ok found =>
      obtain ⟨names, entry⟩ := found
      cases entry <;> simp [Entry.isFile]

theorem isDirectory_iff :
    t.isDirectory p ↔ ∃ found, t.find p = .ok found ∧ found.2.isFile = false := by
  unfold isDirectory
  cases hfind : t.find p with
  | error fault => simp
  | ok found =>
      obtain ⟨names, entry⟩ := found
      cases entry <;> simp [Entry.isFile]

/-- A directory lists the proper names under which something of the kind is
found. -/
theorem mem_children (hwell : t.WellFormed) (h : t.isDirectory p) (files : Bool) :
    name ∈ t.children p files
      ↔ IsName name ∧ ∃ found, t.find (p.child name) = .ok found ∧ found.2.isFile = files := by
  obtain ⟨⟨names, entry⟩, hfind, hkind⟩ := isDirectory_iff.mp h
  cases entry with
  | file content => cases hkind
  | directory =>
      unfold children
      rw [hfind]
      dsimp only
      rw [List.mem_filterMap]
      constructor
      · -- what is listed has one name more than the directory
        intro ⟨⟨rest, entry⟩, hmem, hlisted⟩
        split at hlisted
        · next only entry heq =>
            obtain ⟨rfl, rfl⟩ := Prod.mk.inj heq
            rw [Option.ite_none_right_eq_some, beq_iff_eq, Option.some.injEq] at hlisted
            obtain ⟨hsort, rfl⟩ := hlisted
            have hentry := (hwell.mem_below.mp hmem).1
            have hname : IsName only := hwell.isName_of_entry? hentry only (by simp)
            refine ⟨hname, (names ++ [only], entry), ?_, hsort⟩
            rw [find_child_of_find hfind hname, hentry]
        · cases hlisted
      · intro ⟨hname, found, hfound, hsort⟩
        rw [find_child_of_find hfind hname] at hfound
        cases hentry : t.entry? (names ++ [name]) with
        | none =>
            rw [hentry] at hfound
            cases hfound
        | some entry =>
            rw [hentry] at hfound
            cases hfound
            refine ⟨([name], entry), hwell.mem_below.mpr ⟨hentry, List.cons_ne_nil _ _⟩, ?_⟩
            dsimp only
            rw [if_pos (beq_iff_eq.mpr hsort)]

/-- The files that a directory lists. -/
theorem mem_children_files (hwell : t.WellFormed) (h : t.isDirectory p) :
    name ∈ t.children p true ↔ IsName name ∧ t.isFile (p.child name) := by
  rw [mem_children hwell h, isFile_iff]

/-- The directories that a directory lists. -/
theorem mem_children_directories (hwell : t.WellFormed) (h : t.isDirectory p) :
    name ∈ t.children p false ↔ IsName name ∧ t.isDirectory (p.child name) := by
  rw [mem_children hwell h, isDirectory_iff]

-- ============================================================ in which order

/-- The entries are in order. -/
def Ordered (t : FileTree) : Prop := Assoc.Increasing order (t.entries.map (·.1))

theorem order_append (names a b : List String) : order (names ++ a) (names ++ b) = order a b := by
  induction names with
  | nil => rfl
  | cons name names ih =>
      unfold order at ih ⊢
      have hself : compare name name = .eq := Std.ReflCmp.compare_self
      rw [List.cons_append, List.cons_append, List.compareLex_cons_cons, ih, hself]
      rfl

theorem order_singleton (a b : String) : order [a] [b] = compare a b := by
  unfold order
  rw [List.compareLex_cons_cons]
  cases compare a b <;> rfl

theorem pairwise_below (h : t.Ordered) (names : List String) :
    (t.below names).Pairwise fun a b => order a.1 b.1 = .lt := by
  refine (List.pairwise_map.mp h).filterMap _ fun a b hab x hx y hy => ?_
  dsimp only at hx hy
  rw [Option.ite_none_right_eq_some, Bool.and_eq_true, List.isPrefixOf_iff_prefix] at hx hy
  obtain ⟨⟨⟨restA, hA⟩, -⟩, heqA⟩ := hx
  obtain ⟨⟨⟨restB, hB⟩, -⟩, heqB⟩ := hy
  cases heqA
  cases heqB
  rw [← hA, ← hB, List.drop_left, List.drop_left, ← order_append names, hA, hB]
  exact hab

/-- Children are listed by name. -/
theorem increasing_children (h : t.Ordered) (p : Path) (files : Bool) :
    Assoc.Increasing compare (t.children p files) := by
  unfold children
  split
  · next names entry hfind =>
      refine (pairwise_below h names).filterMap _ fun a b hab x hx y hy => ?_
      obtain ⟨restA, entryA⟩ := a
      obtain ⟨restB, entryB⟩ := b
      split at hx
      · split at hy
        · next _ nameA _ heqA _ nameB _ heqB =>
            obtain ⟨rfl, -⟩ := Prod.mk.inj heqA
            obtain ⟨rfl, -⟩ := Prod.mk.inj heqB
            rw [Option.ite_none_right_eq_some, Option.some.injEq] at hx hy
            rw [← hx.2, ← hy.2, ← order_singleton]
            exact hab
        · cases hy
      · cases hx
  · exact List.Pairwise.nil

end ResourceLint.FileTree
