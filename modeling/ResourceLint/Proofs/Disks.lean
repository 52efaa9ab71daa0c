/-
Trees as a program comes by them.

A `Proper` tree is well formed and has its entries in order.  A tree is so
when it is made of what directories list (`proper_ofEntries`) or begins empty
(`proper_empty`), and it stays so whatever is written to it, removed from it
or made in it.

All that is done to a tree comes down to one entry that is put under a name
in a directory, and a directory is never replaced by a file (`Proper.put`);
or to a file that is left out, in which nothing lies (`Proper.without`).  So
directories stay, and with them everything keeps the directory that it lies
in.
-/
import ResourceLint.Proofs.Frames
import ResourceLint.Proofs.Listings
import ResourceLint.Proofs.ShownPaths

namespace ResourceLint.FileTree

open ResourceLint.Path (IsName)

instance : Std.TransCmp order :=
  inferInstanceAs (Std.TransCmp (List.compareLex (compare : String → String → Ordering)))

variable {t u : FileTree} {names : List String} {entry : Entry} {p : Path} {content : ByteArray}

/-- A tree with the entries in order that directories on a disk make. -/
structure Proper (t : FileTree) : Prop extends WellFormed t where
  ordered : t.Ordered

/-- Of what is ordered it need not be said that no names come twice. -/
theorem Proper.of_ordered (ordered : t.Ordered)
    (isName : ∀ entry ∈ t.entries, ∀ name ∈ entry.1, IsName name)
    (parents : ∀ entry ∈ t.entries, t.entry? entry.1.dropLast = some .directory)
    (here : t.entry? t.here = some .directory) : t.Proper :=
  { isName, nodup := ordered.nodup, parents, here, ordered }

/-- Everything lies in a directory, the root included. -/
theorem WellFormed.entry?_dropLast (h : t.WellFormed) (hentry : t.entry? names = some entry) :
    t.entry? names.dropLast = some .directory := by
  by_cases hne : names = []
  · rw [hne]
    rfl
  · exact h.parents _ (mem_entries_of_found hentry hne)

-- ======================================================= where paths lead

/-- A path leads through proper names. -/
theorem WellFormed.isName_of_locate (h : t.WellFormed) (hlocate : t.locate p = .ok names) :
    ∀ name ∈ names, IsName name := by
  have hfold : ∀ (steps : List Path.Component) (start : List String),
      (∀ text, .name text ∈ steps → IsName text) → (∀ name ∈ start, IsName name) →
      ∀ name ∈ steps.foldl Path.stepFrom start, IsName name := by
    intro steps
    -- step by step; a way up or to the root drops names and adds none
    induction steps with
    | nil => exact fun start _ hstart => hstart
    | cons step steps ih =>
        intro start hsteps hstart
        refine ih _ (fun text htext => hsteps text (List.mem_cons_of_mem _ htext)) ?_
        cases step with
        | root => exact fun _ hname => nomatch hname
        | here => exact hstart
        | up => exact fun name hname => hstart name (List.dropLast_subset _ hname)
        | name text =>
            intro name hname
            rcases List.mem_append.mp hname with hname | hname
            · exact hstart name hname
            · rw [List.mem_singleton.mp hname]
              exact hsteps text List.mem_cons_self
  rw [locate_eq_namesFrom hlocate, namesFrom_eq]
  refine hfold _ _ (fun text => Path.isName_of_mem_steps) ?_
  split
  · exact fun _ hname => nomatch hname
  · exact h.isName_of_entry? h.here

-- =========================================================== one entry more

/-- What is put somewhere leaves all directories, unless it is a file in the
place of one. -/
theorem entry?_put_of_directory (hne : names ≠ [])
    (hkind : entry = .directory ∨ t.entry? names ≠ some .directory) {other : List String}
    (hother : t.entry? other = some .directory) :
    entry? (t.put names entry) other = some .directory := by
  rw [entry?_put hne]
  split
  · next heq =>
      rcases hkind with rfl | hkind
      · rfl
      · exact absurd (heq ▸ hother) hkind
  · exact hother

/-- Something may be put under a name in a directory. -/
theorem Proper.put (h : t.Proper) (hnames : ∀ name ∈ names, IsName name) (hne : names ≠ [])
    (hparent : t.entry? names.dropLast = some .directory)
    (hkind : entry = .directory ∨ t.entry? names ≠ some .directory) :
    (t.put names entry).Proper := by
  have hkeys : (t.put names entry).entries.map (·.1)
      = Assoc.insertKey order names (t.entries.map (·.1)) := Assoc.map_fst_insert ..
  have hold : ∀ e ∈ (t.put names entry).entries, e.1 = names ∨ ∃ old ∈ t.entries, old.1 = e.1 := by
    intro e he
    have hkey := List.mem_map_of_mem (f := Prod.fst) he
    rw [hkeys] at hkey
    exact (Assoc.mem_insertKey.mp hkey).imp_right List.mem_map.mp
  -- directories stay directories, so whatever stood in one still does
  have hkeeps : ∀ other, t.entry? other = some .directory →
      entry? (t.put names entry) other = some .directory :=
    fun _ => entry?_put_of_directory hne hkind
  refine .of_ordered ?_ (fun e he => ?_) (fun e he => ?_) (hkeeps _ h.here)
  · unfold Ordered
    rw [hkeys]
    exact Assoc.increasing_insertKey h.ordered
  · rcases hold e he with heq | ⟨old, hmem, heq⟩
    · rwa [heq]
    · rw [← heq]
      exact h.isName old hmem
  · rcases hold e he with heq | ⟨old, hmem, heq⟩
    · rw [heq]
      exact hkeeps _ hparent
    · rw [← heq]
      exact hkeeps _ (h.parents old hmem)

/-- A file may be left out. -/
theorem Proper.without (h : t.Proper) {old : ByteArray} (hentry : t.entry? names = some (.file old)) :
    (t.without names).Proper := by
  have hne : names ≠ [] := ne_nil_of_entry?_ne (t := t) (by simp [hentry])
  have hkeeps : ∀ other, t.entry? other = some .directory →
      entry? (t.without names) other = some .directory := by
    intro other hother
    rw [entry?_without hne, if_neg]
    · exact hother
    · rintro rfl
      rw [hentry] at hother
      cases hother
  have hmem : ∀ e ∈ (t.without names).entries, e ∈ t.entries := fun e he => (List.mem_filter.mp he).1
  exact .of_ordered (List.Pairwise.sublist (List.filter_sublist.map _) h.ordered)
    (fun e he => h.isName e (hmem e he)) (fun e he => hkeeps _ (h.parents e (hmem e he)))
    (hkeeps _ h.here)

-- ============================================================ what is done

/-- A tree that is written to stays proper. -/
theorem Proper.write (h : t.Proper) (hwrite : t.write p content = .ok u) : u.Proper := by
  obtain ⟨names, hlocate, hdone⟩ := bind_eq_ok_iff.mp hwrite
  have hnames := h.isName_of_locate hlocate
  split at hdone
  · cases hdone
  · next old hentry =>
      cases hdone
      exact h.put hnames (ne_nil_of_entry?_ne (t := t) (by simp [hentry])) (h.entry?_dropLast hentry)
        (Or.inr (by simp [hentry]))
  · next hentry =>
      split at hdone
      · next hparent =>
          cases hdone
          exact h.put hnames (ne_nil_of_entry?_ne (t := t) (by simp [hentry])) hparent
            (Or.inr (by simp [hentry]))
      · cases hdone
      · cases hdone

/-- So does one that a file is removed from. -/
theorem Proper.remove (h : t.Proper) (hremove : t.remove p = .ok u) : u.Proper := by
  obtain ⟨⟨names, entry⟩, hfind, hdone⟩ := bind_eq_ok_iff.mp hremove
  cases entry with
  | directory => cases hdone
  | file old =>
      cases hdone
      exact h.without (find_eq_ok_iff.mp hfind).2

/-- And one that a file is copied into. -/
theorem Proper.copy (h : t.Proper) {source target : Path} (hcopy : t.copy source target = .ok u) :
    u.Proper := by
  obtain ⟨content, -, hdone⟩ := bind_eq_ok_iff.mp hcopy
  split at hdone
  · exact h.write hdone
  · exact h.write hdone

/-- A step that makes the directory it leads to begins and ends in one. -/
theorem Proper.stepMaking (h : t.Proper) (hdirectory : t.entry? names = some .directory)
    {piece : List Char} (hslash : '/' ∉ piece) {after : List String}
    (hstep : stepMaking (t, names) piece = .ok (u, after)) :
    u.Proper ∧ u.entry? after = some .directory := by
  obtain ⟨found, hfound, hdone⟩ := bind_eq_ok_iff.mp hstep
  cases hentry : t.entry? found with
  | some entry =>
      cases entry with
      | directory =>
          simp only [hentry] at hdone
          cases hdone
          exact ⟨h, hentry⟩
      | file old =>
          simp only [hentry] at hdone
          cases hdone
  | none =>
      simp only [hentry] at hdone
      cases hdone
      -- nothing stands there, so the step goes down by a name
      obtain ⟨name, hname, rfl⟩ : ∃ name, IsName name ∧ after = names ++ [name] := by
        unfold step at hfound
        rw [hdirectory] at hfound
        cases hpiece : Path.stepOf? piece with
        | none =>
            simp only [hpiece, Except.ok.injEq] at hfound
            rw [← hfound, hdirectory] at hentry
            cases hentry
        | some s =>
            rcases Path.eq_of_stepOf? hpiece with rfl | ⟨text, rfl⟩
            · simp only [hpiece, Except.ok.injEq] at hfound
              rw [← hfound, h.entry?_dropLast hdirectory] at hentry
              cases hentry
            · simp only [hpiece, Except.ok.injEq] at hfound
              exact ⟨text, Path.isName_of_stepOf? hslash hpiece, hfound.symm⟩
      have hne : names ++ [name] ≠ [] := List.append_ne_nil_of_right_ne_nil _ (List.cons_ne_nil _ _)
      refine ⟨h.put (fun other hother => ?_) hne ?_ (Or.inl rfl), ?_⟩
      · rcases List.mem_append.mp hother with hother | hother
        · exact h.isName_of_entry? hdirectory other hother
        · rwa [List.mem_singleton.mp hother]
      · rwa [List.dropLast_concat]
      · rw [entry?_put hne, if_pos rfl]

/-- A tree stays proper when directories are made in it. -/
theorem Proper.makeDirectory (h : t.Proper) (hmake : t.makeDirectory p = .ok u) : u.Proper := by
  have hfold : ∀ (pieces : List (List Char)) (t : FileTree) (names : List String),
      (∀ piece ∈ pieces, '/' ∉ piece) → t.Proper → t.entry? names = some .directory →
      ∀ made, pieces.foldlM FileTree.stepMaking (t, names) = .ok made → made.1.Proper := by
    intro pieces
    induction pieces with
    | nil =>
        intro t names _ h _ made hmade
        cases hmade
        exact h
    | cons piece pieces ih =>
        intro t names hslash h hdirectory made hmade
        rw [List.foldlM_cons] at hmade
        obtain ⟨⟨next, after⟩, hstep, hrest⟩ := bind_eq_ok_iff.mp hmade
        obtain ⟨hnext, hafter⟩ := h.stepMaking hdirectory (hslash piece List.mem_cons_self) hstep
        exact ih next after (fun other hother => hslash other (List.mem_cons_of_mem _ hother)) hnext
          hafter made hrest
  obtain ⟨made, hmade, hdone⟩ := bind_eq_ok_iff.mp hmake
  cases hdone
  refine hfold _ t _ (fun piece => Text.not_mem_of_mem_splitAt) h ?_ made hmade
  split
  · rfl
  · exact h.here

-- ========================================================= where trees begin

/-- The entries that are kept are among those that there were. -/
theorem mem_of_mem_mergeSame {entries : List (List String × Entry)} {e : List String × Entry}
    (h : e ∈ mergeSame entries) : e ∈ entries := by
  fun_induction mergeSame entries with
  | case1 => exact h
  | case2 => exact h
  | case3 a b more heq ih =>
      rcases List.mem_cons.mp (ih h) with rfl | hmem
      · exact List.mem_cons_self
      · exact List.mem_cons_of_mem _ (List.mem_cons_of_mem _ hmem)
  | case4 a b more hne ih =>
      rcases List.mem_cons.mp h with rfl | hmem
      · exact List.mem_cons_self
      · exact List.mem_cons_of_mem _ (ih hmem)

/-- Of the entries under the same names one is kept. -/
theorem exists_mem_mergeSame (entries : List (List String × Entry)) :
    ∀ e ∈ entries, ∃ kept ∈ mergeSame entries, kept.1 = e.1 := by
  fun_induction mergeSame entries with
  | case1 => exact fun _ h => nomatch h
  | case2 => exact fun e h => ⟨e, h, rfl⟩
  | case3 a b more heq ih =>
      obtain ⟨hfirst, hrest⟩ := List.forall_mem_cons.mp ih
      refine List.forall_mem_cons.mpr ⟨hfirst, List.forall_mem_cons.mpr ⟨?_, hrest⟩⟩
      obtain ⟨kept, hkept, hsame⟩ := hfirst
      exact ⟨kept, hkept, hsame.trans heq⟩
  | case4 a b more hne ih =>
      refine List.forall_mem_cons.mpr ⟨⟨a, List.mem_cons_self, rfl⟩, fun e he => ?_⟩
      obtain ⟨kept, hkept, hsame⟩ := ih e he
      exact ⟨kept, List.mem_cons_of_mem _ hkept, hsame⟩

/-- Sorted entries of which those under the same names are merged have
increasing names. -/
theorem increasing_mergeSame {entries : List (List String × Entry)}
    (h : entries.Pairwise fun a b => order a.1 b.1 ≠ .gt) :
    Assoc.Increasing order ((mergeSame entries).map (·.1)) := by
  fun_induction mergeSame entries with
  | case1 => exact List.Pairwise.nil
  | case2 => exact List.pairwise_singleton _ _
  | case3 a b more heq ih =>
      obtain ⟨ha, hrest⟩ := List.pairwise_cons.mp h
      exact ih (List.pairwise_cons.mpr
        ⟨fun c hc => ha c (List.mem_cons_of_mem _ hc), (List.pairwise_cons.mp hrest).2⟩)
  | case4 a b more hne ih =>
      obtain ⟨ha, hrest⟩ := List.pairwise_cons.mp h
      have hb := (List.pairwise_cons.mp hrest).1
      -- neighbours under different names are in strict order
      have hab : order a.1 b.1 = .lt := by
        cases hcmp : order a.1 b.1 with
        | lt => rfl
        | eq => exact absurd (Std.LawfulEqCmp.eq_of_compare hcmp) hne
        | gt => exact absurd hcmp (ha b List.mem_cons_self)
      rw [List.map_cons]
      refine List.pairwise_cons.mpr ⟨fun key hkey => ?_, ih hrest⟩
      obtain ⟨c, hc, rfl⟩ := List.mem_map.mp hkey
      rcases List.mem_cons.mp (mem_of_mem_mergeSame hc) with rfl | hc
      · exact hab
      · exact Std.TransCmp.lt_of_lt_of_isLE hab (Ordering.isLE_iff_ne_gt.mpr (hb c hc))

theorem ordered_ofEntries (here : List String) (entries : List (List String × Entry)) :
    (ofEntries here entries).Ordered := by
  have hsorted : (entries.mergeSort fun a b => order a.1 b.1 != .gt).Pairwise
      fun a b => order a.1 b.1 ≠ .gt := by
    have hle : ∀ a b : List String, (order a b != .gt) = (order a b).isLE := fun a b => by
      cases order a b <;> rfl
    have hpairwise := @List.pairwise_mergeSort _ (fun a b : List String × Entry =>
      order a.1 b.1 != .gt) (fun a b c hab hbc => ?_) (fun a b => ?_) entries
    · exact hpairwise.imp fun h => by simpa using h
    · rw [hle] at hab hbc ⊢
      exact Std.TransCmp.isLE_trans hab hbc
    · rw [hle, hle]
      cases hcmp : order a.1 b.1 with
      | lt => rfl
      | eq => rfl
      | gt => rw [Std.OrientedCmp.lt_of_gt hcmp]; rfl
  exact increasing_mergeSame (hsorted.sublist List.filter_sublist)

/-- A tree is proper that is made of entries as directories list them: under
proper names, in directories that are among them, and never two different
ones under the same names. -/
theorem proper_ofEntries {here : List String} {entries : List (List String × Entry)}
    (hnames : ∀ e ∈ entries, ∀ name ∈ e.1, IsName name)
    (hone : ∀ a ∈ entries, ∀ b ∈ entries, a.1 = b.1 → a.2 = b.2)
    (hparents : ∀ e ∈ entries, e.1.dropLast = [] ∨ (e.1.dropLast, .directory) ∈ entries)
    (hhere : here = [] ∨ (here, .directory) ∈ entries) : (ofEntries here entries).Proper := by
  have hmem : ∀ e ∈ (ofEntries here entries).entries, e ∈ entries := fun e he =>
    List.mem_mergeSort.mp (List.mem_filter.mp (mem_of_mem_mergeSame he)).1
  have hfound : ∀ names, names = [] ∨ (names, Entry.directory) ∈ entries →
      entry? (ofEntries here entries) names = some .directory := by
    rintro names (rfl | hlisted)
    · rfl
    · by_cases hne : names = []
      · rw [hne]
        rfl
      · obtain ⟨⟨names', kept⟩, hkept, rfl⟩ := exists_mem_mergeSame
          ((entries.mergeSort fun a b => order a.1 b.1 != .gt).filter fun e => !e.1.isEmpty)
          (names, .directory)
          (List.mem_filter.mpr ⟨List.mem_mergeSort.mpr hlisted, by simpa using hne⟩)
        -- whichever entry was kept under these names, it was the same
        obtain rfl : kept = .directory := hone _ (hmem _ hkept) _ hlisted rfl
        unfold entry?
        rw [if_neg (by simpa using hne)]
        exact Assoc.lookup?_of_mem (ordered_ofEntries here entries) hkept
  exact .of_ordered (ordered_ofEntries here entries) (fun e he => hnames e (hmem e he))
    (fun e he => hfound _ (hparents e (hmem e he))) (hfound here hhere)

/-- So is a tree without files. -/
theorem proper_empty {here : List String} (hnames : ∀ name ∈ here, IsName name) :
    (empty here).Proper := by
  have hmem : ∀ n < here.length, (here.take (n + 1), Entry.directory) ∈ (empty here).entries :=
    fun n hn => List.mem_map.mpr ⟨n, List.mem_range.mpr hn, rfl⟩
  have hordered : (empty here).Ordered := by
    unfold Ordered empty
    rw [List.map_map]
    refine List.pairwise_map.mpr (List.pairwise_lt_range.imp_of_mem fun {m n} hm hn hlt => ?_)
    -- the longer ones begin with the shorter ones
    have hsplit : here.take (n + 1) = here.take (m + 1) ++ (here.drop (m + 1)).take (n - m) := by
      rw [← List.take_add]
      congr 1
      omega
    have hrest : ∃ name rest, (here.drop (m + 1)).take (n - m) = name :: rest := by
      refine List.exists_cons_of_ne_nil fun hnil => ?_
      have hlength := congrArg List.length hnil
      rw [List.length_take, List.length_drop, List.length_nil] at hlength
      have hbound := List.mem_range.mp hn
      omega
    obtain ⟨name, rest, hrest⟩ := hrest
    show order (here.take (m + 1)) (here.take (n + 1)) = .lt
    rw [hsplit, hrest, ← List.append_nil (here.take (m + 1)), List.append_assoc, order_append]
    rfl
  have hfound : ∀ n ≤ here.length, entry? (empty here) (here.take n) = some .directory := by
    intro n hn
    cases n with
    | zero => rfl
    | succ n =>
        unfold entry?
        rw [if_neg (by cases here <;> simp_all)]
        exact Assoc.lookup?_of_mem hordered (hmem n hn)
  have hentries : ∀ e ∈ (empty here).entries, ∃ n < here.length, e.1 = here.take (n + 1) := by
    intro e he
    obtain ⟨n, hn, rfl⟩ := List.mem_map.mp he
    exact ⟨n, List.mem_range.mp hn, rfl⟩
  refine .of_ordered hordered (fun e he name hname => ?_) (fun e he => ?_) ?_
  · obtain ⟨n, -, heq⟩ := hentries e he
    exact hnames name (List.mem_of_mem_take (heq ▸ hname))
  · obtain ⟨n, hn, heq⟩ := hentries e he
    have habove : (here.take (n + 1)).dropLast = here.take n := by
      rw [List.dropLast_eq_take, List.length_take, List.take_take]
      congr 1
      omega
    rw [heq, habove]
    exact hfound n (Nat.le_of_lt hn)
  · have hwhole := hfound here.length (Nat.le_refl _)
    rwa [List.take_length] at hwhole

end ResourceLint.FileTree
