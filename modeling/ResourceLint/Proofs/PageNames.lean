/-
The names of pages.

A name is looked for among more candidates than names are taken, and the
candidates differ in lower case, so that one of them is free, and the first
that is free is found (`exists_freeStem`).  The stems of the pages therefore differ in
lower case from each other and from that of the index (`areFree_stems`).

The names of the files have an ending, which is not there when stems are
compared.  They differ in any case of their letters, unless the stem of one of
them, and only one, ends in a sigma (`endsInSigma_ne`).
-/
import Mathlib.Data.List.Nodup
import Mathlib.Data.List.Perm.Subperm
import ResourceLint.Proofs.Lowercase
import ResourceLint.Proofs.PageTags
import ResourceLint.Report.Pages

namespace ResourceLint.Report

open ResourceLint.Text (beginsCased casedAhead endsInSigma isIn lowercase lowercaseBefore
  lowercaseChar lowerOne)

-- ========================================================= numbered names

/-- A name with a number. -/
def numbered (base : String) (n : Nat) : String := base ++ "_" ++ toString n

/-- Digits have no case. -/
theorem lowerOne_of_isDigit {c : Char} (h : c.isDigit) : lowerOne c = [c] := by
  rw [Char.isDigit, Bool.and_eq_true, decide_eq_true_iff, decide_eq_true_iff] at h
  have hlow : c.toNat < 58 := Nat.lt_succ_of_le h.2
  have hne : c ≠ '\u0130' := by
    rintro rfl
    revert hlow
    decide
  have hascii : c.toNat < 128 := by omega
  have hupper : ¬ (c.val ≥ 'A'.val ∧ c.val ≤ 'Z'.val) := fun hletter => by
    have hlarge : 65 ≤ c.toNat := hletter.1
    omega
  rw [lowerOne, if_neg (by simpa using hne), lowercaseChar, if_pos hascii]
  unfold Char.toLower
  rw [dif_neg hupper]

/-- A number is written in digits. -/
theorem isDigit_of_mem_toString {c : Char} {n : Nat} (h : c ∈ (toString n).toList) : c.isDigit := by
  by_contra hdigit
  exact Html.notMem_toString (by simpa using hdigit) n h

/-- Numbers and the mark before them have no letters. -/
theorem lowercase_numbered (base : String) (n : Nat) :
    lowercase (numbered base n) = numbered (lowercase base) n := by
  have htail : ('_' :: (toString n).toList).flatMap lowerOne = '_' :: (toString n).toList := by
    have hmark : lowerOne '_' = ['_'] := by decide +kernel
    have hdigits : (toString n).toList.flatMap lowerOne = (toString n).toList.flatMap ([·]) :=
      List.flatMap_congr fun c hc => lowerOne_of_isDigit (isDigit_of_mem_toString hc)
    rw [List.flatMap_cons, hmark, hdigits]
    simp
  have hlist : ("_" ++ toString n).toList = '_' :: (toString n).toList := by
    rw [String.toList_append]
    rfl
  have hsigma : '\u03A3' ∉ ("_" ++ toString n).toList := by
    rw [hlist, List.mem_cons, not_or]
    exact ⟨by decide, Html.notMem_toString rfl n⟩
  have hahead : beginsCased ('_' :: (toString n).toList) = false := by
    have hmark : ¬ isIn Text.caseIgnorable '_' := by decide +kernel
    rw [beginsCased, List.dropWhile_cons_of_neg hmark]
    show isIn Text.cased '_' = false
    decide +kernel
  unfold numbered
  rw [← String.toList_inj, String.append_assoc, Text.toList_lowercase_append hsigma, hlist, hahead,
    htail, String.append_assoc, String.toList_append, hlist, Text.toList_lowercase]

/-- Numbers are told by their digits. -/
theorem toString_injective {m n : Nat} (h : toString m = toString n) : m = n := by
  rw [Nat.toString_eq_ofList_toDigits, Nat.toString_eq_ofList_toDigits, String.ofList_inj] at h
  rw [← Nat.ofDigitChars_ten_toDigits (n := m), h, Nat.ofDigitChars_ten_toDigits]

/-- A base gives another name with every number. -/
theorem numbered_injective {base : String} {m n : Nat} (h : numbered base m = numbered base n) :
    m = n := by
  have hlist := congrArg String.toList h
  unfold numbered at hlist
  simp only [String.toList_append] at hlist
  exact toString_injective (String.toList_inj.mp (List.append_cancel_left hlist))

theorem numbered_ne (base : String) (n : Nat) : numbered base n ≠ base := by
  intro h
  have hlength := congrArg (·.toList.length) h
  unfold numbered at hlength
  simp only [String.toList_append, List.length_append] at hlength
  have hmark : "_".toList.length = 1 := rfl
  omega

-- ============================================================ a free name

/-- The names that are tried, without end. -/
def nameAt (base : String) : Nat → String
  | 0 => base
  | n + 1 => numbered base (n + 2)

/-- The number is kept when a name is put in small letters. -/
theorem lowercase_nameAt (base : String) (n : Nat) :
    lowercase (nameAt base n) = nameAt (lowercase base) n := by
  cases n with
  | zero => rfl
  | succ n => exact lowercase_numbered base (n + 2)

/-- The names that are tried differ. -/
theorem nameAt_injective {base : String} {m n : Nat} (h : nameAt base m = nameAt base n) :
    m = n := by
  cases m with
  | zero =>
      cases n with
      | zero => rfl
      | succ n => exact absurd h.symm (numbered_ne base (n + 2))
  | succ m =>
      cases n with
      | zero => exact absurd h (numbered_ne base (m + 2))
      | succ n => exact congrArg (· + 1) (Nat.add_right_cancel (numbered_injective h))

/-- The names that are tried differ in small letters, too. -/
theorem nodup_lowercase_nameAt (base : String) (n : Nat) :
    ((List.range n).map fun m => lowercase (nameAt base m)).Nodup := by
  refine List.Nodup.map (fun m m' heq => ?_) List.nodup_range
  rw [lowercase_nameAt, lowercase_nameAt] at heq
  exact nameAt_injective heq

/-- The first name that is not taken is chosen. -/
theorem freeStem_eq (base : String) (taken : List String) :
    freeStem base taken
      = ((List.range (taken.length + 2)).find? fun n =>
        !taken.contains (lowercase (nameAt base n))).elim base (nameAt base) := by
  have hcandidates : (base :: (List.range (taken.length + 1)).map fun n =>
      base ++ "_" ++ toString (n + 2)) = (List.range (taken.length + 2)).map (nameAt base) := by
    have hrange : List.range (taken.length + 2)
        = 0 :: (List.range (taken.length + 1)).map Nat.succ := List.range_succ_eq_map
    rw [hrange, List.map_cons, List.map_map]
    rfl
  unfold freeStem
  simp only
  rw [hcandidates, List.find?_map]
  change Option.getD (Option.map _ ((List.range (taken.length + 2)).find? fun n =>
    !taken.contains (lowercase (nameAt base n)))) base = _
  cases (List.range (taken.length + 2)).find? fun n =>
    !taken.contains (lowercase (nameAt base n)) <;> rfl

/-- The search for a name ends, at the first that is free. -/
theorem exists_freeStem (base : String) (taken : List String) :
    ∃ n, freeStem base taken = nameAt base n ∧ lowercase (nameAt base n) ∉ taken
      ∧ ∀ m < n, lowercase (nameAt base m) ∈ taken := by
  rw [freeStem_eq]
  cases hfind : (List.range (taken.length + 2)).find? fun n =>
      !taken.contains (lowercase (nameAt base n)) with
  | some n =>
      obtain ⟨hfree, -, hbefore⟩ := List.find?_range_eq_some.mp hfind
      exact ⟨n, rfl, by simpa using hfree, fun m hm => by simpa using hbefore m hm⟩
  | none =>
      -- more names would be taken than there are
      have hsub : ((List.range (taken.length + 2)).map fun n => lowercase (nameAt base n)) ⊆ taken := by
        intro name hname
        obtain ⟨n, hn, rfl⟩ := List.mem_map.mp hname
        simpa using List.find?_eq_none.mp hfind n hn
      have hlength := (List.subperm_of_subset (nodup_lowercase_nameAt base _) hsub).length_le
      rw [List.length_map, List.length_range] at hlength
      omega

/-- The stem that is chosen was not taken: more names are tried than there are
taken ones. -/
theorem lowercase_freeStem_not_mem (base : String) (taken : List String) :
    lowercase (freeStem base taken) ∉ taken := by
  obtain ⟨n, heq, hfree, -⟩ := exists_freeStem base taken
  rwa [heq]

-- ================================================================== stems

/-- Names that differ in lower case from each other and from those that are
taken. -/
structure AreFree (taken names : List String) : Prop where
  nodup : (names.map lowercase).Nodup
  free : ∀ name ∈ names, lowercase name ∉ taken

/-- All stems are free when they are chosen. -/
theorem areFree_stems (taken names : List String) : AreFree taken (stems taken names) := by
  induction names generalizing taken with
  | nil => exact ⟨List.nodup_nil, nofun⟩
  | cons name names ih =>
      obtain ⟨hnodup, hfree⟩ := ih (lowercase (freeStem (pageBase name) taken) :: taken)
      rw [stems]
      refine ⟨List.nodup_cons.mpr ⟨fun hmem => ?_, hnodup⟩, ?_⟩
      · obtain ⟨stem, hstem, heq⟩ := List.mem_map.mp hmem
        exact hfree stem hstem (heq ▸ List.mem_cons_self)
      · rw [List.forall_mem_cons]
        exact ⟨lowercase_freeStem_not_mem _ _, fun stem hstem htaken =>
          hfree stem hstem (List.mem_cons_of_mem _ htaken)⟩

/-- There is a stem for each name. -/
theorem length_stems (taken names : List String) : (stems taken names).length = names.length := by
  induction names generalizing taken with
  | nil => rfl
  | cons name names ih => rw [stems, List.length_cons, List.length_cons, ih]

/-- A page is named without a slash. -/
theorem slash_not_mem_pageBase (name : String) : '/' ∉ (pageBase name).toList := by
  unfold pageBase
  split
  · decide
  · rw [String.toList_ofList, List.mem_map]
    rintro ⟨c, -, hc⟩
    split at hc
    · cases hc
    · next hkept =>
        subst hc
        exact hkept rfl

theorem slash_not_mem_nameAt {base : String} (hbase : '/' ∉ base.toList) (n : Nat) :
    '/' ∉ (nameAt base n).toList := by
  cases n with
  | zero => exact hbase
  | succ n =>
      unfold nameAt numbered
      rw [String.toList_append, String.toList_append, List.mem_append, List.mem_append, not_or,
        not_or]
      exact ⟨⟨hbase, by decide⟩, Html.notMem_toString rfl (n + 2)⟩

/-- A stem is a name of one piece. -/
theorem slash_not_mem_stems {taken names : List String} :
    ∀ stem ∈ stems taken names, '/' ∉ stem.toList := by
  induction names generalizing taken with
  | nil => exact nofun
  | cons name names ih =>
      obtain ⟨n, heq, -⟩ := exists_freeStem (pageBase name) taken
      rw [stems, List.forall_mem_cons, heq]
      exact ⟨slash_not_mem_nameAt (slash_not_mem_pageBase name) n, ih⟩

-- =================================================================== files

/-- The file of a page. -/
def pageFile (stem : String) : String := stem ++ ".html"

theorem isName_pageFile {stem : String} (h : '/' ∉ stem.toList) : Path.IsName (pageFile stem) := by
  have hending : ".html".toList.length = 5 := rfl
  have hlong : ∀ short : String, short.toList.length < 5 → pageFile stem ≠ short := by
    rintro short hshort rfl
    rw [pageFile, String.toList_append, List.length_append] at hshort
    omega
  refine ⟨hlong _ (by decide), ?_, hlong _ (by decide), hlong _ (by decide)⟩
  rw [pageFile, String.toList_append, List.mem_append, not_or]
  exact ⟨h, by decide⟩

/-- Pages of different stems are different files. -/
theorem pageFile_injective {a b : String} (h : pageFile a = pageFile b) : a = b := by
  have hlist := congrArg String.toList h
  unfold pageFile at hlist
  simp only [String.toList_append] at hlist
  exact String.toList_inj.mp (List.append_cancel_right hlist)

/-- Files that are the same in lower case: the stem of one of the two, and only
of one, ends in a sigma. -/
theorem endsInSigma_ne {a b : String} (hne : lowercase a ≠ lowercase b)
    (h : lowercase (pageFile a) = lowercase (pageFile b)) : endsInSigma a ≠ endsInSigma b :=
  Text.endsInSigma_ne_of_lowercase_append (by decide) hne h

/-- No page has the name of the index, in any case of its letters. -/
theorem lowercase_pageFile_ne {stem : String} (h : lowercase stem ≠ indexStem) :
    lowercase (pageFile stem) ≠ pageFile indexStem := by
  intro hfile
  have hindex : lowercase indexStem = indexStem := by decide +kernel
  have hindexFile : lowercase (pageFile indexStem) = pageFile indexStem := by decide +kernel
  have hends : endsInSigma stem := by
    have hne := endsInSigma_ne (hindex ▸ h) (hfile.trans hindexFile.symm)
    have hno : endsInSigma indexStem = false := by decide +kernel
    rw [hno] at hne
    simpa using hne
  -- a sigma would be in the name of the index
  have hlist := congrArg String.toList hfile
  rw [pageFile, Text.toList_lowercase_append (by decide)] at hlist
  obtain ⟨x, y, -, htrue, hfalse⟩ := Text.exists_of_endsInSigma hends
  have hmem : '\u03C3' ∈ (pageFile indexStem).toList ∨ '\u03C2' ∈ (pageFile indexStem).toList := by
    rw [← hlist]
    cases beginsCased ".html".toList with
    | true =>
        rw [htrue]
        exact .inl (by simp)
    | false =>
        rw [hfalse]
        exact .inr (by simp)
  revert hmem
  decide

end ResourceLint.Report
