/-
References in a text, and the styles that styles build on.

A reference is an at sign, perhaps a plus, a kind in small letters, a slash,
and a name as long as it goes (`Refers`).  The search goes through a text from
the left and on behind each reference that it finds, and finds all that there
are (`mem_references_iff`): a reference has no second at sign, so no other one
begins inside it (`occurs_append_iff`).

A style builds on the one that its attribute names, without the marks in
front of it, or else on the one that its own name has before the last dot
(`BuildsOn`, `styleParent?_eq_some_iff`).
-/
import Mathlib.Data.List.TakeWhile
import ResourceLint.Check.UnusedResources
import ResourceLint.Proofs.Paths

namespace ResourceLint.UnusedResources

variable {s t kind name after front : List Char} {key : ResourceKey}

-- ============================================================== one reference

/-- A kind, a slash and a name in front of what comes after. -/
structure Named (s kind name after : List Char) : Prop where
  split : s = kind ++ '/' :: (name ++ after)
  kind_ne_nil : kind ≠ []
  kindChars : ∀ c ∈ kind, isKindChar c
  name_ne_nil : name ≠ []
  nameChars : ∀ c ∈ name, isNameChar c
  /-- the name does not go on -/
  ends : ∀ c ∈ after.head?, isNameChar c = false

/-- What stands behind an at sign is the rest of a reference. -/
def Refers (s kind name after : List Char) : Prop :=
  ∃ t, (s = t ∨ s = '+' :: t) ∧ Named t kind name after

/-- A reference to a resource stands somewhere in a text. -/
def Occurs (key : ResourceKey) (s : List Char) : Prop :=
  ∃ before rest kind name after, s = before ++ '@' :: rest ∧ Refers rest kind name after
    ∧ key = keyOf (String.ofList kind) (String.ofList name)

theorem isKindChar_plus : isKindChar '+' = false := by decide

theorem isKindChar_slash : isKindChar '/' = false := by decide

/-- A kind and a name are read as far as their characters go. -/
theorem named_iff :
    Named t kind name after ↔
      kind ≠ [] ∧ name ≠ [] ∧ ∃ rest, t.dropWhile isKindChar = '/' :: rest
        ∧ kind = t.takeWhile isKindChar
        ∧ name = rest.takeWhile isNameChar
        ∧ after = rest.dropWhile isNameChar := by
  constructor
  · rintro ⟨rfl, hkind, hkinds, hname, hnames, hends⟩
    refine ⟨hkind, hname, name ++ after, ?_, ?_, ?_, ?_⟩
    · rw [List.dropWhile_append_of_pos hkinds,
        List.dropWhile_cons_of_neg (by simp [isKindChar_slash])]
    · rw [List.takeWhile_append_of_pos hkinds,
        List.takeWhile_cons_of_neg (by simp [isKindChar_slash]), List.append_nil]
    · rw [List.takeWhile_append_of_pos hnames]
      cases after with
      | nil => rw [List.takeWhile_nil, List.append_nil]
      | cons c more =>
          rw [List.takeWhile_cons_of_neg (by simp [hends c rfl]), List.append_nil]
    · rw [List.dropWhile_append_of_pos hnames]
      cases after with
      | nil => rfl
      | cons c more => rw [List.dropWhile_cons_of_neg (by simp [hends c rfl])]
  · -- taking as far as possible leaves nothing that could be taken
    rintro ⟨hkind, hname, rest, hrest, rfl, rfl, rfl⟩
    refine ⟨?_, hkind, fun c hc => List.mem_takeWhile_imp hc, hname,
      fun c hc => List.mem_takeWhile_imp hc, fun c hc => ?_⟩
    · rw [List.takeWhile_append_dropWhile, ← hrest, List.takeWhile_append_dropWhile]
    · have hhead := List.head?_dropWhile_not isNameChar rest
      rw [Option.mem_def.mp hc] at hhead
      simpa using hhead

/-- A reference is read where there is one. -/
theorem reference?_eq_some_iff :
    reference? s = some (String.ofList kind, String.ofList name, after)
      ↔ Refers s kind name after := by
  unfold reference?
  -- the rest is what is behind the plus, where there is one
  extract_lets rest
  have hrefers : Refers s kind name after ↔ Named rest kind name after := by
    unfold rest Refers
    split
    · next more _ =>
        refine ⟨?_, fun h => ⟨more, Or.inr rfl, h⟩⟩
        rintro ⟨t, rfl | heq, hnamed⟩
        · -- a kind does not begin with a plus
          obtain ⟨c, kind, rfl⟩ := List.exists_cons_of_ne_nil hnamed.kind_ne_nil
          have hplus : '+' = c := (List.cons.inj hnamed.split).1
          have hc := hnamed.kindChars c List.mem_cons_self
          rw [← hplus, isKindChar_plus] at hc
          cases hc
        · exact (List.cons.inj heq).2 ▸ hnamed
    · next hother =>
        refine ⟨?_, fun h => ⟨s, Or.inl rfl, h⟩⟩
        rintro ⟨t, rfl | rfl, hnamed⟩
        · exact hnamed
        · exact absurd rfl (hother t)
  rw [hrefers, named_iff]
  clear_value rest
  split
  · next behind hbehind =>
      rw [hbehind]
      simp only [Option.ite_none_left_eq_some, Bool.or_eq_true, List.isEmpty_iff, not_or,
        Option.some.injEq, Prod.mk.injEq, String.ofList_inj, List.cons.injEq, true_and]
      constructor
      · rintro ⟨⟨hkind, hname⟩, rfl, rfl, rfl⟩
        exact ⟨hkind, hname, behind, rfl, rfl, rfl, rfl⟩
      · rintro ⟨hkind, hname, _, rfl, rfl, rfl, rfl⟩
        exact ⟨⟨hkind, hname⟩, rfl, rfl, rfl⟩
  · next hother =>
      refine iff_of_false (by simp) ?_
      rintro ⟨-, -, behind, hbehind, -⟩
      exact hother behind hbehind

-- ====================================================== references in a text

/-- A key occurs at the first character or behind it. -/
theorem occurs_cons_iff {c : Char} :
    Occurs key (c :: s)
      ↔ (c = '@' ∧ ∃ kind name after, Refers s kind name after
          ∧ key = keyOf (String.ofList kind) (String.ofList name)) ∨ Occurs key s := by
  constructor
  · rintro ⟨before, rest, kind, name, after, hsplit, hrefers, rfl⟩
    cases before with
    | nil =>
        obtain ⟨rfl, rfl⟩ := List.cons.inj hsplit
        exact Or.inl ⟨rfl, kind, name, after, hrefers, rfl⟩
    | cons d before =>
        exact Or.inr ⟨before, rest, kind, name, after, (List.cons.inj hsplit).2, hrefers, rfl⟩
  · rintro (⟨rfl, kind, name, after, hrefers, rfl⟩ | ⟨before, rest, kind, name, after, rfl, h⟩)
    · exact ⟨[], s, kind, name, after, rfl, hrefers, rfl⟩
    · exact ⟨c :: before, rest, kind, name, after, rfl, h⟩

/-- Nothing begins before the first at sign. -/
theorem occurs_append_iff (h : '@' ∉ front) : Occurs key (front ++ s) ↔ Occurs key s := by
  induction front with
  | nil => rfl
  | cons c front ih =>
      rw [List.mem_cons, not_or] at h
      rw [List.cons_append, occurs_cons_iff, ih h.2]
      exact or_iff_right fun hc => h.1 hc.1.symm

/-- A reference has no at sign behind its first character. -/
theorem Refers.exists_front (h : Refers s kind name after) :
    ∃ front, s = front ++ after ∧ '@' ∉ front := by
  obtain ⟨t, hs, hnamed⟩ := h
  have hkind : '@' ∉ kind := fun hmem => absurd (hnamed.kindChars _ hmem) (by decide)
  have hname : '@' ∉ name := fun hmem => absurd (hnamed.nameChars _ hmem) (by decide)
  have hsplit : t = (kind ++ '/' :: name) ++ after := by
    rw [hnamed.split, List.append_assoc, List.cons_append]
  have hfront : '@' ∉ kind ++ '/' :: name := by simp [hkind, hname]
  rcases hs with rfl | rfl
  · exact ⟨_, hsplit, hfront⟩
  · exact ⟨'+' :: (kind ++ '/' :: name), congrArg ('+' :: ·) hsplit, by simp [hfront]⟩

/-- Where a reference begins, no other one does, and none begins inside it. -/
theorem occurs_at_iff (h : Refers s kind name after) :
    Occurs key ('@' :: s)
      ↔ key = keyOf (String.ofList kind) (String.ofList name) ∨ Occurs key after := by
  obtain ⟨front, hfront, hat⟩ := h.exists_front
  rw [occurs_cons_iff, hfront, occurs_append_iff hat, ← hfront]
  refine or_congr_left ⟨?_, fun hkey => ⟨rfl, kind, name, after, h, hkey⟩⟩
  rintro ⟨-, kind', name', after', h', rfl⟩
  have hsame := (reference?_eq_some_iff.mpr h).symm.trans (reference?_eq_some_iff.mpr h')
  simp only [Option.some.injEq, Prod.mk.injEq] at hsame
  rw [hsame.1, hsame.2.1]

theorem references_of_some {kind name : String} (h : reference? s = some (kind, name, after)) :
    references ('@' :: s) = keyOf kind name :: references after := by
  rw [references, if_pos (beq_self_eq_true _)]
  split
  · next h' =>
      rw [h] at h'
      cases h'
      rfl
  · next h' =>
      rw [h] at h'
      cases h'

theorem references_of_none (h : reference? s = none) : references ('@' :: s) = references s := by
  rw [references, if_pos (beq_self_eq_true _)]
  split
  · next h' =>
      rw [h] at h'
      cases h'
  · rfl

/-- The search finds the references that there are. -/
theorem mem_references_iff : key ∈ references s ↔ Occurs key s := by
  induction s using references.induct with
  | case1 =>
      rw [references]
      refine iff_of_false List.not_mem_nil ?_
      rintro ⟨before, rest, kind, name, after, hsplit, -⟩
      cases before <;> cases hsplit
  | case2 c rest hc kind name after hread ih =>
      obtain rfl : c = '@' := beq_iff_eq.mp hc
      have hrefers : Refers rest kind.toList name.toList after :=
        reference?_eq_some_iff.mp (by rw [String.ofList_toList, String.ofList_toList, hread])
      rw [references_of_some hread, List.mem_cons, ih, occurs_at_iff hrefers,
        String.ofList_toList, String.ofList_toList]
  | case3 c rest hc hread ih =>
      obtain rfl : c = '@' := beq_iff_eq.mp hc
      rw [references_of_none hread, ih, occurs_cons_iff]
      refine (or_iff_right ?_).symm
      rintro ⟨-, kind, name, after, hrefers, -⟩
      rw [reference?_eq_some_iff.mpr hrefers] at hread
      cases hread
  | case4 c rest hc ih =>
      rw [references, if_neg hc, ih, occurs_cons_iff]
      exact (or_iff_right fun h => hc (beq_iff_eq.mpr h.1)).symm

-- =============================================================== style parents

/-- The mark of a style reference. -/
def styleMark : List Char := "@style/".toList

/-- A style with this name builds on another one. -/
inductive BuildsOn (e : Xml.Element) (name : String) : String → Prop
  /-- its attribute names a style of the project -/
  | stated {parent : String} {bare : List Char} (marks : Nat)
      (hparent : e.attribute? "parent" = some parent) (hempty : parent ≠ "")
      (hsplit : parent.toList = (List.replicate marks styleMark).flatten ++ bare)
      (hat : bare.head? ≠ some '@') (hplatform : ¬ "android:".toList <+: bare) :
      BuildsOn e name (String.ofList bare)
  /-- it names none, and its own name has a dot -/
  | dotted {before last : List Char}
      (hparent : e.attribute? "parent" = none ∨ e.attribute? "parent" = some "")
      (hsplit : name.toList = before ++ '.' :: last) (hlast : '.' ∉ last) :
      BuildsOn e name (String.ofList before)

theorem dropStyleMarks_mark (s : List Char) :
    dropStyleMarks (styleMark ++ s) = dropStyleMarks s := by
  rw [dropStyleMarks]
  have hstrip : Text.strip? "@style/".toList (styleMark ++ s) = some s :=
    Text.strip?_eq_some_iff.mpr rfl
  split
  · next rest hrest =>
      rw [hstrip] at hrest
      rw [Option.some.inj hrest]
  · next hnone =>
      rw [hstrip] at hnone
      cases hnone

theorem dropStyleMarks_of_no_mark (h : ¬ styleMark <+: s) : dropStyleMarks s = s := by
  rw [dropStyleMarks]
  split
  · next rest hrest => exact absurd ⟨rest, (Text.strip?_eq_some_iff.mp hrest).symm⟩ h
  · rfl

/-- All marks in front of a text are dropped. -/
theorem exists_marks (s : List Char) :
    ∃ marks, s = (List.replicate marks styleMark).flatten ++ dropStyleMarks s := by
  induction s using dropStyleMarks.induct with
  | case1 s rest hrest ih =>
      obtain ⟨marks, hmarks⟩ := ih
      have hs : s = styleMark ++ rest := Text.strip?_eq_some_iff.mp hrest
      refine ⟨marks + 1, ?_⟩
      rw [hs, dropStyleMarks_mark, List.replicate_succ, List.flatten_cons, List.append_assoc,
        ← hmarks]
  | case2 s hnone =>
      refine ⟨0, ?_⟩
      rw [dropStyleMarks_of_no_mark]
      · rfl
      · rintro ⟨rest, hrest⟩
        have hstrip : Text.strip? "@style/".toList s = some rest :=
          Text.strip?_eq_some_iff.mpr hrest.symm
        rw [hstrip] at hnone
        cases hnone

theorem dropStyleMarks_marks {bare : List Char} (hat : bare.head? ≠ some '@') (marks : Nat) :
    dropStyleMarks ((List.replicate marks styleMark).flatten ++ bare) = bare := by
  induction marks with
  | zero =>
      refine dropStyleMarks_of_no_mark ?_
      rintro ⟨rest, rfl⟩
      exact hat rfl
  | succ marks ih =>
      rw [List.replicate_succ, List.flatten_cons, List.append_assoc, dropStyleMarks_mark, ih]

theorem styleParent?_eq_some_iff {e : Xml.Element} {name parent : String} :
    styleParent? e name = some parent ↔ BuildsOn e name parent := by
  unfold styleParent?
  constructor
  · intro h
    split at h
    · -- a parent that is stated, behind any marks of styles
      next given hgiven =>
        obtain ⟨hparent, hempty⟩ := Option.filter_eq_some_iff.mp hgiven
        obtain ⟨marks, hmarks⟩ := exists_marks given.toList
        simp only [Option.ite_none_left_eq_some, Bool.or_eq_true, not_or, beq_iff_eq,
          Option.some.injEq] at h
        obtain ⟨⟨hat, hplatform⟩, rfl⟩ := h
        exact .stated marks hparent (by simpa using hempty) hmarks hat
          fun hbegins => hplatform (List.isPrefixOf_iff_prefix.mpr hbegins)
    · -- none is stated, and the name has a dot
      next hnone =>
        obtain ⟨⟨before, last⟩, hcut, rfl⟩ := Option.map_eq_some_iff.mp h
        obtain ⟨hsplit, hlast⟩ := Text.cutLast?_eq_some_iff.mp hcut
        refine .dotted ?_ hsplit hlast
        cases hparent : e.attribute? "parent" with
        | none => exact Or.inl rfl
        | some given =>
            rw [hparent, Option.filter_eq_none_iff] at hnone
            exact Or.inr (congrArg some (by simpa using hnone given rfl))
  · intro h
    cases h with
    | @stated given bare marks hparent hempty hsplit hat hplatform =>
        have hplain : "android:".toList.isPrefixOf bare = false := by
          simpa [← List.isPrefixOf_iff_prefix] using hplatform
        rw [hparent, Option.filter_some, if_pos (by simpa using hempty)]
        simp only [hsplit, dropStyleMarks_marks hat]
        rw [hplain, Bool.or_false, if_neg (by simpa using hat)]
    | dotted hparent hsplit hlast =>
        have hnone : (e.attribute? "parent").filter (· != "") = none := by
          rcases hparent with hparent | hparent <;> rw [hparent] <;> rfl
        rw [hnone, Text.cutLast?_eq_some_iff.mpr ⟨hsplit, hlast⟩]
        rfl

end ResourceLint.UnusedResources
