/-
Lists of entries in one text.

A text is cut at its commas; blanks around the parts are dropped, and so are
the parts that say nothing.  Whatever the text, what is left can stand
between commas (`isEntry_of_mem_entries`), and entries that can are found
again in the text that lists them (`entries_intercalate`).

An entry that gives an issue a severity is cut once more, at its first
equals sign.  What stands before is a key (`isKey_of_parseEntry?`), and a key
that is written with a severity is read back with it (`parseEntry?_append`).
-/
import Mathlib.Data.List.DropRight
import ResourceLint.Config.Overrides
import ResourceLint.Proofs.Paths

namespace ResourceLint

namespace Text

-- ==================================================== blanks at the ends

/-- A text that neither begins nor ends with a blank. -/
structure IsTrimmed (cs : List Char) : Prop where
  first : ∀ c ∈ cs.head?, isBlank c = false
  last : ∀ c ∈ cs.getLast?, isBlank c = false

variable {cs : List Char} {mark c : Char}

/-- Trimming changes nothing where there is nothing to trim. -/
theorem trim_of_isTrimmed (h : IsTrimmed cs) : trim cs = cs := by
  have hstart : trimStart cs = cs := by
    cases cs with
    | nil => rfl
    | cons c cs => exact List.dropWhile_cons_of_neg (by simpa using h.first c rfl)
  have hend : trimEnd cs = cs := List.rdropWhile_eq_self_iff.mpr fun hne => by
    simpa using h.last _ (List.getLast?_eq_getLast_of_ne_nil hne)
  unfold trim
  rw [hstart, hend]

theorem trim_prefix_trimStart (cs : List Char) : trim cs <+: trimStart cs := List.rdropWhile_prefix ..

/-- Trimming adds no character. -/
theorem mem_of_mem_trim (h : c ∈ trim cs) : c ∈ cs :=
  (List.dropWhile_sublist _).subset ((trim_prefix_trimStart cs).subset h)

theorem isTrimmed_trim (cs : List Char) : IsTrimmed (trim cs) where
  first c hc := by
    obtain ⟨rest, hrest⟩ := trim_prefix_trimStart cs
    cases htrim : trim cs with
    | nil =>
        rw [htrim] at hc
        cases hc
    | cons d more =>
        rw [htrim] at hc hrest
        cases hc
        have hhead := List.head?_dropWhile_not isBlank cs
        rw [show cs.dropWhile isBlank = _ from hrest.symm] at hhead
        exact hhead
  last c hc := by
    obtain ⟨hne, rfl⟩ := List.mem_getLast?_eq_getLast hc
    have hlast : ¬ isBlank ((trim cs).getLast hne) = true :=
      List.rdropWhile_last_not isBlank (trimStart cs) hne
    simpa using hlast

/-- A text that trimming leaves alone has no blanks at its ends. -/
theorem isTrimmed_of_trimmed {s : String} (h : trimmed s = s) : IsTrimmed s.toList := by
  have htrim := congrArg String.toList h
  rw [trimmed, String.toList_ofList] at htrim
  exact htrim ▸ isTrimmed_trim s.toList

theorem trimmed_of_isTrimmed {s : String} (h : IsTrimmed s.toList) : trimmed s = s := by
  rw [trimmed, trim_of_isTrimmed h, String.ofList_toList]

-- ================================================================= parts

/-- There is no mark in the parts that a text is cut into. -/
theorem not_mem_of_mem_splitAt {s part : List Char} (h : part ∈ splitAt mark s) : mark ∉ part := by
  induction s generalizing part with
  | nil => simp [List.mem_singleton.mp h]
  | cons c s ih =>
      rw [splitAt] at h
      split at h
      · rcases List.mem_cons.mp h with rfl | h
        · exact List.not_mem_nil
        · exact ih h
      · next hc =>
          split at h
          · next first more hsplit =>
              rcases List.mem_cons.mp h with rfl | h
              · have hfirst := ih (hsplit ▸ List.mem_cons_self)
                simpa [hfirst] using Ne.symm (by simpa using hc)
              · exact ih (hsplit ▸ List.mem_cons_of_mem _ h)
          · next hnil => exact absurd hnil (splitAt_ne_nil mark s)

/-- Parts without a mark are found again in the text that lists them. -/
theorem splitAt_intercalate {parts : List (List Char)} (hne : parts ≠ [])
    (h : ∀ part ∈ parts, mark ∉ part) : splitAt mark ([mark].intercalate parts) = parts := by
  induction parts with
  | nil => exact absurd rfl hne
  | cons part parts ih =>
      have hpart := h part List.mem_cons_self
      cases parts with
      | nil =>
          rw [List.intercalate_singleton]
          exact splitAt_of_not_mem hpart
      | cons second parts =>
          rw [List.intercalate_cons_cons, List.append_assoc, List.singleton_append,
            splitAt_append_cons, splitAt_of_not_mem hpart,
            ih (List.cons_ne_nil _ _) fun other hother => h other (List.mem_cons_of_mem _ hother)]
          rfl

/-- What is cut at the first mark has no mark before it. -/
theorem cut?_eq_some_iff {s before after : List Char} :
    cut? [mark] s = some (before, after) ↔ s = before ++ mark :: after ∧ mark ∉ before := by
  induction s generalizing before with
  | nil => simp [cut?]
  | cons c s ih =>
      have hstrip : strip? [mark] (c :: s) = if mark = c then some s else none := rfl
      rw [cut?, hstrip]
      -- the first character is the mark, or the cut is behind it
      by_cases hc : mark = c
      · rw [if_pos hc]
        cases before with
        | nil => simp [hc]
        | cons d before => simp +contextual [hc]
      · rw [if_neg hc]
        cases before with
        | nil => simp [Ne.symm hc]
        | cons d before =>
            simp only [Option.map_eq_some_iff, Prod.exists, Prod.mk.injEq, List.cons.injEq,
              List.cons_append, List.mem_cons, not_or]
            constructor
            · rintro ⟨found, rest, hcut, ⟨rfl, rfl⟩, rfl⟩
              obtain ⟨rfl, hmark⟩ := ih.mp hcut
              exact ⟨⟨rfl, rfl⟩, hc, hmark⟩
            · rintro ⟨⟨rfl, rfl⟩, -, hmark⟩
              exact ⟨before, after, ih.mpr ⟨rfl, hmark⟩, ⟨rfl, rfl⟩, rfl⟩

end Text

namespace Overrides

-- ======================================================= between commas

/-- What can stand between commas. -/
structure IsEntry (entry : String) : Prop where
  ne_empty : entry ≠ ""
  trimmed : Text.IsTrimmed entry.toList
  comma : ',' ∉ entry.toList

/-- What is read from a text can stand between commas. -/
theorem isEntry_of_mem_entries {s entry : String} (h : entry ∈ entries s) : IsEntry entry := by
  unfold entries Text.split at h
  obtain ⟨h, hne⟩ := List.mem_filter.mp h
  obtain ⟨part, hpart, rfl⟩ := List.mem_map.mp h
  obtain ⟨cs, hcs, rfl⟩ := List.mem_map.mp hpart
  unfold Text.trimmed at hne ⊢
  rw [String.toList_ofList] at hne ⊢
  refine ⟨by simpa using hne, ?_, ?_⟩
  · rw [String.toList_ofList]
    exact Text.isTrimmed_trim cs
  · rw [String.toList_ofList]
    exact fun hmem => Text.not_mem_of_mem_splitAt hcs (Text.mem_of_mem_trim hmem)

/-- What can stand between commas is read back from a list. -/
theorem entries_intercalate {parts : List String} (h : ∀ part ∈ parts, IsEntry part) :
    entries (",".intercalate parts) = parts := by
  by_cases hne : parts = []
  · subst hne
    decide
  · have hsplit : Text.split ',' (",".intercalate parts) = parts := by
      unfold Text.split
      rw [String.toList_intercalate]
      have hparts : Text.splitAt ',' ([','].intercalate (parts.map String.toList))
          = parts.map String.toList := by
        refine Text.splitAt_intercalate (by simpa using hne) fun part hpart => ?_
        obtain ⟨entry, hentry, rfl⟩ := List.mem_map.mp hpart
        exact (h entry hentry).comma
      rw [show ",".toList = [','] from rfl, hparts, List.map_map]
      exact List.map_id'' (fun s => String.ofList_toList) _
    unfold entries
    rw [hsplit, List.map_congr_left fun entry hentry =>
      Text.trimmed_of_isTrimmed (h entry hentry).trimmed, List.map_id'', List.filter_eq_self]
    · exact fun entry hentry => by simpa using (h entry hentry).ne_empty
    · exact fun _ => rfl

-- ==================================================== around equals signs

/-- What can stand before an equals sign. -/
structure IsKey (id : String) : Prop where
  trimmed : Text.IsTrimmed id.toList
  comma : ',' ∉ id.toList
  equals : '=' ∉ id.toList

/-- What is read before an equals sign can stand there. -/
theorem isKey_of_parseEntry? {entry id : String} {severity : Severity} (hentry : IsEntry entry)
    (h : parseEntry? entry = some (id, severity)) : IsKey id := by
  unfold parseEntry? Text.splitOnce? at h
  cases hcut : Text.cut? ['='] entry.toList with
  | none =>
      rw [hcut] at h
      cases h
  | some parts =>
      obtain ⟨before, after⟩ := parts
      rw [hcut] at h
      obtain ⟨_, -, heq⟩ := Option.map_eq_some_iff.mp h
      cases heq
      obtain ⟨hentry', hequals⟩ := Text.cut?_eq_some_iff.mp hcut
      unfold Text.trimmed
      rw [String.toList_ofList]
      refine ⟨?_, ?_, ?_⟩
      all_goals rw [String.toList_ofList]
      · exact Text.isTrimmed_trim before
      · refine fun hmem => hentry.comma ?_
        rw [hentry']
        exact List.mem_append_left _ (Text.mem_of_mem_trim hmem)
      · exact fun hmem => hequals (Text.mem_of_mem_trim hmem)

variable {id : String}

theorem toList_append_name (id : String) (severity : Severity) :
    (id ++ "=" ++ severity.name).toList = id.toList ++ '=' :: severity.name.toList := by
  simp

/-- A key that is written with a severity can stand between commas. -/
theorem isEntry_append (h : IsKey id) (severity : Severity) :
    IsEntry (id ++ "=" ++ severity.name) := by
  have hlast : ('=' :: severity.name.toList).getLast?.any Text.isBlank = false := by
    cases severity <;> decide
  have hcomma : ',' ∉ '=' :: severity.name.toList := by
    cases severity <;> decide
  constructor
  · intro hempty
    have hnil := congrArg String.toList hempty
    rw [toList_append_name] at hnil
    simp at hnil
  · rw [toList_append_name]
    constructor
    · -- an empty key is followed by the equals sign, which is no blank
      intro c hc
      cases hid : id.toList with
      | nil =>
          rw [hid] at hc
          cases hc
          decide
      | cons first rest =>
          rw [hid] at hc
          exact h.trimmed.first c (by rw [hid]; exact hc)
    · intro c hc
      rw [List.getLast?_append_cons, Option.mem_def] at hc
      rw [hc] at hlast
      exact hlast
  · rw [toList_append_name, List.mem_append, not_or]
    exact ⟨h.comma, hcomma⟩

/-- A key that is written with a severity is read back with it. -/
theorem parseEntry?_append (h : IsKey id) (severity : Severity) :
    parseEntry? (id ++ "=" ++ severity.name) = some (id, severity) := by
  have hname : Severity.ofString? severity.name = some severity := by
    cases severity <;> decide
  unfold parseEntry? Text.splitOnce?
  rw [toList_append_name, Text.cut?_eq_some_iff.mpr ⟨rfl, h.equals⟩]
  simp only [Option.map_some, String.ofList_toList]
  rw [hname, Text.trimmed_of_isTrimmed h.trimmed]
  rfl

end Overrides

end ResourceLint
