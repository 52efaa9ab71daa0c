/-
Stored overrides, whatever has been done to them.

Overrides are kept as two texts, and their reading is remembered until a text
changes.  The reading is never stale, and writing it gives texts that are
read as the same again (`Stored.coherent_performAll`).

# Two invariants

What is remembered is what the two texts say (`Stored.Fresh`).  A new severity
writes both texts from the reading, so this needs that the reading can be
written: its keys increase, and they can stand where they are put
(`Overrides.IsWritable`).  Whatever the texts are, what is read from them is of
this kind (`isWritable_parse`), and it stays so when a proper id gets a
severity.
-/
import ResourceLint.Config.Stored
import ResourceLint.Proofs.Entries
import ResourceLint.Proofs.Keys

namespace ResourceLint

namespace Overrides

open Assoc (Increasing)

variable {o : Overrides} {id : String} {severity : Severity}

-- ================================================= reading what is written

/-- Overrides that are the same once they are written and read. -/
structure IsWritable (o : Overrides) : Prop where
  severities : Increasing compare (o.severities.map (·.1))
  isKey : ∀ id ∈ o.severities.map (·.1), IsKey id
  disabled : Increasing compare o.disabled
  isEntry : ∀ id ∈ o.disabled, IsEntry id

/-- What is read from any two texts can be written. -/
theorem isWritable_parse (severities disabled : String) :
    (parse severities disabled).IsWritable where
  severities := by
    unfold parse
    rw [Assoc.map_fst_foldl_insert]
    exact Assoc.increasing_keySet _
  isKey id hid := by
    unfold parse at hid
    rw [Assoc.map_fst_foldl_insert, Assoc.mem_keySet] at hid
    obtain ⟨⟨_, severity⟩, hread, rfl⟩ := List.mem_map.mp hid
    obtain ⟨entry, hentry, hparse⟩ := List.mem_filterMap.mp hread
    exact isKey_of_parseEntry? (isEntry_of_mem_entries hentry) hparse
  disabled := Assoc.increasing_keySet _
  isEntry id hid := isEntry_of_mem_entries (Assoc.mem_keySet.mp hid)

/-- What can be written is read back as it is. -/
theorem IsWritable.parse_texts (h : o.IsWritable) :
    parse o.severityText o.disabledText = o := by
  have hentries : entries o.severityText
      = o.severities.map fun entry => entry.1 ++ "=" ++ entry.2.name := by
    refine entries_intercalate fun part hpart => ?_
    obtain ⟨entry, hmem, rfl⟩ := List.mem_map.mp hpart
    exact isEntry_append (h.isKey entry.1 (List.mem_map_of_mem hmem)) entry.2
  have hread : (entries o.severityText).filterMap parseEntry? = o.severities := by
    rw [hentries, List.filterMap_map]
    refine (List.filterMap_congr fun entry hentry => ?_).trans List.filterMap_some
    exact parseEntry?_append (h.isKey _ (List.mem_map_of_mem hentry)) _
  unfold parse
  rw [hread, Assoc.foldl_insert_of_increasing h.severities]
  unfold disabledText
  rw [entries_intercalate h.isEntry, Assoc.keySet_of_increasing h.disabled]

/-- Setting a severity keeps overrides writable, -/
theorem IsWritable.set (h : o.IsWritable) (hid : IsKey id) (severity : Severity) :
    (o.set id severity).IsWritable where
  severities := by
    unfold Overrides.set
    rw [Assoc.map_fst_insert]
    exact Assoc.increasing_insertKey h.severities
  isKey other hother := by
    unfold Overrides.set at hother
    rw [Assoc.map_fst_insert] at hother
    rcases Assoc.mem_insertKey.mp hother with rfl | hother
    · exact hid
    · exact h.isKey other hother
  disabled := List.Pairwise.filter _ h.disabled
  isEntry other hother := h.isEntry other (List.mem_filter.mp hother).1

/-- Disabling an id keeps overrides writable. -/
theorem IsWritable.disable (h : o.IsWritable) (hid : IsEntry id) : (o.disable id).IsWritable where
  severities := h.severities
  isKey := h.isKey
  disabled := Assoc.increasing_insertKey h.disabled
  isEntry other hother := by
    rcases Assoc.mem_insertKey.mp hother with rfl | hother
    · exact hid
    · exact h.isEntry other hother

-- ======================================================= what is looked up

/-- An issue that gets a severity has it, even if it was off; the others are
as before. -/
theorem severity?_set (o : Overrides) (id other : String) (severity : Severity) :
    (o.set id severity).severity? other
      = if other = id then some severity else o.severity? other := by
  have hlookup : ∀ entries : List (String × Severity),
      entries.lookup other = Assoc.lookup? compare other entries := Assoc.lookup_eq_lookup? other
  unfold severity? Overrides.set
  rw [hlookup, hlookup, Assoc.lookup?_insert]
  by_cases heq : other = id
  · simp [heq]
  · simp [heq]

/-- An issue that is switched off is off, whatever severity it keeps beneath;
the others are as before. -/
theorem severity?_disable (o : Overrides) (id other : String) :
    (o.disable id).severity? other
      = if other = id then some .ignore else o.severity? other := by
  unfold severity? Overrides.disable
  simp only [List.contains_iff_mem, Assoc.mem_insertKey]
  by_cases heq : other = id
  · simp [heq]
  · simp [heq]

end Overrides

namespace Stored

variable {s : Stored} {id : String}

-- ===================================================================== edits

/-- What can be done to stored overrides. -/
inductive Edit
  | setSeverities (severities : String)
  | setDisabled (disabled : String)
  | set (id : String) (severity : Severity)
  /-- asks for the reading -/
  | read

/-- An id that the two texts can hold. -/
structure IsId (id : String) : Prop where
  ne_empty : id ≠ ""
  trimmed : Text.trimmed id = id
  comma : ',' ∉ id.toList
  equals : '=' ∉ id.toList

/-- An id may stand as a key, -/
theorem IsId.isKey (h : IsId id) : Overrides.IsKey id :=
  ⟨Text.isTrimmed_of_trimmed h.trimmed, h.comma, h.equals⟩

theorem IsId.isEntry (h : IsId id) : Overrides.IsEntry id :=
  ⟨h.ne_empty, Text.isTrimmed_of_trimmed h.trimmed, h.comma⟩

/-- Severities are given to ids only; texts can be any. -/
def Edit.IsProper : Edit → Prop
  | .setSeverities _ => True
  | .setDisabled _ => True
  | .set id _ => IsId id
  | .read => True

def perform (s : Stored) : Edit → Stored
  | .setSeverities severities => s.setSeverities severities
  | .setDisabled disabled => s.setDisabled disabled
  | .set id severity => s.set id severity
  | .read => s.read

/-- What becomes of two texts. -/
def performAll (severities disabled : String) (edits : List Edit) : Stored :=
  edits.foldl perform (.new severities disabled)

-- ============================================================= what is kept

/-- What is remembered is what the texts say. -/
def Fresh (s : Stored) : Prop := ∀ o, s.reading = some o → o = .parse s.severities s.disabled

/-- What was read freshly is what the two texts say. -/
theorem Fresh.overrides_eq (h : s.Fresh) : s.overrides = .parse s.severities s.disabled := by
  unfold overrides
  cases hreading : s.reading with
  | none => rfl
  | some o => exact h o hreading

/-- What was read freshly can be written. -/
theorem Fresh.isWritable (h : s.Fresh) : s.overrides.IsWritable := by
  rw [h.overrides_eq]
  exact Overrides.isWritable_parse ..

theorem fresh_of_none (h : s.reading = none) : s.Fresh := fun _ ho => nomatch h.symm.trans ho

/-- Reading keeps the store fresh. -/
theorem Fresh.read (h : s.Fresh) : s.read.Fresh := by
  intro o ho
  cases ho
  exact h.overrides_eq

/-- A text that is replaced by itself leaves the reading, and any other text
drops it. -/
theorem Fresh.setSeverities (h : s.Fresh) (severities : String) :
    (s.setSeverities severities).Fresh := by
  unfold Stored.setSeverities
  split
  · exact h
  · exact fresh_of_none rfl

/-- A new text has nothing read of it. -/
theorem Fresh.setDisabled (h : s.Fresh) (disabled : String) : (s.setDisabled disabled).Fresh := by
  unfold Stored.setDisabled
  split
  · exact h
  · exact fresh_of_none rfl

/-- The texts that a new severity is written to are read as what is
remembered. -/
theorem Fresh.set (h : s.Fresh) (hid : IsId id) (severity : Severity) :
    (s.set id severity).Fresh := by
  intro o ho
  cases ho
  refine (Overrides.IsWritable.parse_texts ?_).symm
  split
  · exact h.isWritable.disable hid.isEntry
  · exact h.isWritable.set hid.isKey severity

/-- One edit keeps the reading fresh. -/
theorem Fresh.perform (h : s.Fresh) {edit : Edit} (hproper : edit.IsProper) :
    (s.perform edit).Fresh := by
  cases edit with
  | setSeverities severities => exact h.setSeverities severities
  | setDisabled disabled => exact h.setDisabled disabled
  | set id severity => exact h.set hproper severity
  | read => exact h.read

/-- So do any edits. -/
theorem Fresh.foldl_perform (h : s.Fresh) {edits : List Edit}
    (hproper : ∀ edit ∈ edits, edit.IsProper) : (edits.foldl Stored.perform s).Fresh := by
  induction edits generalizing s with
  | nil => exact h
  | cons edit edits ih =>
      exact ih (h.perform (hproper edit List.mem_cons_self)) fun other hother =>
        hproper other (List.mem_cons_of_mem _ hother)

/-- A new severity is that of the issue from then on, and no other issue's.
Off is written to another text than the rest, and it covers what the first
text says of the issue. -/
theorem severity?_overrides_set (s : Stored) (id other : String) (severity : Severity) :
    (s.set id severity).overrides.severity? other
      = if other = id then some severity else s.overrides.severity? other := by
  have hoverrides : (s.set id severity).overrides
      = if severity = .ignore then s.overrides.disable id else s.overrides.set id severity := rfl
  rw [hoverrides]
  split
  · next hoff => rw [Overrides.severity?_disable, hoff]
  · exact Overrides.severity?_set ..

/-- What an issue had stays in the first text when it is switched off. -/
example : ((Stored.new "B=error, A = warn" "").set "A" .ignore).severities = "A=WARNING,B=ERROR"
    ∧ ((Stored.new "B=error, A = warn" "").set "A" .ignore).disabled = "A" := by
  decide +kernel

/-- Stored overrides that agree with their texts. -/
structure Coherent (s : Stored) : Prop where
  /-- the reading is that of the texts -/
  current : s.overrides = .parse s.severities s.disabled
  /-- written and read, it is the same -/
  written : .parse s.overrides.severityText s.overrides.disabledText = s.overrides
  /-- an issue that is given a severity has it -/
  given : ∀ id severity, (s.set id severity).overrides.severity? id = some severity
  /-- and all others have what they had -/
  others : ∀ id severity other, other ≠ id →
    (s.set id severity).overrides.severity? other = s.overrides.severity? other

/-- Stored overrides agree with their texts at any time: for any two texts,
whatever they say, and after any edits. -/
theorem coherent_performAll (severities disabled : String) {edits : List Edit}
    (hproper : ∀ edit ∈ edits, edit.IsProper) :
    (performAll severities disabled edits).Coherent := by
  have hfresh : (performAll severities disabled edits).Fresh :=
    (fresh_of_none rfl).foldl_perform hproper
  exact
    { current := hfresh.overrides_eq
      written := hfresh.isWritable.parse_texts
      given := fun id severity => by rw [severity?_overrides_set, if_pos rfl]
      others := fun id severity other hne => by rw [severity?_overrides_set, if_neg hne] }

/-- Texts with repeats, blanks and entries that say nothing. -/
def untidy : String × String := (" A = error,B=warn,, =info ,A=fatal,C", "D,, B ,B")

/-- An issue is switched off and on again. -/
def offAndOn : List Edit :=
  [.read, .set "A" .ignore, .setDisabled "A, D", .set "A" .informational, .read]

theorem coherent_offAndOn :
    (∀ edit ∈ offAndOn, edit.IsProper)
      ∧ (performAll untidy.1 untidy.2 offAndOn).Coherent := by
  have hid : IsId "A" := ⟨by decide, by decide, by decide, by decide⟩
  have hproper : ∀ edit ∈ offAndOn, edit.IsProper := by
    simp only [offAndOn, List.forall_mem_cons]
    exact ⟨trivial, hid, trivial, hid, trivial, fun _ h => nomatch h⟩
  exact ⟨hproper, coherent_performAll _ _ hproper⟩

end Stored

end ResourceLint
