/-
What is escaped is read back.

A character that has a meaning in markup is written as an entity
(`escapeChar`); reading replaces the entities (`expand`).  The one undoes the
other for every text (`expand_escape`), whatever it holds: an entity that
stands in the text by accident begins with an ampersand, and that is written
as an entity in its turn.  Between the two, the text is harmless: no angle
bracket and no quote is left in it (`ne_of_mem_escape`).

The induction is on the text.  One character is taken at a time, and an
offset that only the message of a fault would show is carried along.
-/
import ResourceLint.Xml.Entity

namespace ResourceLint.Xml

variable {c d : Char} {cs s after name : List Char} {size offset : Nat}

-- ======================================================= written entities

/-- The characters that are written as entities. -/
def isSpecial (c : Char) : Bool :=
  c == '<' || c == '>' || c == '&' || c == '\'' || c == '"'

/-- Any other character is written as it is. -/
theorem escapeChar_of_not_isSpecial (h : isSpecial c = false) : escapeChar c = [c] := by
  simp only [isSpecial, Bool.or_eq_false_iff, beq_eq_false_iff_ne] at h
  unfold escapeChar
  split <;> simp_all

/-- A special character is written as a named entity. -/
theorem escapeChar_of_isSpecial (h : isSpecial c) :
    ∃ name, escapeChar c = '&' :: name ++ [';'] ∧ namedEntity? name = some c
      ∧ name.head? ≠ some '#' ∧ name.all (fun d => d != ';' && !isSpecial d) := by
  simp only [isSpecial, Bool.or_eq_true, beq_iff_eq] at h
  rcases h with (((rfl | rfl) | rfl) | rfl) | rfl
  · exact ⟨"lt".toList, by decide⟩
  · exact ⟨"gt".toList, by decide⟩
  · exact ⟨"amp".toList, by decide⟩
  · exact ⟨"apos".toList, by decide⟩
  · exact ⟨"quot".toList, by decide⟩

/-- What is written for a character holds an ampersand at most. -/
theorem ne_of_mem_escapeChar (h : d ∈ escapeChar c) : d = '&' ∨ isSpecial d = false := by
  cases hspecial : isSpecial c with
  | false =>
      rw [escapeChar_of_not_isSpecial hspecial, List.mem_singleton] at h
      exact Or.inr (h ▸ hspecial)
  | true =>
      obtain ⟨name, hname, -, -, hplain⟩ := escapeChar_of_isSpecial hspecial
      rw [hname, List.cons_append, List.mem_cons, List.mem_append, List.mem_singleton] at h
      rcases h with rfl | h | rfl
      · exact Or.inl rfl
      · have hd := List.all_eq_true.mp hplain d h
        simp only [Bool.and_eq_true, Bool.not_eq_true'] at hd
        exact Or.inr hd.2
      · exact Or.inr (by decide)

/-- No special character but the ampersand is left in a text that is
escaped. -/
theorem ne_of_mem_escape (h : d ∈ escape cs) : d = '&' ∨ isSpecial d = false := by
  obtain ⟨c, -, hd⟩ := List.mem_flatMap.mp h
  exact ne_of_mem_escapeChar hd

/-- A text without special characters is written as it is. -/
theorem escape_eq_self (h : cs.all (!isSpecial ·)) : escape cs = cs := by
  induction cs with
  | nil => rfl
  | cons c cs ih =>
      rw [List.all_cons, Bool.and_eq_true, Bool.not_eq_true'] at h
      unfold escape at ih ⊢
      rw [List.flatMap_cons, escapeChar_of_not_isSpecial h.1, ih h.2]
      rfl

-- ============================================================ reading back

/-- A name reaches to its semicolon. -/
theorem entityName?_append (h : name.all fun d => d != ';' && !isSpecial d) :
    entityName? (name ++ ';' :: s) = some (name, s) := by
  induction name with
  | nil => rfl
  | cons c name ih =>
      rw [List.all_cons, Bool.and_eq_true, Bool.and_eq_true, Bool.not_eq_true'] at h
      obtain ⟨⟨hsemicolon, hplain⟩, hname⟩ := h
      have hampersand : c ≠ '&' := by
        rintro rfl
        cases hplain
      rw [List.cons_append, entityName?, ih hname]
      simp [bne_iff_ne.mp hsemicolon, hampersand]

/-- A named entity stands for its character. -/
theorem readEntity_of_named (h : namedEntity? name = some c) (hname : name.head? ≠ some '#') :
    readEntity offset name = .ok c := by
  unfold readEntity
  split
  · next number => exact absurd rfl hname
  · rw [h]

/-- An ordinary character is read as it is. -/
theorem expandFrom_cons (h : c ≠ '&') :
    expandFrom size offset (c :: s)
      = (expandFrom size (offset + c.utf8Size) s).map (c :: ·) := by
  rw [expandFrom]
  simp only [beq_iff_eq, h, if_false]
  cases expandFrom size (offset + c.utf8Size) s <;> rfl

/-- An entity is read as the character that it stands for. -/
theorem expandFrom_entity (hentity : entityName? s = some (name, after))
    (hread : readEntity offset name = .ok c) :
    expandFrom size offset ('&' :: s)
      = (expandFrom size (offset + 2 + Text.byteSize name) after).map (c :: ·) := by
  rw [expandFrom]
  simp only [beq_self_eq_true, if_true]
  split
  · next h =>
      rw [hentity] at h
      cases h
  · next h =>
      rw [hentity] at h
      cases h
      rw [hread]
      show (expandFrom size _ after >>= fun more => Except.ok (c :: more)) = _
      cases expandFrom size (offset + 2 + Text.byteSize name) after <;> rfl

/-- What is written for a character is read as this character. -/
theorem expandFrom_escapeChar (size offset : Nat) (c : Char) (s : List Char) :
    ∃ next, expandFrom size offset (escapeChar c ++ s)
      = (expandFrom size next s).map (c :: ·) := by
  cases hspecial : isSpecial c with
  | false =>
      rw [escapeChar_of_not_isSpecial hspecial]
      refine ⟨_, expandFrom_cons ?_⟩
      rintro rfl
      cases hspecial
  | true =>
      obtain ⟨name, hname, hnamed, hhead, hplain⟩ := escapeChar_of_isSpecial hspecial
      rw [hname, List.append_assoc, List.cons_append, List.singleton_append]
      exact ⟨_, expandFrom_entity (entityName?_append hplain) (readEntity_of_named hnamed hhead)⟩

/-- What is escaped is read back, wherever it stands. -/
theorem expandFrom_escape (size offset : Nat) (cs : List Char) :
    expandFrom size offset (escape cs) = .ok cs := by
  induction cs generalizing offset with
  | nil =>
      show expandFrom size offset [] = _
      rw [expandFrom]
  | cons c cs ih =>
      obtain ⟨next, hnext⟩ := expandFrom_escapeChar size offset c (escape cs)
      have hcons : escape (c :: cs) = escapeChar c ++ escape cs := List.flatMap_cons ..
      rw [hcons, hnext, ih]
      rfl

/-- Expanding undoes escaping. -/
theorem expand_escape (cs : List Char) : expand (escape cs) = .ok cs :=
  expandFrom_escape _ 0 cs

/-- A text without special characters is read as it is. -/
theorem expand_eq_self (h : cs.all (!isSpecial ·)) : expand cs = .ok cs := by
  have hcs := expand_escape cs
  rwa [escape_eq_self h] at hcs

end ResourceLint.Xml
