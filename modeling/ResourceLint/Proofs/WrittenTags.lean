/-
How a start tag is written, and what is read of it.

A tag is its name and a run of settings, then white space: each setting is a
name, an equals sign and a quoted value, with white space before the name and
on either side of the sign.  Every tag that is read without a fault is written
so (`StartTag.exists_written`), and however its text is taken apart in this
way, the attributes read are the settings in their order, each with a name of
its own (`StartTag.Written.of_readAttributes`).

Between two settings there need be no white space, and a name may hold any
character but white space and, behind its first one, an equals sign.  Where
there is white space, and the names hold no mark that means something in a
tag, and no value has a bracket, the tag is tidy (`StartTag.Tidy`).
-/
import ResourceLint.Proofs.Reading
import ResourceLint.Proofs.StartTags

namespace ResourceLint.Xml

variable {s rest back front key value after trail : List Char} {c quote : Char} {size : Nat}
  {seen : List (List Char × Nat)} {t : StartTag}

-- ========================================================== runs of characters

/-- Where a run of characters ends, it is followed by one of another kind. -/
theorem exists_of_dropWhile {p : Char → Bool} (h : s.dropWhile p = c :: back) :
    s = s.takeWhile p ++ c :: back ∧ (∀ d ∈ s.takeWhile p, p d) ∧ p c = false := by
  have hhead := List.head?_dropWhile_not p s
  rw [h] at hhead
  refine ⟨?_, fun d hd => List.mem_takeWhile_imp hd, by simpa using hhead⟩
  rw [← h, List.takeWhile_append_dropWhile]

theorem takeWhile_append_cons {p : Char → Bool} (hfront : ∀ d ∈ front, p d) (hc : p c = false) :
    (front ++ c :: back).takeWhile p = front := by
  rw [List.takeWhile_append_of_pos hfront, List.takeWhile_cons_of_neg (by simp [hc]),
    List.append_nil]

theorem dropWhile_append_cons {p : Char → Bool} (hfront : ∀ d ∈ front, p d) (hc : p c = false) :
    (front ++ c :: back).dropWhile p = c :: back := by
  rw [List.dropWhile_append_of_pos hfront, List.dropWhile_cons_of_neg (by simp [hc])]

-- ==================================================================== settings

/-- An attribute as it stands in a tag: the white space before it, its name,
the equals sign with the white space around it, and the quoted value. -/
structure Setting where
  lead : List Char
  name : List Char
  before : List Char
  behind : List Char
  quote : Char
  value : List Char

namespace Setting

variable {w : Setting} {settings : List Setting}

/-- From the name to the closing quote. -/
def assignment (w : Setting) : List Char :=
  w.name ++ (w.before ++ '=' :: (w.behind ++ w.quote :: (w.value ++ [w.quote])))

def text (w : Setting) : List Char := w.lead ++ w.assignment

theorem byteSize_text (w : Setting) :
    Text.byteSize w.text = Text.byteSize w.lead + Text.byteSize w.assignment :=
  Text.byteSize_append _ _

/-- What is read of it. -/
def raw (w : Setting) : Tag.Raw := ⟨w.name, w.value⟩

/-- The parts of the setting are what they are called, with white space of a
kind between them. -/
structure Spaced (space : Char → Bool) (w : Setting) : Prop where
  lead : ∀ c ∈ w.lead, space c
  before : ∀ c ∈ w.before, space c
  behind : ∀ c ∈ w.behind, space c
  quote : w.quote = '"' ∨ w.quote = '\''
  value : w.quote ∉ w.value

/-- The setting may stand in a tag. -/
structure IsWritten (w : Setting) : Prop where
  spaced : w.Spaced Text.isMarkupSpace
  name : ∃ c rest, w.name = c :: rest ∧ Text.isMarkupSpace c = false
    ∧ ∀ d ∈ rest, (!(d == '=' || Text.isMarkupSpace d)) = true

/-- The attribute is what the setting says, with its entities expanded. -/
def Says (w : Setting) (a : Attribute) : Prop :=
  a.name = String.ofList w.name ∧ expand w.value = .ok a.value.toList

end Setting

-- ============================================================== the two readers

namespace Tag

/-- A key is read up to `=`, but for blanks before it. -/
theorem readKey_eq_ok_iff :
    readKey size c rest = .ok (key, after) ↔
      ∃ more before, key = c :: more ∧ rest = more ++ (before ++ '=' :: after)
        ∧ (∀ d ∈ more, (!(d == '=' || Text.isMarkupSpace d)) = true)
        ∧ ∀ d ∈ before, Text.isMarkupSpace d := by
  have hsign : Text.isMarkupSpace '=' = false := by decide
  unfold readKey
  dsimp only
  constructor
  · intro h
    split at h
    · cases h
    · next d behind hbehind =>
        obtain ⟨hsplit, hbefore, -⟩ := exists_of_dropWhile hbehind
        split at h
        · next hd =>
            obtain rfl : d = '=' := by simpa using hd
            cases h
            refine ⟨_, _, rfl, ?_, ?_, hbefore⟩
            · rw [← hsplit, List.takeWhile_append_dropWhile]
            · exact fun d hd => List.mem_takeWhile_imp (p := fun d => !(d == '=' || _)) hd
        · cases h
  · rintro ⟨more, before, rfl, rfl, hmore, hbefore⟩
    -- the key ends at a blank, or at the sign itself
    obtain ⟨d, back, hcons, hd⟩ : ∃ d back, before ++ '=' :: after = d :: back
        ∧ (!(d == '=' || Text.isMarkupSpace d)) = false := by
      cases before with
      | nil => exact ⟨'=', after, rfl, by decide⟩
      | cons d more => exact ⟨d, _, rfl, by simp [hbefore d List.mem_cons_self]⟩
    rw [hcons, takeWhile_append_cons hmore hd, dropWhile_append_cons hmore hd, ← hcons,
      dropWhile_append_cons hbefore hsign]
    rfl

/-- A value is read between two quotes of a kind, behind blanks. -/
theorem readQuoted_eq_ok_iff :
    readQuoted size s = .ok (value, after) ↔
      ∃ behind quote, s = behind ++ quote :: (value ++ quote :: after)
        ∧ (∀ d ∈ behind, Text.isMarkupSpace d) ∧ (quote = '"' ∨ quote = '\'') ∧ quote ∉ value := by
  unfold readQuoted
  constructor
  · intro h
    split at h
    · cases h
    · next quote more hmore =>
        obtain ⟨hsplit, hbehind, -⟩ := exists_of_dropWhile hmore
        split at h
        · next hquote =>
            split at h
            · cases h
            · next last after hafter =>
                cases h
                obtain ⟨hvalue, hinside, hlast⟩ := exists_of_dropWhile hafter
                obtain rfl : last = quote := by simpa using hlast
                refine ⟨_, last, ?_, hbehind, by simpa using hquote, fun hmem => ?_⟩
                · rw [← hvalue]
                  exact hsplit
                · exact absurd (hinside last hmem) (by simp)
        · cases h
  · rintro ⟨behind, quote, rfl, hbehind, hquote, hvalue⟩
    have hspace : Text.isMarkupSpace quote = false := by
      rcases hquote with rfl | rfl <;> decide
    rw [dropWhile_append_cons hbehind hspace]
    -- from the quote on there are no blanks to pass over
    have hread : readQuoted size (quote :: (value ++ quote :: after)) = .ok (value, after) :=
      readQuoted_append hquote fun c hc heq => hvalue (heq ▸ hc)
    unfold readQuoted at hread
    rwa [List.dropWhile_cons_of_neg (by simp [hspace])] at hread

/-- Where no fault comes, a key is read that was not there before, and a
value. -/
theorem reads_of_fault_eq_none (hs : s.dropWhile Text.isMarkupSpace = c :: rest)
    (h : (rawAttributesFrom size seen s).fault = none) :
    ∃ key afterKey value after, readKey size c rest = .ok (key, afterKey)
      ∧ seen.lookup key = none ∧ readQuoted size afterKey = .ok (value, after) := by
  rw [rawAttributesFrom] at h
  split at h
  · next heq => cases hs.symm.trans heq
  · next heq =>
      cases hs.symm.trans heq
      split at h
      · cases h
      · next key afterKey hkey =>
          split at h
          · cases h
          · next hseen =>
              split at h
              · cases h
              · next value after hvalue => exact ⟨key, afterKey, value, after, hkey, hseen, hvalue⟩

end Tag

/-- Attributes have the names that settings give them. -/
theorem map_name_of_forall₂ {settings : List Setting} {attributes : List Attribute}
    (h : List.Forall₂ Setting.Says settings attributes) :
    attributes.map (·.name) = settings.map fun w => String.ofList w.name := by
  induction h with
  | nil => rfl
  | cons hsaid _ ih => rw [List.map_cons, List.map_cons, hsaid.1, ih]

-- ==================================================== settings one after another

namespace Setting

variable {w : Setting} {settings : List Setting}

open Tag

/-- What the two readers make of a setting. -/
theorem IsWritten.reads (h : w.IsWritten) (size : Nat) (more : List Char) :
    ∃ c rest afterKey, (w.text ++ more).dropWhile Text.isMarkupSpace = c :: rest
      ∧ readKey size c rest = .ok (w.name, afterKey)
      ∧ readQuoted size afterKey = .ok (w.value, more) := by
  obtain ⟨c, rest, hname, hc, hrest⟩ := h.name
  let afterKey := w.behind ++ w.quote :: (w.value ++ w.quote :: more)
  have htext : w.text ++ more = w.lead ++ c :: (rest ++ (w.before ++ '=' :: afterKey)) := by
    simp [text, assignment, hname, afterKey]
  refine ⟨c, rest ++ (w.before ++ '=' :: afterKey), afterKey, ?_, ?_, ?_⟩
  · rw [htext, dropWhile_append_cons h.spaced.lead hc]
  · exact readKey_eq_ok_iff.mpr ⟨rest, w.before, hname, rfl, hrest, h.spaced.before⟩
  · exact readQuoted_eq_ok_iff.mpr
      ⟨w.behind, w.quote, rfl, h.spaced.behind, h.spaced.quote, h.spaced.value⟩

/-- The attributes that are read without a fault are the settings that stand
there, and no name is there twice. -/
theorem attributes_of_fault_eq_none (hsettings : ∀ w ∈ settings, w.IsWritten)
    (htrail : ∀ c ∈ trail, Text.isMarkupSpace c) (size : Nat) (seen : List (List Char × Nat))
    (h : (rawAttributesFrom size seen (settings.flatMap text ++ trail)).fault = none) :
    (rawAttributesFrom size seen (settings.flatMap text ++ trail)).attributes = settings.map raw
      ∧ (∀ w ∈ settings, seen.lookup w.name = none) ∧ (settings.map (·.name)).Nodup := by
  induction settings generalizing seen with
  | nil =>
      rw [List.flatMap_nil, List.nil_append, rawAttributesFrom_blank (List.all_eq_true.mpr htrail)]
      exact ⟨rfl, fun w hw => (List.not_mem_nil hw).elim, List.nodup_nil⟩
  | cons w more ih =>
      rw [List.flatMap_cons, List.append_assoc] at h ⊢
      obtain ⟨c, rest, afterKey, hs, hkey, hvalue⟩ :=
        (hsettings w List.mem_cons_self).reads size (more.flatMap text ++ trail)
      cases hseen : seen.lookup w.name with
      | some previous =>
          obtain ⟨_, _, _, _, hkey', hnone, -⟩ := reads_of_fault_eq_none hs h
          cases hkey.symm.trans hkey'
          cases hseen.symm.trans hnone
      | none =>
          obtain ⟨start, hstep⟩ := rawAttributesFrom_cons size hs hkey hseen hvalue
          rw [hstep] at h ⊢
          obtain ⟨hread, hlookup, hnodup⟩ :=
            ih (fun v hv => hsettings v (List.mem_cons_of_mem _ hv)) _ h
          -- a later name is neither among those seen nor that of this setting
          have hlater : ∀ v ∈ more, seen.lookup v.name = none ∧ v.name ≠ w.name := fun v hv => by
            have hnone := hlookup v hv
            rw [List.lookup_append, Option.or_eq_none_iff] at hnone
            refine ⟨hnone.1, fun heq => ?_⟩
            rw [heq, List.lookup_cons_self] at hnone
            cases hnone.2
          refine ⟨congrArg (w.raw :: ·) hread, ?_, ?_⟩
          · exact List.forall_mem_cons.mpr ⟨hseen, fun v hv => (hlater v hv).1⟩
          · refine List.nodup_cons.mpr ⟨fun hmem => ?_, hnodup⟩
            obtain ⟨v, hv, heq⟩ := List.mem_map.mp hmem
            exact (hlater v hv).2 heq

/-- A setting is what is read from the front of a text. -/
theorem exists_of_reads (hs : s.dropWhile Text.isMarkupSpace = c :: rest)
    {key afterKey value after : List Char} (hkey : readKey size c rest = .ok (key, afterKey))
    (hvalue : readQuoted size afterKey = .ok (value, after)) :
    ∃ w : Setting, s = w.text ++ after ∧ w.IsWritten := by
  obtain ⟨hlead, hspace, hc⟩ := exists_of_dropWhile hs
  obtain ⟨name, before, rfl, rfl, hname, hbefore⟩ := readKey_eq_ok_iff.mp hkey
  obtain ⟨behind, quote, rfl, hbehind, hquote, hvalue⟩ := readQuoted_eq_ok_iff.mp hvalue
  let w : Setting := ⟨s.takeWhile Text.isMarkupSpace, c :: name, before, behind, quote, value⟩
  refine ⟨w, ?_, ⟨hspace, hbefore, hbehind, hquote, hvalue⟩, c, name, rfl, hc, hname⟩
  conv => lhs; rw [hlead]
  simp [w, text, assignment]

/-- A text that is read without a fault consists of settings. -/
theorem exists_of_fault_eq_none (h : (rawAttributesFrom size seen s).fault = none) :
    ∃ (settings : List Setting) (trail : List Char), s = settings.flatMap text ++ trail
      ∧ (∀ w ∈ settings, w.IsWritten) ∧ ∀ c ∈ trail, Text.isMarkupSpace c := by
  induction hlength : s.length using Nat.strongRecOn generalizing s seen with
  | ind n ih =>
      cases hs : s.dropWhile Text.isMarkupSpace with
      | nil =>
          exact ⟨[], s, rfl, fun w hw => (List.not_mem_nil hw).elim,
            List.dropWhile_eq_nil_iff.mp hs⟩
      | cons c rest =>
          obtain ⟨key, afterKey, value, after, hkey, hseen, hvalue⟩ := reads_of_fault_eq_none hs h
          obtain ⟨start, hstep⟩ := rawAttributesFrom_cons size hs hkey hseen hvalue
          obtain ⟨w, rfl, hw⟩ := exists_of_reads hs hkey hvalue
          rw [hstep] at h
          have hshorter : after.length < n := by
            rw [← hlength]
            simp [text, assignment]
            omega
          obtain ⟨settings, trail, rfl, hsettings, htrail⟩ := ih _ hshorter h rfl
          refine ⟨w :: settings, trail, ?_, List.forall_mem_cons.mpr ⟨hw, hsettings⟩, htrail⟩
          rw [List.flatMap_cons, List.append_assoc]

end Setting

-- ======================================================================== tags

/-- Where values are expanded, none has a fault, nor had the writing. -/
theorem Tag.forall₂_of_expandValues {raws : List Tag.Raw} {fault : Option AttributeFault}
    {attributes : List (String × String)} (h : Tag.expandValues raws fault = .ok attributes) :
    fault = none ∧ List.Forall₂ (fun raw said => said.1 = String.ofList raw.key
      ∧ expand raw.value = .ok said.2.toList) raws attributes := by
  induction raws generalizing attributes with
  | nil =>
      cases fault with
      | none =>
          cases h
          exact ⟨rfl, .nil⟩
      | some fault => cases h
  | cons raw raws ih =>
      rw [Tag.expandValues] at h
      cases hvalue : expand raw.value with
      | error fault =>
          rw [hvalue] at h
          cases h
      | ok value =>
          rw [hvalue] at h
          -- a fault of a later value would be given too
          cases hmore : Tag.expandValues raws fault with
          | error fault =>
              rw [hmore] at h
              cases h
          | ok more =>
              rw [hmore] at h
              cases h
              obtain ⟨hfault, hsaid⟩ := ih hmore
              exact ⟨hfault, .cons ⟨rfl, hvalue.trans (congrArg _ String.toList_ofList.symm)⟩ hsaid⟩

/-- A character that means nothing in a tag and is no blank. -/
def isTidyChar (c : Char) : Bool :=
  !(Text.isBlank c || c == '"' || c == '\'' || c == '<' || c == '>' || c == '/' || c == '=')

namespace StartTag

variable {settings : List Setting} {attributes : List (String × String)}

/-- The content of the tag is its name, the settings and white space. -/
structure Written (t : StartTag) (settings : List Setting) (trail : List Char) : Prop where
  text : t.bare = Tag.nameOf t.bare ++ (settings.flatMap Setting.text ++ trail)
  settings : ∀ w ∈ settings, w.IsWritten
  trail : ∀ c ∈ trail, Text.isMarkupSpace c

/-- There is white space before each setting, the names hold no marks, and no
value has a bracket. -/
structure Tidy (t : StartTag) (settings : List Setting) : Prop where
  name : ∀ c ∈ Tag.nameOf t.bare, isTidyChar c
  leads : ∀ w ∈ settings, w.lead ≠ []
  names : ∀ w ∈ settings, ∀ c ∈ w.name, isTidyChar c
  values : ∀ w ∈ settings, '<' ∉ w.value

/-- What is read of a tag without a fault is written there. -/
theorem exists_written (h : Tag.readAttributes t.bare = .ok attributes) :
    ∃ settings trail, t.Written settings trail := by
  obtain ⟨hfault, -⟩ := Tag.forall₂_of_expandValues h
  obtain ⟨settings, trail, hrest, hsettings, htrail⟩ := Setting.exists_of_fault_eq_none hfault
  refine ⟨settings, trail, ?_, hsettings, htrail⟩
  rw [← hrest]
  exact List.takeWhile_append_dropWhile.symm

namespace Written

/-- Behind the name of the tag the settings begin. -/
theorem dropWhile_eq (h : t.Written settings trail) :
    t.bare.dropWhile (fun c => !Text.isMarkupSpace c)
      = settings.flatMap Setting.text ++ trail := by
  have hsplit := List.takeWhile_append_dropWhile (p := fun c => !Text.isMarkupSpace c) (l := t.bare)
  exact List.append_cancel_left (hsplit.trans h.text)

/-- The attributes of a tag are its settings, each with a name of its own. -/
theorem of_readAttributes (h : t.Written settings trail)
    (hread : Tag.readAttributes t.bare = .ok attributes) :
    (settings.map (·.name)).Nodup
      ∧ List.Forall₂ (fun w said => said.1 = String.ofList w.name
        ∧ expand w.value = .ok said.2.toList) settings attributes := by
  obtain ⟨hfault, hsaid⟩ := Tag.forall₂_of_expandValues hread
  unfold Tag.rawAttributes at hfault hsaid
  rw [h.dropWhile_eq] at hfault hsaid
  obtain ⟨hraw, -, hnodup⟩ := Setting.attributes_of_fault_eq_none h.settings h.trail _ _ hfault
  rw [hraw, List.forall₂_map_left_iff] at hsaid
  exact ⟨hnodup, hsaid⟩

/-- So are those of the element that the tag opens. -/
theorem forall₂_said (h : t.Written settings trail) {source : List Char} {tag : Tag}
    {start : Position} (hopens : Opens source t (tag, start)) :
    (settings.map (·.name)).Nodup ∧ List.Forall₂ Setting.Says settings tag.attributes := by
  obtain ⟨attributes, hread, hsaid⟩ := hopens.said
  obtain ⟨hnodup, hsettings⟩ := h.of_readAttributes hread
  have hattributes : attributes = tag.attributes.map fun a => (a.name, a.value) :=
    (congrArg Prod.snd hsaid).symm
  rw [hattributes, List.forall₂_map_right_iff] at hsettings
  exact ⟨hnodup, hsettings⟩

end Written

/-- The text of a tag is bare but for a slash at its end. -/
theorem exists_content_eq (t : StartTag) :
    ∃ slash, t.content = t.bare ++ slash ∧ (slash = [] ∨ slash = ['/']) := by
  unfold bare
  split
  · next hslash =>
      obtain ⟨short, hshort⟩ := List.getLast?_eq_some_iff.mp hslash
      refine ⟨['/'], ?_, Or.inr rfl⟩
      rw [hshort, List.dropLast_concat]
  · exact ⟨[], (List.append_nil _).symm, Or.inl rfl⟩

/-- A tidy tag has no second bracket. -/
theorem Tidy.not_mem_content (h : t.Tidy settings) (hwritten : t.Written settings trail) :
    '<' ∉ t.content := by
  have hspace : ∀ {run : List Char}, (∀ c ∈ run, Text.isMarkupSpace c) → '<' ∉ run :=
    fun hrun hmem => absurd (hrun _ hmem) (by decide)
  have hplain : ∀ {run : List Char}, (∀ c ∈ run, isTidyChar c) → '<' ∉ run :=
    fun hrun hmem => absurd (hrun _ hmem) (by decide)
  have hsetting : ∀ w ∈ settings, '<' ∉ w.text := fun w hw => by
    have hspaced := (hwritten.settings w hw).spaced
    have hquote : '<' ≠ w.quote := by
      rcases hspaced.quote with hquote | hquote <;> rw [hquote] <;> decide
    simp [Setting.text, Setting.assignment, hspace hspaced.lead, hspace hspaced.before,
      hspace hspaced.behind, hplain (h.names w hw), h.values w hw, hquote]
  obtain ⟨slash, hcontent, hslash⟩ := t.exists_content_eq
  have hnone : '<' ∉ slash := by
    rcases hslash with rfl | rfl <;> decide
  rw [hcontent, hwritten.text]
  simp only [List.mem_append, List.mem_flatMap, not_or, not_exists, not_and]
  exact ⟨⟨hplain h.name, fun w hw => hsetting w hw, hspace hwritten.trail⟩, hnone⟩

end StartTag

end ResourceLint.Xml
