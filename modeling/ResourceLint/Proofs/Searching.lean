/-
What the search for an attribute finds in a text.

The search goes over a text from the left.  It passes by what is not blank,
and by blanks that no name follows (`findAssignment?_plain`,
`findAssignment?_blank`).  Where a blank and a name come with an equals sign
and a quoted value, they are taken as a whole: to the name that is searched
they are found, and under another one the search goes on behind them, whatever
the value holds (`Setting.Sought.findAssignment?`).  Nothing else is ever
found (`Setting.exists_of_findAssignment?`).

So the search keeps in step with the settings of a tidy tag.  It finds the
setting with the name (`StartTag.Written.findAssignment?_of_mem`), or else it
goes on behind the tag (`StartTag.Written.findAssignment?_of_forall_ne`).
-/
import ResourceLint.Proofs.WrittenTags
import ResourceLint.Xml.Range

namespace ResourceLint.Xml

variable {name s more front trail : List Char} {c : Char} {a : Assignment}
  {settings : List Setting} {w : Setting} {t : StartTag}

-- ===================================================== what the search passes by

/-- No name has a blank in it. -/
theorem isNameChar_of_isBlank (h : Text.isBlank c) : isNameChar c = false := by
  unfold isNameChar
  rw [h]
  rfl

/-- Where no name begins there is no assignment. -/
theorem assignment?_of_head? (h : ∀ c ∈ s.head?, isNameChar c = false) : assignment? s = none := by
  have hname : s.takeWhile isNameChar = [] := by
    cases s with
    | nil => rfl
    | cons c rest => exact List.takeWhile_cons_of_neg (by simp [h c rfl])
  unfold assignment?
  rw [hname]
  rfl

/-- An assignment is searched behind blanks only. -/
theorem findAssignment?_of_isBlank_eq_false (h : Text.isBlank c = false) :
    findAssignment? name (c :: s) = findAssignment? name s := by
  rw [findAssignment?, if_neg (by simp [h])]

theorem findAssignment?_of_none (h : assignment? s = none) :
    findAssignment? name (c :: s) = findAssignment? name s := by
  rw [findAssignment?]
  split
  · split
    · next hfound => cases h.symm.trans hfound
    · rfl
  · rfl

/-- Where an assignment is found it is the one, or the search goes on behind
it. -/
theorem findAssignment?_of_some (hc : Text.isBlank c) (h : assignment? s = some a) :
    findAssignment? name (c :: s)
      = if a.name == name then some a else findAssignment? name a.after := by
  rw [findAssignment?, if_pos hc]
  split
  · next hfound =>
      cases h.symm.trans hfound
      rfl
  · next hfound => cases h.symm.trans hfound

/-- A stretch without blanks is passed over. -/
theorem findAssignment?_plain (h : ∀ c ∈ front, Text.isBlank c = false) :
    findAssignment? name (front ++ s) = findAssignment? name s := by
  induction front with
  | nil => rfl
  | cons c front ih =>
      rw [List.cons_append, findAssignment?_of_isBlank_eq_false (h c List.mem_cons_self)]
      exact ih fun d hd => h d (List.mem_cons_of_mem _ hd)

theorem findAssignment?_blank (h : ∀ c ∈ front, Text.isBlank c) (hc : isNameChar c = false) :
    findAssignment? name (front ++ c :: s) = findAssignment? name (c :: s) := by
  induction front with
  | nil => rfl
  | cons d front ih =>
      have hfront := fun d hd => h d (List.mem_cons_of_mem _ hd)
      rw [List.cons_append, findAssignment?_of_none, ih hfront]
      refine assignment?_of_head? fun d hd => ?_
      cases front with
      | nil =>
          cases hd
          exact hc
      | cons b front =>
          cases hd
          exact isNameChar_of_isBlank (hfront _ List.mem_cons_self)

-- ================================================================ assignments

namespace Setting

/-- The setting is one that a search comes upon: a blank is before the name. -/
structure Sought (w : Setting) : Prop where
  spaced : w.Spaced Text.isBlank
  lead : w.lead ≠ []
  name : w.name ≠ [] ∧ ∀ c ∈ w.name, isNameChar c

theorem Sought.byteSize_lead (h : w.Sought) : 0 < Text.byteSize w.lead := by
  obtain ⟨c, rest, hlead⟩ := List.exists_cons_of_ne_nil h.lead
  have hpos := c.utf8Size_pos
  rw [hlead, Text.byteSize_cons]
  omega

/-- What is found where a setting begins with its name. -/
theorem Sought.assignment? (h : w.Sought) (more : List Char) :
    Xml.assignment? (w.assignment ++ more) = some ⟨w.name, w.assignment ++ more, more⟩ := by
  have hassignment : w.assignment ++ more = w.name ++ (w.before ++ '='
      :: (w.behind ++ w.quote :: (w.value ++ w.quote :: more))) := by
    simp [assignment]
  -- the name ends where a blank or the sign begins
  obtain ⟨c, rest, hcons, hc⟩ : ∃ c rest, w.before ++ '='
      :: (w.behind ++ w.quote :: (w.value ++ w.quote :: more)) = c :: rest
        ∧ isNameChar c = false := by
    cases hbefore : w.before with
    | nil => exact ⟨_, _, rfl, by decide⟩
    | cons c rest =>
        have hblank := h.spaced.before c (hbefore ▸ List.mem_cons_self)
        exact ⟨c, _, rfl, isNameChar_of_isBlank hblank⟩
  have hquote : Text.isBlank w.quote = false ∧ (w.quote == '"' || w.quote == '\'') = true := by
    rcases h.spaced.quote with hquote | hquote <;> rw [hquote] <;> decide
  have hvalue : ∀ d ∈ w.value, (d != w.quote) = true := fun d hd =>
    bne_iff_ne.mpr fun heq => h.spaced.value (heq ▸ hd)
  have hempty : w.name.isEmpty = false := by simpa using h.name.1
  unfold Xml.assignment?
  rw [hassignment, hcons, takeWhile_append_cons h.name.2 hc, dropWhile_append_cons h.name.2 hc,
    ← hcons, dropWhile_append_cons h.spaced.before (by decide)]
  simp only [hempty, Bool.false_eq_true, if_false]
  rw [dropWhile_append_cons h.spaced.behind hquote.1]
  simp only [hquote.2, if_true]
  rw [dropWhile_append_cons hvalue (by simp)]

/-- A setting is found by its name, and passed by under another one. -/
theorem Sought.findAssignment? (h : w.Sought) (name more : List Char) :
    Xml.findAssignment? name (w.text ++ more)
      = if w.name == name then some ⟨w.name, w.assignment ++ more, more⟩
        else Xml.findAssignment? name more := by
  obtain ⟨short, d, hlead⟩ := (List.eq_nil_or_concat' w.lead).resolve_left h.lead
  have hshort : ∀ c ∈ short, Text.isBlank c := fun c hc =>
    h.spaced.lead c (hlead ▸ List.mem_append_left _ hc)
  have hd : Text.isBlank d := h.spaced.lead d (hlead ▸ List.mem_append_right _ List.mem_cons_self)
  have htext : w.text ++ more = short ++ d :: (w.assignment ++ more) := by
    simp [text, hlead]
  rw [htext, findAssignment?_blank hshort (isNameChar_of_isBlank hd)]
  exact findAssignment?_of_some hd (h.assignment? more)

/-- Settings of other names are passed by. -/
theorem findAssignment?_flatMap (hsought : ∀ w ∈ settings, w.Sought)
    (hname : ∀ w ∈ settings, w.name ≠ name) :
    Xml.findAssignment? name (settings.flatMap text ++ more) = Xml.findAssignment? name more := by
  induction settings with
  | nil => rfl
  | cons w settings ih =>
      rw [List.flatMap_cons, List.append_assoc, (hsought w List.mem_cons_self).findAssignment?,
        if_neg (by simpa using hname w List.mem_cons_self)]
      exact ih (fun v hv => hsought v (List.mem_cons_of_mem _ hv)) fun v hv =>
        hname v (List.mem_cons_of_mem _ hv)

/-- The runs of characters that an assignment consists of. -/
theorem runs_of_assignment? (h : Xml.assignment? s = some a) :
    ∃ value quote content last, s.takeWhile isNameChar ≠ []
      ∧ (s.dropWhile isNameChar).dropWhile Text.isBlank = '=' :: value
      ∧ value.dropWhile Text.isBlank = quote :: content ∧ (quote = '"' ∨ quote = '\'')
      ∧ content.dropWhile (· != quote) = last :: a.after
      ∧ a.name = s.takeWhile isNameChar ∧ a.fromName = s := by
  -- each guard of the search passed, and each names one of the runs
  unfold Xml.assignment? at h
  dsimp only at h
  split at h
  · cases h
  · next hempty =>
      have hname : s.takeWhile isNameChar ≠ [] := fun hnil => hempty (List.isEmpty_iff.mpr hnil)
      split at h
      · next value hvalue =>
          split at h
          · next quote content hcontent =>
              split at h
              · next hquote =>
                  split at h
                  · next last after hafter =>
                      cases h
                      exact ⟨value, quote, content, last, hname, hvalue, hcontent,
                        by simpa using hquote, hafter, rfl, rfl⟩
                  · cases h
              · cases h
          · cases h
      · cases h

/-- What stands where an assignment is found. -/
theorem exists_of_assignment? (hc : Text.isBlank c) (h : Xml.assignment? s = some a) :
    ∃ w : Setting, w.Sought ∧ c :: s = w.text ++ a.after
      ∧ a = ⟨w.name, w.assignment ++ a.after, a.after⟩ := by
  obtain ⟨value, quote, content, last, hne, hvalue, hcontent, hquote, hafter, hname, hfrom⟩ :=
    runs_of_assignment? h
  obtain ⟨hsplit, hbefore, -⟩ := exists_of_dropWhile hvalue
  obtain ⟨hsplit', hbehind, -⟩ := exists_of_dropWhile hcontent
  obtain ⟨hsplit'', hinside, hlast⟩ := exists_of_dropWhile hafter
  obtain rfl : last = quote := by simpa using hlast
  let w : Setting := ⟨[c], s.takeWhile isNameChar, (s.dropWhile isNameChar).takeWhile Text.isBlank,
    value.takeWhile Text.isBlank, last, content.takeWhile (· != last)⟩
  have hs : s = w.assignment ++ a.after := by
    have hrejoin := List.takeWhile_append_dropWhile (p := isNameChar) (l := s)
    rw [hsplit, hsplit', hsplit''] at hrejoin
    rw [← hrejoin]
    simp [w, assignment]
  refine ⟨w, ⟨⟨?_, hbefore, hbehind, hquote, ?_⟩, List.cons_ne_nil _ _, hne, ?_⟩, ?_, ?_⟩
  · exact fun d hd => List.mem_singleton.mp hd ▸ hc
  · exact fun hmem => absurd (hinside last hmem) (by simp)
  · exact fun d hd => List.mem_takeWhile_imp hd
  · exact congrArg (c :: ·) hs
  · rw [← hs, ← hfrom, ← show a.name = w.name from hname]

/-- What is found is the setting of the name. -/
theorem exists_of_findAssignment? (h : Xml.findAssignment? name s = some a) :
    ∃ (w : Setting) (front : List Char), w.Sought ∧ w.name = name ∧ s = front ++ (w.text ++ a.after)
      ∧ a = ⟨w.name, w.assignment ++ a.after, a.after⟩ := by
  induction s using findAssignment?.induct name with
  | case1 =>
      rw [Xml.findAssignment?] at h
      cases h
  | case2 c rest hblank found hfound hname =>
      rw [findAssignment?_of_some hblank hfound, if_pos hname] at h
      cases h
      obtain ⟨w, hw, htext, ha⟩ := exists_of_assignment? hblank hfound
      have hname' : w.name = name := by
        rw [ha] at hname
        simpa using hname
      exact ⟨w, [], hw, hname', htext, ha⟩
  | case3 c rest hblank found hfound hname ih =>
      rw [findAssignment?_of_some hblank hfound, if_neg hname] at h
      obtain ⟨w, front, hw, hname, hafter, ha⟩ := ih h
      -- a setting of another name is passed over as a whole
      obtain ⟨v, -, htext, -⟩ := exists_of_assignment? hblank hfound
      refine ⟨w, v.text ++ front, hw, hname, ?_, ha⟩
      rw [htext, hafter, List.append_assoc]
  | case4 c rest hblank hfound ih =>
      rw [findAssignment?_of_none hfound] at h
      obtain ⟨w, front, hw, hname, hrest, ha⟩ := ih h
      exact ⟨w, c :: front, hw, hname, congrArg (c :: ·) hrest, ha⟩
  | case5 c rest hblank ih =>
      rw [findAssignment?_of_isBlank_eq_false (by simpa using hblank)] at h
      obtain ⟨w, front, hw, hname, hrest, ha⟩ := ih h
      exact ⟨w, c :: front, hw, hname, congrArg (c :: ·) hrest, ha⟩

end Setting

-- ================================================================== tidy tags

/-- Tidy characters belong into names. -/
theorem isBlank_of_isTidyChar (h : isTidyChar c) : Text.isBlank c = false ∧ isNameChar c := by
  unfold isTidyChar at h
  unfold isNameChar
  simp only [Bool.not_eq_true', Bool.or_eq_false_iff] at h ⊢
  obtain ⟨⟨⟨⟨⟨⟨hblank, -⟩, -⟩, -⟩, hclose⟩, hslash⟩, hsign⟩ := h
  exact ⟨hblank, ⟨⟨hblank, hsign⟩, hslash⟩, hclose⟩

theorem Setting.Spaced.toBlank (h : w.Spaced Text.isMarkupSpace) : w.Spaced Text.isBlank where
  lead c hc := Text.isBlank_of_isMarkupSpace (h.lead c hc)
  before c hc := Text.isBlank_of_isMarkupSpace (h.before c hc)
  behind c hc := Text.isBlank_of_isMarkupSpace (h.behind c hc)
  quote := h.quote
  value := h.value

/-- The name of a tidy tag is passed by. -/
theorem StartTag.Tidy.findAssignment?_name (h : t.Tidy settings) (name s : List Char) :
    findAssignment? name ('<' :: Tag.nameOf t.bare ++ s) = findAssignment? name s := by
  refine findAssignment?_plain (List.forall_mem_cons.mpr ⟨by decide, fun c hc => ?_⟩)
  exact (isBlank_of_isTidyChar (h.name c hc)).1

namespace StartTag.Written

/-- The search comes upon the settings of a tidy tag. -/
theorem sought (h : t.Written settings trail) (htidy : t.Tidy settings) :
    ∀ w ∈ settings, w.Sought := by
  intro w hw
  obtain ⟨hspaced, c, rest, hname, -, -⟩ := h.settings w hw
  exact ⟨hspaced.toBlank, htidy.leads w hw, hname ▸ List.cons_ne_nil _ _,
    fun d hd => (isBlank_of_isTidyChar (htidy.names w hw d hd)).2⟩

/-- Behind the settings of a tag the search passes by what is left of it. -/
theorem exists_tail (h : t.Written settings trail) (more : List Char) :
    ∃ tail, '<' :: (t.content ++ '>' :: more)
        = '<' :: Tag.nameOf t.bare ++ (settings.flatMap Setting.text ++ tail)
      ∧ Text.byteSize more < Text.byteSize tail
      ∧ ∀ name, findAssignment? name tail = findAssignment? name more := by
  obtain ⟨slash, hcontent, hslash⟩ := t.exists_content_eq
  have htrail : ∀ c ∈ trail, Text.isBlank c := fun c hc =>
    Text.isBlank_of_isMarkupSpace (h.trail c hc)
  refine ⟨trail ++ (slash ++ '>' :: more), ?_, ?_, fun name => ?_⟩
  · rw [hcontent]
    conv => lhs; rw [h.text]
    simp
  · have hclose : '>'.utf8Size = 1 := by decide
    simp only [Text.byteSize_append, Text.byteSize_cons, hclose]
    omega
  · rcases hslash with rfl | rfl
    · rw [List.nil_append, findAssignment?_blank htrail (by decide),
        findAssignment?_of_isBlank_eq_false (by decide)]
    · rw [List.cons_append, List.nil_append, findAssignment?_blank htrail (by decide),
        findAssignment?_of_isBlank_eq_false (by decide),
        findAssignment?_of_isBlank_eq_false (by decide)]

/-- In a tidy tag the setting of a name is found, whatever follows the tag. -/
theorem findAssignment?_of_mem (h : t.Written settings trail) (htidy : t.Tidy settings)
    (hnodup : (settings.map (·.name)).Nodup) (hw : w ∈ settings) (more : List Char) :
    ∃ front back, '<' :: (t.content ++ '>' :: more) = '<' :: front ++ (w.text ++ back)
      ∧ Text.byteSize more < Text.byteSize back
      ∧ findAssignment? w.name ('<' :: (t.content ++ '>' :: more))
        = some ⟨w.name, w.assignment ++ back, back⟩ := by
  obtain ⟨tail, htext, hlonger, -⟩ := h.exists_tail more
  obtain ⟨before, after, rfl⟩ := List.append_of_mem hw
  have hsought := h.sought htidy
  have hbefore : ∀ v ∈ before, v.name ≠ w.name := fun v hv heq => by
    rw [List.map_append, List.nodup_append] at hnodup
    exact hnodup.2.2 v.name (List.mem_map_of_mem hv) w.name List.mem_cons_self heq
  refine ⟨Tag.nameOf t.bare ++ before.flatMap Setting.text,
    after.flatMap Setting.text ++ tail, ?_, ?_, ?_⟩
  · rw [htext]
    simp
  · rw [Text.byteSize_append]
    omega
  · rw [htext, htidy.findAssignment?_name, List.flatMap_append, List.append_assoc,
      Setting.findAssignment?_flatMap (fun v hv => hsought v (List.mem_append_left _ hv)) hbefore,
      List.flatMap_cons, List.append_assoc, (hsought w hw).findAssignment?,
      if_pos (beq_self_eq_true _)]

/-- A tidy tag is passed by where no setting has the name. -/
theorem findAssignment?_of_forall_ne (h : t.Written settings trail) (htidy : t.Tidy settings)
    (hname : ∀ w ∈ settings, w.name ≠ name) (more : List Char) :
    findAssignment? name ('<' :: (t.content ++ '>' :: more)) = findAssignment? name more := by
  obtain ⟨tail, htext, -, hskip⟩ := h.exists_tail more
  rw [htext, htidy.findAssignment?_name,
    Setting.findAssignment?_flatMap (h.sought htidy) hname, hskip]

/-- What is found there all the same is found behind the tag. -/
theorem byteSize_of_findAssignment? (h : t.Written settings trail) (htidy : t.Tidy settings)
    (hname : ∀ w ∈ settings, w.name ≠ name)
    (hfound : findAssignment? name ('<' :: (t.content ++ '>' :: more)) = some a) :
    Text.byteSize a.fromName < Text.byteSize more := by
  rw [h.findAssignment?_of_forall_ne htidy hname] at hfound
  obtain ⟨w, front, hw, -, hmore, ha⟩ := Setting.exists_of_findAssignment? hfound
  have hlead := hw.byteSize_lead
  have hfrom := congrArg (Text.byteSize ·.fromName) ha
  have hrest := congrArg Text.byteSize hmore
  simp only [Text.byteSize_append, Setting.byteSize_text] at hfrom hrest
  omega

end StartTag.Written

end ResourceLint.Xml
