/-
Where the attributes of an element are said to stand.

The stretch of an element begins with its tag, unless there is a second
bracket in the tag (`Document.exists_cut_eq`), and an attribute is searched in
all of it.  Where the tag is tidy, the search finds the setting that the
attribute was read from, so that its range is inside of the tag and covers the
assignment (`Document.Ranges`).

A name that no attribute of the element has is not found, and the place given
for it is that of the element (`Document.Lacks`).  But the search does not end
with the tag: an assignment in the text of the element, or in the tag of one
that is in it, is found as well (`Document.FindsInside`).
-/
import ResourceLint.Proofs.Ancestry
import ResourceLint.Proofs.Places
import ResourceLint.Proofs.Searching

namespace ResourceLint.Xml

variable {front back source : List Char} {w : Setting} {t : StartTag}

-- ======================================================= the stretch of an element

theorem takeBytes_append (front back : List Char) :
    takeBytes (Text.byteSize front) (front ++ back) = front := by
  induction front with
  | nil =>
      cases back with
      | nil => rfl
      | cons c back =>
          have hpos := c.utf8Size_pos
          rw [List.nil_append, takeBytes, Text.byteSize_nil, if_neg (by omega)]
  | cons c front ih =>
      rw [List.cons_append, takeBytes, Text.byteSize_cons, if_pos (by omega),
        Nat.add_sub_cancel_left, ih]

/-- A span covers what stands between its two bytes. -/
theorem Span.cut_eq {span : Span} {middle : List Char} (h : source = front ++ (middle ++ back))
    (hstart : span.start.offset = Text.byteSize front)
    (hstop : span.stop.offset = Text.byteSize (front ++ middle)) :
    Span.cut span source = middle := by
  unfold Span.cut
  have hdrop := dropBytes_add 0 front (middle ++ back)
  rw [Nat.add_zero] at hdrop
  have hnone : dropBytes 0 (middle ++ back) = middle ++ back := by
    cases hrest : middle ++ back with
    | nil => rfl
    | cons c rest =>
        have hpos := c.utf8Size_pos
        rw [dropBytes, if_neg (by omega)]
  rw [hstart, hstop, Text.byteSize_append, Nat.add_sub_cancel_left, h, hdrop, hnone,
    takeBytes_append]

/-- Of two texts that the same text begins with, the shorter is the beginning
of the other. -/
theorem exists_append_of_byteSize_le {front' back' : List Char}
    (h : front ++ back = front' ++ back') (hle : Text.byteSize front ≤ Text.byteSize front') :
    ∃ middle, front' = front ++ middle := by
  rcases List.append_eq_append_iff.mp h with ⟨middle, hfront, -⟩ | ⟨middle, hfront, -⟩
  · exact ⟨middle, hfront⟩
  · refine ⟨[], ?_⟩
    rw [List.append_nil]
    refine (Text.eq_of_append_eq h ?_).symm
    have hsize := congrArg Text.byteSize hfront
    rw [Text.byteSize_append] at hsize
    omega

theorem byteSize_tag (t : StartTag) (more : List Char) :
    Text.byteSize ('<' :: (t.content ++ '>' :: more))
      = Text.byteSize t.content + 2 + Text.byteSize more := by
  have hopen : '<'.utf8Size = 1 := by decide
  have hclose : '>'.utf8Size = 1 := by decide
  simp only [Text.byteSize_cons, Text.byteSize_append, hopen, hclose]
  omega

/-- An element that a tag opens begins with the last bracket of the tag. -/
theorem offset_of_mem (ht : t ∈ startTags source) {start : Position}
    (h : start = Position.ofOffset source (tagStart t.content t.stop)) :
    start.offset = tagStart t.content t.stop := by
  have hbounds := @tagStart_bounds t.content t.start t.stop rfl
  have hwithin := (announces_of_mem ht).2
  rw [h, Position.offset_ofOffset_of_le (by omega)]

namespace Document

variable {text : String} {d : Document} {e : Element}

/-- An element stands in the text from a bracket up to the byte it ends at,
which is behind the tag that opens it. -/
theorem exists_cut (h : parse text = .ok d) (he : e ∈ d.elements) (ht : t ∈ startTags text.toList)
    (hopens : Opens text.toList t (e.tag, e.span.start)) :
    ∃ front back, text.toList = front ++ (Span.cut e.span text.toList ++ back)
      ∧ e.span.start.offset = Text.byteSize front
      ∧ e.span.stop.offset = Text.byteSize (front ++ Span.cut e.span text.toList)
      ∧ t.stop ≤ e.span.stop.offset := by
  obtain ⟨t', ht', hmakes, n, hstop, ⟨upTo, after, htext, rfl⟩, hend⟩ := made_of_mem h he
  obtain ⟨front, back, hsplit, hstart⟩ := exists_bracket h he
  have hle : ∀ {a b : List Char}, text.toList = a ++ b →
      Text.byteSize a ≤ Text.byteSize text.toList := fun hab => by
    rw [hab, Text.byteSize_append]
    omega
  have hstart' : e.span.start.offset = Text.byteSize front := by
    rw [hstart, Position.offset_ofOffset_of_le (hle hsplit)]
  have hstop' : e.span.stop.offset = Text.byteSize upTo := by
    rw [hend, Position.offset_ofOffset_of_le (hle htext)]
  -- the element begins with the bracket of either tag
  have hbracket := offset_of_mem ht' hmakes.start
  have hsame : t = t' :=
    eq_of_tagStart_eq ht ht' ((offset_of_mem ht hopens.start).symm.trans hbracket)
  have hbounds := @tagStart_bounds t'.content t'.start t'.stop rfl
  have hbehind : Text.byteSize front ≤ Text.byteSize upTo := by omega
  obtain ⟨middle, rfl⟩ := exists_append_of_byteSize_le (hsplit.symm.trans htext) hbehind
  rw [List.append_assoc] at htext
  have hcut : Span.cut e.span text.toList = middle := Span.cut_eq htext hstart' hstop'
  refine ⟨front, after, ?_, hstart', ?_, ?_⟩
  · rw [hcut]
    exact htext
  · rw [hcut]
    exact hstop'
  · rw [hstop', hsame]
    exact hstop

/-- The stretch of an element begins with its tag where the tag has no second
bracket. -/
theorem exists_cut_eq (h : parse text = .ok d) (he : e ∈ d.elements)
    (ht : t ∈ startTags text.toList) (hopens : Opens text.toList t (e.tag, e.span.start))
    (hbracket : '<' ∉ t.content) :
    e.span.start.offset = t.start
      ∧ ∃ more, Span.cut e.span text.toList = '<' :: (t.content ++ '>' :: more) := by
  obtain ⟨front, back, htext, hstart, hstop, hbehind⟩ := exists_cut h he ht hopens
  obtain ⟨p, hp, htag⟩ := List.mem_filterMap.mp ht
  obtain ⟨hlexeme, hpiece⟩ := startTag?_eq_some htag
  obtain ⟨front', back', htext', hfront'⟩ := exists_of_mem_scan hp hlexeme
  have hsame : e.span.start.offset = t.start :=
    (offset_of_mem ht hopens.start).trans ((tagStart_eq_start_iff t).mpr hbracket)
  refine ⟨hsame, ?_⟩
  rw [Nat.zero_add, hpiece] at hfront'
  -- both ways to divide the text begin with as many bytes
  have hfront : front = front' :=
    Text.eq_of_append_eq (htext.symm.trans htext') (by omega)
  have hrest := htext'.symm.trans htext
  rw [hfront] at hrest
  have hrest := List.append_cancel_left hrest
  -- the stretch is long enough to hold the whole tag
  have hsize : Text.byteSize ('<' :: (t.content ++ ['>']))
      ≤ Text.byteSize (Span.cut e.span text.toList) := by
    rw [hstop, Text.byteSize_append, StartTag.stop] at hbehind
    rw [byteSize_tag, Text.byteSize_nil]
    omega
  have hbegins : '<' :: (t.content ++ ['>']) ++ back'
      = Span.cut e.span text.toList ++ back := by
    simpa using hrest
  obtain ⟨more, hcut⟩ := exists_append_of_byteSize_le hbegins hsize
  exact ⟨more, by simpa using hcut⟩

end Document

-- ======================================================================= ranges

/-- The setting stands in the text, and the range is that of its assignment. -/
structure Setting.StandsAt (w : Setting) (source : List Char) (range : Span) : Prop where
  text : ∃ front back, source = front ++ (w.text ++ back)
    ∧ range.start = Position.ofOffset source (Text.byteSize (front ++ w.lead))
    ∧ range.stop = Position.ofOffset source (Text.byteSize (front ++ w.text))
  cut : Span.cut range source = w.assignment

/-- The range of the assignment of a setting, behind a part of a text. -/
def Setting.rangeBehind (w : Setting) (front source : List Char) : Span :=
  ⟨Position.ofOffset source (Text.byteSize (front ++ w.lead)),
    Position.ofOffset source (Text.byteSize (front ++ w.text))⟩

theorem Setting.offset_rangeBehind (h : source = front ++ (w.text ++ back)) :
    (w.rangeBehind front source).start.offset = Text.byteSize (front ++ w.lead)
      ∧ (w.rangeBehind front source).stop.offset = Text.byteSize (front ++ w.text) := by
  have hsize := congrArg Text.byteSize h
  have htext := w.byteSize_text
  simp only [Text.byteSize_append] at hsize
  constructor
  all_goals
    refine Position.offset_ofOffset_of_le ?_
    simp only [Text.byteSize_append]
    omega

theorem Setting.standsAt_rangeBehind (h : source = front ++ (w.text ++ back)) :
    w.StandsAt source (w.rangeBehind front source) := by
  obtain ⟨hstart, hstop⟩ := w.offset_rangeBehind h
  have hassignment : source = front ++ w.lead ++ (w.assignment ++ back) := by
    rw [h]
    simp [Setting.text]
  refine ⟨⟨front, back, h, rfl, rfl⟩, Span.cut_eq hassignment hstart ?_⟩
  rw [hstop]
  simp [Setting.text]

namespace Document

variable {text : String} {d : Document} {e : Element}

theorem source_of_parse (h : parse text = .ok d) : d.source = text := by
  obtain ⟨root, -, rfl⟩ := parse_eq_ok_iff.mp h
  rfl

/-- Where a setting is found, the range is that of its assignment. -/
theorem exists_range (h : parse text = .ok d) (he : e ∈ d.elements)
    (ht : t ∈ startTags text.toList) (hopens : Opens text.toList t (e.tag, e.span.start))
    (name : String) (hcut : Span.cut e.span text.toList = front ++ (w.text ++ back))
    (hfound : findAssignment? name.toList (Span.cut e.span text.toList)
      = some ⟨w.name, w.assignment ++ back, back⟩) :
    ∃ range, d.attributeRange? e name = some range ∧ w.StandsAt text.toList range
      ∧ range.start.offset = e.span.start.offset + Text.byteSize (front ++ w.lead)
      ∧ range.stop.offset = e.span.start.offset + Text.byteSize (front ++ w.text) := by
  obtain ⟨before, after, htext, hstart, hstop, -⟩ := exists_cut h he ht hopens
  have hsplit : text.toList = before ++ front ++ (w.text ++ (back ++ after)) := by
    rw [htext, hcut]
    simp
  obtain ⟨hbegin, hend⟩ := w.offset_rangeBehind hsplit
  have hsetting := w.byteSize_text
  rw [hcut] at hstop
  simp only [Text.byteSize_append] at hstop
  -- the search counts back from the end of the stretch
  have hfirst : e.span.stop.offset - Text.byteSize (w.assignment ++ back)
      = Text.byteSize (before ++ front ++ w.lead) := by
    simp only [Text.byteSize_append]
    omega
  have hlast : e.span.stop.offset - Text.byteSize back
      = Text.byteSize (before ++ front ++ w.text) := by
    simp only [Text.byteSize_append]
    omega
  refine ⟨w.rangeBehind (before ++ front) text.toList, ?_, w.standsAt_rangeBehind hsplit, ?_, ?_⟩
  · unfold attributeRange?
    rw [source_of_parse h, attributeRange?_eq (sees_startingAt h he), hfound, Option.map_some,
      hfirst, hlast]
    rfl
  · rw [hbegin, hstart]
    simp only [Text.byteSize_append]
    omega
  · rw [hend, hstart]
    simp only [Text.byteSize_append]
    omega

/-- What holds of each tag and the element that it opens holds of them one
for one. -/
theorem forall₂_of_opens (h : parse text = .ok d) {P : StartTag → Element → Prop}
    (hP : ∀ t ∈ startTags text.toList, ∀ e ∈ d.elements,
      Opens text.toList t (e.tag, e.span.start) → P t e) :
    List.Forall₂ P (startTags text.toList) d.elements := by
  obtain ⟨hlength, hopens⟩ := List.forall₂_iff_zip.mp (forall₂_opens_elements h)
  refine List.forall₂_iff_zip.mpr ⟨hlength, fun {t e} hmem => ?_⟩
  obtain ⟨ht, he⟩ := List.of_mem_zip hmem
  exact hP t ht e he (hopens hmem)

/-- The tag of an element is written as settings, and the attributes of the
element are what the settings say.  Where the tag is tidy, the range of each
attribute is found, and it is that of its assignment in the tag. -/
structure Ranges (d : Document) (t : StartTag) (e : Element) : Prop where
  written : ∃ settings trail, t.Written settings trail
  said : ∀ settings trail, t.Written settings trail →
    List.Forall₂ Setting.Says settings e.attributes
  range : ∀ settings trail, t.Written settings trail → t.Tidy settings →
    List.Forall₂
      (fun w a => ∃ range, d.attributeRange? e a.name = some range
        ∧ w.StandsAt d.source.toList range
        ∧ t.start < range.start.offset ∧ range.stop.offset < t.stop)
      settings e.attributes

/-- The attributes of a tidy tag are found where they were read. -/
theorem forall₂_ranges (h : parse text = .ok d) :
    List.Forall₂ d.Ranges (startTags text.toList) d.elements := by
  refine forall₂_of_opens h fun t ht e he hopens => ⟨?_, fun settings trail hwritten => ?_,
    fun settings trail hwritten htidy => ?_⟩
  · obtain ⟨attributes, hread, -⟩ := hopens.said
    exact StartTag.exists_written hread
  · exact (hwritten.forall₂_said hopens).2
  · obtain ⟨hnodup, hsaid⟩ := hwritten.forall₂_said hopens
    refine ((List.forall₂_and_left _ _).mpr ⟨fun w hw => hw, hsaid⟩).imp fun w a hpair => ?_
    obtain ⟨hw, hname, -⟩ := hpair
    obtain ⟨hstart, more, hcut⟩ :=
      exists_cut_eq h he ht hopens (htidy.not_mem_content hwritten)
    obtain ⟨front, back, htext, hlonger, hfound⟩ :=
      hwritten.findAssignment?_of_mem htidy hnodup hw more
    have hname : w.name = a.name.toList := by
      rw [hname, String.toList_ofList]
    rw [← hcut] at htext hfound
    obtain ⟨range, hrange, hstands, hbegin, hend⟩ :=
      exists_range h he ht hopens a.name htext (by rw [← hname, hfound])
    -- the bracket is in front of the setting, and what follows the setting is more than what
    -- follows the tag
    have hsize := congrArg Text.byteSize (hcut.symm.trans htext)
    have hopen : '<'.utf8Size = 1 := by decide
    rw [byteSize_tag] at hsize
    simp only [Text.byteSize_append, Text.byteSize_cons, hopen] at hsize hbegin hend
    rw [source_of_parse h]
    refine ⟨range, hrange, hstands, by omega, ?_⟩
    unfold StartTag.stop
    omega

/-- A tidy tag: a value holds what looks like an attribute, and there is white
space around an equals sign. -/
theorem forall₂_ranges_lookalikes :
    ∃ d, parse "<a b=\"c='1'\" c = '2'><d c='3'/></a>" = .ok d
      ∧ List.Forall₂ d.Ranges (startTags "<a b=\"c='1'\" c = '2'><d c='3'/></a>".toList) d.elements
      ∧ (∃ settings trail, StartTag.Written ⟨0, "a b=\"c='1'\" c = '2'".toList⟩ settings trail
        ∧ StartTag.Tidy ⟨0, "a b=\"c='1'\" c = '2'".toList⟩ settings)
      ∧ d.elements.map (fun e => e.attributes.map fun a =>
          (d.attributeRange? e a.name).map fun range => (range.start.offset, range.stop.offset))
        = [[some (3, 12), some (13, 20)], [some (24, 29)]] := by
  let b : Setting := ⟨[' '], ['b'], [], [], '"', "c='1'".toList⟩
  let c : Setting := ⟨[' '], ['c'], [' '], [' '], '\'', ['2']⟩
  have spaces : ∀ {run : List Char}, run.all Text.isMarkupSpace → ∀ c ∈ run, Text.isMarkupSpace c :=
    fun h => List.all_eq_true.mp h
  have tidy : ∀ {run : List Char}, run.all isTidyChar → ∀ c ∈ run, isTidyChar c :=
    fun h => List.all_eq_true.mp h
  have both : ∀ {P : Setting → Prop}, P b → P c → ∀ w ∈ [b, c], P w := fun hb hc =>
    List.forall_mem_cons.mpr ⟨hb, List.forall_mem_singleton.mpr hc⟩
  have hb : b.IsWritten :=
    ⟨⟨spaces rfl, spaces rfl, spaces rfl, Or.inl rfl, by decide⟩, 'b', [], rfl, rfl,
      fun d hd => (List.not_mem_nil hd).elim⟩
  have hc : c.IsWritten :=
    ⟨⟨spaces rfl, spaces rfl, spaces rfl, Or.inr rfl, by decide⟩, 'c', [], rfl, rfl,
      fun d hd => (List.not_mem_nil hd).elim⟩
  have hranges : (parse "<a b=\"c='1'\" c = '2'><d c='3'/></a>").toOption.map (fun d =>
      d.elements.map fun e => e.attributes.map fun a =>
        (d.attributeRange? e a.name).map fun range => (range.start.offset, range.stop.offset))
      = some [[some (3, 12), some (13, 20)], [some (24, 29)]] := by decide +kernel
  obtain ⟨d, hparse, hranges⟩ := exists_parse_of_map hranges
  exact ⟨d, hparse, forall₂_ranges hparse, ⟨[b, c], [], ⟨rfl, both hb hc, spaces rfl⟩, tidy rfl,
    both (by decide) (by decide), both (tidy rfl) (tidy rfl), both (by decide) (by decide)⟩,
    hranges⟩

-- ================================================================ absent names

/-- A name is not found, so that the place given for it is that of the
element. -/
def Lacks (d : Document) (e : Element) (name : String) : Prop :=
  d.attributeRange? e name = none ∧ ∀ file, d.attributePlace file e name = .ofSpan file e.span

/-- What is found for a name is an assignment in the stretch of the element,
and behind the tag where this is tidy. -/
def FindsInside (d : Document) (t : StartTag) (e : Element) (name : String) : Prop :=
  ∃ (w : Setting) (range : Span), d.attributeRange? e name = some range
    ∧ w.Sought ∧ w.name = name.toList ∧ w.StandsAt d.source.toList range
    ∧ e.span.start.offset < range.start.offset ∧ range.stop.offset ≤ e.span.stop.offset
    ∧ ∀ settings trail, t.Written settings trail → t.Tidy settings → t.stop < range.start.offset

/-- A name that no attribute of an element has is not found, unless an
assignment to it stands in the element. -/
theorem forall₂_lacks_or_findsInside (h : parse text = .ok d) :
    List.Forall₂
      (fun t e => ∀ name ∉ e.attributes.map (·.name), d.Lacks e name ∨ d.FindsInside t e name)
      (startTags text.toList) d.elements := by
  refine forall₂_of_opens h fun t ht e he hopens name hname => ?_
  cases hfound : findAssignment? name.toList (Span.cut e.span text.toList) with
  | none =>
      have hnone : d.attributeRange? e name = none := by
        unfold attributeRange? Xml.attributeRange?
        rw [source_of_parse h, hfound]
        rfl
      refine Or.inl ⟨hnone, fun file => ?_⟩
      unfold attributePlace
      rw [hnone]
      rfl
  -- what was found is an assignment inside the stretch; in a tidy tag, one behind the tag
  | some a =>
      obtain ⟨w, front, hw, hnamed, hsplit, ha⟩ := Setting.exists_of_findAssignment? hfound
      obtain ⟨range, hrange, hstands, hbegin, hend⟩ :=
        exists_range h he ht hopens name hsplit (ha ▸ hfound)
      obtain ⟨_, _, -, hstart, hstop, -⟩ := exists_cut h he ht hopens
      have hlead := hw.byteSize_lead
      have hsize := congrArg Text.byteSize hsplit
      simp only [Text.byteSize_append, Setting.byteSize_text] at hsize hstop hbegin hend
      refine Or.inr ⟨w, range, hrange, hw, hnamed, source_of_parse h ▸ hstands, by omega, by omega,
        fun settings trail hwritten htidy => ?_⟩
      obtain ⟨hsame, more, hcut⟩ := exists_cut_eq h he ht hopens (htidy.not_mem_content hwritten)
      -- no setting of the tag has the name, so the search has passed all of them
      have hother : ∀ v ∈ settings, v.name ≠ name.toList := fun v hv heq => by
        refine hname ?_
        rw [Element.attributes, map_name_of_forall₂ (hwritten.forall₂_said hopens).2]
        exact List.mem_map.mpr ⟨v, hv, by rw [heq, String.ofList_toList]⟩
      have hbehind := hwritten.byteSize_of_findAssignment? htidy hother (hcut ▸ hfound)
      have hfrom := congrArg (Text.byteSize ·.fromName) ha
      have hwhole := congrArg Text.byteSize hcut
      rw [byteSize_tag] at hwhole
      simp only [Text.byteSize_append] at hfrom
      unfold StartTag.stop
      omega

/-- Of two names that no attribute of the outer element has, one is assigned
to in the element inside. -/
theorem forall₂_lacks_or_findsInside_nested :
    ∃ d, parse "<a><b c='1'/></a>" = .ok d
      ∧ List.Forall₂
        (fun t e => ∀ name ∉ e.attributes.map (·.name), d.Lacks e name ∨ d.FindsInside t e name)
        (startTags "<a><b c='1'/></a>".toList) d.elements
      ∧ d.elements.map (fun e => ["c", "d"].map fun name =>
          (d.attributeRange? e name).map fun range => (range.start.offset, range.stop.offset))
        = [[some (6, 11), none], [some (6, 11), none]] := by
  have hranges : (parse "<a><b c='1'/></a>").toOption.map (fun d =>
      d.elements.map fun e => ["c", "d"].map fun name =>
        (d.attributeRange? e name).map fun range => (range.start.offset, range.stop.offset))
      = some [[some (6, 11), none], [some (6, 11), none]] := by decide +kernel
  obtain ⟨d, hparse, hranges⟩ := exists_parse_of_map hranges
  exact ⟨d, hparse, forall₂_lacks_or_findsInside hparse, hranges⟩

/-- So a name may be found that is none of the element. -/
theorem not_lacks_nested :
    ¬ ∀ text d, parse text = .ok d → ∀ e ∈ d.elements,
        ∀ name ∉ e.attributes.map (·.name), d.Lacks e name := by
  intro h
  have hroot : (parse "<a><b c='1'/></a>").toOption.map (fun d =>
      d.elements.map fun e => (e.attributes.map (·.name), (d.attributeRange? e "c").isSome))
      = some [([], true), (["c"], true)] := by decide +kernel
  obtain ⟨d, hparse, hall⟩ := exists_parse_of_map hroot
  obtain ⟨e, he, heq⟩ := List.mem_map.mp (hall ▸ List.mem_cons_self)
  obtain ⟨hnames, hfound⟩ := Prod.mk.inj heq
  obtain ⟨hnone, -⟩ := h _ d hparse e he "c" (hnames ▸ List.not_mem_nil)
  rw [hnone] at hfound
  cases hfound

end Document

end ResourceLint.Xml
