/-
The tags of a page.

A page is made from a fixed set of templates (`pageTags`), and what is put
into it, be it a message, a path or a line of source, is text or the value of
an attribute.  Each part of a page is shown to use no templates but those of
the parts it is made of, and the lists of templates are kept apart, since the
parts are told from each other by what they are made of.

Hence a page can be read whatever is reported: its elements are nested, and
no bracket is found in it but those of its tags (`page_isNested`).
-/
import ResourceLint.Proofs.PageReading
import ResourceLint.Report.Page

namespace ResourceLint

namespace Html

variable {allowed more : List Template} {pieces : List Html}

/-- Pieces are all well tagged when each of them is. -/
theorem allUse_iff : allUse allowed pieces ↔ ∀ piece ∈ pieces, uses allowed piece := by
  induction pieces with
  | nil => exact ⟨fun _ => nofun, fun _ => rfl⟩
  | cons piece pieces ih => rw [allUse, Bool.and_eq_true, ih, List.forall_mem_cons]

theorem allUse_cons {piece : Html} (hpiece : uses allowed piece) (h : allUse allowed pieces) :
    allUse allowed (piece :: pieces) := by
  rw [allUse, hpiece, h]
  rfl

theorem allUse_append {others : List Html} (h : allUse allowed pieces)
    (hothers : allUse allowed others) : allUse allowed (pieces ++ others) := by
  rw [allUse_iff] at *
  intro piece hpiece
  exact (List.mem_append.mp hpiece).elim (h piece) (hothers piece)

theorem allUse_flatMap {α : Type} {f : α → List Html} {l : List α}
    (h : ∀ a ∈ l, allUse allowed (f a)) : allUse allowed (l.flatMap f) := by
  rw [allUse_iff]
  intro piece hpiece
  obtain ⟨a, ha, hmem⟩ := List.mem_flatMap.mp hpiece
  exact allUse_iff.mp (h a ha) piece hmem

theorem allUse_map {α : Type} {f : α → Html} {l : List α}
    (h : ∀ a ∈ l, uses allowed (f a)) : allUse allowed (l.map f) := by
  rw [allUse_iff]
  intro piece hpiece
  obtain ⟨a, ha, rfl⟩ := List.mem_map.mp hpiece
  exact h a ha

mutual

/-- What uses some templates uses more of them. -/
theorem uses_mono (hsub : allowed ⊆ more) : ∀ piece : Html, uses allowed piece → uses more piece
  | .text _, _ => rfl
  | .fixed _, h => h
  | .element tag attributes children, h => by
      rw [uses, Bool.and_eq_true, Bool.and_eq_true, List.any_eq_true] at *
      obtain ⟨⟨hvoid, t, ht, hcovers⟩, hchildren⟩ := h
      exact ⟨⟨hvoid, t, hsub ht, hcovers⟩, allUse_mono hsub children hchildren⟩
  | .void tag attributes closing, h => by
      rw [uses, Bool.and_eq_true, Bool.and_eq_true, List.any_eq_true] at *
      obtain ⟨⟨hvoid, t, ht, hcovers⟩, hclosing⟩ := h
      exact ⟨⟨hvoid, t, hsub ht, hcovers⟩, hclosing⟩

/-- More templates allow no less. -/
theorem allUse_mono (hsub : allowed ⊆ more) : ∀ pieces : List Html,
    allUse allowed pieces → allUse more pieces
  | [], _ => rfl
  | piece :: pieces, h => by
      rw [allUse, Bool.and_eq_true] at *
      exact ⟨uses_mono hsub piece h.1, allUse_mono hsub pieces h.2⟩

end

/-- An element of a template, around pieces that use some. -/
theorem uses_element {t : Template} {tag : String} {attributes : List HtmlAttribute}
    (ht : t ∈ allowed) (hvoid : isVoid tag = false) (hcovers : t.covers tag attributes)
    (h : allUse allowed pieces) : uses allowed (.element tag attributes pieces) := by
  rw [uses, Bool.and_eq_true, Bool.and_eq_true, List.any_eq_true, hvoid]
  exact ⟨⟨rfl, t, ht, hcovers⟩, h⟩

/-- A number is written with digits. -/
theorem notMem_toString {c : Char} (h : c.isDigit = false) (n : Nat) : c ∉ (toString n).toList := by
  intro hmem
  rw [Nat.toString_eq_ofList_toDigits, String.toList_ofList] at hmem
  rw [Nat.isDigit_of_mem_toDigits (by decide) (by decide) hmem] at h
  cases h

/-- Text that is written out holds no bracket, if there is none among its
characters. -/
theorem notMem_of_eq {s : String} {chars : List Char} (hs : s = String.ofList chars)
    (h : chars.contains '<' = false) : '<' ∉ s.toList := by
  rw [hs, String.toList_ofList]
  simpa using h

end Html

namespace Report

open Html

-- =========================================================== the templates

/-- The tag of a link. -/
def linkTag : Template := .mk "a" [("href", none)]

/-- The tags of a place. -/
def locationTags : List Template := [.ofClass "span" "location", linkTag]

/-- The tag of what a finding says. -/
def messageTag : Template := .ofClass "span" "message"

/-- The tags around it. -/
def messageTags : List Template :=
  [.mk "img" [("class", "single"), ("border", "0"), ("align", "right"), ("src", none)],
    .mk "br" [("clear", "right")], .bare "br"]

/-- The tags of lines of source. -/
def codeTags : List Template :=
  [.ofClass "pre" "errorlines", .ofClass "span" "errorline", .ofClass "span" "lineno"]

/-- The tags of images side by side. -/
def imageTags : List Template :=
  [.mk "table" [("class", "images"), ("border", "0")], .bare "tr", .bare "th", .bare "td", linkTag,
    .mk "img" [("border", "0"), ("align", "top"), ("src", none)]]

/-- The tags inside an occurrence. -/
def blockTags : List Template :=
  messageTag :: (locationTags ++ messageTags ++ codeTags ++ imageTags)

/-- The tag of an occurrence. -/
def occurrenceTag : Template := .ofClass "div" "occurrence"

/-- The tag of what is folded away. -/
def hiddenTag : Template := .mk "div" [("id", none), ("style", "display: none")]

/-- The tag of the button that shows it. -/
def buttonTag : Template := .mk "button" [("id", none), ("onclick", none)]

/-- The tag of what is said of an issue. -/
def metadataTag : Template := .ofClass "div" "metadata"

/-- The tags inside it. -/
def metadataTags : List Template :=
  [.bare "br", .bare "code", .ofClass "span" "error", .ofClass "span" "warning",
    .ofClass "span" "info", .ofClass "div" "explanation", .ofClass "div" "moreinfo",
    linkTag]

/-- The tag of a section. -/
def sectionTag : Template := .ofClass "section" "issue"

/-- The tag of the id of an issue, in the heading of its section. -/
def idTag : Template := .ofClass "span" "id"

/-- The tag of the list of the occurrences of an issue. -/
def listTag : Template := .ofClass "div" "warningslist"

/-- The tags in it. -/
def listTags : List Template := occurrenceTag :: hiddenTag :: buttonTag :: blockTags

/-- The tags of a section around its list of occurrences. -/
def frameTags : List Template := .bare "h2" :: idTag :: metadataTag :: metadataTags

/-- The tags of the sections. -/
def sectionTags : List Template :=
  [.mk "a" [("name", none)], sectionTag, .bare "h2", idTag, listTag, metadataTag]
    ++ metadataTags ++ listTags

/-- The tag of a table. -/
def tableTag : Template := .bare "table"

/-- The tag of the table of contents. -/
def contentsTag : Template := .ofClass "nav" "toc"

/-- The tag of a heading in it. -/
def categoryTag : Template := .mk "td" [("colspan", "3"), ("class", "category")]

/-- The tag of a count in it. -/
def countTag : Template := .ofClass "td" "count"

/-- The tag of a row of it, and of a heading. -/
def rowTag : Template := .bare "tr"

/-- The tags of the rows. -/
def rowTags : List Template :=
  [rowTag, categoryTag, countTag, .ofClass "td" "error", .ofClass "td" "warning",
    .ofClass "td" "info", .bare "td", linkTag]

/-- The tags of what a page says of itself. -/
def headTags : List Template :=
  [.bare "head", .mk "meta" [("charset", "UTF-8")], .bare "title", .bare "style", .bare "script",
    .bare "header", .bare "h1", .ofClass "p" "timestamp", .ofClass "p" "summary"]

/-- The tags around a page and what it shows. -/
def htmlTag : Template := .mk "html" [("lang", "en")]

def bodyTag : Template := .bare "body"

/-- The tags of a page. -/
def pageTags : List Template :=
  htmlTag :: bodyTag :: (headTags ++ contentsTag :: tableTag :: rowTags ++ sectionTags)

/-- The tag of the link to the page of a project. -/
def projectTag : Template := .mk "a" [("href", none), ("title", none)]

/-- The tags of a row of the index. -/
def projectTags : List Template := [rowTag, projectTag, countTag, .bare "td"]

/-- The tag of the heading of a column of the index. -/
def columnTag : Template := .bare "th"

/-- The tags of the index. -/
def indexTags : List Template :=
  htmlTag :: bodyTag :: tableTag :: columnTag :: (headTags ++ projectTags)

-- ============================================================== occurrences

variable {options : PageOptions} {copies : Copies}

/-- A number between fixed texts. -/
theorem uses_number {allowed : List Template} (n : Nat) {before after : String}
    (hbefore : '<' ∉ before.toList) (hafter : '<' ∉ after.toList) :
    uses allowed (fixed (before ++ toString n ++ after)) := by
  rw [uses, Bool.not_eq_true', List.contains_eq_mem, decide_eq_false_iff_not,
    String.toList_append, String.toList_append, List.mem_append, List.mem_append, not_or, not_or]
  exact ⟨⟨hbefore, notMem_toString rfl n⟩, hafter⟩

/-- The place of a warning is a link or plain text. -/
theorem allUse_locationOf (w : Warning) : allUse locationTags (locationOf options copies w) := by
  unfold locationOf
  cases w.path.or (w.file.map options.paths.display) with
  | none => rfl
  | some path =>
      refine allUse_cons (uses_element (t := .ofClass "span" "location") (by decide) rfl rfl
        (allUse_append (allUse_cons ?_ rfl) ?_)) rfl
      · cases w.file.bind (fileUrl? options copies) <;> rfl
      · cases w.line with
        | none => rfl
        | some n =>
            have hnumber : uses locationTags (fixed ("" ++ toString (n + 1) ++ ":")) :=
              uses_number _ (by decide) (by decide)
            rw [String.empty_append] at hnumber
            exact allUse_cons hnumber rfl

/-- What a finding says, and what is around it. -/
theorem exists_messageOf (images : List Image) (w : Warning) :
    ∃ before after, messageOf images w = before ++ classed "span" "message" w.message :: after
      ∧ allUse messageTags before ∧ allUse messageTags after := by
  unfold messageOf
  split
  · exact ⟨[_], _, rfl, rfl, rfl⟩
  · exact ⟨[], _, rfl, rfl, rfl⟩

/-- A line of code is a number and the line, marked when it is the one
reported. -/
theorem allUse_codeLine (reported : Bool) (number : Nat) (line : String) :
    allUse codeTags (codeLine reported number line) := by
  unfold codeLine
  cases reported <;> rfl

/-- The code block of a warning is made of such lines. -/
theorem allUse_codeBlock (contents : String) (line : Nat) :
    allUse codeTags (codeBlock contents line) := by
  unfold codeBlock
  simp only
  split
  · rfl
  · exact allUse_cons (uses_element (t := .ofClass "pre" "errorlines") (by decide) rfl rfl
      (allUse_cons rfl (allUse_flatMap fun _ _ => allUse_codeLine _ _ _))) rfl

/-- The table of images has one cell an image. -/
theorem allUse_imageTable (images : List Image) : allUse imageTags (imageTable images) := by
  have hrow : ∀ f : Image → Html, (∀ image, uses imageTags (f image)) →
      uses imageTags (element "tr" [] (images.map f)) := fun f hf =>
    uses_element (t := .bare "tr") (by decide) rfl rfl (allUse_map fun image _ => hf image)
  unfold imageTable
  exact allUse_cons (uses_element (t := .mk "table" [("class", "images"), ("border", "0")])
    (by decide) rfl rfl (allUse_cons (hrow _ fun _ => rfl)
      (allUse_cons rfl (allUse_cons (hrow _ fun _ => rfl) rfl)))) rfl

/-- The block of an occurrence: what is said, and the place, the source and the
images around it. -/
def IsBlock (message : String) (block : Html) : Prop :=
  ∃ before after,
    block = element "div" [attr "class" "occurrence"]
      (before ++ classed "span" "message" message :: after)
    ∧ allUse (locationTags ++ messageTags ++ codeTags ++ imageTags) before
    ∧ allUse (locationTags ++ messageTags ++ codeTags ++ imageTags) after

/-- The block of a warning is its place, its message, its code and its images,
in this order. -/
theorem exists_occurrence (options : PageOptions) (copies : Copies) (w : Warning) :
    ∃ location images code table, (occurrence options copies w).1
        = element "div" [attr "class" "occurrence"]
          (lineEnd :: location ++ messageOf images w ++ code ++ table)
      ∧ allUse locationTags location ∧ allUse codeTags code ∧ allUse imageTags table := by
  refine ⟨_, _, _, _, rfl, allUse_locationOf w, ?_, ?_⟩
  · split
    · exact allUse_codeBlock _ _
    · rfl
  · split
    · exact allUse_imageTable _
    · rfl

/-- The block of a warning is one for its message. -/
theorem isBlock_occurrence (options : PageOptions) (copies : Copies) (w : Warning) :
    IsBlock w.message (occurrence options copies w).1 := by
  obtain ⟨location, images, code, table, heq, hlocation, hcode, htable⟩ :=
    exists_occurrence options copies w
  obtain ⟨before, after, hmessage, hbefore, hafter⟩ := exists_messageOf images w
  refine ⟨lineEnd :: location ++ before, after ++ code ++ table, ?_, ?_, ?_⟩
  · rw [heq, hmessage]
    simp only [List.cons_append, List.append_assoc]
  · exact allUse_cons rfl (allUse_append (allUse_mono (by decide) _ hlocation)
      (allUse_mono (by decide) _ hbefore))
  · exact allUse_append (allUse_append (allUse_mono (by decide) _ hafter)
      (allUse_mono (by decide) _ hcode)) (allUse_mono (by decide) _ htable)

/-- A block uses the tags of a block, in one element around. -/
theorem IsBlock.uses {message : String} {block : Html} (h : IsBlock message block) :
    uses (occurrenceTag :: blockTags) block := by
  obtain ⟨before, after, rfl, hbefore, hafter⟩ := h
  have hsub : locationTags ++ messageTags ++ codeTags ++ imageTags ⊆ occurrenceTag :: blockTags := by
    decide
  exact uses_element (t := occurrenceTag) List.mem_cons_self rfl rfl
    (allUse_append (allUse_mono hsub before hbefore)
      (allUse_cons rfl (allUse_mono hsub after hafter)))

/-- The blocks of an issue are blocks one by one. -/
theorem allUse_occurrences (found : List Warning) :
    allUse (occurrenceTag :: blockTags) (occurrences options copies found).1 := by
  induction found generalizing copies with
  | nil => rfl
  | cons w found ih => exact allUse_cons (isBlock_occurrence options copies w).uses ih

-- ================================================================= sections

/-- Blocks with a line end after each. -/
def onLines (blocks : List Html) : List Html := blocks.flatMap fun block => [block, lineEnd]

theorem allUse_onLines {allowed : List Template} {blocks : List Html} (h : allUse allowed blocks) :
    allUse allowed (onLines blocks) :=
  allUse_flatMap fun block hblock => allUse_cons (allUse_iff.mp h block hblock) rfl

namespace Folding

variable {f : Folding}

theorem put_nil : f.put [] = f := by
  obtain ⟨shown, _ | inside⟩ := f <;> simp [put]

/-- What is put twice is put at once. -/
theorem put_put (first second : List Html) : (f.put first).put second = f.put (first ++ second) := by
  obtain ⟨shown, _ | inside⟩ := f <;> simp [put]

end Folding

/-- Blocks are written one after the other where the limit is not among their
places. -/
theorem foldFrom_eq_put {simple : Bool} {id : String} {count place : Nat} {f : Folding}
    {blocks : List Html}
    (h : simple ∨ count ≤ splitLimit ∨ place + blocks.length ≤ splitLimit ∨ splitLimit < place) :
    foldFrom simple id count place f blocks = f.put (onLines blocks) := by
  induction blocks generalizing place f with
  | nil => exact Folding.put_nil.symm
  | cons block more ih =>
      rw [List.length_cons] at h
      have hguard : ¬ (!simple && place == splitLimit && decide (splitLimit < count)) := by
        simp only [Bool.and_eq_true, Bool.not_eq_true', beq_iff_eq, decide_eq_true_eq]
        rintro ⟨⟨hfull, hplace⟩, hmany⟩
        rw [hfull] at h
        simp only [Bool.false_eq_true, false_or] at h
        omega
      rw [foldFrom, if_neg hguard, ih (h.imp_right (by omega)), Folding.put_put]
      rfl

/-- The loop over two rows goes on from where the first ended. -/
theorem foldFrom_append (simple : Bool) (id : String) (count place : Nat) (f : Folding)
    (first second : List Html) :
    foldFrom simple id count place f (first ++ second)
      = foldFrom simple id count (place + first.length) (foldFrom simple id count place f first)
        second := by
  induction first generalizing place f with
  | nil => rfl
  | cons block more ih =>
      rw [List.cons_append, foldFrom, ih, foldFrom, List.length_cons, Nat.add_right_comm,
        Nat.add_assoc place]

/-- Past the limit the hidden blocks are begun, just before the first block that
is one too many. -/
theorem foldFrom_eq_put_fold {simple : Bool} {id : String} {blocks : List Html}
    (h : ¬ (simple ∨ blocks.length ≤ splitLimit)) :
    foldFrom simple id blocks.length 0 ⟨[], none⟩ blocks
      = (Folding.fold ⟨onLines (blocks.take splitLimit), none⟩ id
          (blocks.length - splitLimit)).put (onLines (blocks.drop splitLimit)) := by
  obtain ⟨hfull, hlong⟩ := not_or.mp h
  have hlong := Nat.not_le.mp hlong
  have hguard : !simple && splitLimit == splitLimit && decide (splitLimit < blocks.length) := by
    simp [hfull, hlong]
  have htake : (blocks.take splitLimit).length = splitLimit :=
    List.length_take_of_le (Nat.le_of_lt hlong)
  obtain ⟨block, more, hdrop⟩ : ∃ block more, blocks.drop splitLimit = block :: more :=
    List.exists_cons_of_ne_nil (by simpa using hlong)
  -- before the limit and behind it every block is just written
  have hfront : foldFrom simple id blocks.length 0 ⟨[], none⟩ (blocks.take splitLimit)
      = ⟨onLines (blocks.take splitLimit), none⟩ :=
    foldFrom_eq_put (by omega)
  have hback : ∀ f, foldFrom simple id blocks.length (splitLimit + 1) f more = f.put (onLines more) :=
    fun f => foldFrom_eq_put (by omega)
  have happend := foldFrom_append simple id blocks.length 0 ⟨[], none⟩ (blocks.take splitLimit)
    (blocks.drop splitLimit)
  rw [List.take_append_drop, hfront, htake, Nat.zero_add, hdrop] at happend
  rw [happend, foldFrom, if_pos hguard, hback, Folding.put_put, hdrop]
  rfl

/-- The blocks up to the limit, and then a button and the others, hidden, if
there are any and they may be hidden. -/
theorem foldedBlocks_eq (simple : Bool) (id : String) (blocks : List Html) :
    foldedBlocks simple id blocks
      = if simple || blocks.length ≤ splitLimit then onLines blocks
        else
          onLines (blocks.take splitLimit)
            ++ [element "button"
                [⟨"id", "", id, "Link"⟩, ⟨"onclick", "reveal('", id, "');"⟩]
                [fixed ("+ " ++ toString (blocks.length - splitLimit) ++ " More Occurrences...")],
              lineEnd,
              element "div" [attr "id" id, attr "style" "display: none"]
                (lineEnd :: onLines (blocks.drop splitLimit)),
              lineEnd] := by
  by_cases hfew : simple ∨ blocks.length ≤ splitLimit
  · -- the loop never folds, and neither does what is behind it
    have hguard : ¬ (!simple && decide (splitLimit < blocks.length)) := by
      simp only [Bool.and_eq_true, Bool.not_eq_true', decide_eq_true_eq]
      rintro ⟨hfull, hmany⟩
      rw [hfull] at hfew
      simp only [Bool.false_eq_true, false_or] at hfew
      omega
    rw [foldedBlocks, if_neg hguard, if_pos (by simpa using hfew),
      foldFrom_eq_put (hfew.imp_right Or.inl)]
    rfl
  · have hguard : !simple && decide (splitLimit < blocks.length) := by simpa using hfew
    have hlong : splitLimit < blocks.length := Nat.not_le.mp (not_or.mp hfew).2
    rw [foldedBlocks, if_pos hguard, if_neg (by simpa using hfew), foldFrom_eq_put_fold hfew]
    simp [Folding.put, Folding.fold]

/-- Folding wraps the hidden blocks and leaves their tags. -/
theorem allUse_foldedBlocks {blocks : List Html} (simple : Bool) (id : String)
    (h : allUse listTags blocks) :
    allUse listTags (foldedBlocks simple id blocks) := by
  have hpart : ∀ part : List Html, part ⊆ blocks → allUse listTags part :=
    fun part hsub => allUse_iff.mpr fun piece hpiece => allUse_iff.mp h piece (hsub hpiece)
  rw [foldedBlocks_eq]
  split
  · exact allUse_onLines h
  · -- the id stands inside quotes of the button, and it is escaped
    have hcovers : buttonTag.covers "button"
        [⟨"id", "", id, "Link"⟩, ⟨"onclick", "reveal('", id, "');"⟩] := by
      have hfixed : isHarmless "" && isHarmless "Link" && isHarmless "reveal('"
          && isHarmless "');" := by decide
      simp only [Bool.and_eq_true] at hfixed
      exact Bool.and_eq_true_iff.mpr ⟨rfl, by simp [hfixed]⟩
    have hbutton : uses listTags (element "button"
        [⟨"id", "", id, "Link"⟩, ⟨"onclick", "reveal('", id, "');"⟩]
        [fixed ("+ " ++ toString (blocks.length - splitLimit) ++ " More Occurrences...")]) :=
      uses_element (t := buttonTag) (by decide) rfl hcovers
        (allUse_cons (uses_number _ (by decide) (by decide)) rfl)
    have hhidden : uses listTags (element "div"
        [attr "id" id, attr "style" "display: none"]
        (lineEnd :: onLines (blocks.drop splitLimit))) :=
      uses_element (t := hiddenTag) (by decide) rfl rfl
        (allUse_cons rfl (allUse_onLines (hpart _ (List.drop_subset _ _))))
    exact allUse_append (allUse_onLines (hpart _ (List.take_subset _ _)))
      (allUse_cons hbutton (allUse_cons rfl (allUse_cons hhidden rfl)))

/-- An explanation is text and line breaks. -/
theorem allUse_explanation (s : String) : allUse metadataTags (explanation s) := by
  have hparts : ∀ parts : List (List Html), (∀ part ∈ parts, allUse metadataTags part) →
      allUse metadataTags (parts.intersperse [lineBreak, lineEnd]).flatten := by
    intro parts
    fun_induction List.intersperse [lineBreak, lineEnd] parts with
    | case1 => intro _; rfl
    | case2 part =>
        intro h
        exact allUse_append (h part List.mem_cons_self) rfl
    | case3 part next parts ih =>
        intro h
        rw [List.forall_mem_cons] at h
        exact allUse_append h.1 (allUse_append rfl (ih h.2))
  refine hparts _ fun part hpart => ?_
  obtain ⟨line, -, rfl⟩ := List.mem_map.mp hpart
  rfl

theorem uses_severity (severity : Severity) (s : String) :
    uses metadataTags (classed "span" (severityClass severity) s) := by
  cases severity <;> rfl

/-- The metadata of an issue stand in one element. -/
theorem uses_metadata (issue : Issue) (severity : Severity) :
    uses (metadataTag :: metadataTags) (metadata issue severity) := by
  have hline : ∀ content : List Html, allUse metadataTags content →
      allUse metadataTags (content ++ [lineBreak, lineEnd]) :=
    fun content h => allUse_append h rfl
  have hexplanation : allUse metadataTags
      [element "div" [attr "class" "explanation"] (explanation issue.explanation), lineEnd] :=
    allUse_cons (uses_element (t := .ofClass "div" "explanation") (by decide) rfl rfl
      (allUse_explanation _)) rfl
  unfold metadata
  refine uses_element (t := metadataTag) List.mem_cons_self rfl rfl
    (allUse_mono (List.subset_cons_self _ _) _ ?_)
  refine allUse_cons rfl (allUse_append (allUse_append (allUse_append (allUse_append
    (allUse_append (allUse_append (hline _ rfl)
      (hline _ (allUse_cons (uses_number _ (by decide) (by decide)) rfl)))
      (hline _ rfl)) (hline _ (allUse_cons rfl (allUse_cons (uses_severity _ _) rfl))))
    hexplanation) ?_) (hline _ rfl))
  cases issue.moreInfo <;> rfl

/-- The section of an issue is a heading, its blocks and the metadata. -/
theorem allUse_issueSection (g : Warning.Group) :
    allUse sectionTags (issueSection options copies g).1 := by
  have hblocks : allUse listTags (occurrences options copies g.warnings).1 :=
    allUse_mono (by decide) _ (allUse_occurrences _)
  have hfolded : allUse sectionTags (foldedBlocks options.simple g.issue.id
      (occurrences options copies g.warnings).1) :=
    allUse_mono (by decide) _ (allUse_foldedBlocks _ _ hblocks)
  have hlist : uses sectionTags (element "div" [attr "class" "warningslist"]
      (lineEnd :: foldedBlocks options.simple g.issue.id
        (occurrences options copies g.warnings).1)) :=
    uses_element (t := listTag) (by decide) rfl rfl (allUse_cons rfl hfolded)
  have hmetadata : uses sectionTags (metadata g.issue (groupSeverity g)) :=
    uses_mono (by decide) _ (uses_metadata _ _)
  unfold issueSection
  refine allUse_cons rfl (allUse_cons rfl (allUse_cons ?_ rfl))
  exact uses_element (t := sectionTag) (by decide) rfl rfl
    (allUse_cons rfl (allUse_cons rfl (allUse_cons rfl (allUse_cons hlist (allUse_cons rfl
      (allUse_cons hmetadata rfl))))))

/-- The sections come one after the other. -/
theorem allUse_sections (groups : List Warning.Group) :
    allUse sectionTags (sections options copies groups).1 := by
  induction groups generalizing copies with
  | nil => rfl
  | cons g groups ih => exact allUse_append (allUse_issueSection g) ih

-- ======================================================= the table of contents

/-- A row of the contents links to its section. -/
theorem allUse_contentsRows (category : String) (groups : List Warning.Group) :
    allUse rowTags (contentsRows category groups) := by
  induction groups generalizing category with
  | nil => rfl
  | cons g groups ih =>
      have hheading : allUse rowTags (if g.issue.category.fullName == category then [] else
          [element "tr" [] [element "td" [attr "colspan" "3", attr "class" "category"]
              [text g.issue.category.fullName]], lineEnd]) := by
        split <;> rfl
      -- there is a template for each severity
      have hseverity : uses rowTags
          (element "td" [attr "class" (severityClass (groupSeverity g))] []) := by
        cases groupSeverity g <;> rfl
      have hcovers : linkTag.covers "a" [⟨"href", "#", g.issue.id, ""⟩] := by
        have hfixed : isHarmless "" && isHarmless "#" := by decide
        rw [Bool.and_eq_true] at hfixed
        exact Bool.and_eq_true_iff.mpr ⟨rfl, by simp [hfixed]⟩
      have hlink : uses rowTags (element "td" []
          [element "a" [⟨"href", "#", g.issue.id, ""⟩] [text g.issue.id], fixed ": ",
            text g.issue.summary]) :=
        uses_element (t := .bare "td") (by decide) rfl rfl
          (allUse_cons (uses_element (t := linkTag) (by decide) rfl hcovers rfl) rfl)
      unfold contentsRows
      exact allUse_append (allUse_append hheading (allUse_cons
        (uses_element (t := rowTag) (by decide) rfl rfl
          (allUse_cons rfl (allUse_cons hseverity (allUse_cons hlink rfl)))) rfl)) (ih _)

/-- The contents are one table. -/
theorem allUse_tableOfContents (groups : List Warning.Group) :
    allUse (contentsTag :: tableTag :: rowTags) (tableOfContents groups) := by
  have hrows : allUse (contentsTag :: tableTag :: rowTags)
      (lineEnd :: contentsRows "" groups) :=
    allUse_cons rfl (allUse_mono (by decide) _ (allUse_contentsRows "" groups))
  unfold tableOfContents
  exact allUse_cons (uses_element (t := contentsTag) (by decide) rfl rfl (allUse_cons rfl
    (allUse_cons (uses_element (t := tableTag) (by decide) rfl rfl hrows) rfl))) rfl

-- ==================================================================== pages

/-- Lines without `<` are joined to a text without it. -/
theorem notMem_joinLines {lines : List String} (h : ∀ line ∈ lines, '<' ∉ line.toList) :
    '<' ∉ (joinLines lines).toList := by
  unfold joinLines
  rw [String.toList_join, List.mem_flatMap]
  rintro ⟨_, hended, hmem⟩
  obtain ⟨line, hline, rfl⟩ := List.mem_map.mp hended
  rw [String.toList_append, List.mem_append] at hmem
  exact hmem.elim (h line hline) (notMem_of_eq rfl rfl)

theorem uses_lines {allowed : List Template} {lines : List String}
    (h : ∀ line ∈ lines, '<' ∉ line.toList) : uses allowed (fixed (joinLines lines)) := by
  rw [uses, Bool.not_eq_true', List.contains_eq_mem, decide_eq_false_iff_not]
  exact notMem_joinLines h

/-- The style sheet has no `<` in it. -/
theorem notMem_styleLines : ∀ line ∈ styleLines, '<' ∉ line.toList := by
  unfold styleLines
  repeat' rw [List.forall_mem_cons]
  repeat' apply And.intro
  all_goals first | exact notMem_of_eq rfl rfl | exact nofun

theorem notMem_scriptLines : ∀ line ∈ scriptLines, '<' ∉ line.toList := by
  unfold scriptLines
  repeat' rw [List.forall_mem_cons]
  repeat' apply And.intro
  all_goals first | exact notMem_of_eq rfl rfl | exact nofun

/-- The head of a page is a title, the style sheet and, unless the page is to be
simple, a script. -/
theorem uses_pageHead : uses headTags (pageHead options) := by
  have hstyle : uses headTags (element "style" [] [fixed (joinLines styleLines)]) :=
    uses_element (t := .bare "style") (by decide) rfl rfl
      (allUse_cons (uses_lines notMem_styleLines) rfl)
  have hscript : allUse headTags (if options.simple then [] else
      [fixed "    ", element "script" [] [fixed (joinLines scriptLines)], lineEnd]) := by
    split
    · rfl
    · exact allUse_cons rfl (allUse_cons (uses_element (t := .bare "script") (by decide) rfl rfl
        (allUse_cons (uses_lines notMem_scriptLines) rfl)) rfl)
  unfold pageHead
  exact uses_element (t := .bare "head") (by decide) rfl rfl (allUse_append
    (allUse_cons rfl (allUse_cons rfl (allUse_cons rfl (allUse_cons rfl (allUse_cons rfl
      (allUse_cons hstyle rfl)))))) hscript)

theorem uses_pageHeader (errors warnings : Nat) :
    uses headTags (pageHeader options errors warnings) := rfl

/-- The line that a page begins with. -/
def doctype : String := "<!DOCTYPE html>\n"

/-- What a page says after its first line, if that is as it should be and the
rest can be read. -/
def readPage? (s : String) : Option (List Node) :=
  (ResourceLint.Text.after? doctype s).bind (read? ·.toList)

/-- The pieces of a page. -/
def documentPieces (children : List Html) : List Html :=
  [element "html" [attr "lang" "en"] (lineEnd :: children), lineEnd]

/-- A document is the doctype and its pieces. -/
theorem document_eq (children : List Html) :
    document children = doctype ++ renderAll (documentPieces children) := rfl

/-- A page is read as the pieces that it is made of. -/
theorem readPage?_document {allowed : List Template} {children : List Html}
    (h : allUse allowed (documentPieces children)) :
    readPage? (document children) = some (nodesOfAll (documentPieces children)) := by
  have hafter : ResourceLint.Text.after? doctype (document children)
      = some (renderAll (documentPieces children)) := by
    unfold ResourceLint.Text.after?
    rw [document_eq, String.toList_append, ResourceLint.Text.strip?_eq_some_iff.mpr rfl,
      Option.map_some, String.ofList_toList]
  unfold readPage?
  rw [hafter, Option.bind_some, read?_renderAll h]

/-- The first bracket of a page is that of its first line, and the others
begin tags. -/
theorem beginsTag_document {allowed : List Template} {children : List Html}
    (h : allUse allowed (documentPieces children)) {before after : List Char}
    (htext : (document children).toList = before ++ '<' :: after) (hne : before ≠ []) :
    BeginsTag allowed after := by
  rw [document_eq, String.toList_append] at htext
  cases before with
  | nil => exact absurd rfl hne
  | cons c before =>
      have hline : doctype.toList = '<' :: "!DOCTYPE html>\n".toList := rfl
      rw [hline, List.cons_append, List.cons_append] at htext
      have hrest := (List.cons.inj htext).2
      -- what stands before the bracket holds the rest of the first line
      rcases List.append_eq_append_iff.mp hrest with ⟨between, -, hbetween⟩ | ⟨between, hbefore, hbetween⟩
      · exact beginsTag_of_allUse h _ hbetween
      · cases between with
        | nil =>
            rw [List.nil_append] at hbetween
            exact beginsTag_of_allUse h [] hbetween.symm
        | cons d between =>
            obtain rfl := (List.cons.inj hbetween).1
            exact absurd (hbefore ▸ by simp) (notMem_of_eq (s := "!DOCTYPE html>\n") rfl rfl)

variable (options copies) (errors warnings : Nat) (found : List Warning)

/-- The pieces inside a page. -/
def pageChildren : List Html :=
  let groups := Warning.groupByIssue found
  let contents := if groups.isEmpty then [] else tableOfContents groups
  [pageHead options, lineEnd,
    element "body" []
      ([fixed "\n    ", pageHeader options errors warnings, lineEnd] ++ contents
        ++ (sections options copies groups).1),
    lineEnd]

/-- A page is a document of its pieces. -/
theorem page_eq :
    (page options copies errors warnings found).1
      = document (pageChildren options copies errors warnings found) := rfl

/-- All pieces of a page use the tags of a page. -/
theorem allUse_pageChildren :
    allUse pageTags (documentPieces (pageChildren options copies errors warnings found)) := by
  have hhead : uses pageTags (pageHead options) := uses_mono (by decide) _ uses_pageHead
  have hheader : uses pageTags (pageHeader options errors warnings) :=
    uses_mono (by decide) _ (uses_pageHeader errors warnings)
  have hcontents : allUse pageTags (if (Warning.groupByIssue found).isEmpty then []
      else tableOfContents (Warning.groupByIssue found)) := by
    split
    · rfl
    · exact allUse_mono (by decide) _ (allUse_tableOfContents _)
  have hsections : allUse pageTags (sections options copies (Warning.groupByIssue found)).1 :=
    allUse_mono (by decide) _ (allUse_sections _)
  have hbody : allUse pageTags ([fixed "\n    ", pageHeader options errors warnings, lineEnd]
      ++ (if (Warning.groupByIssue found).isEmpty then []
        else tableOfContents (Warning.groupByIssue found))
      ++ (sections options copies (Warning.groupByIssue found)).1) :=
    allUse_append (allUse_append (allUse_cons rfl (allUse_cons hheader (allUse_cons rfl rfl)))
      hcontents) hsections
  exact allUse_cons (uses_element (t := htmlTag) (by decide) rfl rfl
    (allUse_cons rfl (allUse_cons hhead (allUse_cons rfl (allUse_cons
      (uses_element (t := bodyTag) (by decide) rfl rfl hbody) rfl))))) rfl

/-- A page can be read. -/
theorem readPage?_page :
    readPage? (page options copies errors warnings found).1
      = some (nodesOfAll (documentPieces (pageChildren options copies errors warnings found))) := by
  rw [page_eq, readPage?_document (allUse_pageChildren options copies errors warnings found)]

/-- A page is nested, and there are no brackets in it but those of its tags,
whatever the findings say. -/
theorem page_isNested :
    (readPage? (page options copies errors warnings found).1).isSome
      ∧ ∀ before after, before ≠ [] →
        (page options copies errors warnings found).1.toList = before ++ '<' :: after →
          BeginsTag pageTags after := by
  rw [readPage?_page, page_eq]
  exact ⟨rfl, fun _ _ hne htext =>
    beginsTag_document (allUse_pageChildren options copies errors warnings found) htext hne⟩

end Report
end ResourceLint
