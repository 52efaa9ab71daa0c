/-
Reading pages of markup.

A page is read from the left.  An opening bracket begins a tag, and the tag
ends at the next closing bracket (`marksFrom`).  A tag says a name, and names
of attributes with values in quotes (`Mark.ofTag`); what does not look like
that is broken.  The tags make elements: an end tag closes the element that
was opened last, and at the end none may be open (`nest?`).  Void elements
are not opened.

# Templates

A `Template` is the fixed part of a tag: the name, the names of the
attributes, and the values that are always the same.  Pieces whose tags are
made from templates are read back as they were put together, whatever stands
in their texts and in the other values (`read?_renderAll`): escaping leaves no
bracket and no quote in these.  Moreover there is no bracket in the text but
those that begin such tags (`beginsTag_of_marks`).
-/
import ResourceLint.Proofs.Paths
import ResourceLint.Report.Html

namespace ResourceLint

-- ================================================================ templates

/-- A name in a tag: letters and digits. -/
def isWord (s : String) : Bool := s != "" && s.toList.all Char.isAlphanum

/-- The fixed part of a tag. -/
structure Template where
  tag : String
  /-- the names of the attributes, each with its value where that is fixed -/
  attributes : List (String × Option String)
  words : (tag :: attributes.map (·.1)).all isWord := by decide
deriving DecidableEq

namespace Template

/-- The template of a tag without attributes. -/
abbrev bare (tag : String) (h : [tag].all isWord := by decide) : Template := ⟨tag, [], h⟩

/-- The template of a tag that has a class and nothing else. -/
abbrev ofClass (tag kind : String) (h : [tag, "class"].all isWord := by decide) : Template :=
  ⟨tag, [("class", some kind)], h⟩

/-- Whether attributes have these names, and these values where they are fixed. -/
def allow : List (String × Option String) → List (String × String) → Bool
  | [], [] => true
  | fixed :: more, a :: rest => a.1 == fixed.1 && fixed.2.all (a.2 == ·) && allow more rest
  | _, _ => false

/-- Whether a tag is made from the template. -/
def fits (t : Template) (tag : String) (attributes : List (String × String)) : Bool :=
  tag == t.tag && allow t.attributes attributes

/-- Allowed attributes have the names of the template, in its order. -/
theorem names_of_allow {fixed : List (String × Option String)} {attributes : List (String × String)}
    (h : allow fixed attributes) : attributes.map (·.1) = fixed.map (·.1) := by
  fun_induction allow fixed attributes with
  | case1 => rfl
  | case2 fixed more a rest ih =>
      simp only [Bool.and_eq_true, beq_iff_eq] at h
      rw [List.map_cons, List.map_cons, h.1.1, ih h.2]
  | case3 => cases h

end Template

namespace Html

-- ==================================================================== marks

/-- What a text of markup is divided into. -/
inductive Mark
  | char (c : Char)
  | start (tag : String) (attributes : List (String × String))
  | stop (tag : String)
  /-- what is in brackets and no tag, or has no closing bracket -/
  | broken (s : List Char)
deriving DecidableEq

/-- The name of an attribute, between a blank and an equals sign. -/
def keyOf? : List Char → Option String
  | ' ' :: key =>
    if key.getLast? = some '=' then some (String.ofList key.dropLast) else none
  | _ => none

/-- The attributes in the rest of a tag, which its quotes divide into parts:
`lead` and those that follow.  Every other part is a value. -/
def attributesOf? (lead : List Char) : List (List Char) → Option (List (String × String))
  | [] => if lead ∈ [[], ['/'], [' ', '/']] then some [] else none
  | [_] => none
  | value :: next :: more =>
    match keyOf? lead, attributesOf? next more with
    | some key, some rest => some ((key, String.ofList value) :: rest)
    | _, _ => none

/-- What stands between angle brackets. -/
def Mark.ofTag (inside : List Char) : Mark :=
  if inside.head? = some '/' then .stop (String.ofList inside.tail)
  else
    match Text.splitAt '"' inside with
    | first :: more =>
      match attributesOf? (first.dropWhile Char.isAlphanum) more with
      | some attributes => .start (String.ofList (first.takeWhile Char.isAlphanum)) attributes
      | none => .broken inside
    | [] => .broken inside

/-- Whether a mark is a character, or a tag that is made from one of the templates. -/
def Mark.IsFixed (allowed : List Template) : Mark → Prop
  | .char _ => True
  | .start tag attributes =>
    ∃ t ∈ allowed, t.fits tag attributes ∧ ∀ a ∈ attributes, '<' ∉ a.2.toList
  | .stop tag => ∃ t ∈ allowed, t.tag = tag
  | .broken _ => False

/-- Whether a tag that is made from one of the templates follows an opening
bracket. -/
def BeginsTag (allowed : List Template) (after : List Char) : Prop :=
  ∃ inside rest, after = inside ++ '>' :: rest ∧ (Mark.ofTag inside).IsFixed allowed

/-- The marks of a text, where `inside` is what has been read of a tag, last
character first. -/
def marksFrom (inside : Option (List Char)) : List Char → List Mark
  | [] =>
    match inside with
    | none => []
    | some before => [.broken before.reverse]
  | c :: rest =>
    match inside with
    | none => if c = '<' then marksFrom (some []) rest else .char c :: marksFrom none rest
    | some before =>
      if c = '>' then Mark.ofTag before.reverse :: marksFrom none rest
      else marksFrom (some (c :: before)) rest

-- ==================================================================== nodes

/-- What a page says: characters as they are written, and elements. -/
inductive Node
  | char (c : Char)
  | element (tag : String) (attributes : List (String × String)) (children : List Node)

/-- Elements without an end tag. -/
def isVoid (tag : String) : Bool := ["meta", "br", "img"].contains tag

/-- An element that is open, with the nodes before it, last first. -/
structure Opened where
  tag : String
  attributes : List (String × String)
  before : List Node

/-- The nodes that the marks make, where `opened` are the elements that are
open, the innermost first, and `nodes` is what the innermost has so far, last
first.  An end tag has to be that of the innermost element, and none may be
open at the end. -/
def nest? (opened : List Opened) (nodes : List Node) : List Mark → Option (List Node)
  | [] => if opened.isEmpty then some nodes.reverse else none
  | .char c :: more => nest? opened (.char c :: nodes) more
  | .start tag attributes :: more =>
    if isVoid tag then nest? opened (.element tag attributes [] :: nodes) more
    else nest? (⟨tag, attributes, nodes⟩ :: opened) [] more
  | .stop tag :: more =>
    match opened with
    | inner :: outer =>
      if inner.tag = tag then
        nest? outer (.element inner.tag inner.attributes nodes.reverse :: inner.before) more
      else none
    | [] => none
  | .broken _ :: _ => none

/-- What a text says, if its tags can be read and are nested. -/
def read? (s : List Char) : Option (List Node) := nest? [] [] (marksFrom none s)

-- ========================================================== pieces and tags

/-- What stands between the quotes of an attribute. -/
def rawValue (a : HtmlAttribute) : String := a.before ++ escape a.value ++ a.after

/-- The name of an attribute and what stands between its quotes. -/
def written (a : HtmlAttribute) : String × String := (a.name, rawValue a)

/-- Whether a text can stand in a tag as it is. -/
def isHarmless (s : String) : Bool := s.toList.all fun c => c != '<' && c != '>' && c != '"'

end Html

/-- Whether a tag is made from the template, whatever is escaped in it. -/
def Template.covers (t : Template) (tag : String) (attributes : List HtmlAttribute) : Bool :=
  t.fits tag (attributes.map Html.written)
    && attributes.all fun a => Html.isHarmless a.before && Html.isHarmless a.after

namespace Html

mutual

/-- Whether all tags are made from these templates, and fixed text holds no
bracket. -/
def uses (allowed : List Template) : Html → Bool
  | .text _ => true
  | .fixed s => !s.toList.contains '<'
  | .element tag attributes children =>
    !isVoid tag && allowed.any (·.covers tag attributes) && allUse allowed children
  | .void tag attributes closing =>
    isVoid tag && allowed.any (·.covers tag attributes) && [">", "/>", " />"].contains closing

def allUse (allowed : List Template) : List Html → Bool
  | [] => true
  | piece :: more => uses allowed piece && allUse allowed more

end

mutual

/-- The marks that a piece is rendered to. -/
def marks : Html → List Mark
  | .text s => (escape s).toList.map .char
  | .fixed s => s.toList.map .char
  | .element tag attributes children =>
    .start tag (attributes.map written) :: (marksOfAll children ++ [.stop tag])
  | .void tag attributes _ => [.start tag (attributes.map written)]

def marksOfAll : List Html → List Mark
  | [] => []
  | piece :: more => marks piece ++ marksOfAll more

end

mutual

/-- The nodes that a piece is. -/
def nodes : Html → List Node
  | .text s => (escape s).toList.map .char
  | .fixed s => s.toList.map .char
  | .element tag attributes children => [.element tag (attributes.map written) (nodesOfAll children)]
  | .void tag attributes _ => [.element tag (attributes.map written) []]

def nodesOfAll : List Html → List Node
  | [] => []
  | piece :: more => nodes piece ++ nodesOfAll more

end

variable {allowed : List Template} {tag : String} {attributes : List HtmlAttribute}
  {s inside rest lead : List Char}

-- ============================================================ what is escaped

/-- No bracket and no quote is left in what is escaped. -/
theorem isHarmless_escape (s : String) : isHarmless (escape s) := by
  unfold isHarmless escape
  rw [String.toList_ofList, List.all_flatMap, List.all_eq_true]
  intro c _
  unfold escapeChar
  split <;> simp_all

/-- Harmless texts are harmless together. -/
theorem isHarmless_append {a b : String} (ha : isHarmless a) (hb : isHarmless b) :
    isHarmless (a ++ b) := by
  unfold isHarmless at *
  rw [String.toList_append, List.all_append, ha, hb]
  rfl

/-- A harmless text closes neither a value nor a tag. -/
theorem notMem_of_isHarmless {s : String} (h : isHarmless s) :
    '<' ∉ s.toList ∧ '>' ∉ s.toList ∧ '"' ∉ s.toList := by
  unfold isHarmless at h
  rw [List.all_eq_true] at h
  refine ⟨fun hmem => ?_, fun hmem => ?_, fun hmem => ?_⟩ <;> simpa using h _ hmem

/-- A name can stand in a tag. -/
theorem isHarmless_of_isWord {s : String} (h : isWord s) : isHarmless s := by
  unfold isWord at h
  unfold isHarmless
  rw [Bool.and_eq_true, List.all_eq_true] at h
  rw [List.all_eq_true]
  intro c hc
  have halphanum := h.2 c hc
  simp only [Bool.and_eq_true, bne_iff_ne]
  refine ⟨⟨?_, ?_⟩, ?_⟩ <;> rintro rfl <;> revert halphanum <;> decide

-- ============================================================== reading tags

/-- What an attribute is rendered to. -/
def attributeChars (a : HtmlAttribute) : List Char :=
  ' ' :: (a.name.toList ++ ['=']) ++ '"' :: ((rawValue a).toList ++ ['"'])

/-- The characters of an opening tag. -/
theorem toList_openTag (tag : String) (attributes : List HtmlAttribute) :
    (openTag tag attributes).toList = '<' :: (tag.toList ++ attributes.flatMap attributeChars) := by
  have hattribute : ∀ a, (attributeText a).toList = attributeChars a := by
    intro a
    unfold attributeText attributeChars rawValue
    simp
  unfold openTag
  rw [String.toList_append, String.toList_append, String.toList_join, List.flatMap_map]
  simp only [hattribute]
  rfl

/-- A name is read back from the text before a value. -/
theorem keyOf?_name (name : String) : keyOf? (' ' :: (name.toList ++ ['='])) = some name := by
  show (if (name.toList ++ ['=']).getLast? = some '=' then
    some (String.ofList (name.toList ++ ['=']).dropLast) else none) = _
  rw [if_pos (by simp), List.dropLast_concat, String.ofList_toList]

/-- Text without a quote stands in front of the first part. -/
theorem splitAt_append_of_not_mem {mark : Char} {first : List Char} {more : List (List Char)}
    (h : mark ∉ lead) (hs : Text.splitAt mark s = first :: more) :
    Text.splitAt mark (lead ++ s) = (lead ++ first) :: more := by
  induction lead with
  | nil => exact hs
  | cons c lead ih =>
      rw [List.mem_cons, not_or] at h
      rw [List.cons_append, Text.splitAt, if_neg (by simpa using Ne.symm h.1), ih h.2]
      rfl

/-- The attributes of a tag are read from the parts that its quotes make. -/
theorem attributesOf?_written (h : attributes.all fun a => isHarmless a.name && isHarmless (rawValue a))
    (htail : s ∈ [[], ['/'], [' ', '/']]) :
    ∃ first more, Text.splitAt '"' (attributes.flatMap attributeChars ++ s) = first :: more
      ∧ attributesOf? first more = some (attributes.map written)
      ∧ first.head?.all (!·.isAlphanum) := by
  -- attribute by attribute: its name stands before a quote, its value between two
  induction attributes with
  | nil =>
      have hquote : '"' ∉ s := by
        simp only [List.mem_cons, List.not_mem_nil, or_false] at htail
        rcases htail with rfl | rfl | rfl <;> decide
      refine ⟨s, [], Text.splitAt_of_not_mem hquote, if_pos htail, ?_⟩
      simp only [List.mem_cons, List.not_mem_nil, or_false] at htail
      rcases htail with rfl | rfl | rfl <;> rfl
  | cons a attributes ih =>
      rw [List.all_cons, Bool.and_eq_true, Bool.and_eq_true] at h
      obtain ⟨⟨hname, hvalue⟩, hrest⟩ := h
      obtain ⟨first, more, hsplit, hread, -⟩ := ih hrest
      refine ⟨' ' :: (a.name.toList ++ ['=']), (rawValue a).toList :: first :: more, ?_, ?_, rfl⟩
      · have hkey : '"' ∉ ' ' :: (a.name.toList ++ ['=']) := by
          simp [(notMem_of_isHarmless hname).2.2]
        have htext : (a :: attributes).flatMap attributeChars ++ s
            = (' ' :: (a.name.toList ++ ['='])) ++ '"' :: ((rawValue a).toList
              ++ '"' :: (attributes.flatMap attributeChars ++ s)) := by
          rw [List.flatMap_cons, attributeChars]
          simp only [List.append_assoc, List.cons_append, List.nil_append]
        rw [htext, Text.splitAt_append_cons, Text.splitAt_of_not_mem hkey,
          Text.splitAt_append_cons, Text.splitAt_of_not_mem (notMem_of_isHarmless hvalue).2.2,
          hsplit]
        rfl
      · rw [attributesOf?, keyOf?_name, hread]
        rw [List.map_cons, written, String.ofList_toList]

/-- A tag that is rendered says its name and its attributes. -/
theorem ofTag_written (htag : isWord tag)
    (h : attributes.all fun a => isHarmless a.name && isHarmless (rawValue a))
    (htail : s ∈ [[], ['/'], [' ', '/']]) :
    Mark.ofTag (tag.toList ++ (attributes.flatMap attributeChars ++ s))
      = .start tag (attributes.map written) := by
  have hharmless := isHarmless_of_isWord htag
  unfold isWord at htag
  rw [Bool.and_eq_true, bne_iff_ne, List.all_eq_true] at htag
  obtain ⟨hne, hword⟩ := htag
  obtain ⟨first, more, hsplit, hread, hhead⟩ := attributesOf?_written h htail
  have hslash : (tag.toList ++ (attributes.flatMap attributeChars ++ s)).head? ≠ some '/' := by
    cases hchars : tag.toList with
    | nil => exact absurd (String.toList_inj.mp hchars) hne
    | cons c more =>
        rw [List.cons_append, List.head?_cons]
        rintro ⟨⟩
        have := hword '/' (hchars ▸ List.mem_cons_self)
        revert this
        decide
  -- what stands behind the name is no part of it
  have hstop : first.takeWhile Char.isAlphanum = [] ∧ first.dropWhile Char.isAlphanum = first := by
    cases first with
    | nil => exact ⟨rfl, rfl⟩
    | cons c first =>
        have hc : c.isAlphanum = false := by simpa using hhead
        exact ⟨by rw [List.takeWhile_cons_of_neg (by simp [hc])],
          by rw [List.dropWhile_cons_of_neg (by simp [hc])]⟩
  unfold Mark.ofTag
  rw [if_neg hslash, splitAt_append_of_not_mem (notMem_of_isHarmless hharmless).2.2 hsplit]
  simp only
  rw [List.takeWhile_append_of_pos hword, List.dropWhile_append_of_pos hword, hstop.1, hstop.2,
    hread, List.append_nil, String.ofList_toList]

/-- So does an end tag. -/
theorem ofTag_stop (tag : String) : Mark.ofTag ('/' :: tag.toList) = .stop tag := by
  unfold Mark.ofTag
  rw [List.head?_cons, if_pos rfl, List.tail_cons, String.ofList_toList]

-- ============================================================= reading marks

/-- A bracket begins a tag. -/
theorem marksFrom_bracket : marksFrom none ('<' :: rest) = marksFrom (some []) rest := rfl

/-- Any other character is itself. -/
theorem marksFrom_char {c : Char} (h : c ≠ '<') :
    marksFrom none (c :: rest) = .char c :: marksFrom none rest := if_neg h

/-- Inside a tag the text goes on to its end. -/
theorem marksFrom_inside {c : Char} (h : c ≠ '>') :
    marksFrom (some s) (c :: rest) = marksFrom (some (c :: s)) rest := if_neg h

theorem marksFrom_closing :
    marksFrom (some s) ('>' :: rest) = Mark.ofTag s.reverse :: marksFrom none rest := rfl

/-- Text without a bracket is read character by character. -/
theorem marksFrom_append (h : '<' ∉ s) :
    marksFrom none (s ++ rest) = s.map .char ++ marksFrom none rest := by
  induction s with
  | nil => rfl
  | cons c s ih =>
      rw [List.mem_cons, not_or] at h
      rw [List.cons_append, marksFrom_char (Ne.symm h.1), ih h.2]
      rfl

/-- What stands between brackets is read as a tag. -/
theorem marksFrom_tag (h : '>' ∉ inside) :
    marksFrom none ('<' :: (inside ++ '>' :: rest)) = Mark.ofTag inside :: marksFrom none rest := by
  have hinside : ∀ before : List Char,
      marksFrom (some before) (inside ++ '>' :: rest)
        = Mark.ofTag (before.reverse ++ inside) :: marksFrom none rest := by
    induction inside with
    | nil =>
        intro before
        rw [List.nil_append, marksFrom_closing, List.append_nil]
    | cons c inside ih =>
        intro before
        rw [List.mem_cons, not_or] at h
        rw [List.cons_append, marksFrom_inside (Ne.symm h.1), ih h.2, List.reverse_cons,
          List.append_assoc]
        rfl
  rw [marksFrom_bracket, hinside]
  rfl

/-- The names in a tag that is made from a template. -/
theorem isWord_of_fits {t : Template} {read : List (String × String)} (h : t.fits tag read) :
    isWord tag ∧ ∀ a ∈ read, isWord a.1 := by
  have hwords := t.words
  unfold Template.fits at h
  rw [Bool.and_eq_true, beq_iff_eq] at h
  rw [List.all_cons, Bool.and_eq_true, ← Template.names_of_allow h.2, ← h.1, List.all_eq_true]
    at hwords
  exact ⟨hwords.1, fun a ha => hwords.2 a.1 (List.mem_map_of_mem ha)⟩

/-- A tag that is covered by a template can be read. -/
theorem harmless_of_covers {t : Template} (h : t.covers tag attributes) :
    isWord tag ∧ attributes.all fun a => isHarmless a.name && isHarmless (rawValue a) := by
  unfold Template.covers at h
  rw [Bool.and_eq_true, List.all_eq_true] at h
  obtain ⟨htag, hnames⟩ := isWord_of_fits h.1
  refine ⟨htag, List.all_eq_true.mpr fun a ha => ?_⟩
  have hname := isHarmless_of_isWord (hnames _ (List.mem_map_of_mem ha))
  have hfixed := h.2 a ha
  rw [Bool.and_eq_true] at hfixed ⊢
  exact ⟨hname, isHarmless_append (isHarmless_append hfixed.1 (isHarmless_escape _)) hfixed.2⟩

/-- The text of a tag, up to its closing bracket, holds none. -/
theorem notMem_written (htag : isWord tag)
    (h : attributes.all fun a => isHarmless a.name && isHarmless (rawValue a)) :
    '>' ∉ tag.toList ++ attributes.flatMap attributeChars := by
  rw [List.mem_append, List.mem_flatMap, not_or]
  refine ⟨(notMem_of_isHarmless (isHarmless_of_isWord htag)).2.1, ?_⟩
  rintro ⟨a, ha, hmem⟩
  have ha := List.all_eq_true.mp h a ha
  rw [Bool.and_eq_true] at ha
  have hname := (notMem_of_isHarmless ha.1).2.1
  have hvalue := (notMem_of_isHarmless ha.2).2.1
  simp [attributeChars, hname, hvalue] at hmem

/-- A tag that is rendered is read as its mark. -/
theorem marksFrom_written {t : Template} (h : t.covers tag attributes)
    (htail : s ∈ [[], ['/'], [' ', '/']]) :
    marksFrom none ((openTag tag attributes).toList ++ (s ++ '>' :: rest))
      = .start tag (attributes.map written) :: marksFrom none rest := by
  obtain ⟨hword, hattributes⟩ := harmless_of_covers h
  have hinside : '>' ∉ tag.toList ++ attributes.flatMap attributeChars ++ s := by
    rw [List.mem_append, not_or]
    refine ⟨notMem_written hword hattributes, ?_⟩
    simp only [List.mem_cons, List.not_mem_nil, or_false] at htail
    rcases htail with rfl | rfl | rfl <;> decide
  rw [toList_openTag, List.cons_append, ← List.append_assoc, marksFrom_tag hinside,
    List.append_assoc, ofTag_written hword hattributes htail]

mutual

/-- What is rendered is read as the marks that it was made of. -/
theorem marksFrom_render (rest : List Char) : ∀ piece : Html, uses allowed piece →
    marksFrom none ((render piece).toList ++ rest) = marks piece ++ marksFrom none rest
  | .text s, _ => by
      rw [render, marks]
      exact marksFrom_append (notMem_of_isHarmless (isHarmless_escape s)).1
  | .fixed s, h => by
      rw [render, marks]
      exact marksFrom_append (by simpa [uses] using h)
  -- the start tag, the children and the end tag are read one after the other
  | .element tag attributes children, h => by
      rw [uses, Bool.and_eq_true, Bool.and_eq_true, List.any_eq_true] at h
      obtain ⟨⟨-, t, -, hcovers⟩, hchildren⟩ := h
      have hstop : '>' ∉ '/' :: tag.toList := by
        have hword := isHarmless_of_isWord (harmless_of_covers hcovers).1
        simp [(notMem_of_isHarmless hword).2.1]
      have htext : (render (.element tag attributes children)).toList ++ rest
          = (openTag tag attributes).toList ++ ([] ++ '>' :: ((renderAll children).toList
            ++ '<' :: ('/' :: tag.toList ++ '>' :: rest))) := by
        rw [render]
        simp
      rw [htext, marksFrom_written hcovers (by decide), marksFrom_renderAll _ children hchildren,
        marksFrom_tag hstop, ofTag_stop, marks]
      simp
  | .void tag attributes closing, h => by
      rw [uses, Bool.and_eq_true, Bool.and_eq_true, List.any_eq_true] at h
      obtain ⟨⟨-, t, -, hcovers⟩, hclosing⟩ := h
      rw [render, marks, String.toList_append, List.append_assoc]
      simp only [List.contains_eq_mem, List.mem_cons, List.not_mem_nil, or_false,
        decide_eq_true_eq] at hclosing
      rcases hclosing with rfl | rfl | rfl
      · exact marksFrom_written hcovers (s := []) (by decide)
      · exact marksFrom_written hcovers (s := ['/']) (by decide)
      · exact marksFrom_written hcovers (s := [' ', '/']) (by decide)

/-- What is written with allowed tags is read as its marks, whatever follows. -/
theorem marksFrom_renderAll (rest : List Char) : ∀ pieces : List Html, allUse allowed pieces →
    marksFrom none ((renderAll pieces).toList ++ rest) = marksOfAll pieces ++ marksFrom none rest
  | [], _ => by
      rw [renderAll, marksOfAll]
      rfl
  | piece :: more, h => by
      rw [allUse, Bool.and_eq_true] at h
      rw [renderAll, marksOfAll, String.toList_append, List.append_assoc,
        marksFrom_render _ piece h.1, marksFrom_renderAll rest more h.2, List.append_assoc]

end

-- ================================================================== nesting

/-- Characters are nodes of the innermost element. -/
theorem nest?_chars (opened : List Opened) (before : List Node) (s : List Char)
    (more : List Mark) :
    nest? opened before (s.map .char ++ more) = nest? opened ((s.map .char).reverse ++ before) more := by
  induction s generalizing before with
  | nil => rfl
  | cons c s ih =>
      rw [List.map_cons, List.cons_append, nest?, ih, List.map_cons, List.reverse_cons,
        List.append_assoc]
      rfl

mutual

/-- The marks of a piece make its nodes, whatever is open around them. -/
theorem nest?_marks (opened : List Opened) (before : List Node) (more : List Mark) :
    ∀ piece : Html, uses allowed piece →
      nest? opened before (marks piece ++ more) = nest? opened ((nodes piece).reverse ++ before) more
  | .text s, _ => nest?_chars opened before _ more
  | .fixed s, _ => nest?_chars opened before _ more
  | .element tag attributes children, h => by
      rw [uses, Bool.and_eq_true, Bool.and_eq_true, Bool.not_eq_true'] at h
      obtain ⟨⟨hvoid, -⟩, hchildren⟩ := h
      rw [marks, List.cons_append, nest?, if_neg (by simp [hvoid]), List.append_assoc,
        nest?_marksOfAll _ _ _ children hchildren, List.append_nil, List.singleton_append, nest?]
      simp [nodes]
  | .void tag attributes closing, h => by
      rw [uses, Bool.and_eq_true, Bool.and_eq_true] at h
      rw [marks, List.singleton_append, nest?, if_pos h.1.1]
      rfl

/-- The marks of pieces nest to their nodes, whatever follows. -/
theorem nest?_marksOfAll (opened : List Opened) (before : List Node) (more : List Mark) :
    ∀ pieces : List Html, allUse allowed pieces →
      nest? opened before (marksOfAll pieces ++ more)
        = nest? opened ((nodesOfAll pieces).reverse ++ before) more
  | [], _ => rfl
  | piece :: rest, h => by
      rw [allUse, Bool.and_eq_true] at h
      rw [marksOfAll, List.append_assoc, nest?_marks _ _ _ piece h.1,
        nest?_marksOfAll _ _ _ rest h.2, nodesOfAll, List.reverse_append, List.append_assoc]

end

/-- Pieces that are rendered are read back. -/
theorem read?_renderAll {pieces : List Html} (h : allUse allowed pieces) :
    read? (renderAll pieces).toList = some (nodesOfAll pieces) := by
  have hmarks := marksFrom_renderAll [] pieces h
  have hnest := nest?_marksOfAll [] [] [] pieces h
  have hnone : marksFrom none [] = [] := rfl
  rw [List.append_nil, hnone] at hmarks
  unfold read?
  rw [hmarks, hnest, nest?, List.isEmpty_nil, if_pos rfl, List.append_nil, List.reverse_reverse]

-- ============================================================= fixed brackets

/-- What is written in a tag that is covered holds no bracket. -/
theorem notMem_of_covers {t : Template} (h : t.covers tag attributes) :
    ∀ a ∈ attributes.map written, '<' ∉ a.2.toList := by
  intro _ hmem
  obtain ⟨a, ha, rfl⟩ := List.mem_map.mp hmem
  have hharmless := List.all_eq_true.mp (harmless_of_covers h).2 a ha
  rw [Bool.and_eq_true] at hharmless
  exact (notMem_of_isHarmless hharmless.2).1

theorem isFixed_start {t : Template} (ht : t ∈ allowed) (h : t.covers tag attributes) :
    (Mark.start tag (attributes.map written)).IsFixed allowed :=
  ⟨t, ht, (Bool.and_eq_true_iff.mp h).1, notMem_of_covers h⟩

mutual

/-- Every mark of an allowed piece is one of a template. -/
theorem isFixed_of_mem_marks {m : Mark} : ∀ piece : Html, uses allowed piece → m ∈ marks piece →
    m.IsFixed allowed
  | .text s, _, hm => by
      obtain ⟨c, -, rfl⟩ := List.mem_map.mp hm
      exact trivial
  | .fixed s, _, hm => by
      obtain ⟨c, -, rfl⟩ := List.mem_map.mp hm
      exact trivial
  | .element tag attributes children, h, hm => by
      rw [uses, Bool.and_eq_true, Bool.and_eq_true, List.any_eq_true] at h
      obtain ⟨⟨-, t, ht, hcovers⟩, hchildren⟩ := h
      have hstart := isFixed_start ht hcovers
      have htag : t.tag = tag := by
        obtain ⟨hfits, -⟩ := Bool.and_eq_true_iff.mp hcovers
        exact (beq_iff_eq.mp (Bool.and_eq_true_iff.mp hfits).1).symm
      rw [marks, List.mem_cons, List.mem_append, List.mem_singleton] at hm
      rcases hm with rfl | hm | rfl
      · exact hstart
      · exact isFixed_of_mem_marksOfAll children hchildren hm
      · exact ⟨t, ht, htag⟩
  | .void tag attributes closing, h, hm => by
      rw [uses, Bool.and_eq_true, Bool.and_eq_true, List.any_eq_true] at h
      obtain ⟨⟨-, t, ht, hcovers⟩, -⟩ := h
      rw [marks, List.mem_singleton] at hm
      subst hm
      exact isFixed_start ht hcovers

theorem isFixed_of_mem_marksOfAll {m : Mark} : ∀ pieces : List Html, allUse allowed pieces →
    m ∈ marksOfAll pieces → m.IsFixed allowed
  | [], _, hm => by cases hm
  | piece :: more, h, hm => by
      rw [allUse, Bool.and_eq_true] at h
      rw [marksOfAll, List.mem_append] at hm
      rcases hm with hm | hm
      · exact isFixed_of_mem_marks piece h.1 hm
      · exact isFixed_of_mem_marksOfAll more h.2 hm

end

/-- A key is read off nothing but itself. -/
theorem eq_of_keyOf? {key : String} (h : keyOf? lead = some key) :
    lead = ' ' :: (key.toList ++ ['=']) := by
  unfold keyOf? at h
  split at h
  · next s =>
      split at h
      · next hlast =>
          obtain ⟨before, rfl⟩ := List.getLast?_eq_some_iff.mp hlast
          rw [List.dropLast_concat] at h
          rw [← Option.some.inj h, String.toList_ofList]
      · cases h
  · cases h

/-- What is read as attributes that hold no bracket holds none itself. -/
theorem notMem_of_attributesOf? {more : List (List Char)} {read : List (String × String)}
    (h : attributesOf? lead more = some read)
    (hread : ∀ a ∈ read, '<' ∉ a.1.toList ∧ '<' ∉ a.2.toList) :
    ∀ part ∈ lead :: more, '<' ∉ part := by
  fun_induction attributesOf? lead more generalizing read with
  | case1 lead hlead =>
      intro part hpart
      obtain rfl := List.mem_singleton.mp hpart
      simp only [List.mem_cons, List.not_mem_nil, or_false] at hlead
      rcases hlead with rfl | rfl | rfl <;> decide
  | case2 => cases h
  | case3 => cases h
  | case4 lead value next more key rest hrest hkey ih =>
      obtain rfl := Option.some.inj h
      rw [List.forall_mem_cons] at hread
      rw [List.forall_mem_cons, List.forall_mem_cons]
      refine ⟨?_, by simpa using hread.1.2, ih hrest hread.2⟩
      rw [eq_of_keyOf? hkey]
      simp [hread.1.1]
  | case5 => cases h

/-- A character of a text is the mark, or in one of the parts. -/
theorem mem_splitAt {c : Char} (mark : Char) (h : c ∈ s) :
    c = mark ∨ ∃ part ∈ Text.splitAt mark s, c ∈ part := by
  induction s with
  | nil => cases h
  | cons d s ih =>
      rw [Text.splitAt]
      split
      · next heq =>
          rcases List.mem_cons.mp h with rfl | h
          · exact Or.inl (by simpa using heq)
          · rcases ih h with hmark | ⟨part, hpart, hc⟩
            · exact Or.inl hmark
            · exact Or.inr ⟨part, List.mem_cons_of_mem _ hpart, hc⟩
      · -- the character joins the first part of the rest
        cases hsplit : Text.splitAt mark s with
        | nil => exact absurd hsplit (Text.splitAt_ne_nil mark s)
        | cons first parts =>
            rw [hsplit] at ih
            rcases List.mem_cons.mp h with rfl | h
            · exact Or.inr ⟨_, List.mem_cons_self, List.mem_cons_self⟩
            · rcases ih h with hmark | ⟨part, hpart, hc⟩
              · exact Or.inl hmark
              · rcases List.mem_cons.mp hpart with rfl | hpart
                · exact Or.inr ⟨_, List.mem_cons_self, List.mem_cons_of_mem _ hc⟩
                · exact Or.inr ⟨part, List.mem_cons_of_mem _ hpart, hc⟩

/-- A tag that is made from a template holds no further bracket. -/
theorem notMem_of_isFixed (h : (Mark.ofTag inside).IsFixed allowed) : '<' ∉ inside := by
  intro hmem
  unfold Mark.ofTag at h
  split at h
  · -- an end tag has nothing but its name
    next hslash =>
      obtain ⟨t, -, htag⟩ := h
      obtain ⟨name, rfl⟩ := List.head?_eq_some_iff.mp hslash
      have hwords := t.words
      rw [List.all_cons, Bool.and_eq_true, htag, List.tail_cons] at hwords
      have hname := (notMem_of_isHarmless (isHarmless_of_isWord hwords.1)).1
      rw [String.toList_ofList] at hname
      rcases List.mem_cons.mp hmem with hslash | hmem
      · revert hslash
        decide
      · exact hname hmem
  · split at h
    · -- a start tag has a name, and attributes whose names and values are harmless
      next first more hsplit =>
        split at h
        · next read hread =>
            obtain ⟨t, -, hfits, hvalues⟩ := h
            have hnames : ∀ a ∈ read, '<' ∉ a.1.toList := fun a ha =>
              (notMem_of_isHarmless (isHarmless_of_isWord ((isWord_of_fits hfits).2 a ha))).1
            have hparts := notMem_of_attributesOf? hread fun a ha => ⟨hnames a ha, hvalues a ha⟩
            rw [List.forall_mem_cons] at hparts
            rcases mem_splitAt '"' hmem with hquote | ⟨part, hpart, hc⟩
            · revert hquote
              decide
            · rw [hsplit] at hpart
              rcases List.mem_cons.mp hpart with rfl | hpart
              · rw [← List.takeWhile_append_dropWhile (p := Char.isAlphanum) (l := part),
                  List.mem_append] at hc
                rcases hc with hc | hc
                · have hword := List.all_eq_true.mp List.all_takeWhile _ hc
                  revert hword
                  decide
                · exact hparts.1 hc
              · exact hparts.2 part hpart hc
        · exact h
    · exact h

/-- A tag that has been begun ends at a closing bracket. -/
theorem exists_closing (before : List Char)
    (h : ∀ m ∈ marksFrom (some before) s, m.IsFixed allowed) :
    ∃ inside rest, s = inside ++ '>' :: rest ∧ (Mark.ofTag (before.reverse ++ inside)).IsFixed allowed
      ∧ ∀ m ∈ marksFrom none rest, m.IsFixed allowed := by
  induction s generalizing before with
  | nil => exact (h (.broken before.reverse) (List.mem_singleton_self _)).elim
  | cons c s ih =>
      by_cases hc : c = '>'
      · subst hc
        rw [marksFrom_closing, List.forall_mem_cons] at h
        exact ⟨[], s, rfl, by simpa using h.1, h.2⟩
      · rw [marksFrom_inside hc] at h
        obtain ⟨inside, rest, rfl, hfixed, hrest⟩ := ih _ h
        refine ⟨c :: inside, rest, rfl, ?_, hrest⟩
        rwa [List.reverse_cons, List.append_assoc, List.singleton_append] at hfixed

/-- Where all marks are characters and tags made from templates, every bracket
begins such a tag. -/
theorem beginsTag_of_marks {after : List Char} (before : List Char)
    (h : ∀ m ∈ marksFrom none (before ++ '<' :: after), m.IsFixed allowed) :
    BeginsTag allowed after := by
  cases before with
  | nil =>
      obtain ⟨inside, rest, rfl, hfixed, -⟩ := exists_closing [] h
      exact ⟨inside, rest, rfl, hfixed⟩
  | cons c before =>
      by_cases hc : c = '<'
      · subst hc
        obtain ⟨inside, rest, heq, hfixed, hrest⟩ := exists_closing [] h
        -- the bracket is behind the tag, since there is none in it
        rcases List.append_eq_append_iff.mp heq with ⟨between, rfl, hbetween⟩ | ⟨between, rfl, hbetween⟩
        · cases between with
          | nil => cases hbetween
          | cons d between =>
              obtain rfl := (List.cons.inj hbetween).1
              exact absurd (by simp) (notMem_of_isFixed hfixed)
        · cases between with
          | nil => cases hbetween
          | cons d between =>
              obtain ⟨-, rfl⟩ := List.cons.inj hbetween
              exact beginsTag_of_marks between hrest
      · rw [List.cons_append, marksFrom_char hc, List.forall_mem_cons] at h
        exact beginsTag_of_marks before h.2
termination_by before.length

/-- No bracket in the text of pieces begins anything but a tag of theirs. -/
theorem beginsTag_of_allUse {pieces : List Html} (h : allUse allowed pieces)
    (before : List Char) {after : List Char} (htext : (renderAll pieces).toList = before ++ '<' :: after) :
    BeginsTag allowed after := by
  have hmarks := marksFrom_renderAll [] pieces h
  have hnone : marksFrom none [] = [] := rfl
  rw [List.append_nil, hnone, List.append_nil, htext] at hmarks
  exact beginsTag_of_marks before fun m hm =>
    isFixed_of_mem_marksOfAll pieces h (hmarks ▸ hm)

end Html
end ResourceLint
