/-
How a text that is written piece by piece is read.

Two readers follow each other.  The scanner divides a text into pieces:
`Cuts` is what it takes off the front, and `Reads` all that it makes of a
text, wherever that begins.  Then a tag is read for its name and its
attributes.  Attributes with keys of their own, and with quotes that do not
stand in their values, come out as they were spelled (`Legible`); where the
values were escaped, none is lost or changed (`Writable`).

# Where a tag ends

A bracket inside quotes does not end a tag, so the search for the end
depends on what comes before (`cutTag`).  `Encloses` is the property of a
part of a tag that makes it pass by unnoticed: the search goes on after it as
if it were not there.  Parts with the property can be put side by side
(`Encloses.append`), and a quoted value has it when its quote is not in it.
-/
import Mathlib.Data.List.TakeWhile
import ResourceLint.Proofs.Escaping
import ResourceLint.Xml.Parse

namespace ResourceLint.Xml

variable {c : Char} {s after rest run content : List Char} {piece : Lexeme}
  {pieces : List Lexeme}

-- ============================================================== pieces

/-- A text begins with a piece, and this is left of it. -/
def Cuts (s : List Char) (piece : Lexeme) (after : List Char) : Prop :=
  ∃ c rest, s = c :: rest ∧ next c rest = .ok (piece, after)

/-- The pieces that a text is read as, wherever it begins. -/
def Reads (s : List Char) (pieces : List Lexeme) : Prop :=
  ∀ start, (scan start s).pieces.map (·.lexeme) = pieces ∧ (scan start s).fault = none

/-- The end of the text has no pieces. -/
theorem Reads.nil : Reads [] [] := by
  intro start
  rw [scan]
  exact ⟨rfl, rfl⟩

/-- The scan of a text is its first piece and the scan of what is left. -/
theorem Cuts.scan_eq (h : Cuts s piece after) (start : Nat) :
    scan start s
      = { pieces :=
            ⟨piece, start, start + (Text.byteSize s - Text.byteSize after)⟩
              :: (scan (start + (Text.byteSize s - Text.byteSize after)) after).pieces
          fault := (scan (start + (Text.byteSize s - Text.byteSize after)) after).fault } := by
  obtain ⟨c, rest, rfl, hnext⟩ := h
  rw [scan]
  split
  · next hfault =>
      rw [hnext] at hfault
      cases hfault
  · next hstep =>
      rw [hnext] at hstep
      cases hstep
      rfl

/-- A text is read as its first piece and the pieces of what is left. -/
theorem Reads.cons (h : Cuts s piece after) (hafter : Reads after pieces) :
    Reads s (piece :: pieces) := by
  intro start
  obtain ⟨hpieces, hfault⟩ := hafter (start + (Text.byteSize s - Text.byteSize after))
  rw [h.scan_eq]
  exact ⟨by rw [List.map_cons, hpieces], hfault⟩

/-- A blank is read as it is. -/
theorem expand_blank {raw : List Char} (h : raw.all Text.isMarkupSpace) :
    expand raw = .ok raw := by
  refine expand_eq_self (List.all_eq_true.mpr fun c hc => ?_)
  have hc := List.all_eq_true.mp h c hc
  simp only [Text.isMarkupSpace, Bool.or_eq_true, beq_iff_eq] at hc
  rcases hc with ((rfl | rfl) | rfl) | rfl <;> rfl

/-- Character data reaches to the next angle bracket. -/
theorem Cuts.text (hne : run ≠ []) (hrun : run.all (· != '<')) (hs : s = [] ∨ s.head? = some '<') :
    Cuts (run ++ s) (.text run) s := by
  cases run with
  | nil => exact absurd rfl hne
  | cons c run =>
      rw [List.all_cons, Bool.and_eq_true] at hrun
      have hrest : ∀ d ∈ run, (d != '<') = true := List.all_eq_true.mp hrun.2
      have hstop : s.takeWhile (· != '<') = [] ∧ s.dropWhile (· != '<') = s := by
        rcases hs with rfl | hs
        · exact ⟨rfl, rfl⟩
        · obtain ⟨more, rfl⟩ := List.head?_eq_some_iff.mp hs
          exact ⟨rfl, rfl⟩
      refine ⟨c, run ++ s, rfl, ?_⟩
      unfold next
      rw [if_neg (by simpa using hrun.1), List.takeWhile_append_of_pos hrest,
        List.dropWhile_append_of_pos hrest, hstop.1, hstop.2, List.append_nil]

/-- A run of text up to a tag or the end is one piece. -/
theorem Reads.text (hne : run ≠ []) (hrun : run.all (· != '<'))
    (hs : s = [] ∨ s.head? = some '<') (h : Reads s pieces) :
    Reads (run ++ s) (.text run :: pieces) := .cons (.text hne hrun hs) h

/-- A part of a tag that the search for the end of the tag passes by. -/
def Encloses (part : List Char) : Prop :=
  ∀ s, cutTag none (part ++ s) = (cutTag none s).map fun (a, b) => (part ++ a, b)

/-- A character that neither ends a tag nor begins a quoted value. -/
def isPlain (c : Char) : Bool := !(c == '>' || c == '"' || c == '\'')

namespace Encloses

variable {a b : List Char}

theorem nil : Encloses [] := by
  intro s
  cases h : cutTag none s <;> rw [List.nil_append, h] <;> rfl

/-- What encloses may stand side by side. -/
theorem append (ha : Encloses a) (hb : Encloses b) : Encloses (a ++ b) := by
  intro s
  rw [List.append_assoc, ha, hb, Option.map_map]
  congr 1
  funext parts
  simp

theorem singleton (h : isPlain c) : Encloses [c] := by
  intro s
  simp only [isPlain, Bool.not_eq_true', Bool.or_eq_false_iff, beq_eq_false_iff_ne] at h
  rw [List.singleton_append, cutTag]
  simp [h.1.1, h.1.2, h.2]

theorem of_isPlain (h : a.all isPlain) : Encloses a := by
  induction a with
  | nil => exact nil
  | cons c a ih =>
      rw [List.all_cons, Bool.and_eq_true] at h
      exact (singleton h.1).append (ih h.2)

theorem flatMap {α : Type} {parts : List α} {text : α → List Char}
    (h : ∀ part ∈ parts, Encloses (text part)) : Encloses (parts.flatMap text) := by
  induction parts with
  | nil => exact nil
  | cons part parts ih =>
      rw [List.flatMap_cons]
      exact (h part List.mem_cons_self).append (ih fun p hp => h p (List.mem_cons_of_mem _ hp))

/-- Inside a quoted value the search looks for the closing quote only. -/
theorem cutTag_quoted {quote : Char} {value : List Char} (h : ∀ c ∈ value, c ≠ quote)
    (s : List Char) :
    cutTag (some quote) (value ++ quote :: s)
      = (cutTag none s).map fun (a, b) => (value ++ quote :: a, b) := by
  induction value with
  | nil =>
      rw [List.nil_append, cutTag, beq_self_eq_true, if_pos rfl]
      rfl
  | cons c value ih =>
      rw [List.cons_append, cutTag, if_neg (by simpa using h c List.mem_cons_self),
        ih fun d hd => h d (List.mem_cons_of_mem _ hd), Option.map_map]
      congr 1

/-- A quoted value encloses whatever it holds but its quote. -/
theorem quoted {quote : Char} (hquote : quote = '"' ∨ quote = '\'') {value : List Char}
    (h : ∀ c ∈ value, c ≠ quote) : Encloses (quote :: value ++ [quote]) := by
  intro s
  have hopen : cutTag none (quote :: (value ++ quote :: s))
      = (cutTag (some quote) (value ++ quote :: s)).map fun (a, b) => (quote :: a, b) := by
    rw [cutTag]
    rcases hquote with rfl | rfl <;> rfl
  rw [List.append_assoc, List.cons_append, List.singleton_append, hopen, cutTag_quoted h,
    Option.map_map]
  congr 1
  funext parts
  simp

/-- Blanks are plain. -/
theorem blank (h : a.all Text.isMarkupSpace) : Encloses a := by
  refine of_isPlain (List.all_eq_true.mpr fun c hc => ?_)
  have hc := List.all_eq_true.mp h c hc
  simp only [Text.isMarkupSpace, Bool.or_eq_true, beq_iff_eq] at hc
  rcases hc with ((rfl | rfl) | rfl) | rfl <;> rfl

/-- The tag ends at the bracket after it. -/
theorem cutTag (h : Encloses content) (s : List Char) :
    cutTag none (content ++ '>' :: s) = some (content, s) := by
  have hend : Xml.cutTag none ('>' :: s) = some ([], s) := by
    rw [Xml.cutTag]
    rfl
  rw [h, hend, Option.map_some]
  dsimp only
  rw [List.append_nil]

end Encloses

/-- A start tag, or an empty one. -/
theorem Cuts.tag (hcontent : Encloses content)
    (hhead : ∃ c ∈ content.head?, c ≠ '!' ∧ c ≠ '?' ∧ c ≠ '/') :
    Cuts ('<' :: content ++ '>' :: s) (.tag content) s := by
  obtain ⟨c, hc, hne⟩ := hhead
  obtain ⟨content, rfl⟩ : ∃ more, content = c :: more := by
    cases content with
    | nil => cases hc
    | cons d more =>
        cases hc
        exact ⟨more, rfl⟩
  have hcut := hcontent.cutTag s
  rw [List.cons_append] at hcut
  refine ⟨'<', _, rfl, ?_⟩
  show nextMarkup (c :: (content ++ '>' :: s)) = _
  unfold nextMarkup
  split
  · next heq => exact absurd (List.cons.inj heq).1 hne.1
  · next heq => exact absurd (List.cons.inj heq).1 hne.2.1
  · next heq => exact absurd (List.cons.inj heq).1 hne.2.2
  · rw [hcut]

/-- A tag is read with all its content. -/
theorem Reads.tag (hcontent : Encloses content)
    (hhead : ∃ c ∈ content.head?, c ≠ '!' ∧ c ≠ '?' ∧ c ≠ '/') (h : Reads s pieces) :
    Reads ('<' :: content ++ '>' :: s) (.tag content :: pieces) := .cons (.tag hcontent hhead) h

/-- An end tag without blanks. -/
theorem Cuts.endTag {name : List Char} (hne : name ≠ []) (hplain : name.all isPlain)
    (hblank : name.all (!Text.isMarkupSpace ·)) :
    Cuts ('<' :: '/' :: name ++ '>' :: s) (.endTag name) s := by
  have hname : endTagName name = name := by
    unfold endTagName
    obtain ⟨c, more, hreverse⟩ := List.exists_cons_of_ne_nil (List.reverse_ne_nil_iff.mpr hne)
    have hc := List.all_eq_true.mp hblank c
      (List.mem_reverse.mp (hreverse ▸ List.mem_cons_self))
    split
    · rfl
    · rw [hreverse, List.dropWhile_cons_of_neg (by simpa using hc), ← hreverse,
        List.reverse_reverse]
  have hcut := (Encloses.of_isPlain hplain).cutTag s
  refine ⟨'<', _, rfl, ?_⟩
  show nextMarkup ('/' :: (name ++ '>' :: s)) = _
  unfold nextMarkup
  simp only [hcut, hname]

/-- An end tag is read by its name. -/
theorem Reads.endTag {name : List Char} (hne : name ≠ [])
    (hplain : name.all isPlain) (hblank : name.all (!Text.isMarkupSpace ·)) (h : Reads s pieces) :
    Reads ('<' :: '/' :: name ++ '>' :: s) (.endTag name :: pieces) :=
  .cons (.endTag hne hplain hblank) h

/-- A mark stands first where its first character does. -/
theorem cut?_append {a : Char} {mark body : List Char} (h : body.all (· != a)) (s : List Char) :
    Text.cut? (a :: mark) (body ++ a :: (mark ++ s)) = some (body, s) := by
  induction body with
  | nil =>
      have hmark : Text.strip? (a :: mark) (a :: (mark ++ s)) = some s :=
        Text.strip?_eq_some_iff.mpr rfl
      rw [List.nil_append, Text.cut?, hmark]
  | cons c body ih =>
      rw [List.all_cons, Bool.and_eq_true, bne_iff_ne] at h
      have hmark : Text.strip? (a :: mark) (c :: (body ++ a :: (mark ++ s))) = none := by
        rw [Text.strip?, if_neg (Ne.symm h.1)]
      rw [List.cons_append, Text.cut?, hmark, ih h.2]
      rfl

/-- An instruction ends at the first question mark that a bracket follows. -/
theorem Cuts.instruction (hmark : content.all (· != '?')) (hhead : ∃ c ∈ content.head?, c ≠ '>') :
    Cuts ('<' :: '?' :: content ++ '?' :: '>' :: s) .aside s := by
  have hcut : Text.cut? "?>".toList (content ++ '?' :: '>' :: s) = some (content, s) :=
    cut?_append hmark s
  obtain ⟨c, hc, hne⟩ := hhead
  refine ⟨'<', _, rfl, ?_⟩
  show nextInstruction (content ++ '?' :: '>' :: s) = _
  unfold nextInstruction
  split
  · next heq =>
      cases content with
      | nil => cases hc
      | cons d content =>
          cases hc
          exact absurd (List.cons.inj heq).1 hne
  · rw [hcut]

/-- An instruction is passed over. -/
theorem Reads.instruction (hmark : content.all (· != '?'))
    (hhead : ∃ c ∈ content.head?, c ≠ '>') (h : Reads s pieces) :
    Reads ('<' :: '?' :: content ++ '?' :: '>' :: s) (.aside :: pieces) :=
  .cons (.instruction hmark hhead) h

/-- A comment without hyphens ends at the first of them. -/
theorem Cuts.comment (hmark : content.all (· != '-')) :
    Cuts ("<!--".toList ++ (content ++ "-->".toList) ++ s) .aside s := by
  have hcut : Text.cut? "-->".toList (content ++ "-->".toList ++ s) = some (content, s) := by
    rw [List.append_assoc]
    exact cut?_append hmark s
  refine ⟨'<', _, rfl, ?_⟩
  show nextDeclaration ('-' :: '-' :: (content ++ "-->".toList ++ s)) = _
  unfold nextDeclaration
  simp only [Text.strip?_eq_some_iff.mpr (show '-' :: '-' :: (content ++ "-->".toList ++ s)
    = "--".toList ++ (content ++ "-->".toList ++ s) from rfl), Option.bind_some, hcut]

namespace Tag

-- ========================================================== attributes

/-- A character that means nothing in a tag, so that a name may hold it. -/
def isKeyChar (c : Char) : Bool :=
  isPlain c && !(c == '=' || Text.isMarkupSpace c) && !(c == '!' || c == '?' || c == '/')

/-- A name of a tag or of an attribute that is read as it is written. -/
def isKey (key : String) : Bool := !key.toList.isEmpty && key.toList.all isKeyChar

/-- A character of a key neither quotes nor ends a tag. -/
theorem isPlain_of_isKeyChar (h : isKeyChar c) : isPlain c :=
  (Bool.and_eq_true_iff.mp (Bool.and_eq_true_iff.mp h).1).1

theorem isInside_of_isKeyChar (h : isKeyChar c) : (!(c == '=' || Text.isMarkupSpace c)) = true :=
  (Bool.and_eq_true_iff.mp (Bool.and_eq_true_iff.mp h).1).2

theorem isMarkupSpace_of_isKeyChar (h : isKeyChar c) : Text.isMarkupSpace c = false := by
  have hinside := isInside_of_isKeyChar h
  simp only [Bool.not_eq_true', Bool.or_eq_false_iff] at hinside
  exact hinside.2

/-- No key begins a comment, an instruction or an end tag. -/
theorem ne_of_isKeyChar (h : isKeyChar c) : c ≠ '!' ∧ c ≠ '?' ∧ c ≠ '/' := by
  have hmark := (Bool.and_eq_true_iff.mp h).2
  simp only [Bool.not_eq_true', Bool.or_eq_false_iff, beq_eq_false_iff_ne] at hmark
  exact ⟨hmark.1.1, hmark.1.2, hmark.2⟩

theorem isKeyChar_of_isKey {key : String} (h : isKey key) : ∀ c ∈ key.toList, isKeyChar c :=
  List.all_eq_true.mp (Bool.and_eq_true_iff.mp h).2

/-- A key is plain throughout. -/
theorem all_isPlain_of_isKey {key : String} (h : isKey key) : key.toList.all isPlain :=
  List.all_eq_true.mpr fun c hc => isPlain_of_isKeyChar (isKeyChar_of_isKey h c hc)

theorem ne_nil_of_isKey {key : String} (h : isKey key) : key.toList ≠ [] := by
  have hne := (Bool.and_eq_true_iff.mp h).1
  simpa using hne

/-- An attribute as it stands in a tag: the space before it, its key, and its
value between two quotes, with its entities as written. -/
structure Spelled where
  lead : List Char
  key : String
  quote : Char
  value : List Char

namespace Spelled

def text (a : Spelled) : List Char :=
  a.lead ++ a.key.toList ++ '=' :: a.quote :: a.value ++ [a.quote]

/-- What is read of it. -/
def raw (a : Spelled) : Raw := ⟨a.key.toList, a.value⟩

/-- The parts of the attribute can be told apart. -/
structure IsLegible (a : Spelled) : Prop where
  lead : a.lead ≠ [] ∧ a.lead.all Text.isMarkupSpace
  key : isKey a.key
  quote : a.quote = '"' ∨ a.quote = '\''
  value : ∀ c ∈ a.value, c ≠ a.quote

/-- The search for the end of a tag passes by an attribute. -/
theorem IsLegible.encloses {a : Spelled} (h : a.IsLegible) : Encloses a.text := by
  have hvalue : Encloses (a.quote :: a.value ++ [a.quote]) := .quoted h.quote h.value
  have hfront := (Encloses.blank h.lead.2).append (.of_isPlain (all_isPlain_of_isKey h.key))
  have hparts := hfront.append ((Encloses.singleton (show isPlain '=' by decide)).append hvalue)
  unfold text
  simpa using hparts

end Spelled

/-- A key reaches to the equals sign after it. -/
theorem readKey_append {size : Nat} {c : Char} {key s : List Char}
    (hkey : ∀ d ∈ key, isKeyChar d) : readKey size c (key ++ '=' :: s) = .ok (c :: key, s) := by
  have hinside : ∀ d ∈ key, (!(d == '=' || Text.isMarkupSpace d)) = true := fun d hd =>
    isInside_of_isKeyChar (hkey d hd)
  unfold readKey
  simp only [List.takeWhile_append_of_pos hinside, List.dropWhile_append_of_pos hinside]
  simp [Text.isMarkupSpace]

/-- A quoted value reaches to the next quote. -/
theorem readQuoted_append {size : Nat} {quote : Char} (hquote : quote = '"' ∨ quote = '\'')
    {value s : List Char} (h : ∀ c ∈ value, c ≠ quote) :
    readQuoted size (quote :: (value ++ quote :: s)) = .ok (value, s) := by
  have hinside : ∀ c ∈ value, (c != quote) = true := fun c hc => by simpa using h c hc
  have hspace : Text.isMarkupSpace quote = false := by
    rcases hquote with rfl | rfl <;> decide
  have hmark : (quote == '"' || quote == '\'') = true := by
    rcases hquote with rfl | rfl <;> decide
  unfold readQuoted
  rw [List.dropWhile_cons_of_neg (by simp [hspace])]
  simp only [hmark, if_true, List.takeWhile_append_of_pos hinside,
    List.dropWhile_append_of_pos hinside]
  simp

/-- No attribute is left where there is only space. -/
theorem rawAttributesFrom_blank {size : Nat} {seen : List (List Char × Nat)}
    (h : s.all Text.isMarkupSpace) :
    rawAttributesFrom size seen s = { attributes := [], fault := none } := by
  have hblank : s.dropWhile Text.isMarkupSpace = [] :=
    List.dropWhile_eq_nil_iff.mpr (List.all_eq_true.mp h)
  rw [rawAttributesFrom]
  split
  · rfl
  · next heq =>
      rw [hblank] at heq
      cases heq

/-- An attribute is read, and then those after it. -/
theorem rawAttributesFrom_cons (size : Nat) {seen : List (List Char × Nat)}
    {key value afterKey : List Char} (hs : s.dropWhile Text.isMarkupSpace = c :: rest)
    (hkey : readKey size c rest = .ok (key, afterKey)) (hseen : seen.lookup key = none)
    (hvalue : readQuoted size afterKey = .ok (value, after)) :
    ∃ start, rawAttributesFrom size seen s
      = { attributes := ⟨key, value⟩
            :: (rawAttributesFrom size (seen ++ [(key, start)]) after).attributes
          fault := (rawAttributesFrom size (seen ++ [(key, start)]) after).fault } := by
  refine ⟨size - Text.byteSize (c :: rest), ?_⟩
  rw [rawAttributesFrom]
  split
  · next heq =>
      rw [hs] at heq
      cases heq
  · next heq =>
      rw [hs] at heq
      cases heq
      split
      · next hfault =>
          rw [hkey] at hfault
          cases hfault
      · next hread =>
          rw [hkey] at hread
          cases hread
          rw [hseen]
          dsimp only
          split
          · next hfault =>
              rw [hvalue] at hfault
              cases hfault
          · next hread =>
              rw [hvalue] at hread
              cases hread
              rfl

/-- Attributes with keys of their own are all read, as they are written. -/
theorem rawAttributesFrom_flatMap {attributes : List Spelled}
    (hlegible : ∀ a ∈ attributes, a.IsLegible) (hnodup : (attributes.map (·.key)).Nodup)
    {tail : List Char} (htail : tail.all Text.isMarkupSpace) (size : Nat)
    (seen : List (List Char × Nat))
    (hseen : ∀ a ∈ attributes, seen.lookup a.key.toList = none) :
    rawAttributesFrom size seen (attributes.flatMap Spelled.text ++ tail)
      = { attributes := attributes.map Spelled.raw, fault := none } := by
  induction attributes generalizing seen with
  | nil => exact rawAttributesFrom_blank htail
  | cons a attributes ih =>
      rw [List.map_cons, List.nodup_cons] at hnodup
      have ha := hlegible a List.mem_cons_self
      obtain ⟨c, key, hkey⟩ := List.exists_cons_of_ne_nil (ne_nil_of_isKey ha.key)
      have hchars := isKeyChar_of_isKey ha.key
      rw [hkey] at hchars
      have hc := isMarkupSpace_of_isKeyChar (hchars c List.mem_cons_self)
      -- the text after the closing quote
      let more := attributes.flatMap Spelled.text ++ tail
      have htext : (a :: attributes).flatMap Spelled.text ++ tail
          = a.lead ++ c :: (key ++ '=' :: a.quote :: (a.value ++ a.quote :: more)) := by
        simp [Spelled.text, hkey, more]
      have hs : (a.lead ++ c :: (key ++ '=' :: a.quote :: (a.value ++ a.quote :: more))).dropWhile
          Text.isMarkupSpace = c :: (key ++ '=' :: a.quote :: (a.value ++ a.quote :: more)) := by
        rw [List.dropWhile_append_of_pos (List.all_eq_true.mp ha.lead.2),
          List.dropWhile_cons_of_neg (by simp [hc])]
      obtain ⟨start, hstep⟩ := rawAttributesFrom_cons size hs
        (readKey_append fun d hd => hchars d (List.mem_cons_of_mem _ hd))
        (hkey ▸ hseen a List.mem_cons_self) (readQuoted_append ha.quote ha.value)
      have hrest := ih (fun b hb => hlegible b (List.mem_cons_of_mem _ hb)) hnodup.2
        (seen ++ [(c :: key, start)]) fun b hb => by
          have hne : b.key.toList ≠ c :: key := by
            rw [← hkey]
            intro heq
            exact hnodup.1 (List.mem_map.mpr ⟨b, hb, String.toList_inj.mp heq⟩)
          rw [List.lookup_append, hseen b (List.mem_cons_of_mem _ hb), Option.none_or]
          rw [List.lookup_cons, beq_false_of_ne hne]
          rfl
      rw [htext, hstep, hrest, List.map_cons, Spelled.raw, hkey]

/-- A name and attributes that can be told apart from each other. -/
structure Legible (name : String) (attributes : List Spelled) : Prop where
  name : isKey name
  each : ∀ a ∈ attributes, a.IsLegible
  nodup : (attributes.map (·.key)).Nodup

/-- The content of a tag, up to the space at its end. -/
def spelledText (name : String) (attributes : List Spelled) (tail : List Char) : List Char :=
  name.toList ++ (attributes.flatMap Spelled.text ++ tail)

namespace Legible

variable {name : String} {attributes : List Spelled} {tail : List Char}

/-- The content of a legible tag encloses. -/
theorem encloses (h : Legible name attributes) (htail : Encloses tail) :
    Encloses (spelledText name attributes tail) :=
  (Encloses.of_isPlain (all_isPlain_of_isKey h.name)).append
    ((Encloses.flatMap fun a ha => (h.each a ha).encloses).append htail)

/-- The content begins with the name. -/
theorem head? (h : Legible name attributes) :
    ∃ c ∈ (spelledText name attributes tail).head?, c ≠ '!' ∧ c ≠ '?' ∧ c ≠ '/' := by
  obtain ⟨c, more, hname⟩ := List.exists_cons_of_ne_nil (ne_nil_of_isKey h.name)
  unfold spelledText
  rw [hname]
  exact ⟨c, rfl, ne_of_isKeyChar (isKeyChar_of_isKey h.name c (hname ▸ List.mem_cons_self))⟩

/-- The name reaches to the space before the first attribute. -/
theorem takeWhile_dropWhile (h : Legible name attributes) (htail : tail.all Text.isMarkupSpace) :
    (spelledText name attributes tail).takeWhile (fun c => !Text.isMarkupSpace c) = name.toList
      ∧ (spelledText name attributes tail).dropWhile (fun c => !Text.isMarkupSpace c)
        = attributes.flatMap Spelled.text ++ tail := by
  have hname : ∀ c ∈ name.toList, (!Text.isMarkupSpace c) = true := fun c hc => by
    rw [isMarkupSpace_of_isKeyChar (isKeyChar_of_isKey h.name c hc)]
    rfl
  -- behind the name stands a space or nothing, even where there are no attributes
  have hspace : ∀ c ∈ (attributes.flatMap Spelled.text ++ tail).head?, Text.isMarkupSpace c := by
    intro c hc
    cases attributes with
    | nil => exact List.all_eq_true.mp htail c (List.mem_of_mem_head? hc)
    | cons a attributes =>
        have hlead := (h.each a List.mem_cons_self).lead
        obtain ⟨d, more, hcons⟩ := List.exists_cons_of_ne_nil hlead.1
        rw [List.flatMap_cons, Spelled.text, hcons] at hc
        cases hc
        exact List.all_eq_true.mp hlead.2 c (hcons ▸ List.mem_cons_self)
  unfold spelledText
  rw [List.takeWhile_append_of_pos hname, List.dropWhile_append_of_pos hname]
  cases hrest : attributes.flatMap Spelled.text ++ tail with
  | nil => exact ⟨List.append_nil _, rfl⟩
  | cons d more =>
      rw [hrest] at hspace
      have hd : (!Text.isMarkupSpace d) = false := by
        rw [hspace d rfl]
        rfl
      rw [List.takeWhile_cons_of_neg (by simp [hd]), List.dropWhile_cons_of_neg (by simp [hd]),
        List.append_nil]
      exact ⟨rfl, rfl⟩

/-- The name of a tag is read back. -/
theorem nameOf_spelledText (h : Legible name attributes) (htail : tail.all Text.isMarkupSpace) :
    String.ofList (nameOf (spelledText name attributes tail)) = name := by
  unfold nameOf
  rw [(h.takeWhile_dropWhile htail).1, String.ofList_toList]

/-- The attributes of a legible tag are read back as they were spelled, without
a fault. -/
theorem rawAttributes_spelledText (h : Legible name attributes)
    (htail : tail.all Text.isMarkupSpace) :
    rawAttributes (spelledText name attributes tail)
      = { attributes := attributes.map Spelled.raw, fault := none } := by
  unfold rawAttributes
  rw [(h.takeWhile_dropWhile htail).2]
  exact rawAttributesFrom_flatMap h.each h.nodup htail _ _ fun _ _ => rfl

end Legible

-- ========================================================== escaped values

/-- An attribute with its value escaped, after some space. -/
def attributeText (lead : List Char) (a : String × String) : List Char :=
  lead ++ a.1.toList ++ '=' :: '"' :: escape a.2.toList ++ ['"']

/-- An attribute as it is written. -/
def written (a : String × String) : Raw := ⟨a.1.toList, escape a.2.toList⟩

/-- An escaped value holds no quote. -/
theorem ne_quote_of_mem_escape {value : List Char} (h : c ∈ escape value) : c ≠ '"' := by
  rintro rfl
  rcases ne_of_mem_escape h with hc | hc <;> cases hc

/-- Values that are escaped are expanded to what they were. -/
theorem expandValues_written (attributes : List (String × String)) :
    expandValues (attributes.map written) none = .ok attributes := by
  induction attributes with
  | nil => rfl
  | cons a attributes ih =>
      rw [List.map_cons, expandValues, written, expand_escape, ih]
      show Except.ok ((String.ofList a.1.toList, String.ofList a.2.toList) :: attributes) = _
      rw [String.ofList_toList, String.ofList_toList]

/-- A name, attributes with keys of their own, and the space before each of
them, which can be told apart from each other. -/
structure Writable (lead : List Char) (name : String) (attributes : List (String × String)) :
    Prop where
  name : isKey name
  lead : lead ≠ [] ∧ lead.all Text.isMarkupSpace
  keys : ∀ a ∈ attributes, isKey a.1
  nodup : (attributes.map (·.1)).Nodup

/-- The content of a tag, up to the space at its end. -/
def contentText (lead : List Char) (name : String) (attributes : List (String × String))
    (tail : List Char) : List Char :=
  name.toList ++ (attributes.flatMap (attributeText lead) ++ tail)

namespace Writable

variable {lead tail : List Char} {name : String} {attributes : List (String × String)}

/-- The attributes as they stand in the tag. -/
def spelled (lead : List Char) (attributes : List (String × String)) : List Spelled :=
  attributes.map fun a => ⟨lead, a.1, '"', escape a.2.toList⟩

/-- A tag written by the renderer is a spelled text with escaped values. -/
theorem contentText_eq (lead : List Char) (name : String) (attributes : List (String × String))
    (tail : List Char) :
    contentText lead name attributes tail = spelledText name (spelled lead attributes) tail := by
  unfold contentText spelledText spelled
  rw [List.flatMap_map]
  rfl

/-- What is writable is legible, since escaped values have no quote in them. -/
theorem legible (h : Writable lead name attributes) : Legible name (spelled lead attributes) := by
  refine ⟨h.name, fun a ha => ?_, ?_⟩
  · obtain ⟨b, hb, rfl⟩ := List.mem_map.mp ha
    exact ⟨h.lead, h.keys b hb, Or.inl rfl, fun c hc => ne_quote_of_mem_escape hc⟩
  · unfold spelled
    rw [List.map_map]
    exact h.nodup

/-- The content of a written tag encloses. -/
theorem encloses (h : Writable lead name attributes) (htail : Encloses tail) :
    Encloses (contentText lead name attributes tail) :=
  contentText_eq lead name attributes tail ▸ h.legible.encloses htail

/-- The content begins with the name. -/
theorem head? (h : Writable lead name attributes) :
    ∃ c ∈ (contentText lead name attributes tail).head?, c ≠ '!' ∧ c ≠ '?' ∧ c ≠ '/' :=
  contentText_eq lead name attributes tail ▸ h.legible.head?

/-- The name of a written tag is read back. -/
theorem nameOf_contentText (h : Writable lead name attributes)
    (htail : tail.all Text.isMarkupSpace) :
    String.ofList (nameOf (contentText lead name attributes tail)) = name :=
  contentText_eq lead name attributes tail ▸ h.legible.nameOf_spelledText htail

/-- What is written in a tag is read from it. -/
theorem readAttributes_contentText (h : Writable lead name attributes)
    (htail : tail.all Text.isMarkupSpace) :
    readAttributes (contentText lead name attributes tail) = .ok attributes := by
  have hraw : (spelled lead attributes).map Spelled.raw = attributes.map written := List.map_map
  unfold readAttributes
  rw [contentText_eq, h.legible.rawAttributes_spelledText htail, hraw]
  exact expandValues_written attributes

end Writable

end Tag

end ResourceLint.Xml
