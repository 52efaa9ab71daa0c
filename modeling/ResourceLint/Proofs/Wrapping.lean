/-
Breaking lines at a width loses no word and breaks no earlier than it must.

A line of a text is its words with spaces between them, and what it is broken
into are rows of words (`Breaks`): the words of the rows are those of the
line, a row with more than one word is no wider than the width, and the first
word of a row would not have fit on the row before.  Rows that fit are left
as they are, so breaking lines again changes nothing (`breaks_wrap`).

# Words and rows

`fill` deals out lists of words, and its facts are about these lists: they are
cut and not changed (`flatten_fill`), the width is kept (`fits_of_mem_fill`),
and every cut is needed (`isChain_fill`).  The column that goes along with the
current row is its width (`lineWidth_concat`), and the row that follows a cut
begins with the word that did not fit (`exists_fillFrom_eq_cons`).  What is
written of the lists is read back, from a row (`words_joinWords`) and from the
whole text (`splitAt_wrapChars`).
-/
import Mathlib.Data.List.Chain
import ResourceLint.Proofs.Entries
import ResourceLint.Text.Wrap

namespace ResourceLint.Text

variable {width column : Nat} {mark c : Char} {line word : List Char}
  {ws current more row : List (List Char)}

-- ================================================================ words of rows

/-- The parts of a text consist of its characters. -/
theorem mem_of_mem_splitAt {s part : List Char} (h : part ∈ splitAt mark s) (hc : c ∈ part) :
    c ∈ s := by
  induction s generalizing part with
  | nil =>
      obtain rfl := List.mem_singleton.mp h
      exact hc
  | cons d s ih =>
      rw [splitAt] at h
      split at h
      · rcases List.mem_cons.mp h with rfl | h
        · cases hc
        · exact List.mem_cons_of_mem _ (ih h hc)
      · split at h
        · next first parts hsplit =>
            rcases List.mem_cons.mp h with rfl | h
            · rcases List.mem_cons.mp hc with rfl | hc
              · exact List.mem_cons_self
              · exact List.mem_cons_of_mem _ (ih (hsplit ▸ List.mem_cons_self) hc)
            · exact List.mem_cons_of_mem _ (ih (hsplit ▸ List.mem_cons_of_mem _ h) hc)
        · next hnil => exact absurd hnil (splitAt_ne_nil mark s)

/-- A text that can stand between spaces. -/
def IsWord (word : List Char) : Prop := word ≠ [] ∧ ' ' ∉ word

/-- What a line is split into are words. -/
theorem isWord_of_mem_words (h : word ∈ words line) : IsWord word := by
  obtain ⟨hpart, hne⟩ := List.mem_filter.mp h
  exact ⟨by simpa using hne, not_mem_of_mem_splitAt hpart⟩

theorem mem_of_mem_words (h : word ∈ words line) (hc : c ∈ word) : c ∈ line :=
  mem_of_mem_splitAt (List.mem_filter.mp h).1 hc

/-- The words that a row is made of are read from it. -/
theorem words_joinWords (h : ∀ word ∈ ws, IsWord word) : words (joinWords ws) = ws := by
  unfold words joinWords
  by_cases hne : ws = []
  · subst hne
    rfl
  · rw [splitAt_intercalate hne fun word hword => (h word hword).2, List.filter_eq_self]
    exact fun word hword => by simpa using (h word hword).1

/-- Joining adds blanks and nothing else. -/
theorem not_mem_joinWords (hc : c ≠ ' ') (h : ∀ word ∈ ws, c ∉ word) : c ∉ joinWords ws := by
  unfold joinWords
  induction ws with
  | nil => exact List.not_mem_nil
  | cons word ws ih =>
      have hrest := ih fun other hother => h other (List.mem_cons_of_mem _ hother)
      cases ws with
      | nil =>
          rw [List.intercalate_singleton]
          exact h word List.mem_cons_self
      | cons next ws =>
          rw [List.intercalate_cons_cons, List.mem_append, List.mem_append, List.mem_singleton]
          rintro ((hword | hspace) | hnext)
          · exact h word List.mem_cons_self hword
          · exact hc hspace
          · exact hrest hnext

/-- The width of a row is the length of its text. -/
theorem length_joinWords (ws : List (List Char)) : (joinWords ws).length = lineWidth ws := by
  unfold joinWords
  induction ws with
  | nil => rfl
  | cons word ws ih =>
      cases ws with
      | nil => rw [List.intercalate_singleton, lineWidth]
      | cons next ws =>
          rw [List.intercalate_cons_cons, List.length_append, List.length_append, ih]
          rfl

/-- One more word takes a blank and its length. -/
theorem lineWidth_concat (hne : ws ≠ []) (word : List Char) :
    lineWidth (ws ++ [word]) = lineWidth ws + 1 + word.length := by
  induction ws with
  | nil => exact absurd rfl hne
  | cons first ws ih =>
      cases ws with
      | nil => rfl
      | cons next ws =>
          have hrest := ih (List.cons_ne_nil _ _)
          have hcons : ∀ tail, lineWidth (first :: next :: tail)
              = first.length + 1 + lineWidth (next :: tail) := fun _ => rfl
          rw [List.cons_append, List.cons_append, hcons, hcons, ← List.cons_append, hrest]
          omega

/-- More words take no less. -/
theorem lineWidth_le_append (ws more : List (List Char)) :
    lineWidth ws ≤ lineWidth (ws ++ more) := by
  induction more generalizing ws with
  | nil => rw [List.append_nil]
  | cons word more ih =>
      have hword : lineWidth ws ≤ lineWidth (ws ++ [word]) := by
        by_cases hne : ws = []
        · subst hne
          exact Nat.zero_le _
        · rw [lineWidth_concat hne]
          omega
      have hrest := hword.trans (ih (ws ++ [word]))
      rwa [List.append_assoc] at hrest

-- ================================================================ dealing out

/-- The words are cut and not changed. -/
theorem flatten_fillFrom (width : Nat) (current : List (List Char)) (column : Nat)
    (more : List (List Char)) :
    (fillFrom width current column more).flatten = current.reverse ++ more := by
  fun_induction fillFrom width current column more with
  | case1 current column => simp
  | case2 current column word more hempty ih =>
      rw [ih, List.isEmpty_iff.mp hempty]
      rfl
  | case3 current column word more hsome hwide ih =>
      rw [List.flatten_cons, ih]
      rfl
  | case4 current column word more hsome hfits ih =>
      rw [ih, List.reverse_cons, List.append_assoc]
      rfl

/-- The row that is begun comes first. -/
theorem exists_fillFrom_eq_cons (width : Nat) (current : List (List Char)) (column : Nat)
    (more : List (List Char)) :
    ∃ tail rows, fillFrom width current column more = (current.reverse ++ tail) :: rows := by
  fun_induction fillFrom width current column more with
  | case1 current column => exact ⟨[], [], by rw [List.append_nil]⟩
  | case2 current column word more hempty ih =>
      obtain ⟨tail, rows, hrows⟩ := ih
      rw [List.isEmpty_iff.mp hempty]
      exact ⟨word :: tail, rows, hrows⟩
  | case3 current column word more hsome hwide ih => exact ⟨[], _, by rw [List.append_nil]⟩
  | case4 current column word more hsome hfits ih =>
      obtain ⟨tail, rows, hrows⟩ := ih
      rw [List.reverse_cons, List.append_assoc] at hrows
      exact ⟨word :: tail, rows, hrows⟩

/-- What a row may be: one word, or as wide as the width at most. -/
def Fits (width : Nat) (row : List (List Char)) : Prop := row.length ≤ 1 ∨ lineWidth row ≤ width

/-- Every row fits, or is a single word. -/
theorem fits_of_mem_fillFrom (hcolumn : column = lineWidth current.reverse)
    (hcurrent : Fits width current.reverse) (h : row ∈ fillFrom width current column more) :
    Fits width row := by
  fun_induction fillFrom width current column more with
  | case1 current column => exact List.mem_singleton.mp h ▸ hcurrent
  | case2 current column word more hempty ih => exact ih rfl (Or.inl (Nat.le_refl 1)) h
  | case3 current column word more hsome hwide ih =>
      rcases List.mem_cons.mp h with rfl | h
      · exact hcurrent
      · exact ih rfl (Or.inl (Nat.le_refl 1)) h
  | case4 current column word more hsome hfits ih =>
      have hwidth : lineWidth (word :: current).reverse = column + 1 + word.length := by
        rw [List.reverse_cons, lineWidth_concat (by simpa using hsome), hcolumn]
      exact ih hwidth.symm (Or.inr (by omega)) h

/-- A row ends where the first word of the next would not have fit. -/
def EndsBefore (width : Nat) (row next : List (List Char)) : Prop :=
  ∃ word, next.head? = some word ∧ width < lineWidth row + 1 + word.length

/-- A row ends only where the next word does not fit. -/
theorem isChain_fillFrom (hcolumn : column = lineWidth current.reverse) :
    (fillFrom width current column more).IsChain (EndsBefore width) := by
  fun_induction fillFrom width current column more with
  | case1 current column => exact .singleton _
  | case2 current column word more hempty ih => exact ih rfl
  | case3 current column word more hsome hwide ih =>
      obtain ⟨tail, rows, hrows⟩ := exists_fillFrom_eq_cons width [word] word.length more
      rw [hrows] at ih ⊢
      exact List.isChain_cons_cons.mpr ⟨⟨word, rfl, hcolumn ▸ hwide⟩, ih rfl⟩
  | case4 current column word more hsome hfits ih =>
      refine ih ?_
      rw [List.reverse_cons, lineWidth_concat (by simpa using hsome), hcolumn]

/-- Words that fit on a row together are put on one. -/
theorem fillFrom_of_le (hcolumn : column = lineWidth current.reverse)
    (h : lineWidth (current.reverse ++ more) ≤ width) :
    fillFrom width current column more = [current.reverse ++ more] := by
  fun_induction fillFrom width current column more with
  | case1 current column => rw [List.append_nil]
  | case2 current column word more hempty ih =>
      rw [List.isEmpty_iff.mp hempty] at h ⊢
      exact ih rfl h
  | case3 current column word more hsome hwide ih =>
      -- the word fits, as it does with all that come behind it
      have hword : lineWidth (current.reverse ++ [word]) = column + 1 + word.length := by
        rw [lineWidth_concat (by simpa using hsome), hcolumn]
      have hrest := lineWidth_le_append (current.reverse ++ [word]) more
      rw [List.append_assoc, List.singleton_append] at hrest
      omega
  | case4 current column word more hsome hfits ih =>
      have hreverse : current.reverse ++ word :: more = (word :: current).reverse ++ more := by
        rw [List.reverse_cons, List.append_assoc]
        rfl
      rw [hreverse] at h ⊢
      refine ih ?_ h
      rw [List.reverse_cons, lineWidth_concat (by simpa using hsome), hcolumn]

section Fill

variable (width : Nat) (ws : List (List Char))

/-- The rows hold all words in order. -/
theorem flatten_fill : (fill width ws).flatten = ws := flatten_fillFrom width [] 0 ws

theorem fits_of_mem_fill (h : row ∈ fill width ws) : Fits width row := by
  have hempty : Fits width ([] : List (List Char)).reverse := Or.inl (Nat.zero_le 1)
  exact fits_of_mem_fillFrom rfl hempty h

/-- No row ends before the next word does not fit. -/
theorem isChain_fill : (fill width ws).IsChain (EndsBefore width) := isChain_fillFrom rfl

theorem fill_ne_nil : fill width ws ≠ [] := by
  obtain ⟨tail, rows, hrows⟩ := exists_fillFrom_eq_cons width [] 0 ws
  unfold fill
  rw [hrows]
  exact List.cons_ne_nil _ _

end Fill

/-- What a row may be is put on one. -/
theorem fill_of_fits (h : Fits width ws) : fill width ws = [ws] := by
  rcases h with hlength | hwidth
  · match ws, hlength with
    | [], _ => rfl
    | [word], _ => rfl
  · exact fillFrom_of_le rfl hwidth

-- ================================================================ lines of a text

/-- The rows that a line is put on. -/
def rowsOf (width : Nat) (line : List Char) : List (List Char) :=
  (fill width (words line)).map joinWords

/-- How a line is broken at a width. -/
structure Breaks (width : Nat) (line : List Char) (rows : List (List Char)) : Prop where
  words : rows.flatMap words = Text.words line
  spaced : ∀ row ∈ rows, row = joinWords (Text.words row)
  fits : ∀ row ∈ rows, Text.words row = [row] ∨ row.length ≤ width
  greedy : rows.IsChain fun row next =>
    ∃ word, (Text.words next).head? = some word ∧ width < row.length + 1 + word.length
  ne_nil : rows ≠ []

variable {rows : List (List Char)}

/-- What is dealt out are words of the line. -/
theorem mem_words_of_mem_fill (hrow : ws ∈ fill width (words line)) (h : word ∈ ws) :
    word ∈ words line := by
  rw [← flatten_fill width (words line)]
  exact List.mem_flatten_of_mem hrow h

theorem isWord_of_mem_fill (hrow : ws ∈ fill width (words line)) (h : word ∈ ws) : IsWord word :=
  isWord_of_mem_words (mem_words_of_mem_fill hrow h)

/-- The words of a row are read back from its text. -/
theorem words_joinWords_of_mem_fill (h : ws ∈ fill width (words line)) :
    words (joinWords ws) = ws :=
  words_joinWords fun _ hword => isWord_of_mem_fill h hword

/-- The rows of a line break it as they should. -/
theorem breaks_rowsOf (width : Nat) (line : List Char) : Breaks width line (rowsOf width line) where
  words := by
    unfold rowsOf
    rw [List.flatMap_map, List.flatMap_congr fun ws hws => words_joinWords_of_mem_fill hws,
      List.flatMap_id', flatten_fill]
  spaced row hrow := by
    obtain ⟨ws, hws, rfl⟩ := List.mem_map.mp hrow
    rw [words_joinWords_of_mem_fill hws]
  fits row hrow := by
    obtain ⟨ws, hws, rfl⟩ := List.mem_map.mp hrow
    rw [words_joinWords_of_mem_fill hws, length_joinWords]
    rcases fits_of_mem_fill width _ hws with hlength | hwidth
    · match ws, hlength with
      | [], _ => exact Or.inr (Nat.zero_le width)
      | [word], _ => exact Or.inl (by rw [joinWords, List.intercalate_singleton])
    · exact Or.inr hwidth
  greedy := by
    refine List.isChain_map joinWords |>.mpr ?_
    refine List.IsChain.imp_of_mem_imp (fun ws next _ hnext hends => ?_) (isChain_fill width _)
    rwa [words_joinWords_of_mem_fill hnext, length_joinWords]
  ne_nil := by simpa [rowsOf] using fill_ne_nil width (Text.words line)

/-- A row is left as it is. -/
theorem rowsOf_of_mem_rowsOf {row : List Char} (h : row ∈ rowsOf width line) :
    rowsOf width row = [row] := by
  obtain ⟨ws, hws, rfl⟩ := List.mem_map.mp h
  unfold rowsOf
  rw [words_joinWords_of_mem_fill hws, fill_of_fits (fits_of_mem_fill width _ hws),
    List.map_singleton]

/-- A row ends no line. -/
theorem feed_not_mem_of_mem_rowsOf {row : List Char} (hline : '\n' ∉ line)
    (h : row ∈ rowsOf width line) : '\n' ∉ row := by
  obtain ⟨ws, hws, rfl⟩ := List.mem_map.mp h
  refine not_mem_joinWords (by decide) fun word hword hfeed => hline ?_
  exact mem_of_mem_words (mem_words_of_mem_fill hws hword) hfeed

/-- The lines of the broken text are the rows of the lines. -/
theorem splitAt_wrapChars (width : Nat) (cs : List Char) :
    splitAt '\n' (wrapChars width cs) = (splitAt '\n' cs).flatMap (rowsOf width) := by
  refine splitAt_intercalate ?_ fun row hrow => ?_
  · intro hnil
    obtain ⟨line, lines, hlines⟩ := List.exists_cons_of_ne_nil (splitAt_ne_nil '\n' cs)
    rw [hlines, List.flatMap_cons, List.append_eq_nil_iff] at hnil
    exact (breaks_rowsOf width line).ne_nil hnil.1
  · obtain ⟨line, hline, hrow⟩ := List.mem_flatMap.mp hrow
    exact feed_not_mem_of_mem_rowsOf (not_mem_of_mem_splitAt hline) hrow

/-- Breaking the lines again changes nothing. -/
theorem wrapChars_wrapChars (width : Nat) (cs : List Char) :
    wrapChars width (wrapChars width cs) = wrapChars width cs := by
  have hagain : (splitAt '\n' (wrapChars width cs)).flatMap (rowsOf width)
      = splitAt '\n' (wrapChars width cs) := by
    rw [splitAt_wrapChars, List.flatMap_assoc]
    refine List.flatMap_congr fun line _ => ?_
    rw [List.flatMap_congr fun row hrow => rowsOf_of_mem_rowsOf hrow]
    exact List.flatMap_singleton' _
  calc wrapChars width (wrapChars width cs)
      = ['\n'].intercalate ((splitAt '\n' (wrapChars width cs)).flatMap (rowsOf width)) := rfl
    _ = ['\n'].intercalate ((splitAt '\n' cs).flatMap (rowsOf width)) := by
      rw [hagain, splitAt_wrapChars]
    _ = wrapChars width cs := rfl

/-- The lines of a text are broken one by one.  The rows of a line have its words
in order, with a space between any two, and at least one row is left; a row with
more than one word is as wide as the width at most; and the first word of a row
would not have fit on the row before.  What has been broken is not broken
again. -/
theorem breaks_wrap (width : Nat) (s : String) :
    (∃ rowsOfLines : List (List (List Char)),
        splitAt '\n' (wrap width s).toList = rowsOfLines.flatten
          ∧ List.Forall₂ (Breaks width) (splitAt '\n' s.toList) rowsOfLines)
      ∧ wrap width (wrap width s) = wrap width s := by
  refine ⟨⟨(splitAt '\n' s.toList).map (rowsOf width), ?_, ?_⟩, ?_⟩
  · unfold wrap
    rw [String.toList_ofList, splitAt_wrapChars, List.flatMap_def]
  · rw [List.forall₂_map_right_iff, List.forall₂_same]
    exact fun line _ => breaks_rowsOf width line
  · unfold wrap
    rw [String.toList_ofList, wrapChars_wrapChars]

/-- Runs of spaces, an empty line, and a word that is too wide. -/
example :
    wrap 7 " aaa  bbb ccc\n\naveryverylongword x" = "aaa bbb\nccc\n\naveryverylongword\nx" := by
  decide

end ResourceLint.Text
