/-
The line a place is on is the line that is shown for it.

Places are counted by a cursor and lines are cut by `Text.linesFrom`, and
both know three ends of lines.  `lineEnds` counts those in a stretch of text
that another one follows; a cursor has gone down as many lines as it has
passed (`Position.Cursor.line_across`), and the lines of a text are cut in two
at the last of them (`exists_onLine`).  So the line with the number of a place
is the one that the place is on.

The check of shrinking rules counts for itself, line feeds and bytes.  Its
places are those of the text exactly where every carriage return before them
has its line feed and their own line has one byte for each character
(`placeAfter_eq_iff`).
-/
import ResourceLint.Check.ShrinkingRules
import ResourceLint.Proofs.Places
import ResourceLint.Text.Lines

namespace ResourceLint

open Position

variable {text front above here back rest line : List Char} {c : Char} {n k : Nat}

/-- How many lines end in a stretch of text that `back` follows. -/
def lineEnds (back : List Char) : List Char → Nat
  | [] => 0
  | c :: front => (if Cursor.endsLine c (front ++ back) then 1 else 0) + lineEnds back front

theorem lineEnds_append (a b back : List Char) :
    lineEnds back (a ++ b) = lineEnds (b ++ back) a + lineEnds back b := by
  induction a with
  | nil => rw [List.nil_append, lineEnds, Nat.zero_add]
  | cons c a ih => rw [List.cons_append, lineEnds, lineEnds, ih, List.append_assoc, Nat.add_assoc]

-- ================================================================= cursors

/-- A cursor goes down a line at every end of a line. -/
theorem Position.Cursor.line_across (k : Cursor) (front back : List Char) :
    (k.across back front).line = k.line + lineEnds back front := by
  induction front generalizing k with
  | nil => rfl
  | cons c front ih =>
      have hline : (k.step c (front ++ back)).line
          = k.line + if endsLine c (front ++ back) then 1 else 0 := by
        unfold step
        split <;> rfl
      rw [across, ih, hline, lineEnds, Nat.add_assoc]

-- =================================================================== lines

theorem endsLine_eq_false_iff :
    Cursor.endsLine c rest = false ↔ c ≠ '\n' ∧ (c = '\r' → rest.head? = some '\n') := by
  unfold Cursor.endsLine
  by_cases hfeed : c = '\n' <;> by_cases hreturn : c = '\r' <;> simp [hfeed, hreturn]

theorem lineEnds_cons_eq_zero_iff :
    lineEnds back (c :: front) = 0
      ↔ Cursor.endsLine c (front ++ back) = false ∧ lineEnds back front = 0 := by
  rw [lineEnds, Nat.add_eq_zero_iff]
  cases Cursor.endsLine c (front ++ back) <;> simp

/-- Of what follows only the first character counts. -/
theorem endsLine_congr {back' : List Char} (h : back.head? = back'.head?) :
    Cursor.endsLine c back = Cursor.endsLine c back' := by
  unfold Cursor.endsLine
  rw [h]

theorem lineEnds_congr {back' : List Char} (h : back.head? = back'.head?) (front : List Char) :
    lineEnds back front = lineEnds back' front := by
  induction front with
  | nil => rfl
  | cons c front ih =>
      have hhead : (front ++ back).head? = (front ++ back').head? := by
        rw [List.head?_append, List.head?_append, h]
      rw [lineEnds, lineEnds, ih, endsLine_congr hhead]

theorem endsLine_nil (hc : Cursor.endsLine c back) : Cursor.endsLine c [] := by
  unfold Cursor.endsLine at hc ⊢
  rcases Bool.or_eq_true_iff.mp hc with hfeed | hreturn
  · rw [hfeed, Bool.true_or]
  · rw [(Bool.and_eq_true_iff.mp hreturn).1]
    exact Bool.or_true _

theorem linesFrom_plain (hfeed : c ≠ '\n') (hreturn : c ≠ '\r') (line rest : List Char) :
    Text.linesFrom line (c :: rest) = Text.linesFrom (c :: line) rest :=
  Text.linesFrom.eq_5 line c rest hfeed (fun _ h => absurd h hreturn) hreturn

/-- A character that ends a line begins the next one behind it. -/
theorem linesFrom_end (hc : Cursor.endsLine c back) (line : List Char) :
    Text.linesFrom line (c :: back) = line.reverse :: Text.linesFrom [] back := by
  unfold Cursor.endsLine at hc
  rcases Bool.or_eq_true_iff.mp hc with hfeed | hreturn
  · rw [beq_iff_eq.mp hfeed, Text.linesFrom]
  · obtain ⟨hreturn, hnext⟩ := Bool.and_eq_true_iff.mp hreturn
    rw [beq_iff_eq.mp hreturn]
    refine Text.linesFrom.eq_4 line back fun rest hrest => ?_
    rw [hrest] at hnext
    exact absurd hnext (by simp)

/-- Where no line ends in a stretch of text but one ends right behind it, they
are one line. -/
theorem linesFrom_of_endsLine (hc : Cursor.endsLine c back) (h : lineEnds (c :: back) here = 0)
    (line : List Char) :
    ∃ own, Text.linesFrom line (here ++ c :: back) = own :: Text.linesFrom [] back
      ∧ Text.linesFrom line (here ++ [c]) = [own] := by
  induction here generalizing line with
  | nil =>
      refine ⟨line.reverse, linesFrom_end hc line, ?_⟩
      rw [List.nil_append, linesFrom_end (endsLine_nil hc)]
      rfl
  | cons d here ih =>
      obtain ⟨hd, hhere⟩ := lineEnds_cons_eq_zero_iff.mp h
      obtain ⟨hfeed, hnext⟩ := endsLine_eq_false_iff.mp hd
      by_cases hreturn : d = '\r'
      · -- a carriage return that ends no line has its line feed behind it
        cases here with
        | nil =>
            obtain rfl : c = '\n' := Option.some.inj (hnext hreturn)
            subst hreturn
            exact ⟨line.reverse, rfl, rfl⟩
        | cons e here =>
            obtain rfl : e = '\n' := Option.some.inj (hnext hreturn)
            exact absurd rfl (endsLine_eq_false_iff.mp (lineEnds_cons_eq_zero_iff.mp hhere).1).1
      · obtain ⟨own, hall, hown⟩ := ih hhere (d :: line)
        rw [List.cons_append, List.cons_append, linesFrom_plain hfeed hreturn,
          linesFrom_plain hfeed hreturn]
        exact ⟨own, hall, hown⟩

/-- A text is cut in two behind the last end of a line of its front: what is
above is as many whole lines, and no line ends in what is left of the front. -/
theorem exists_above (front back : List Char) :
    ∃ above here, front = above ++ here ∧ lineEnds back here = 0
      ∧ (Text.linesFrom [] above).length = lineEnds back front
      ∧ ∀ below, below.head? = (here ++ back).head? →
          Text.linesFrom [] (above ++ below)
            = Text.linesFrom [] above ++ Text.linesFrom [] below := by
  -- from the end, since it is what follows that tells whether a carriage return ends its
  -- line
  induction front using List.reverseRecOn generalizing back with
  | nil => exact ⟨[], [], rfl, rfl, rfl, fun _ _ => rfl⟩
  | append_singleton front c ih =>
      obtain ⟨above, here, hfront, hhere, hcount, hcut⟩ := ih (c :: back)
      have hlast : lineEnds back [c] = if Cursor.endsLine c back then 1 else 0 := Nat.add_zero _
      rw [lineEnds_append front, hlast]
      cases hc : Cursor.endsLine c back with
      -- one more character of the line at hand
      | false =>
          refine ⟨above, here ++ [c], by rw [hfront, List.append_assoc], ?_, hcount, ?_⟩
          · rw [lineEnds_append, hlast, hc]
            exact hhere
          · rw [List.append_assoc]
            exact hcut
      -- the line is full, and nothing is left over
      | true =>
          obtain ⟨own, -, hown⟩ := linesFrom_of_endsLine hc hhere []
          have habove : Text.linesFrom [] (above ++ (here ++ [c]))
              = Text.linesFrom [] above ++ [own] := by
            rw [hcut _ (by simp), hown]
          refine ⟨above ++ (here ++ [c]), [], ?_, rfl, ?_, fun below hbelow => ?_⟩
          · rw [hfront, List.append_nil, List.append_assoc]
          · rw [habove, List.length_append, hcount]
            rfl
          · have hc' : Cursor.endsLine c below := (endsLine_congr hbelow).trans hc
            have hsame : (c :: below).head? = (c :: back).head? := rfl
            have hhere' : lineEnds (c :: below) here = 0 := (lineEnds_congr hsame here).trans hhere
            obtain ⟨own', hall, hown'⟩ := linesFrom_of_endsLine hc' hhere' []
            obtain rfl : own = own' := List.singleton_inj.mp (hown.symm.trans hown')
            have hbelow' := hcut (here ++ c :: below) (by simp)
            rw [hall] at hbelow'
            rw [habove]
            simpa using hbelow'

-- =================================================================== places

/-- A byte of a text is on a line: so many lines are above it, and no line
ends between the beginning of its line and its character. -/
structure OnLine (text : List Char) (n line : Nat) (here back : List Char) : Prop where
  above : ∃ above, text = above ++ (here ++ back) ∧ (Text.linesFrom [] above).length = line
    ∧ Text.linesFrom [] text = Text.linesFrom [] above ++ Text.linesFrom [] (here ++ back)
    ∧ Text.byteSize (above ++ here) ≤ n
    ∧ ∀ c more, back = c :: more → n < Text.byteSize (above ++ here) + c.utf8Size
  unbroken : lineEnds back here = 0

/-- A walk to a byte goes over the whole characters before it. -/
theorem exists_walk_eq_across (text : List Char) (n : Nat) :
    ∃ front back, text = front ++ back ∧ Text.byteSize front ≤ n
      ∧ (∀ c more, back = c :: more → n < Text.byteSize front + c.utf8Size)
      ∧ Cursor.walk n (Cursor.start text) text = (Cursor.start text).across back front := by
  obtain ⟨front, htext, hoffset, hle, hnext⟩ :=
    @Cursor.exists_walk (Cursor.start text) text n rfl
  have hbegin : (Cursor.start text).offset = 0 := rfl
  rw [hbegin, Nat.zero_add] at hoffset
  have hbefore := hle (Nat.zero_le n)
  have hwalk : Cursor.walk (Text.byteSize front) (Cursor.start text) text
      = Cursor.walk n (Cursor.start text) text := Cursor.walk_eq_walk (by omega) (by omega)
  rw [hoffset] at hbefore hnext
  have hover := Cursor.walk_start_append front (Cursor.walk n (Cursor.start text) text).rest
  rw [← htext, hwalk] at hover
  exact ⟨front, _, htext, hbefore, hnext, hover⟩

/-- The line of a place is how many lines end in the whole characters before
it. -/
theorem exists_line_eq_lineEnds (text : List Char) (n : Nat) :
    ∃ front back, text = front ++ back ∧ Text.byteSize front ≤ n
      ∧ (∀ c more, back = c :: more → n < Text.byteSize front + c.utf8Size)
      ∧ (ofOffset text n).line = lineEnds back front := by
  obtain ⟨front, back, htext, hle, hnext, hwalk⟩ := exists_walk_eq_across text n
  refine ⟨front, back, htext, hle, hnext, ?_⟩
  unfold ofOffset Cursor.position
  rw [Cursor.seek_start, hwalk]
  exact (Cursor.line_across _ front back).trans (Nat.zero_add _)

/-- The line of a place is the one that it is on. -/
theorem exists_onLine (text : List Char) (n : Nat) :
    ∃ here back, OnLine text n (ofOffset text n).line here back := by
  obtain ⟨front, back, htext, hle, hnext, hline⟩ := exists_line_eq_lineEnds text n
  obtain ⟨above, here, rfl, hhere, hcount, hcut⟩ := exists_above front back
  rw [List.append_assoc] at htext
  exact ⟨here, back, ⟨above, htext, hcount.trans hline.symm, htext ▸ hcut _ rfl, hle, hnext⟩, hhere⟩

/-- It is the line with its number. -/
theorem OnLine.getElem? {here : List Char} (h : OnLine text n k here back) :
    (Text.linesFrom [] text)[k]? = (Text.linesFrom [] (here ++ back)).head? := by
  obtain ⟨above, -, hline, hcut, -⟩ := h.above
  rw [hcut, ← hline, List.getElem?_append_right (Nat.le_refl _), Nat.sub_self,
    List.head?_eq_getElem?]

-- ============================================================ shrinking rules

/-- The place between two parts of a text. -/
theorem ofOffset_across (front back : List Char) :
    ofOffset (front ++ back) (Text.byteSize front)
      = { line := lineEnds back front
          column := some ((Cursor.start (front ++ back)).across back front).column
          offset := Text.byteSize front } := by
  have hline := Cursor.line_across (Cursor.start (front ++ back)) front back
  have hoffset := Cursor.offset_across (Cursor.start (front ++ back)) front back
  have hbegin : (Cursor.start (front ++ back)).line = 0
      ∧ (Cursor.start (front ++ back)).offset = 0 := ⟨rfl, rfl⟩
  rw [hbegin.1, Nat.zero_add] at hline
  rw [hbegin.2, Nat.zero_add] at hoffset
  unfold ofOffset Cursor.position
  simp only [Cursor.seek_start, Cursor.walk_start_append, hline, hoffset, Nat.lt_irrefl,
    decide_false, Bool.false_and, Bool.false_eq_true, if_false]

/-- Outside of an end of line it is that many characters from the last one
that ends lines. -/
theorem ofOffset_append (hback : back.head? ≠ some '\n') :
    ofOffset (front ++ back) (Text.byteSize front)
      = { line := lineEnds back front, column := some (Cursor.columnAfter front)
          offset := Text.byteSize front } := by
  rw [ofOffset_across, Cursor.column_across_start hback]

namespace ShrinkingRules

/-- Every carriage return has its line feed. -/
def ReturnsPaired (before : List Char) : Prop :=
  ∀ a b, before = a ++ '\r' :: b → b.head? = some '\n'

/-- What stands behind the last line feed. -/
def lastLine (before : List Char) : List Char := before.reverse.takeWhile (· != '\n')

theorem returnsPaired_nil : ReturnsPaired [] := fun a b heq => by
  cases a <;> cases heq

theorem returnsPaired_cons_iff :
    ReturnsPaired (c :: front)
      ↔ (c = '\r' → front.head? = some '\n') ∧ ReturnsPaired front := by
  refine ⟨fun h => ⟨fun hc => h [] front (by rw [hc]; rfl), fun a b hfront => ?_⟩, ?_⟩
  · exact h (c :: a) b (by rw [hfront]; rfl)
  · rintro ⟨hc, hfront⟩ a b heq
    cases a with
    | nil =>
        cases heq
        exact hc rfl
    | cons d a =>
        cases heq
        exact hfront a b rfl

/-- Counting line feeds is counting lines where no carriage return is alone. -/
theorem count_le_lineEnds (hback : back.head? ≠ some '\n') (front : List Char) :
    front.count '\n' ≤ lineEnds back front
      ∧ (front.count '\n' = lineEnds back front ↔ ReturnsPaired front) := by
  induction front with
  | nil =>
      exact ⟨Nat.le_refl 0, iff_of_true rfl returnsPaired_nil⟩
  | cons c front ih =>
      obtain ⟨hle, hiff⟩ := ih
      rw [returnsPaired_cons_iff, lineEnds, List.count_cons]
      cases hc : Cursor.endsLine c (front ++ back) with
      | false =>
          obtain ⟨hfeed, hreturn⟩ := endsLine_eq_false_iff.mp hc
          have hpaired : c = '\r' → front.head? = some '\n' := fun h => by
            have hnext := hreturn h
            cases front with
            | nil => exact absurd hnext hback
            | cons d front => exact hnext
          simp only [beq_iff_eq, hfeed, if_false, Nat.add_zero, Bool.false_eq_true, Nat.zero_add]
          exact ⟨hle, hiff.trans (and_iff_right hpaired).symm⟩
      | true =>
          by_cases hfeed : c = '\n'
          · have hreturn : c = '\r' → front.head? = some '\n' := fun h => by
              rw [hfeed] at h
              cases h
            simp only [hfeed, beq_self_eq_true, if_true]
            rw [hfeed] at hreturn
            refine ⟨by omega, ?_⟩
            rw [and_iff_right hreturn, ← hiff]
            omega
          · -- a carriage return that stands alone ends a line and is no line feed
            have halone : ¬ (c = '\r' → front.head? = some '\n') := fun h => by
              unfold Cursor.endsLine at hc
              obtain ⟨hreturn, hnext⟩ : c = '\r' ∧ (front ++ back).head? ≠ some '\n' := by
                simpa [hfeed] using hc
              refine hnext ?_
              rw [List.head?_append, h hreturn]
              rfl
            simp only [beq_iff_eq, hfeed, if_false, Nat.add_zero, if_true]
            refine ⟨by omega, iff_of_false (by omega) fun h => halone h.1⟩

/-- What stands behind the last line feed is behind the last end of a line
where no carriage return is alone. -/
theorem columnAfter_eq_length (h : ReturnsPaired front) :
    Cursor.columnAfter front = (lastLine front).length := by
  have hreturn : ∀ c ∈ lastLine front, (c != '\r') = true := by
    intro c hc
    rw [bne_iff_ne]
    rintro rfl
    -- behind the return comes more of the last line, which has no line feed
    obtain ⟨x, y, hline⟩ := List.append_of_mem hc
    have hfront : front = (front.reverse.dropWhile (· != '\n')).reverse ++ y.reverse
        ++ '\r' :: x.reverse := by
      have hsplit := List.takeWhile_append_dropWhile (p := (· != '\n')) (l := front.reverse)
      have hwhole := congrArg List.reverse hsplit
      unfold lastLine at hline
      rw [List.reverse_reverse, hline] at hwhole
      conv => lhs; rw [← hwhole]
      simp
    have hfeed : '\n' ∈ x := List.mem_reverse.mp (List.mem_of_head? (h _ _ hfront))
    have hmem : '\n' ∈ lastLine front := by
      rw [hline]
      exact List.mem_append_left _ hfeed
    exact absurd (List.mem_takeWhile_imp hmem) (by decide)
  unfold Cursor.columnAfter lastLine at *
  rw [← List.takeWhile_eq_self_iff.mpr hreturn, List.takeWhile_takeWhile]
  simp only [Bool.decide_and, Bool.decide_eq_true, Bool.and_comm]

/-- Characters of one byte each are as many as their bytes, and no others. -/
theorem length_le_byteSize (s : List Char) :
    s.length ≤ Text.byteSize s
      ∧ (Text.byteSize s = s.length ↔ ∀ c ∈ s, c.utf8Size = 1) := by
  induction s with
  | nil => exact ⟨Nat.le_refl 0, iff_of_true rfl fun c hc => by cases hc⟩
  | cons c s ih =>
      obtain ⟨hle, hiff⟩ := ih
      have hpos := c.utf8Size_pos
      rw [Text.byteSize_cons, List.length_cons, List.forall_mem_cons, ← hiff]
      refine ⟨by omega, by omega⟩

/-- A place that is counted by line feeds and bytes is that of the text
exactly where no carriage return before it is alone and its own line has no
character of more than one byte. -/
theorem placeAfter_eq_iff (hback : back.head? ≠ some '\n') :
    placeAfter front = ofOffset (front ++ back) (Text.byteSize front)
      ↔ ReturnsPaired front ∧ ∀ c ∈ lastLine front, c.utf8Size = 1 := by
  have hline := (count_le_lineEnds hback front).2
  have hbytes := (length_le_byteSize (lastLine front)).2
  rw [ofOffset_append hback, ← hline, ← hbytes]
  unfold placeAfter
  simp only [Position.mk.injEq, Option.some.injEq, and_true]
  refine and_congr_right fun hlines => ?_
  rw [columnAfter_eq_length (hline.mp hlines)]
  rfl

end ShrinkingRules

end ResourceLint
