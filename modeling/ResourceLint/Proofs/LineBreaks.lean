/-
A position does not depend on how a cursor came to it.

A cursor begins in front of a text or is set down at a known place of it, and
is moved by requests.  What it answers then is the position of the byte
(`position_after`), and that is told by the text alone: the line is the number
of line breaks that end at or before the byte, and there is a column where the
byte is not inside of a character.

# Line breaks

`breakEnds` goes over a text and takes a carriage return with its line feed
for one break.  The cursor goes over characters and looks at the next one
instead; `breakEnds_cons` says that this comes to the same.

# Where a cursor may be set down

A cursor that is set down counts its column from the text, back to a line
feed or a carriage return.  Between the two of one break this is not the
column, and everywhere else it is (`column_across_eq_iff`).
-/
import ResourceLint.Proofs.Lines

namespace ResourceLint.Position

open Cursor

variable {k : Cursor} {text front back rest : List Char} {c : Char} {n m : Nat}

-- ================================================================ line breaks

/-- Where the line breaks of a text end, when it begins at a byte: a carriage
return and line feed together are one break, and either is one alone. -/
def breakEnds (n : Nat) : List Char → List Nat
  | '\r' :: '\n' :: rest => (n + 2) :: breakEnds (n + 2) rest
  | '\r' :: rest => (n + 1) :: breakEnds (n + 1) rest
  | '\n' :: rest => (n + 1) :: breakEnds (n + 1) rest
  | c :: rest => breakEnds (n + c.utf8Size) rest
  | [] => []

/-- Line breaks can be told by one character and the next. -/
theorem breakEnds_cons (n : Nat) (c : Char) (rest : List Char) :
    breakEnds n (c :: rest)
      = (if endsLine c rest then [n + c.utf8Size] else []) ++ breakEnds (n + c.utf8Size) rest := by
  by_cases hreturn : c = '\r'
  · subst hreturn
    cases rest with
    | nil => rfl
    | cons d rest =>
        by_cases hfeed : d = '\n'
        · subst hfeed
          rfl
        · have hends : endsLine '\r' (d :: rest) = true := by
            unfold endsLine
            simpa using hfeed
          rw [hends, breakEnds.eq_2 n (d :: rest) fun more heq => hfeed (List.cons.inj heq).1]
          rfl
  · by_cases hfeed : c = '\n'
    · subst hfeed
      rfl
    · have hends : endsLine c rest = false :=
        endsLine_eq_false_iff.mpr ⟨hfeed, fun heq => absurd heq hreturn⟩
      rw [hends, breakEnds.eq_4 n c rest (fun _ heq => absurd heq hreturn) hreturn hfeed]
      rfl

/-- No break ends before the first character does. -/
theorem le_of_mem_breakEnds (h : m ∈ breakEnds n (c :: rest)) : n + c.utf8Size ≤ m := by
  induction rest generalizing n c with
  | nil =>
      rw [breakEnds_cons, breakEnds, List.append_nil] at h
      split at h
      · exact Nat.le_of_eq (List.mem_singleton.mp h).symm
      · cases h
  | cons d rest ih =>
      rw [breakEnds_cons, List.mem_append] at h
      rcases h with h | h
      · split at h
        · exact Nat.le_of_eq (List.mem_singleton.mp h).symm
        · cases h
      · have hrest := ih h
        omega

/-- The breaks that end at or before a byte are those of the whole characters
before it. -/
theorem countP_breakEnds (hle : n + Text.byteSize front ≤ m)
    (hnext : ∀ c more, back = c :: more → m < n + Text.byteSize front + c.utf8Size) :
    (breakEnds n (front ++ back)).countP (· ≤ m) = lineEnds back front := by
  induction front generalizing n with
  | nil =>
      rw [lineEnds, List.countP_eq_zero]
      intro stop hstop
      rw [List.nil_append] at hstop
      cases back with
      | nil => cases hstop
      | cons c more =>
          -- the next character ends behind the byte, and every break behind that
          have hafter := le_of_mem_breakEnds hstop
          have hbefore := hnext c more rfl
          rw [Text.byteSize_nil] at hbefore
          rw [decide_eq_true_eq]
          omega
  | cons c front ih =>
      rw [Text.byteSize_cons] at hle hnext
      have hrest := @ih (n + c.utf8Size) (by omega) fun d more heq => by
        have hbefore := hnext d more heq
        omega
      have hstop : decide (n + c.utf8Size ≤ m) = true := decide_eq_true (by omega)
      rw [List.cons_append, breakEnds_cons, List.countP_append, hrest, lineEnds]
      split
      · rw [List.countP_singleton, if_pos hstop]
      · rfl

/-- The line of a place is the number of line breaks that end at or before
it. -/
theorem line_ofOffset (text : List Char) (n : Nat) :
    (ofOffset text n).line = (breakEnds 0 text).countP (· ≤ n) := by
  obtain ⟨front, back, rfl, hle, hnext, hline⟩ := exists_line_eq_lineEnds text n
  rw [hline, countP_breakEnds]
  · rwa [Nat.zero_add]
  · rwa [Nat.zero_add]

-- =================================================================== columns

/-- A byte at which a character begins, or the end of the text. -/
def IsBoundary (text : List Char) (n : Nat) : Prop :=
  ∃ front back, text = front ++ back ∧ Text.byteSize front = n

/-- There is a column exactly where no character is cut. -/
theorem isSome_column_iff (text : List Char) (n : Nat) :
    (ofOffset text n).column.isSome ↔ IsBoundary text (min n (Text.byteSize text)) := by
  constructor
  · intro hcolumn
    obtain ⟨front, back, rfl, hle, hnext, hwalk⟩ := exists_walk_eq_across text n
    refine ⟨front, back, rfl, ?_⟩
    unfold ofOffset Cursor.position at hcolumn
    rw [seek_start, hwalk] at hcolumn
    rw [Text.byteSize_append]
    cases back with
    | nil =>
        rw [Text.byteSize_nil]
        omega
    | cons c more =>
        -- a byte behind the whole characters is inside of the next one
        have hend : ¬ Text.byteSize front < n := fun hlt => by
          have hoffset := offset_across (start (front ++ c :: more)) front (c :: more)
          rw [show (start (front ++ c :: more)).offset = 0 from rfl, Nat.zero_add] at hoffset
          simp [hoffset, rest_across (k := start (front ++ c :: more)) rfl, hlt] at hcolumn
        omega
  · rintro ⟨front, back, rfl, hfront⟩
    rw [← ofOffset_offset, offset_ofOffset, ← hfront, ofOffset_across]
    rfl

-- ======================================================= setting a cursor down

/-- A place between a carriage return and its line feed. -/
def Splits (front back : List Char) : Prop :=
  front.getLast? = some '\r' ∧ back.head? = some '\n'

/-- A cursor that goes over one more character. -/
theorem Cursor.across_concat (k : Cursor) (seen : List Char) (c : Char) (back : List Char) :
    k.across back (seen ++ [c]) = (k.across (c :: back) seen).step c back := by
  induction seen generalizing k with
  | nil => rfl
  | cons d seen ih =>
      rw [List.cons_append, across, ih, across, List.append_assoc, List.singleton_append]

/-- The column is the number of characters back to one that ends lines, unless
the place is inside of a line break. -/
theorem column_across_eq_iff :
    ((start (front ++ back)).across back front).column = columnAfter front
      ↔ ¬ Splits front back := by
  by_cases hback : back.head? = some '\n'
  · rcases List.eq_nil_or_concat' front with rfl | ⟨seen, c, rfl⟩
    · exact iff_of_true rfl fun h => by cases h.1
    · have hsplits : Splits (seen ++ [c]) back ↔ c = '\r' := by
        unfold Splits
        rw [List.getLast?_concat, Option.some.injEq, and_iff_left hback]
      rw [hsplits, List.append_assoc, List.singleton_append, across_concat]
      by_cases hfeed : c = '\n'
      · subst hfeed
        rw [columnAfter_concat_end (by decide)]
        exact iff_of_true rfl (by decide)
      · -- neither a return nor another character ends a line here
        have hends : endsLine c back = false := endsLine_eq_false_iff.mpr ⟨hfeed, fun _ => hback⟩
        unfold step
        rw [hends]
        by_cases hreturn : c = '\r'
        · rw [columnAfter_concat_end (by simp [hreturn])]
          exact iff_of_false (Nat.succ_ne_zero _) (not_not_intro hreturn)
        · have hseen : (c :: back).head? ≠ some '\n' := fun heq => hfeed (Option.some.inj heq)
          rw [columnAfter_concat (by simpa using ⟨hfeed, hreturn⟩), ← column_across_start hseen]
          exact iff_of_true rfl hreturn
  · exact iff_of_true (column_across_start hback) fun h => hback h.2

-- ==================================================================== requests

/-- How a cursor over a text may begin: in front of it, or at a known place of
it that is not inside of a line break. -/
inductive Begins : List Char → Cursor → Prop
  | start (text : List Char) : Begins text (start text)
  | setDown (front back : List Char) (h : ¬ Splits front back) :
      Begins (front ++ back)
        (startingAt (front ++ back) ((start (front ++ back)).position (Text.byteSize front)).1)

theorem Begins.sees (h : Begins text k) : k.Sees text := by
  cases h with
  | start => exact sees_start text
  | setDown front back h => exact sees_startingAt_of_column (column_across_eq_iff.mpr h)

/-- The cursor behind some requests. -/
def Cursor.after (k : Cursor) (requests : List Nat) : Cursor :=
  requests.foldl (fun k n => (k.position n).2) k

theorem Cursor.Sees.after (h : k.Sees text) (requests : List Nat) :
    (k.after requests).Sees text := by
  induction requests generalizing k with
  | nil => exact h
  | cons n requests ih => exact ih (h.position n).2

/-- However a cursor began and whatever was asked of it, it tells the position
of a byte as one that has not been moved does: the line breaks that end at or
before the byte, the byte itself or the end of the text, and a column where no
character is cut. -/
theorem position_after (hk : Begins text k) (requests : List Nat) (n : Nat) :
    ((k.after requests).position n).1 = ((start text).position n).1
      ∧ ((start text).position n).1.line = (breakEnds 0 text).countP (· ≤ n)
      ∧ ((start text).position n).1.offset = min n (Text.byteSize text)
      ∧ (((start text).position n).1.column.isSome
        ↔ IsBoundary text (min n (Text.byteSize text))) := by
  refine ⟨?_, line_ofOffset text n, offset_ofOffset text n, isSome_column_iff text n⟩
  have hsees : (k.after requests).Sees text := hk.sees.after requests
  exact (hsees.position n).1

/-- A cursor that was set down before a line feed alone, moved on, back and
behind the end, and asked for a place inside of a line break. -/
theorem position_after_mixed :
    ¬ Splits "a\rb\r\nc".toList "\nd".toList
      ∧ (((startingAt "a\rb\r\nc\nd".toList (ofOffset "a\rb\r\nc\nd".toList 6)).after
        [7, 2, 100]).position 4).1 = ⟨1, some 2, 4⟩ := by
  have hsplits : ¬ Splits "a\rb\r\nc".toList "\nd".toList := by
    rintro ⟨hlast, -⟩
    cases hlast
  refine ⟨hsplits, ?_⟩
  have hposition := (position_after (.setDown _ _ hsplits) [7, 2, 100] 4).1
  exact hposition.trans (by decide)

end ResourceLint.Position
