/-
Where elements and attributes are said to stand.

An attribute is searched in the stretch of text of its element, and its place
is counted by a cursor that is set down at the element's start
(`Cursor.startingAt`).  Such a cursor knows the line of the start and counts
the column itself, back to the last character that ends lines.  It differs
from one that walked there only in between a carriage return and its line
feed, where no element starts: a bracket stands there (`exists_bracket`).  So
it answers as every other cursor does (`sees_startingAt`), and the range of
an attribute is that of two bytes of the text (`attributeRange?_eq`).
-/
import ResourceLint.Proofs.Numbering
import ResourceLint.Proofs.StartTags
import ResourceLint.Xml.Range

namespace ResourceLint

/-- Texts that begin alike do so by as many characters as bytes. -/
theorem Text.eq_of_append_eq {a b c d : List Char} (h : a ++ b = c ++ d)
    (hbytes : byteSize a = byteSize c) : a = c := by
  induction a generalizing c with
  | nil =>
      cases c with
      | nil => rfl
      | cons x c =>
          have hpos := x.utf8Size_pos
          rw [byteSize_nil, byteSize_cons] at hbytes
          omega
  | cons x a ih =>
      cases c with
      | nil =>
          have hpos := x.utf8Size_pos
          rw [byteSize_nil, byteSize_cons] at hbytes
          omega
      | cons y c =>
          obtain ⟨rfl, hrest⟩ := List.cons.inj h
          rw [byteSize_cons, byteSize_cons, Nat.add_left_cancel_iff] at hbytes
          rw [ih hrest hbytes]

-- ================================================= cursors that are set down

namespace Position

open Cursor

variable {k : Cursor} {s text seen front back : List Char} {c : Char} {m n : Nat}

/-- Behind the end of a text there is no other place. -/
theorem ofOffset_of_byteSize_le (h : Text.byteSize text ≤ n) :
    ofOffset text n = ofOffset text (Text.byteSize text) := by
  obtain ⟨passed, htext, hoffset, -, hstop⟩ := @exists_walk (start text) text n rfl
  have hbegin : (start text).offset = 0 := rfl
  rw [hbegin, Nat.zero_add] at hoffset
  have hsize := congrArg Text.byteSize htext
  rw [Text.byteSize_append] at hsize
  have hrest : (walk n (start text) text).rest = [] := by
    cases hrest : (walk n (start text) text).rest with
    | nil => rfl
    | cons c more =>
        have hnext := hstop c more hrest
        rw [hrest, Text.byteSize_cons] at hsize
        omega
  have hwalk : walk (Text.byteSize text) (start text) text = walk n (start text) text :=
    walk_eq_walk (by omega) h
  unfold ofOffset position
  simp only [seek_start, hwalk, hrest, List.isEmpty_nil, Bool.not_true, Bool.and_false]
  rfl

/-- The place of a byte is known by its offset. -/
theorem ofOffset_offset (text : List Char) (n : Nat) :
    ofOffset text (ofOffset text n).offset = ofOffset text n := by
  rw [offset_ofOffset]
  rcases Nat.le_total n (Text.byteSize text) with h | h
  · rw [Nat.min_eq_left h]
  · rw [Nat.min_eq_right h, ofOffset_of_byteSize_le h]

/-- No place lies behind the end of the text. -/
theorem offset_ofOffset_le (text : List Char) (n : Nat) :
    (ofOffset text n).offset ≤ Text.byteSize text := by
  rw [offset_ofOffset]
  exact Nat.min_le_right ..

namespace Cursor

/-- Inside a line a character takes one column. -/
theorem columnAfter_concat (h : (c != '\n' && c != '\r') = true) :
    columnAfter (seen ++ [c]) = columnAfter seen + 1 := by
  unfold columnAfter
  simp only [List.reverse_append, List.reverse_singleton, List.singleton_append,
    List.takeWhile_cons, h, if_true, List.length_cons]

/-- Behind an end of a line the columns begin anew. -/
theorem columnAfter_concat_end (h : ¬ (c != '\n' && c != '\r') = true) :
    columnAfter (seen ++ [c]) = 0 := by
  unfold columnAfter
  simp only [List.reverse_append, List.reverse_singleton, List.singleton_append,
    List.takeWhile_cons, h, Bool.false_eq_true, if_false, List.length_nil]

/-- A cursor behind `seen` counts as `columnAfter` does, unless it stands
before the line feed of an end of line of two characters. -/
def Counts (seen : List Char) (k : Cursor) : Prop :=
  k.rest.head? ≠ some '\n' → k.column = columnAfter seen

/-- A step counts its character. -/
theorem Counts.step {rest : List Char} (h : k.Counts seen) (hrest : k.rest = c :: rest) :
    (k.step c rest).Counts (seen ++ [c]) := by
  intro hnext
  rw [rest_step] at hnext
  unfold Cursor.step
  by_cases hc : (c != '\n' && c != '\r') = true
  · obtain ⟨hfeed, hreturn⟩ : c ≠ '\n' ∧ c ≠ '\r' := by simpa using hc
    have hends : endsLine c rest = false := by
      unfold endsLine
      rw [beq_eq_false_iff_ne.mpr hfeed, beq_eq_false_iff_ne.mpr hreturn]
      rfl
    have hcolumn := h fun hhead => hfeed (Option.some.inj (by rw [← hhead, hrest]; rfl))
    rw [hends, columnAfter_concat hc, ← hcolumn]
    rfl
  · have hends : endsLine c rest = true := by
      unfold endsLine
      rw [bne_iff_ne.mpr hnext, Bool.and_true]
      simpa [or_iff_not_imp_left] using hc
    rw [hends, columnAfter_concat_end hc]
    rfl

/-- A cursor that has gone over a stretch of text, with `back` behind it. -/
def across (back : List Char) (k : Cursor) : List Char → Cursor
  | [] => k
  | c :: front => across back (k.step c (front ++ back)) front

/-- A walk over the front of a text goes over it and no further. -/
theorem walk_append (k : Cursor) (front back : List Char) :
    walk (k.offset + Text.byteSize front) k (front ++ back) = k.across back front := by
  induction front generalizing k with
  | nil =>
      cases back with
      | nil => rfl
      | cons c back =>
          have hpos := c.utf8Size_pos
          rw [List.nil_append, walk, if_neg (by rw [Text.byteSize_nil]; omega)]
          rfl
  | cons c front ih =>
      have hnext := ih (k.step c (front ++ back))
      rw [offset_step, Nat.add_assoc] at hnext
      rw [List.cons_append, walk, if_pos (by rw [Text.byteSize_cons]; omega), Text.byteSize_cons]
      exact hnext

/-- So it does from the beginning of the text. -/
theorem walk_start_append (front back : List Char) :
    walk (Text.byteSize front) (start (front ++ back)) (front ++ back)
      = (start (front ++ back)).across back front := by
  rw [← walk_append, show (start (front ++ back)).offset = 0 from rfl, Nat.zero_add]

/-- Across a stretch of text the rest is what comes behind it, -/
theorem rest_across (hk : k.rest = front ++ back) : (k.across back front).rest = back := by
  induction front generalizing k with
  | nil => exact hk
  | cons c front ih => exact ih (rest_step (k := k) c (front ++ back))

theorem offset_across (k : Cursor) (front back : List Char) :
    (k.across back front).offset = k.offset + Text.byteSize front := by
  induction front generalizing k with
  | nil => rfl
  | cons c front ih => rw [across, ih, offset_step, Text.byteSize_cons, Nat.add_assoc]

/-- A cursor that counts does so behind any stretch. -/
theorem Counts.across (h : k.Counts seen) (hk : k.rest = front ++ back) :
    (k.across back front).Counts (seen ++ front) := by
  induction front generalizing k seen with
  | nil =>
      rw [List.append_nil]
      exact h
  | cons c front ih =>
      have hnext := ih (h.step hk) (rest_step (k := k) c (front ++ back))
      rw [List.append_assoc] at hnext
      exact hnext

/-- Behind a stretch of text that is not cut inside of an end of line, the
column is the number of characters back to one that ends lines. -/
theorem column_across_start (hback : back.head? ≠ some '\n') :
    ((start (front ++ back)).across back front).column = columnAfter front := by
  have hbegin : (start (front ++ back)).Counts [] := fun _ => rfl
  refine hbegin.across rfl ?_
  rwa [rest_across rfl]

/-- A cursor that is set down at a known place answers as if it had walked
there, where the characters back to the last one that ends lines are its
column. -/
theorem sees_startingAt_of_column
    (hcolumn : ((start (front ++ back)).across back front).column = columnAfter front) :
    Sees (front ++ back)
      (startingAt (front ++ back) (ofOffset (front ++ back) (Text.byteSize front))) := by
  have hend : (ofOffset (front ++ back) (Text.byteSize front)).offset = Text.byteSize front :=
    offset_ofOffset_of_le (by rw [Text.byteSize_append]; omega)
  have hfront : (front ++ back).take ((front ++ back).length
      - ((start (front ++ back)).across back front).rest.length) = front := by
    rw [rest_across rfl, List.length_append, Nat.add_sub_cancel, List.take_left]
  refine ⟨Text.byteSize front, ?_⟩
  unfold startingAt
  rw [hend]
  dsimp only
  rw [walk_start_append, hfront, ← hcolumn]
  unfold ofOffset position
  rw [seek_start, walk_start_append]

/-- So it does where no line feed comes behind it. -/
theorem sees_startingAt (hback : back.head? ≠ some '\n') :
    Sees (front ++ back)
      (startingAt (front ++ back) (ofOffset (front ++ back) (Text.byteSize front))) :=
  sees_startingAt_of_column (column_across_start hback)

end Cursor

end Position

namespace Xml

open Position (Cursor)

-- ======================================================= ranges of attributes

variable {name s source front back content : List Char} {a : Assignment} {d : Document} {n m : Nat}

/-- An assignment is found at the head of the text, and leaves an end of it. -/
theorem suffix_of_assignment? (h : assignment? s = some a) :
    a.fromName = s ∧ a.after <:+ s := by
  unfold assignment? at h
  dsimp only at h
  split at h
  · cases h
  · split at h
    · next value hvalue =>
        split at h
        · next quote content hquote =>
            split at h
            · split at h
              · next last after hafter =>
                  cases h
                  -- each step of the reading drops a front of the text
                  have hcontent : content <:+ s := by
                    refine (List.suffix_cons quote content).trans (hquote ▸ ?_)
                    refine (List.dropWhile_suffix _).trans ?_
                    refine (List.suffix_cons '=' value).trans (hvalue ▸ ?_)
                    exact (List.dropWhile_suffix _).trans (List.dropWhile_suffix _)
                  refine ⟨rfl, (List.suffix_cons last _).trans (hafter ▸ ?_)⟩
                  exact (List.dropWhile_suffix _).trans hcontent
              · cases h
            · cases h
        · cases h
    · cases h

/-- What is found begins and ends in the text that was searched. -/
theorem suffix_of_findAssignment? (h : findAssignment? name s = some a) :
    a.fromName <:+ s ∧ a.after <:+ s := by
  -- found, another one found, none at this blank, or no blank
  induction s using findAssignment?.induct name with
  | case1 =>
      rw [findAssignment?] at h
      cases h
  | case2 c rest hblank found hfound hname =>
      rw [findAssignment?, if_pos hblank] at h
      split at h
      · next hother =>
          cases hfound.symm.trans hother
          rw [if_pos hname] at h
          cases h
          obtain ⟨hfrom, hafter⟩ := suffix_of_assignment? hfound
          exact ⟨hfrom ▸ List.suffix_cons c rest, hafter.trans (List.suffix_cons c rest)⟩
      · next hother => cases hfound.symm.trans hother
  | case3 c rest hblank found hfound hname ih =>
      rw [findAssignment?, if_pos hblank] at h
      split at h
      · next hother =>
          cases hfound.symm.trans hother
          rw [if_neg hname] at h
          obtain ⟨hfrom, hafter⟩ := ih h
          have hrest := (suffix_of_assignment? hfound).2.trans (List.suffix_cons c rest)
          exact ⟨hfrom.trans hrest, hafter.trans hrest⟩
      · next hother => cases hfound.symm.trans hother
  | case4 c rest hblank hfound ih =>
      rw [findAssignment?, if_pos hblank] at h
      split at h
      · next hother => cases hfound.symm.trans hother
      · obtain ⟨hfrom, hafter⟩ := ih h
        exact ⟨hfrom.trans (List.suffix_cons c rest), hafter.trans (List.suffix_cons c rest)⟩
  | case5 c rest hblank ih =>
      rw [findAssignment?, if_neg hblank] at h
      obtain ⟨hfrom, hafter⟩ := ih h
      exact ⟨hfrom.trans (List.suffix_cons c rest), hafter.trans (List.suffix_cons c rest)⟩

/-- No more bytes are taken than asked for. -/
theorem byteSize_takeBytes (n : Nat) (s : List Char) : Text.byteSize (takeBytes n s) ≤ n := by
  induction s generalizing n with
  | nil => exact Nat.zero_le n
  | cons c rest ih =>
      rw [takeBytes]
      split
      · have hrest := ih (n - c.utf8Size)
        rw [Text.byteSize_cons]
        omega
      · exact Nat.zero_le n

/-- Dropping goes on behind what was dropped. -/
theorem dropBytes_add (n : Nat) (front s : List Char) :
    dropBytes (Text.byteSize front + n) (front ++ s) = dropBytes n s := by
  induction front with
  | nil => rw [Text.byteSize_nil, Nat.zero_add, List.nil_append]
  | cons c front ih =>
      have hsize : c.utf8Size + Text.byteSize front + n - c.utf8Size = Text.byteSize front + n := by
        omega
      rw [List.cons_append, dropBytes, Text.byteSize_cons, if_pos (by omega), hsize, ih]

/-- The range of an attribute is that of two bytes of the text, and both lie
in the stretch of its element. -/
theorem attributeRange?_eq {span : Span} {name : String}
    (h : (Cursor.startingAt source span.start).Sees source) :
    attributeRange? source span name
      = (findAssignment? name.toList (Span.cut span source)).map fun a =>
          ⟨Position.ofOffset source (span.stop.offset - Text.byteSize a.fromName),
            Position.ofOffset source (span.stop.offset - Text.byteSize a.after)⟩ := by
  unfold attributeRange?
  congr 1
  funext a
  obtain ⟨hfirst, hsees⟩ := h.position (span.stop.offset - Text.byteSize a.fromName)
  obtain ⟨hlast, -⟩ := hsees.position (span.stop.offset - Text.byteSize a.after)
  dsimp only
  rw [hfirst, hlast]

/-- The name of a found attribute and what follows its value are shorter than
the stretch that was searched. -/
theorem byteSize_of_findAssignment? {span : Span} {name : List Char}
    (h : findAssignment? name (Span.cut span source) = some a) :
    Text.byteSize a.fromName ≤ span.stop.offset ∧ Text.byteSize a.after ≤ span.stop.offset := by
  obtain ⟨hfrom, hafter⟩ := suffix_of_findAssignment? h
  have hcut : Text.byteSize (Span.cut span source) ≤ span.stop.offset := by
    unfold Span.cut
    exact (byteSize_takeBytes _ _).trans (Nat.sub_le _ _)
  exact ⟨(byteSize_le_of_suffix hfrom).trans hcut, (byteSize_le_of_suffix hafter).trans hcut⟩

-- ========================================================== starts of elements

/-- Where the last bracket of a tag stands, the text goes on with it. -/
theorem exists_of_tagStart (content : List Char) :
    ∃ x y, '<' :: content = x ++ '<' :: y
      ∧ ∀ start, tagStart content (start + Text.byteSize content + 2)
        = start + Text.byteSize x := by
  have hsize := byteSize_reverse content
  have hsplit := List.takeWhile_append_dropWhile (p := (· != '<')) (l := content.reverse)
  have hbytes := congrArg Text.byteSize hsplit
  rw [Text.byteSize_append, hsize] at hbytes
  unfold tagStart
  -- the tag itself begins with the last bracket, or there is one more inside
  rcases head?_dropWhile_bracket content.reverse with hback | hback
  · rw [hback, Text.byteSize_nil] at hbytes
    exact ⟨[], content, rfl, fun start => by rw [Text.byteSize_nil]; omega⟩
  · obtain ⟨back, hback⟩ := List.head?_eq_some_iff.mp hback
    have hopen : '<'.utf8Size = 1 := by decide
    rw [hback, Text.byteSize_cons, hopen] at hbytes
    rw [hback] at hsplit
    refine ⟨'<' :: back.reverse, (content.reverse.takeWhile (· != '<')).reverse, ?_, ?_⟩
    · have hcontent := congrArg List.reverse hsplit
      rw [List.reverse_reverse, List.reverse_append, List.reverse_cons] at hcontent
      conv => lhs; rw [← hcontent]
      simp
    · intro start
      rw [Text.byteSize_cons, byteSize_reverse, hopen]
      omega

/-- An element was opened by a tag of the text. -/
theorem Document.exists_opens {text : String} (h : Document.parse text = .ok d) {e : Element}
    (he : e ∈ d.elements) :
    ∃ t ∈ startTags text.toList, Opens text.toList t (e.tag, e.span.start) := by
  have hopens := forall₂_opens_elements h
  exact exists_of_forall₂ (List.Forall₂.flip (R := flip _) hopens) he

/-- An element begins at a bracket. -/
theorem Document.exists_bracket {text : String} (h : Document.parse text = .ok d) {e : Element}
    (he : e ∈ d.elements) :
    ∃ front back, text.toList = front ++ '<' :: back
      ∧ e.span.start = Position.ofOffset text.toList (Text.byteSize front) := by
  obtain ⟨t, ht, hopens⟩ := exists_opens h he
  obtain ⟨p, hp, htag⟩ := List.mem_filterMap.mp ht
  obtain ⟨hlexeme, hstart⟩ := startTag?_eq_some htag
  obtain ⟨front, back, htext, hfront⟩ := exists_of_mem_scan hp hlexeme
  rw [Nat.zero_add, hstart] at hfront
  obtain ⟨x, y, hsplit, htagStart⟩ := exists_of_tagStart t.content
  refine ⟨front ++ x, y ++ '>' :: back, ?_, ?_⟩
  · rw [htext, hsplit]
    simp
  · rw [Text.byteSize_append, ← hfront, ← htagStart t.start]
    exact hopens.start

/-- So the places of its attributes are those of the text. -/
theorem Document.sees_startingAt {text : String} (h : Document.parse text = .ok d) {e : Element}
    (he : e ∈ d.elements) : (Cursor.startingAt text.toList e.span.start).Sees text.toList := by
  obtain ⟨front, back, htext, hstart⟩ := exists_bracket h he
  rw [hstart, htext]
  exact Cursor.sees_startingAt fun hhead => by cases hhead

end Xml

end ResourceLint
