/-
The pieces of a text lie side by side in it.

Whatever `next` takes off a text, it leaves an end of it
(`of_next`).  So the pieces of a scan follow each other, each
beginning at the byte where the last one stopped, and none reaches past the
end of the text: they are `InRow`.  Of a tag a little more is needed.  Its
content and the two brackets around it are all that stands between its
first byte and its last, so the last `<` of a tag lies inside it
(`tagStart_bounds`), even where that is not the bracket it begins with.
-/
import ResourceLint.Xml.Parse

namespace ResourceLint.Xml

variable {c : Char} {s a b rest after content : List Char} {piece : Lexeme}
  {start stop at' hi : Nat}

-- ============================================================ what is left

/-- What is cut off a tag, its bracket and what is left are the text. -/
theorem eq_append_of_cutTag {quote : Option Char} (h : cutTag quote s = some (a, b)) :
    s = a ++ '>' :: b := by
  induction s generalizing quote a with
  | nil => cases quote <;> simp [cutTag] at h
  | cons c rest ih =>
      cases quote with
      | none =>
          simp only [cutTag] at h
          split at h
          · next hc =>
              simp only [Option.some.injEq, Prod.mk.injEq] at h
              rw [← h.1, h.2, beq_iff_eq.mp hc]
              rfl
          · obtain ⟨⟨x, y⟩, hx, he⟩ := Option.map_eq_some_iff.mp h
            simp only [Prod.mk.injEq] at he
            rw [← he.1, ih (he.2 ▸ hx)]
            rfl
      | some q =>
          simp only [cutTag] at h
          obtain ⟨⟨x, y⟩, hx, he⟩ := Option.map_eq_some_iff.mp h
          simp only [Prod.mk.injEq] at he
          rw [← he.1, ih (he.2 ▸ hx)]
          rfl

/-- What is left behind a tag is an end of the text. -/
theorem suffix_of_cutTag (h : cutTag none s = some (a, b)) : b <:+ s :=
  ⟨a ++ ['>'], by rw [eq_append_of_cutTag h]; simp⟩

theorem suffix_of_cutBalanced {depth : Nat} (h : cutBalanced depth s = some (a, b)) :
    b <:+ s := by
  induction s generalizing depth a with
  | nil => simp [cutBalanced] at h
  | cons c rest ih =>
      simp only [cutBalanced] at h
      split at h
      · cases depth with
        | zero =>
            simp only [Option.some.injEq, Prod.mk.injEq] at h
            exact h.2 ▸ List.suffix_cons c rest
        | succ depth =>
            obtain ⟨⟨x, y⟩, hx, he⟩ := Option.map_eq_some_iff.mp h
            simp only [Prod.mk.injEq] at he
            exact (ih (he.2 ▸ hx)).trans (List.suffix_cons c rest)
      · obtain ⟨⟨x, y⟩, hx, he⟩ := Option.map_eq_some_iff.mp h
        simp only [Prod.mk.injEq] at he
        exact (ih (he.2 ▸ hx)).trans (List.suffix_cons c rest)

theorem suffix_of_stripWord? {word : List Char} (h : stripWord? word s = some rest) :
    rest <:+ s := by
  induction word generalizing s with
  | nil =>
      simp only [stripWord?, Option.some.injEq] at h
      exact h ▸ List.suffix_refl _
  | cons a word ih =>
      cases s with
      | nil => cases h
      | cons c s =>
          simp only [stripWord?] at h
          split at h
          · exact (ih h).trans (List.suffix_cons c s)
          · cases h

theorem suffix_of_cut? {mark : List Char} (h : Text.cut? mark s = some (a, b)) : b <:+ s := by
  rw [Text.eq_append_of_cut? h]
  exact List.suffix_append _ _

theorem suffix_of_strip?_cut? {lead mark : List Char}
    (h : (Text.strip? lead s).bind (Text.cut? mark) = some (a, b)) : b <:+ s := by
  obtain ⟨mid, hmid, hcut⟩ := Option.bind_eq_some_iff.mp h
  rw [Text.strip?_eq_some_iff.mp hmid]
  exact (suffix_of_cut? hcut).trans (List.suffix_append _ _)

/-- What is neither a tag nor an end tag, as the pieces of a declaration
are. -/
def Lexeme.IsTag : Lexeme → Prop
  | .tag _ | .endTag _ => True
  | .text _ | .literal _ | .aside => False

/-- A declaration leaves an end of the text and is no tag. -/
theorem of_nextDeclaration (h : nextDeclaration s = .ok (piece, after)) :
    after <:+ s ∧ ¬ piece.IsTag := by
  unfold nextDeclaration at h
  split at h
  · split at h
    · next hcut =>
        cases h
        exact ⟨suffix_of_strip?_cut? hcut, id⟩
    · cases h
  · split at h
    · next hcut =>
        cases h
        exact ⟨suffix_of_strip?_cut? hcut, id⟩
    · cases h
  -- definitions of elements and entities are balanced in the same way
  iterate 2
    · split at h
      · next hcut =>
          split at h
          · cases h
          · cases h
            obtain ⟨mid, hmid, hbalanced⟩ := Option.bind_eq_some_iff.mp hcut
            exact ⟨(suffix_of_cutBalanced hbalanced).trans (suffix_of_stripWord? hmid), id⟩
      · cases h
  · cases h

theorem of_nextInstruction (h : nextInstruction s = .ok (piece, after)) :
    after <:+ s ∧ ¬ piece.IsTag := by
  unfold nextInstruction at h
  split at h
  · cases h
  · split at h
    · next hcut =>
        cases h
        exact ⟨suffix_of_cut? hcut, id⟩
    · cases h

/-- A piece leaves an end of the text; a tag is all that is taken, with its
brackets. -/
theorem of_next (h : next c rest = .ok (piece, after)) :
    after <:+ rest
      ∧ ∀ content, piece = .tag content → c :: rest = '<' :: content ++ '>' :: after := by
  unfold next at h
  split at h
  · next hc =>
      rw [beq_iff_eq.mp hc]
      unfold nextMarkup at h
      split at h
      · obtain ⟨hsuffix, htag⟩ := of_nextDeclaration h
        refine ⟨hsuffix.trans (List.suffix_cons _ _), ?_⟩
        rintro content rfl
        exact absurd trivial htag
      · obtain ⟨hsuffix, htag⟩ := of_nextInstruction h
        refine ⟨hsuffix.trans (List.suffix_cons _ _), ?_⟩
        rintro content rfl
        exact absurd trivial htag
      · split at h
        · -- an end tag; it is no start tag
          next hcut =>
            cases h
            exact ⟨(suffix_of_cutTag hcut).trans (List.suffix_cons _ _), fun _ h => by cases h⟩
        · cases h
      · split at h
        · next hcut =>
            cases h
            refine ⟨suffix_of_cutTag hcut, ?_⟩
            rintro content heq
            cases heq
            rw [eq_append_of_cutTag hcut]
            rfl
        · cases h
  · cases h
    exact ⟨List.dropWhile_suffix _, fun _ h => by cases h⟩

-- ============================================================ side by side

/-- Pieces from one byte on that follow each other and stay before another;
what is in a tag is between its brackets. -/
def InRow (at' hi : Nat) : List Placed → Prop
  | [] => at' ≤ hi
  | p :: more =>
    p.start = at' ∧ p.start ≤ p.stop
      ∧ (∀ content, p.lexeme = .tag content → p.stop = p.start + Text.byteSize content + 2)
      ∧ InRow p.stop hi more

/-- Pieces in a row end no earlier than they begin. -/
theorem InRow.le {pieces : List Placed} (h : InRow at' hi pieces) : at' ≤ hi := by
  induction pieces generalizing at' with
  | nil => exact h
  | cons p more ih =>
      obtain ⟨hstart, hle, -, hmore⟩ := h
      have hrest := ih hmore
      omega

/-- Every piece in a row is as the row says. -/
theorem InRow.of_mem {pieces : List Placed} (h : InRow at' hi pieces) {p : Placed}
    (hp : p ∈ pieces) :
    p.stop ≤ hi
      ∧ ∀ content, p.lexeme = .tag content → p.stop = p.start + Text.byteSize content + 2 := by
  induction pieces generalizing at' with
  | nil => cases hp
  | cons first more ih =>
      obtain ⟨-, -, htag, hmore⟩ := h
      rcases List.mem_cons.mp hp with rfl | hp
      · exact ⟨hmore.le, htag⟩
      · exact ih hmore hp

/-- An end of a text is no longer than the text. -/
theorem byteSize_le_of_suffix (h : a <:+ b) : Text.byteSize a ≤ Text.byteSize b := by
  obtain ⟨front, rfl⟩ := h
  rw [Text.byteSize_append]
  omega

/-- The pieces of a text are in a row, from its first byte to its last. -/
theorem inRow_scan (start : Nat) (s : List Char) :
    InRow start (start + Text.byteSize s) (scan start s).pieces := by
  induction start, s using scan.induct with
  | case1 start =>
      rw [scan]
      exact Nat.le_add_right _ _
  | case2 start c rest fault hnext =>
      rw [scan]
      split
      · exact Nat.le_add_right _ _
      · next hother =>
          rw [hnext] at hother
          cases hother
  | case3 start c rest piece after hnext stop ih =>
      obtain ⟨hsuffix, htag⟩ := of_next hnext
      have hsize := byteSize_le_of_suffix (hsuffix.trans (List.suffix_cons c rest))
      have hend : stop + Text.byteSize after = start + Text.byteSize (c :: rest) := by omega
      rw [hend] at ih
      rw [scan]
      split
      · next hother =>
          rw [hnext] at hother
          cases hother
      · next hother =>
          rw [hnext] at hother
          cases hother
          refine ⟨rfl, Nat.le_add_right _ _, fun content hcontent => ?_, ih⟩
          -- the two brackets are one byte each
          have hall := congrArg Text.byteSize (htag content hcontent)
          have hopen : '<'.utf8Size = 1 := by decide
          have hclose : '>'.utf8Size = 1 := by decide
          simp only [List.cons_append, Text.byteSize_cons, Text.byteSize_append, hopen,
            hclose] at hall
          simp only [Text.byteSize_cons]
          omega

theorem byteSize_reverse (s : List Char) : Text.byteSize s.reverse = Text.byteSize s := by
  induction s with
  | nil => rfl
  | cons c s ih =>
      rw [List.reverse_cons, Text.byteSize_append, ih]
      simp only [Text.byteSize_cons, Text.byteSize_nil]
      omega

/-- The last `<` of a tag lies inside it. -/
theorem tagStart_bounds (h : stop = start + Text.byteSize content + 2) :
    start ≤ tagStart content stop ∧ tagStart content stop < stop := by
  have hsize : Text.byteSize (content.reverse.takeWhile (· != '<')) ≤ Text.byteSize content := by
    have hall := byteSize_reverse content
    have hsplit := congrArg Text.byteSize
      (List.takeWhile_append_dropWhile (p := (· != '<')) (l := content.reverse))
    rw [Text.byteSize_append] at hsplit
    omega
  unfold tagStart
  omega

end ResourceLint.Xml
