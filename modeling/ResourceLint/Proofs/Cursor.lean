/-
A cursor finds what a search from the beginning finds.

A cursor keeps its place between requests, and a request may come from
before it or from behind it.  A cursor that `Sees` a text has only been moved
by requests; wherever they left it, the next one is answered as the first
would have been (`Sees.position`).  So the position of a byte is a function
of the text and the byte (`Position.ofOffset`), and its offset is the byte,
or the end of the text where that is earlier (`offset_ofOffset`).

The walk goes over whole characters, so it stops where the next character
would end behind the target.  Everything follows from what that says about
two targets: to the later one a walk may go in two parts (`walk_walk`), and
between the place where it stopped and the target there is no other place to
stop (`walk_eq_walk`).
-/
import ResourceLint.Position

namespace ResourceLint.Position

namespace Cursor

variable {k : Cursor} {s text : List Char} {m n : Nat}

-- ================================================================= walks

@[simp] theorem text_step (c : Char) (rest : List Char) : (k.step c rest).text = k.text := by
  unfold step
  split <;> rfl

@[simp] theorem offset_step (c : Char) (rest : List Char) :
    (k.step c rest).offset = k.offset + c.utf8Size := by
  unfold step
  split <;> rfl

@[simp] theorem rest_step (c : Char) (rest : List Char) : (k.step c rest).rest = rest := by
  unfold step
  split <;> rfl

theorem text_walk : (walk n k s).text = k.text := by
  induction s generalizing k with
  | nil => rfl
  | cons c rest ih =>
      rw [walk]
      split
      · rw [ih, text_step]
      · rfl

/-- A walk never goes back. -/
theorem le_offset_walk : k.offset ≤ (walk n k s).offset := by
  induction s generalizing k with
  | nil => exact Nat.le_refl _
  | cons c rest ih =>
      rw [walk]
      split
      · have hrest := @ih (k.step c rest)
        rw [offset_step] at hrest
        omega
      · exact Nat.le_refl _

/-- A walk passes over the front of a text, as far as the target allows. -/
theorem exists_walk (hk : k.rest = s) :
    ∃ passed, s = passed ++ (walk n k s).rest
      ∧ (walk n k s).offset = k.offset + Text.byteSize passed
      ∧ (k.offset ≤ n → (walk n k s).offset ≤ n)
      ∧ ∀ c more, (walk n k s).rest = c :: more → n < (walk n k s).offset + c.utf8Size := by
  -- along the text: a character is passed while the next place is still at or before the
  -- target
  induction s generalizing k with
  | nil =>
      refine ⟨[], ?_, rfl, fun h => h, fun c more heq => ?_⟩
      · rw [walk, hk]
        rfl
      · rw [walk, hk] at heq
        cases heq
  | cons c rest ih =>
      rw [walk]
      split
      · next hstep =>
          obtain ⟨passed, hpassed, hoffset, hle, hstop⟩ := ih (rest_step (k := k) c rest)
          rw [offset_step] at hoffset hle
          refine ⟨c :: passed, ?_, ?_, fun _ => hle hstep, hstop⟩
          · rw [List.cons_append, ← hpassed]
          · rw [hoffset, Text.byteSize_cons]
            omega
      · next hstop =>
          refine ⟨[], hk.symm, rfl, fun h => h, fun d more heq => ?_⟩
          rw [hk] at heq
          cases heq
          omega

/-- A walk to the later of two targets may rest at the earlier one. -/
theorem walk_walk (hk : k.rest = s) (h : m ≤ n) :
    walk n (walk m k s) (walk m k s).rest = walk n k s := by
  induction s generalizing k with
  | nil =>
      show walk n k k.rest = walk n k []
      rw [hk]
  | cons c rest ih =>
      by_cases hstep : k.offset + c.utf8Size ≤ m
      · have hlater : k.offset + c.utf8Size ≤ n := by omega
        rw [walk, walk, if_pos hstep, if_pos hlater]
        exact ih (rest_step c rest)
      · have hstays : walk m k (c :: rest) = k := by rw [walk, if_neg hstep]
        rw [hstays, hk]

/-- Between the place where a walk stopped and its target there is no other
place to stop. -/
theorem walk_eq_walk (hle : (walk m k s).offset ≤ n) (h : n ≤ m) : walk n k s = walk m k s := by
  induction s generalizing k with
  | nil => rfl
  | cons c rest ih =>
      by_cases hstep : k.offset + c.utf8Size ≤ m
      · rw [walk, if_pos hstep] at hle
        have hpassed : (k.step c rest).offset ≤ (walk m (k.step c rest) rest).offset :=
          le_offset_walk
        rw [offset_step] at hpassed
        have hearlier : k.offset + c.utf8Size ≤ n := by omega
        rw [walk, walk, if_pos hstep, if_pos hearlier]
        exact ih hle
      · have hearlier : ¬ k.offset + c.utf8Size ≤ n := by omega
        rw [walk, walk, if_neg hstep, if_neg hearlier]

-- ================================================================ requests

/-- From the beginning a place is sought by walking. -/
theorem seek_start : (start text).seek n = walk n (start text) text := by
  unfold seek
  rw [if_neg (show ¬ n < (start text).offset from Nat.not_lt_zero n)]
  rfl

/-- A request is answered as if it were the first. -/
theorem seek_seek (text : List Char) (m n : Nat) :
    ((start text).seek m).seek n = (start text).seek n := by
  rw [seek_start, seek_start]
  unfold seek
  by_cases hback : n < (walk m (start text) text).offset
  · rw [if_pos hback, text_walk]
    rfl
  · rw [if_neg hback]
    by_cases h : m ≤ n
    · exact walk_walk rfl h
    · -- the first walk went past the target and stopped before it
      have hsame : walk n (start text) text = walk m (start text) text :=
        walk_eq_walk (by omega) (by omega)
      rw [← hsame]
      exact walk_walk rfl (Nat.le_refl n)

/-- A cursor over a text, moved by requests only. -/
def Sees (text : List Char) (k : Cursor) : Prop := ∃ n, k = (start text).seek n

/-- A cursor at the beginning sees the text. -/
theorem sees_start (text : List Char) : Sees text (start text) := by
  refine ⟨0, ?_⟩
  rw [seek_start]
  cases text with
  | nil => rfl
  | cons c rest =>
      have hpos := c.utf8Size_pos
      rw [walk, if_neg]
      show ¬ 0 + c.utf8Size ≤ 0
      omega

/-- The position of a byte does not depend on the requests before. -/
theorem Sees.position (h : Sees text k) (n : Nat) :
    (k.position n).1 = ofOffset text n ∧ Sees text (k.position n).2 := by
  obtain ⟨m, rfl⟩ := h
  have hseek := seek_seek text m n
  unfold Cursor.position ofOffset
  unfold Cursor.position
  rw [hseek]
  exact ⟨rfl, n, rfl⟩

end Cursor

variable {text : List Char} {n : Nat}

/-- The offset of a position is the byte that was asked for, or the end. -/
theorem offset_ofOffset (text : List Char) (n : Nat) :
    (ofOffset text n).offset = min n (Text.byteSize text) := by
  obtain ⟨passed, htext, hoffset, hle, hstop⟩ :=
    @Cursor.exists_walk (Cursor.start text) text n rfl
  have hbegin : (Cursor.start text).offset = 0 := rfl
  rw [hbegin, Nat.zero_add] at hoffset
  have hbefore := hle (Nat.zero_le n)
  unfold ofOffset Cursor.position
  rw [Cursor.seek_start]
  simp only
  generalize Cursor.walk n (Cursor.start text) text = there at *
  rw [htext, Text.byteSize_append]
  cases hrest : there.rest with
  | nil =>
      simp only [List.isEmpty_nil, Bool.not_true, Bool.and_false, Bool.false_eq_true, if_false,
        Text.byteSize_nil]
      omega
  | cons c more =>
      have hnext := hstop c more hrest
      simp only [List.isEmpty_cons, Bool.not_false, Bool.and_true, decide_eq_true_eq,
        Text.byteSize_cons]
      split <;> omega

/-- A byte of the text is at its own offset. -/
theorem offset_ofOffset_of_le (h : n ≤ Text.byteSize text) : (ofOffset text n).offset = n := by
  rw [offset_ofOffset, Nat.min_eq_left h]

end ResourceLint.Position
