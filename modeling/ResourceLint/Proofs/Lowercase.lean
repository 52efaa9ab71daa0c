/-
Lower case of a text with another one after it.

All characters but one have a lower case of their own.  A capital sigma looks
around itself: whether it ends a word depends on the first letter that
follows, and so the lower case of a text can change when something is
appended (`lowercaseFrom_append`).

It changes in one place at most.  After the last letter of a text there are
only characters that the rule ignores, so that no sigma but this letter looks
at what is appended (`lowercaseBefore_eq`, `exists_of_endsInSigma`).  Without
such a sigma, texts that differ in lower case differ with the same ending; with
it in one of two texts they may become the same
(`endsInSigma_ne_of_lowercase_append`).
-/
import Mathlib.Data.List.TakeWhile
import ResourceLint.Proofs.Paths
import ResourceLint.Text.Lowercase

namespace ResourceLint.Text

variable {s a b v before : List Char} {c : Char} {next : Bool}

-- ============================================================= what is ahead

/-- Whether the first character that counts is a cased letter, where `next`
says this of what follows the text. -/
def casedAhead (next : Bool) (s : List Char) : Bool :=
  match s.dropWhile (isIn caseIgnorable) with
  | [] => next
  | c :: _ => isIn cased c

/-- The lower case of a character that is no capital sigma. -/
def lowerOne (c : Char) : List Char :=
  if c == '\u0130' then ['i', '\u0307'] else [lowercaseChar c]

/-- Lower case of what follows the characters of `before`, last first, where
`next` says whether a cased letter comes next. -/
def lowercaseBefore (next : Bool) (before : List Char) : List Char → List Char
  | [] => []
  | c :: rest =>
    (if c == '\u03A3' then
      if beginsCased before && !casedAhead next rest then ['\u03C2'] else ['\u03C3']
    else lowerOne c) ++ lowercaseBefore next (c :: before) rest

/-- Whether a text begins with a cased letter is told by its two halves. -/
theorem beginsCased_append (a b : List Char) :
    beginsCased (a ++ b) = casedAhead (beginsCased b) a := by
  induction a with
  | nil => rfl
  | cons c a ih =>
      unfold beginsCased casedAhead at *
      by_cases hc : isIn caseIgnorable c
      · rw [List.cons_append, List.dropWhile_cons_of_pos hc, List.dropWhile_cons_of_pos hc]
        exact ih
      · rw [List.cons_append, List.dropWhile_cons_of_neg hc, List.dropWhile_cons_of_neg hc]

/-- The lower case of a text with another one after it. -/
theorem lowercaseFrom_append (before a b : List Char) :
    lowercaseFrom before (a ++ b)
      = lowercaseBefore (beginsCased b) before a ++ lowercaseFrom (a.reverse ++ before) b := by
  induction a generalizing before with
  | nil => rfl
  | cons c a ih =>
      rw [List.cons_append, lowercaseFrom, lowercaseBefore, ih, beginsCased_append,
        List.reverse_cons, List.append_assoc, List.append_assoc]
      rfl

/-- Where nothing that counts follows, this is the lower case of the text. -/
theorem lowercaseFrom_eq (before s : List Char) :
    lowercaseFrom before s = lowercaseBefore false before s := by
  have happend := lowercaseFrom_append before s []
  rwa [List.append_nil, lowercaseFrom, List.append_nil] at happend

-- ================================================================= the sigmas

/-- A text without a capital sigma does not look around. -/
theorem lowercaseBefore_of_not_mem (h : '\u03A3' ∉ s) :
    lowercaseBefore next before s = s.flatMap lowerOne := by
  induction s generalizing before with
  | nil => rfl
  | cons c s ih =>
      rw [List.mem_cons, not_or] at h
      rw [lowercaseBefore, ih h.2, if_neg (by simpa using Ne.symm h.1), List.flatMap_cons]

/-- A sigma is never ignored. -/
theorem not_mem_of_all_ignorable (h : s.all (isIn caseIgnorable)) :
    '\u03A3' ∉ s ∧ '\u03C3' ∉ s ∧ '\u0130' ∉ s := by
  rw [List.all_eq_true] at h
  have hnot : ∀ c : Char, isIn caseIgnorable c = false → c ∉ s := by
    intro c hc hmem
    rw [h c hmem] at hc
    cases hc
  exact ⟨hnot _ (by decide +kernel), hnot _ (by decide +kernel), hnot _ (by decide +kernel)⟩

/-- No character of the table has a small sigma as its lower case. -/
theorem lowercaseRuns_ne_sigma : lowercaseRuns.all fun (first, last, step, shift) =>
    !(first ≤ (963 - shift).toNat && (963 - shift).toNat ≤ last
      && (step == 0 || ((963 - shift).toNat - first) % step == 0)) := by
  decide +kernel

/-- The small sigma is the lower case of no other character but the capital. -/
theorem eq_of_lowercaseChar (h : lowercaseChar c = '\u03C3') : c = '\u03C3' := by
  unfold lowercaseChar at h
  simp only at h
  split at h
  · -- ASCII letters stay in their range
    next hascii =>
      have hval := congrArg Char.toNat h
      unfold Char.toLower at hval
      split at hval
      · have hshifted : (c.val + 32).toNat = 963 := hval
        have hsmall : c.val.toNat < 128 := hascii
        rw [UInt32.toNat_add] at hshifted
        simp at hshifted
        omega
      · have hsame : c.toNat = 963 := hval
        omega
  · split at h
    · -- in a run of the table the character would be in the run it is shifted from
      next first last step shift hfind =>
        have hrun := List.all_eq_true.mp lowercaseRuns_ne_sigma _ (List.mem_of_find?_eq_some hfind)
        have hin := List.find?_some hfind
        have hval := congrArg Char.toNat h
        unfold Char.ofNat at hval
        by_cases hvalid : (Int.ofNat c.toNat + shift).toNat.isValidChar
        · have hsum : ((c.toNat : Int) + shift).toNat = 963 := by
            rw [dif_pos hvalid] at hval
            exact hval
          have heq : ((963 : Int) - shift).toNat = c.toNat := by omega
          simp only [heq, hin] at hrun
          cases hrun
        · rw [dif_neg hvalid] at hval
          cases hval
    · exact h

/-- Characters that are ignored give no sigma. -/
theorem not_mem_flatMap_lowerOne (h : s.all (isIn caseIgnorable)) :
    '\u03C3' ∉ s.flatMap lowerOne := by
  obtain ⟨-, hsmall, hdotted⟩ := not_mem_of_all_ignorable h
  rw [List.mem_flatMap]
  rintro ⟨c, hc, hmem⟩
  have hne : c ≠ '\u0130' := fun heq => hdotted (heq ▸ hc)
  rw [lowerOne, if_neg (by simpa using hne), List.mem_singleton] at hmem
  exact hsmall (eq_of_lowercaseChar hmem.symm ▸ hc)

-- ======================================================== the last letter

/-- Whether the last letter of a text is a capital sigma that takes its final
form where the text ends. -/
def endsInSigma (s : String) : Bool :=
  match s.toList.reverse.dropWhile (isIn caseIgnorable) with
  | [] => false
  | c :: before => c == '\u03A3' && beginsCased before

/-- What stands ahead is told half by half. -/
theorem casedAhead_append (next : Bool) (a b : List Char) :
    casedAhead next (a ++ b) = casedAhead (casedAhead next b) a := by
  induction a with
  | nil => rfl
  | cons c a ih =>
      unfold casedAhead at *
      by_cases hc : isIn caseIgnorable c
      · rw [List.cons_append, List.dropWhile_cons_of_pos hc, List.dropWhile_cons_of_pos hc]
        exact ih
      · rw [List.cons_append, List.dropWhile_cons_of_neg hc, List.dropWhile_cons_of_neg hc]

/-- The small letters of two halves, where each of them knows what stands around
it. -/
theorem lowercaseBefore_append (next : Bool) (before a b : List Char) :
    lowercaseBefore next before (a ++ b)
      = lowercaseBefore (casedAhead next b) before a
        ++ lowercaseBefore next (a.reverse ++ before) b := by
  induction a generalizing before with
  | nil => rfl
  | cons c a ih =>
      rw [List.cons_append, lowercaseBefore, lowercaseBefore, ih, casedAhead_append,
        List.reverse_cons, List.append_assoc, List.append_assoc]
      rfl

/-- What is around the last letter of a text. -/
theorem exists_of_dropWhile {u : List Char}
    (h : s.reverse.dropWhile (isIn caseIgnorable) = c :: u) :
    ∃ v, s = u.reverse ++ c :: v ∧ isIn caseIgnorable c = false ∧ v.all (isIn caseIgnorable) := by
  have hsplit := List.takeWhile_append_dropWhile (p := isIn caseIgnorable) (l := s.reverse)
  have htake := List.all_takeWhile (p := isIn caseIgnorable) (l := s.reverse)
  have hc := List.head_dropWhile_not (p := isIn caseIgnorable) (l := s.reverse) (by simp [h])
  simp only [h, List.head_cons] at hc
  refine ⟨(s.reverse.takeWhile (isIn caseIgnorable)).reverse, ?_, hc, ?_⟩
  · have hreverse := congrArg List.reverse hsplit
    rw [h, List.reverse_append, List.reverse_cons, List.reverse_reverse, List.append_assoc]
      at hreverse
    exact hreverse.symm
  · rwa [List.all_reverse]

theorem casedAhead_cons (h : isIn caseIgnorable c = false) (next : Bool) (s : List Char) :
    casedAhead next (c :: s) = isIn cased c := by
  unfold casedAhead
  rw [List.dropWhile_cons_of_neg (by simp [h])]

/-- The lower case of a text up to its last letter, where this is a sigma. -/
theorem lowercaseBefore_sigma {u : List Char} (hv : v.all (isIn caseIgnorable)) :
    lowercaseBefore next [] (u ++ '\u03A3' :: v)
      = lowercaseBefore true [] u
        ++ (if beginsCased u.reverse && !next then '\u03C2' else '\u03C3') :: v.flatMap lowerOne := by
  have hahead : casedAhead next ('\u03A3' :: v) = true :=
    (casedAhead_cons (by decide +kernel) next v).trans (by decide +kernel)
  have hnext : casedAhead next v = next := by
    have hdrop : v.dropWhile (isIn caseIgnorable) = [] := by
      rw [List.dropWhile_eq_nil_iff]
      exact List.all_eq_true.mp hv
    rw [casedAhead, hdrop]
  rw [lowercaseBefore_append, hahead, lowercaseBefore, if_pos (by rfl), hnext, List.append_nil,
    lowercaseBefore_of_not_mem (not_mem_of_all_ignorable hv).1]
  split <;> rfl

/-- Without such a sigma a text has one lower case, whatever follows. -/
theorem lowercaseBefore_eq {t : String} (h : endsInSigma t = false) :
    lowercaseBefore true [] t.toList = lowercaseBefore false [] t.toList := by
  unfold endsInSigma at h
  cases hdrop : t.toList.reverse.dropWhile (isIn caseIgnorable) with
  | nil =>
      rw [List.dropWhile_eq_nil_iff] at hdrop
      have hall : t.toList.all (isIn caseIgnorable) :=
        List.all_eq_true.mpr fun c hc => hdrop c (List.mem_reverse.mpr hc)
      have hnone := (not_mem_of_all_ignorable hall).1
      rw [lowercaseBefore_of_not_mem hnone, lowercaseBefore_of_not_mem hnone]
  | cons c u =>
      obtain ⟨v, ht, hc, hv⟩ := exists_of_dropWhile hdrop
      rw [hdrop] at h
      rw [ht]
      -- the last letter that counts is a capital sigma, which looks at what is before it,
      -- or it looks nowhere
      by_cases hsigma : c = '\u03A3'
      · subst hsigma
        have hbefore : beginsCased u.reverse.reverse = false := by simpa using h
        rw [lowercaseBefore_sigma hv, lowercaseBefore_sigma hv, hbefore]
        rfl
      · have hnone := (not_mem_of_all_ignorable hv).1
        rw [lowercaseBefore_append, lowercaseBefore_append, casedAhead_cons hc, casedAhead_cons hc,
          lowercaseBefore, lowercaseBefore, if_neg (by simpa using hsigma),
          if_neg (by simpa using hsigma), lowercaseBefore_of_not_mem hnone,
          lowercaseBefore_of_not_mem hnone]

/-- With it, one sigma is the final one or not. -/
theorem exists_of_endsInSigma {t : String} (h : endsInSigma t) :
    ∃ x y, '\u03C3' ∉ y ∧ lowercaseBefore true [] t.toList = x ++ '\u03C3' :: y
      ∧ lowercaseBefore false [] t.toList = x ++ '\u03C2' :: y := by
  unfold endsInSigma at h
  cases hdrop : t.toList.reverse.dropWhile (isIn caseIgnorable) with
  | nil =>
      rw [hdrop] at h
      cases h
  | cons c u =>
      obtain ⟨v, ht, hc, hv⟩ := exists_of_dropWhile hdrop
      rw [hdrop, Bool.and_eq_true, beq_iff_eq] at h
      obtain ⟨rfl, hbefore⟩ := h
      refine ⟨lowercaseBefore true [] u.reverse, v.flatMap lowerOne, not_mem_flatMap_lowerOne hv,
        ?_, ?_⟩
      · rw [ht, lowercaseBefore_sigma hv]
        simp
      · rw [ht, lowercaseBefore_sigma hv, List.reverse_reverse, hbefore]
        simp

/-- Hence the one lower case determines the other. -/
theorem lowercaseBefore_congr {a b : String} (ha : endsInSigma a = endsInSigma b)
    (h : lowercaseBefore true [] a.toList = lowercaseBefore true [] b.toList) :
    lowercaseBefore false [] a.toList = lowercaseBefore false [] b.toList := by
  cases hb : endsInSigma b with
  | false => rw [← lowercaseBefore_eq (ha.trans hb), ← lowercaseBefore_eq hb, h]
  | true =>
      obtain ⟨x, y, hy, htrue, hfalse⟩ := exists_of_endsInSigma (ha.trans hb)
      obtain ⟨x', y', hy', htrue', hfalse'⟩ := exists_of_endsInSigma hb
      -- both are cut at the last small sigma
      have hcut := cutLast?_eq_some_iff.mpr ⟨htrue, hy⟩
      have hcut' := cutLast?_eq_some_iff.mpr ⟨htrue', hy'⟩
      rw [h, hcut'] at hcut
      obtain ⟨rfl, rfl⟩ := Prod.mk.inj (Option.some.inj hcut)
      rw [hfalse, hfalse']

/-- The small letters of a text know nothing around it. -/
theorem toList_lowercase (a : String) : (lowercase a).toList = lowercaseBefore false [] a.toList := by
  rw [lowercase, String.toList_ofList, lowercaseFrom_eq]

/-- The lower case of a text with another one after it that holds no capital
sigma. -/
theorem toList_lowercase_append {a tail : String} (htail : '\u03A3' ∉ tail.toList) :
    (lowercase (a ++ tail)).toList
      = lowercaseBefore (beginsCased tail.toList) [] a.toList ++ tail.toList.flatMap lowerOne := by
  rw [lowercase, String.toList_ofList, String.toList_append, lowercaseFrom_append, lowercaseFrom_eq,
    lowercaseBefore_of_not_mem htail]

/-- Texts that differ in lower case, and no longer do when the same is
appended: the last letter of one of the two is a sigma. -/
theorem endsInSigma_ne_of_lowercase_append {a b tail : String} (htail : '\u03A3' ∉ tail.toList)
    (hne : lowercase a ≠ lowercase b) (h : lowercase (a ++ tail) = lowercase (b ++ tail)) :
    endsInSigma a ≠ endsInSigma b := by
  intro hsame
  have hlist := congrArg String.toList h
  rw [toList_lowercase_append htail, toList_lowercase_append htail, List.append_left_inj] at hlist
  apply hne
  rw [← String.toList_inj, toList_lowercase, toList_lowercase]
  cases hcased : beginsCased tail.toList with
  | false => rwa [hcased] at hlist
  | true =>
      rw [hcased] at hlist
      exact lowercaseBefore_congr hsame hlist

end ResourceLint.Text
