/-
Paths and the names they are made of.

The text of a path is read in two ways: by its components, from the left,
and by its last step, from the right (`fileName?`, `parent?`).  This file
ties the two together: the last step is the last component
(`fileName?_eq_getLast?`), a child has one component more
(`components_child`), and the canonical paths `ofNames` are taken apart by
`parent?` as they were put together by `child` (`IsTight.child`).

# Idle text

A slash and a dot step denote nothing where they repeat or end a path.
`dropIdle` takes them off a reversed text; `steps_dropIdle` says that what
the text denotes is left as it was, and every statement about last steps
rests on it.
-/
import Mathlib.Data.List.Induction
import ResourceLint.Path

namespace ResourceLint

-- ======================================================= pieces of a text

namespace Text

/-- A text has at least one part. -/
theorem splitAt_ne_nil (mark : Char) (s : List Char) : splitAt mark s ≠ [] := by
  cases s with
  | nil => exact List.cons_ne_nil _ _
  | cons c s =>
      rw [splitAt]
      split
      · exact List.cons_ne_nil _ _
      · split
        · exact List.cons_ne_nil _ _
        · exact List.cons_ne_nil _ _

/-- A text is cut at every mark, so cutting goes on behind one as at the
beginning. -/
theorem splitAt_append_cons (mark : Char) (a b : List Char) :
    splitAt mark (a ++ mark :: b) = splitAt mark a ++ splitAt mark b := by
  induction a with
  | nil => simp [splitAt]
  | cons c a ih =>
      rw [List.cons_append, splitAt, splitAt]
      by_cases hc : c == mark
      · rw [if_pos hc, if_pos hc, ih]
        rfl
      · rw [if_neg hc, if_neg hc, ih]
        cases hsplit : splitAt mark a with
        | nil => exact absurd hsplit (splitAt_ne_nil mark a)
        | cons part parts => rfl

/-- Without a mark there is one part. -/
theorem splitAt_of_not_mem {mark : Char} {s : List Char} (h : mark ∉ s) :
    splitAt mark s = [s] := by
  induction s with
  | nil => rfl
  | cons c s ih =>
      rw [List.mem_cons, not_or] at h
      rw [splitAt, if_neg (by simpa using Ne.symm h.1), ih h.2]

/-- What is cut at the last mark has no mark after it. -/
theorem cutLast?_eq_some_iff {mark : Char} {s before after : List Char} :
    cutLast? mark s = some (before, after) ↔ s = before ++ mark :: after ∧ mark ∉ after := by
  unfold cutLast?
  constructor
  · intro h
    split at h
    · cases h
    · next c rest hdrop =>
        simp only [Option.some.injEq, Prod.mk.injEq] at h
        obtain ⟨rfl, rfl⟩ := h
        -- read backwards, the text is dropped up to the first mark
        have hmark : c = mark := by
          have := List.head?_dropWhile_not (· != mark) s.reverse
          rw [hdrop] at this
          simpa using this
        have hsplit := List.takeWhile_append_dropWhile (p := (· != mark)) (l := s.reverse)
        rw [hdrop, hmark] at hsplit
        refine ⟨?_, fun hmem => ?_⟩
        · have hreverse := (congrArg List.reverse hsplit).symm
          rw [List.reverse_reverse, List.reverse_append, List.reverse_cons,
            List.append_assoc] at hreverse
          exact hreverse
        · rw [List.mem_reverse] at hmem
          have := List.all_eq_true.mp List.all_takeWhile mark hmem
          simp at this
  · rintro ⟨rfl, hmark⟩
    have hafter : ∀ c ∈ after.reverse, (c != mark) = true := fun c hc => by
      rw [List.mem_reverse] at hc
      simpa using fun heq : c = mark => hmark (heq ▸ hc)
    have hreverse : (before ++ mark :: after).reverse
        = after.reverse ++ mark :: before.reverse := by simp
    rw [hreverse, List.dropWhile_append_of_pos hafter, List.takeWhile_append_of_pos hafter]
    simp

/-- A text without the mark is not cut. -/
theorem not_mem_of_cutLast?_eq_none {mark : Char} {s : List Char} (h : cutLast? mark s = none) :
    mark ∉ s := by
  unfold cutLast? at h
  intro hmem
  split at h
  · next hdrop =>
      have hall := List.takeWhile_append_dropWhile (p := (· != mark)) (l := s.reverse)
      rw [hdrop, List.append_nil] at hall
      rw [← List.mem_reverse, ← hall] at hmem
      have := List.all_eq_true.mp List.all_takeWhile mark hmem
      simp at this
  · cases h

end Text

namespace Path

-- ========================================================= steps of a body

/-- The steps that a body stands for. -/
def steps (body : List Char) : List Component := (Text.splitAt '/' body).filterMap stepOf?

/-- The components of a path are its beginning and its steps. -/
theorem components_eq (p : Path) :
    p.components = headOf (splitHead p.text.toList).1 ++ steps (splitHead p.text.toList).2 := rfl

@[simp] theorem steps_nil : steps [] = [] := rfl

/-- A slash divides the steps. -/
theorem steps_append_slash (a b : List Char) : steps (a ++ '/' :: b) = steps a ++ steps b := by
  unfold steps
  rw [Text.splitAt_append_cons, List.filterMap_append]

/-- A piece without a slash is one step, or none. -/
theorem steps_piece {piece : List Char} (h : '/' ∉ piece) :
    steps piece = (stepOf? piece).toList := by
  unfold steps
  rw [Text.splitAt_of_not_mem h]
  cases hs : stepOf? piece with
  | none => rw [List.filterMap_cons_none hs]; rfl
  | some s => rw [List.filterMap_cons_some hs]; rfl

/-- The head of a text adds nothing to its steps. -/
theorem steps_splitHead (s : List Char) : steps (splitHead s).2 = steps s := by
  fun_cases splitHead s with
  | case1 body =>
      rw [← List.nil_append ('/' :: body), steps_append_slash]
      rfl
  | case2 => rfl
  | case3 body => exact (steps_append_slash ['.'] body).symm ▸ (steps_append_slash [] body)
  | case4 => rfl

/-- A piece that is neither empty nor a dot is a step. -/
theorem stepOf?_isSome {piece : List Char} (h₁ : piece ≠ []) (h₂ : piece ≠ ['.']) :
    ∃ s, stepOf? piece = some s := by
  unfold stepOf?
  split
  · exact absurd rfl h₁
  · exact absurd rfl h₂
  · exact ⟨_, rfl⟩
  · exact ⟨_, rfl⟩

/-- A piece is a step up or a name, where it is a step. -/
theorem eq_of_stepOf? {piece : List Char} {s : Component} (h : stepOf? piece = some s) :
    s = .up ∨ ∃ text, s = .name text := by
  unfold stepOf? at h
  split at h
  · cases h
  · cases h
  · exact Or.inl (Option.some.inj h).symm
  · exact Or.inr ⟨_, (Option.some.inj h).symm⟩

/-- Idle text at the end of a body denotes nothing. -/
theorem steps_dropIdle (s : List Char) : steps (dropIdle s).reverse = steps s.reverse := by
  fun_induction dropIdle s with
  | case1 => rfl
  | case2 => rfl
  | case3 s ih =>
      rw [ih, List.reverse_cons, steps_append_slash, steps_nil, List.append_nil]
  | case4 s ih =>
      rw [ih, List.reverse_cons, List.reverse_cons, List.append_assoc]
      exact (List.append_nil _).symm.trans (steps_append_slash s.reverse ['.']).symm
  | case5 s => rfl

/-- What is left when idle text is gone begins with none. -/
theorem dropIdle_eq_cons {s rest : List Char} {c : Char} (h : dropIdle s = c :: rest) :
    c ≠ '/' ∧ (c = '.' → rest ≠ [] ∧ rest.head? ≠ some '/') := by
  fun_induction dropIdle s with
  | case1 => cases h
  | case2 => cases h
  | case3 s ih => exact ih h
  | case4 s ih => exact ih h
  | case5 s h₁ h₂ h₃ h₄ =>
      subst h
      refine ⟨fun hc => h₃ rest (by rw [hc]), fun hc => ⟨fun hr => h₂ (by rw [hc, hr]), ?_⟩⟩
      cases rest with
      | nil => simp
      | cons d rest =>
          intro hd
          simp only [List.head?_cons, Option.some.injEq] at hd
          exact h₄ rest (by rw [hc, hd])

/-- Dropping idle pieces leaves an end of the text. -/
theorem dropIdle_suffix (s : List Char) : dropIdle s <:+ s := by
  fun_induction dropIdle s with
  | case1 => exact List.suffix_rfl
  | case2 => exact List.nil_suffix
  | case3 s ih => exact ih.trans (List.suffix_cons _ _)
  | case4 s ih => exact ih.trans ((List.suffix_cons _ _).trans (List.suffix_cons _ _))
  | case5 => exact List.suffix_rfl

/-- What is left when idle text is gone begins with a piece that is a step, as it
is read and from its end. -/
theorem firstPiece_of_dropIdle {s rest : List Char} {c : Char} (h : dropIdle s = c :: rest) :
    '/' ∉ (c :: rest).takeWhile (· != '/')
      ∧ (c :: rest).takeWhile (· != '/') ≠ [] ∧ (c :: rest).takeWhile (· != '/') ≠ ['.'] := by
  obtain ⟨hslash, hdot⟩ := dropIdle_eq_cons h
  have htake : (c :: rest).takeWhile (· != '/') = c :: rest.takeWhile (· != '/') := by
    rw [List.takeWhile_cons, if_pos (by simpa using hslash)]
  refine ⟨fun hmem => by simpa using List.all_eq_true.mp List.all_takeWhile _ hmem, ?_, ?_⟩
  · rw [htake]
    exact List.cons_ne_nil _ _
  · rw [htake]
    intro heq
    obtain ⟨hc, hnil⟩ := List.cons.inj heq
    obtain ⟨hr, hhead⟩ := hdot hc
    cases rest with
    | nil => exact hr rfl
    | cons d rest =>
        rw [List.takeWhile_cons] at hnil
        split at hnil
        · cases hnil
        · next hd => exact hhead (by simpa using hd)

/-- The last piece of a body is its last step, and before it stand the
others. -/
theorem steps_of_lastPiece? {body before piece : List Char}
    (h : lastPiece? body = some (before, piece)) :
    ∃ s, stepOf? piece = some s ∧ steps body = steps before ++ [s] := by
  unfold lastPiece? at h
  have hbody := steps_dropIdle body.reverse
  rw [List.reverse_reverse] at hbody
  rw [← hbody]
  cases hrest : dropIdle body.reverse with
  | nil => simp [hrest] at h
  | cons c rest =>
      obtain ⟨hnotin, hne, hnedot⟩ := firstPiece_of_dropIdle hrest
      simp only [hrest, Option.some.injEq, Prod.mk.injEq] at h
      obtain ⟨hbefore, hpiece⟩ := h
      obtain ⟨s, hs⟩ : ∃ s, stepOf? piece = some s := by
        refine stepOf?_isSome (fun hnil => ?_) fun hdot => ?_
        · exact hne (List.reverse_eq_nil_iff.mp (hpiece.trans hnil))
        · exact hnedot (List.reverse_eq_iff.mp (hpiece.trans hdot))
      refine ⟨s, hs, ?_⟩
      have hsteps : steps piece = [s] := by
        rw [steps_piece (by rw [← hpiece]; simpa using hnotin), hs]
        rfl
      have hsplit := List.takeWhile_append_dropWhile (p := (· != '/')) (l := c :: rest)
      -- read backwards, the last piece reaches to a slash or to the beginning
      cases hdrop : (c :: rest).dropWhile (· != '/') with
      | nil =>
          rw [hdrop, List.append_nil] at hsplit
          rw [← hbefore, hdrop, ← hsplit, hpiece, hsteps]
          rfl
      | cons d more =>
          have hd : d = '/' := by
            have := List.head?_dropWhile_not (· != '/') (c :: rest)
            rw [hdrop] at this
            simpa using this
          subst hd
          have hlast : steps ('/' :: more).reverse = steps more.reverse := by
            rw [List.reverse_cons, steps_append_slash, steps_nil, List.append_nil]
          rw [← hbefore, hdrop, steps_dropIdle, hlast, ← hsplit, hdrop, List.reverse_append,
            hpiece, List.reverse_cons, List.append_assoc]
          show steps (more.reverse ++ '/' :: piece) = _
          rw [steps_append_slash, hsteps]

/-- A body without a last piece has no step. -/
theorem steps_of_lastPiece?_none {body : List Char} (h : lastPiece? body = none) :
    steps body = [] := by
  unfold lastPiece? at h
  have hbody := steps_dropIdle body.reverse
  rw [List.reverse_reverse] at hbody
  cases hrest : dropIdle body.reverse with
  | nil => rw [← hbody, hrest]; rfl
  | cons c rest => simp [hrest] at h

-- ============================================== the last step as a name

/-- The name that a component is. -/
def Component.name? : Component → Option String
  | .name text => some text
  | _ => none

/-- The file name is the last component, where that is a name. -/
theorem fileName?_eq_getLast? (p : Path) :
    p.fileName? = p.components.getLast?.bind Component.name? := by
  rw [components_eq]
  unfold fileName?
  cases hlast : lastPiece? (splitHead p.text.toList).2 with
  | none =>
      have hhead : ∀ head, (headOf head).getLast?.bind Component.name? = none := by
        intro head
        unfold headOf
        split <;> rfl
      rw [steps_of_lastPiece?_none hlast, List.append_nil, hhead]
  | some found =>
      obtain ⟨before, piece⟩ := found
      obtain ⟨s, hs, hsteps⟩ := steps_of_lastPiece? hlast
      rw [hsteps, ← List.append_assoc, List.getLast?_concat, Option.bind_some]
      simp only [hs]
      cases s <;> rfl

/-- The file name of a text that ends in a dot and an extension. -/
theorem fileName?_of_extension {p : Path} {before ext : List Char}
    (h : p.text.toList = before ++ '.' :: ext) (hslash : '/' ∉ ext) (hlong : 2 ≤ ext.length) :
    ∃ name, p.fileName? = some (String.ofList (name ++ '.' :: ext)) := by
  -- a piece with a dot and two more characters is neither `.` nor `..`
  have hpiece : ∀ name : List Char, '/' ∉ name →
      steps (name ++ '.' :: ext) = [.name (String.ofList (name ++ '.' :: ext))] := by
    intro name hname
    rw [steps_piece (by simp [hname, hslash])]
    unfold stepOf?
    split
    · next heq => simp at heq
    · next heq =>
        have := congrArg List.length heq
        simp only [List.length_append, List.length_cons, List.length_nil] at this
        omega
    · next heq =>
        have := congrArg List.length heq
        simp only [List.length_append, List.length_cons, List.length_nil] at this
        omega
    · rfl
  have hlast : ∃ init name, steps p.text.toList
      = init ++ [.name (String.ofList (name ++ '.' :: ext))] := by
    rw [h]
    cases hcut : Text.cutLast? '/' before with
    | none => exact ⟨[], before, hpiece before (Text.not_mem_of_cutLast?_eq_none hcut)⟩
    | some found =>
        obtain ⟨dirs, name⟩ := found
        obtain ⟨rfl, hname⟩ := Text.cutLast?_eq_some_iff.mp hcut
        exact ⟨steps dirs, name, by
          rw [List.append_assoc, List.cons_append, steps_append_slash, hpiece name hname]⟩
  obtain ⟨init, name, hsteps⟩ := hlast
  refine ⟨name, ?_⟩
  rw [fileName?_eq_getLast?, components_eq, steps_splitHead, hsteps, ← List.append_assoc,
    List.getLast?_concat]
  rfl

/-- Paths that are the same have one file name. -/
theorem fileName?_congr {p q : Path} (h : p.same q) : p.fileName? = q.fileName? := by
  have hcomp : p.components = q.components := by simpa [same] using h
  rw [fileName?_eq_getLast?, fileName?_eq_getLast?, hcomp]

@[simp] theorem same_refl (p : Path) : p.same p := by simp [same]

theorem same_comm (p q : Path) : p.same q = q.same p := by
  unfold same
  exact Bool.beq_comm

/-- Paths that are the same are the same as the same paths. -/
theorem same_congr_left {p q : Path} (h : p.same q) (r : Path) : p.same r = q.same r := by
  have hcomponents : p.components = q.components := by simpa [same] using h
  unfold same
  rw [hcomponents]

/-- Whether a component leads somewhere from where a path begins. -/
def Component.isStep : Component → Bool
  | .root | .here => false
  | .up | .name _ => true

/-- What the head of a text is. -/
theorem headOf_splitHead_cases (s : List Char) :
    (headOf (splitHead s).1 = [.root] ∧ s.head? = some '/')
      ∨ ((headOf (splitHead s).1 = [.here] ∨ headOf (splitHead s).1 = [])
        ∧ s.head? ≠ some '/') := by
  fun_cases splitHead s with
  | case1 body => exact Or.inl ⟨rfl, rfl⟩
  | case2 => exact Or.inr ⟨Or.inl rfl, by decide⟩
  | case3 body => exact Or.inr ⟨Or.inl rfl, by simp⟩
  | case4 body hslash =>
      refine Or.inr ⟨Or.inr rfl, fun hhead => ?_⟩
      obtain ⟨rest, hrest⟩ := List.head?_eq_some_iff.mp hhead
      exact hslash rest hrest

/-- The steps are the components but the beginning. -/
theorem steps_eq_filter_components (p : Path) :
    steps p.text.toList = p.components.filter Component.isStep := by
  have hsteps : ∀ c ∈ steps p.text.toList, c.isStep := by
    intro c hc
    obtain ⟨piece, -, hpiece⟩ := List.mem_filterMap.mp hc
    rcases eq_of_stepOf? hpiece with rfl | ⟨text, rfl⟩ <;> rfl
  rw [components_eq, steps_splitHead, List.filter_append, List.filter_eq_self.mpr hsteps]
  rcases headOf_splitHead_cases p.text.toList with ⟨hhead, -⟩ | ⟨hhead | hhead, -⟩ <;>
    simp [hhead, Component.isStep]

/-- A path is absolute when its first component is the root. -/
theorem isAbsolute_eq_head?_components (p : Path) :
    p.isAbsolute = (p.components.head? == some .root) := by
  have hrest : (steps p.text.toList).head? ≠ some .root := by
    rw [steps_eq_filter_components]
    intro h
    cases (List.mem_filter.mp (List.mem_of_head? h)).2
  unfold isAbsolute
  rw [components_eq, steps_splitHead, Bool.eq_iff_iff, beq_iff_eq, beq_iff_eq]
  rcases headOf_splitHead_cases p.text.toList with ⟨hhead, hslash⟩ | ⟨hhead | hhead, hslash⟩
  · simp [hhead, hslash]
  · simp [hhead, hslash]
  · rw [hhead, List.nil_append]
    exact iff_of_false hslash hrest

-- ============================================================= children

/-- A text that is the name of an entry of a directory. -/
def IsName (s : String) : Prop := s ≠ "" ∧ '/' ∉ s.toList ∧ s ≠ "." ∧ s ≠ ".."

instance (s : String) : Decidable (IsName s) := by
  unfold IsName
  infer_instance

namespace IsName

variable {s : String}

/-- A name is not empty. -/
theorem toList_ne_nil (h : IsName s) : s.toList ≠ [] := by
  intro hnil
  exact h.1 (String.toList_inj.mp (by simpa using hnil))

/-- A name is a step. -/
theorem stepOf? (h : IsName s) : Path.stepOf? s.toList = some (.name s) := by
  unfold Path.stepOf?
  split
  · next heq => exact absurd heq h.toList_ne_nil
  · next heq => exact absurd (String.toList_inj.mp heq) h.2.2.1
  · next heq => exact absurd (String.toList_inj.mp heq) h.2.2.2
  · rw [String.ofList_toList]

/-- A name by itself is one step. -/
theorem steps (h : IsName s) : Path.steps s.toList = [.name s] := by
  rw [steps_piece h.2.1, h.stepOf?]
  rfl

end IsName

/-- A piece that is a name is a proper one. -/
theorem isName_of_stepOf? {piece : List Char} {name : String} (hslash : '/' ∉ piece)
    (h : stepOf? piece = some (.name name)) : IsName name := by
  unfold stepOf? at h
  split at h
  · cases h
  · cases h
  · cases h
  · next hnil hdot hdots =>
      obtain rfl := Component.name.inj (Option.some.inj h)
      have hne : ∀ s : String, piece ≠ s.toList → String.ofList piece ≠ s := by
        rintro s hs rfl
        exact hs String.toList_ofList.symm
      refine ⟨hne "" hnil, ?_, hne "." hdot, hne ".." hdots⟩
      rwa [String.toList_ofList]

/-- A text that begins with neither a slash nor a dot step has no head. -/
theorem splitHead_of_plain {c : Char} {rest : List Char} (h₁ : c ≠ '/')
    (h₂ : c = '.' → rest ≠ [] ∧ rest.head? ≠ some '/') :
    splitHead (c :: rest) = ([], c :: rest) := by
  unfold splitHead
  split
  · next heq => exact absurd (List.cons.inj heq).1 h₁
  · next heq =>
      obtain ⟨hc, hnil⟩ := List.cons.inj heq
      exact absurd hnil (h₂ hc).1
  · next heq =>
      obtain ⟨hc, hrest⟩ := List.cons.inj heq
      exact absurd (by rw [hrest]; rfl) (h₂ hc).2
  · rfl

/-- Before a slash the head is found as without it. -/
theorem splitHead_append {s : List Char} (hs : s ≠ []) (t : List Char) :
    splitHead (s ++ '/' :: t) = ((splitHead s).1, (splitHead s).2 ++ '/' :: t) := by
  cases s with
  | nil => exact absurd rfl hs
  | cons c s =>
      by_cases hslash : c = '/'
      · subst hslash
        rfl
      · -- a leading dot is a beginning only when it is a piece of its own
        by_cases hdot : c = '.' ∧ (s = [] ∨ s.head? = some '/')
        · obtain ⟨rfl, rfl | hhead⟩ := hdot
          · rfl
          · cases s with
            | nil => cases hhead
            | cons d s =>
                simp only [List.head?_cons, Option.some.injEq] at hhead
                subst hhead
                rfl
        · have hplain : c = '.' → s ≠ [] ∧ s.head? ≠ some '/' := fun hc =>
            ⟨fun hnil => hdot ⟨hc, Or.inl hnil⟩, fun hhead => hdot ⟨hc, Or.inr hhead⟩⟩
          have hplain' : c = '.' → s ++ '/' :: t ≠ [] ∧ (s ++ '/' :: t).head? ≠ some '/' := by
            intro hc
            obtain ⟨hne, hhead⟩ := hplain hc
            cases s with
            | nil => exact absurd rfl hne
            | cons d s => exact ⟨List.cons_ne_nil _ _, by simpa using hhead⟩
          rw [splitHead_of_plain hslash hplain, List.cons_append,
            splitHead_of_plain hslash hplain']

/-- A name has no head. -/
theorem IsName.splitHead {s : String} (h : IsName s) :
    Path.splitHead s.toList = ([], s.toList) := by
  cases hs : s.toList with
  | nil => exact absurd hs h.toList_ne_nil
  | cons c rest =>
      refine splitHead_of_plain (fun hc => h.2.1 (by rw [hs, hc]; exact List.mem_cons_self ..))
        fun hc => ⟨fun hnil => h.2.2.1 (String.toList_inj.mp (by rw [hs, hc, hnil]; rfl)),
          fun hhead => h.2.1 ?_⟩
      rw [hs]
      exact List.mem_cons_of_mem _ (List.mem_of_head? hhead)

theorem IsName.not_isAbsolute {s : String} (h : IsName s) : (Path.mk s).isAbsolute = false := by
  unfold isAbsolute
  cases hs : s.toList with
  | nil => rfl
  | cons c rest =>
      have : c ≠ '/' := fun hc => h.2.1 (by rw [hs, hc]; exact List.mem_cons_self ..)
      simpa using this

/-- The characters of a child: those of the directory and the name, with one
slash between them. -/
theorem child_toList {p : Path} {name : String} (h : IsName name) :
    (p.child name).text.toList =
      (if p.text.toList = [] ∨ p.text.toList.getLast? = some '/' then p.text.toList
        else p.text.toList ++ ['/']) ++ name.toList := by
  unfold child join
  rw [h.not_isAbsolute]
  simp only [Bool.false_eq_true, if_false]
  split
  · next hlast => simp [List.getLast?_eq_none_iff.mp hlast]
  · next hlast => rw [if_pos (Or.inr hlast), String.toList_append]
  · next c hc hlast =>
      have hne : p.text.toList ≠ [] := fun hnil => by simp [hnil] at hlast
      have hslash : p.text.toList.getLast? ≠ some '/' := by simpa [hlast] using hc
      rw [if_neg (not_or.mpr ⟨hne, hslash⟩), String.toList_append, String.toList_append]
      rfl

/-- Whatever the name is, the text of a child ends with it. -/
theorem child_toList_suffix (p : Path) (name : String) :
    ∃ before, (p.child name).text.toList = before ++ name.toList := by
  unfold child join
  split
  · exact ⟨[], rfl⟩
  · split
    · exact ⟨[], rfl⟩
    · exact ⟨p.text.toList, String.toList_append⟩
    · exact ⟨p.text.toList ++ ['/'], by rw [String.toList_append, String.toList_append]; rfl⟩

/-- Behind a text that is not empty, a slash is followed by more steps. -/
theorem components_of_append_slash {p q : Path} {s : List Char} (hp : p.text.toList ≠ [])
    (h : q.text.toList = p.text.toList ++ '/' :: s) : q.components = p.components ++ steps s := by
  rw [components_eq, components_eq, h, splitHead_append hp, steps_append_slash, List.append_assoc]

/-- A relative path that is joined to another one adds its steps. -/
theorem components_join {p q : Path} (hp : p.text.toList ≠ []) (hq : q.isAbsolute = false) :
    (p.join q).components = p.components ++ steps q.text.toList := by
  unfold join
  rw [hq]
  simp only [Bool.false_eq_true, if_false]
  split
  · next hlast => exact absurd (List.getLast?_eq_none_iff.mp hlast) hp
  · next hlast =>
      -- the directory ends with a slash
      obtain ⟨s, hs⟩ := List.getLast?_eq_some_iff.mp hlast
      have htext : (p.text ++ q.text).toList = s ++ '/' :: q.text.toList := by
        rw [String.toList_append, hs, List.append_assoc]
        rfl
      by_cases hne : s = []
      · subst hne
        rw [components_eq, components_eq, htext, hs]
        rfl
      · have hdirectory : (Path.mk (String.ofList s)).text.toList = s := String.toList_ofList
        rw [components_of_append_slash (p := ⟨String.ofList s⟩) (by rwa [hdirectory])
            (by rw [hdirectory]; exact htext),
          components_of_append_slash (p := ⟨String.ofList s⟩) (q := p) (s := [])
            (by rwa [hdirectory]) (by rw [hdirectory]; exact hs),
          steps_nil, List.append_nil]
  · refine components_of_append_slash hp ?_
    rw [String.toList_append, String.toList_append, List.append_assoc]
    rfl

/-- A child has its name as one more component. -/
theorem components_child (p : Path) {name : String} (h : IsName name) :
    (p.child name).components = p.components ++ [.name name] := by
  by_cases hp : p.text.toList = []
  · have htext : (p.child name).text.toList = name.toList := by
      rw [child_toList h, if_pos (Or.inl hp), hp, List.nil_append]
    rw [components_eq, components_eq, htext, hp, h.splitHead, h.steps]
    rfl
  · unfold child
    rw [components_join hp h.not_isAbsolute, h.steps]

/-- A child is absolute when its directory is. -/
theorem isAbsolute_child (p : Path) {name : String} (h : IsName name) :
    (p.child name).isAbsolute = p.isAbsolute := by
  rw [isAbsolute_eq_head?_components, isAbsolute_eq_head?_components, components_child p h]
  cases p.components <;> rfl

/-- A child has one more step. -/
theorem steps_child (p : Path) {name : String} (h : IsName name) :
    steps (p.child name).text.toList = steps p.text.toList ++ [Component.name name] := by
  rw [steps_eq_filter_components, components_child p h, List.filter_append,
    ← steps_eq_filter_components]
  rfl

/-- A child is named as it was called. -/
theorem fileName?_child (p : Path) {name : String} (h : IsName name) :
    (p.child name).fileName? = some name := by
  rw [fileName?_eq_getLast?, components_child p h, List.getLast?_concat]
  rfl

/-- Names appended one after the other are components in this order. -/
theorem components_foldl_child {names : List String} (h : ∀ n ∈ names, IsName n) (p : Path) :
    (names.foldl child p).components = p.components ++ names.map .name := by
  induction names generalizing p with
  | nil => simp
  | cons n names ih =>
      rw [List.foldl_cons, ih (fun m hm => h m (List.mem_cons_of_mem _ hm)),
        components_child p (h n (List.mem_cons_self ..)), List.append_assoc]
      rfl

-- ====================================================== canonical paths

/-- A canonical path is made by appending names to the root. -/
theorem ofNames_append (names more : List String) :
    ofNames (names ++ more) = more.foldl child (ofNames names) := by
  unfold ofNames ofComponents
  rw [List.map_append, ← List.cons_append, List.foldl_append, List.foldl_map]
  rfl

/-- A path made of names has the root and these names. -/
theorem components_ofNames {names : List String} (h : ∀ n ∈ names, IsName n) :
    (ofNames names).components = .root :: names.map .name := by
  have := ofNames_append [] names
  rw [List.nil_append] at this
  rw [this, components_foldl_child h]
  rfl

/-- Canonical paths that are the same are one path. -/
theorem ofNames_injective_of_same {a b : List String} (ha : ∀ n ∈ a, IsName n)
    (hb : ∀ n ∈ b, IsName n) (h : (ofNames a).same (ofNames b)) : a = b := by
  have hcomponents : (ofNames a).components = (ofNames b).components := by simpa [same] using h
  rw [components_ofNames ha, components_ofNames hb] at hcomponents
  exact List.map_inj_right (fun _ _ => Component.name.inj) |>.mp (List.cons.inj hcomponents).2

/-- An absolute path that ends in no idle text. -/
def IsTight (p : Path) : Prop :=
  ∃ body, p.text.toList = '/' :: body ∧ dropIdle body.reverse = body.reverse

/-- Text that ends in a name ends in no idle text. -/
theorem dropIdle_name {name : String} (h : IsName name) (s : List Char) :
    dropIdle (name.toList.reverse ++ s) = name.toList.reverse ++ s := by
  cases hrev : name.toList.reverse with
  | nil => exact absurd (List.reverse_eq_nil_iff.mp hrev) h.toList_ne_nil
  | cons c rest =>
      have hmem : ∀ d ∈ c :: rest, d ≠ '/' := fun d hd hslash => h.2.1 (by
        rw [← List.mem_reverse, hrev, ← hslash]
        exact hd)
      rw [List.cons_append]
      -- idle text is made of slashes and single dots, and a name is neither
      unfold dropIdle
      split
      · next heq => cases heq
      · next heq =>
          obtain ⟨hc, hnil⟩ := List.cons.inj heq
          refine absurd (String.toList_inj.mp ?_) h.2.2.1
          rw [← List.reverse_reverse name.toList, hrev, hc, (List.append_eq_nil_iff.mp hnil).1]
          rfl
      · next heq => exact absurd (List.cons.inj heq).1 (hmem c (List.mem_cons_self ..))
      · next heq =>
          obtain ⟨hc, hrest⟩ := List.cons.inj heq
          cases rest with
          | nil =>
              refine absurd (String.toList_inj.mp ?_) h.2.2.1
              rw [← List.reverse_reverse name.toList, hrev, hc]
              rfl
          | cons d rest =>
              exact absurd (List.cons.inj hrest).1
                (hmem d (List.mem_cons_of_mem _ (List.mem_cons_self ..)))
      · rfl

/-- The last piece of a body that ends in a name is that name. -/
theorem lastPiece?_name {name : String} (h : IsName name) {s : List Char}
    (hs : s = [] ∨ s.getLast? = some '/') :
    lastPiece? (s ++ name.toList) = some ((dropIdle s.reverse).reverse, name.toList) := by
  have hall : ∀ c ∈ name.toList.reverse, (c != '/') = true := fun c hc => by
    have : c ≠ '/' := fun hslash => h.2.1 (by rw [← hslash]; exact List.mem_reverse.mp hc)
    simpa using this
  have hs' : s.reverse = [] ∨ s.reverse.head? = some '/' := by
    rw [List.reverse_eq_nil_iff, List.head?_reverse]
    exact hs
  have hstop : s.reverse.takeWhile (· != '/') = [] ∧
      s.reverse.dropWhile (· != '/') = s.reverse := by
    rcases hs' with hnil | hhead
    · simp [hnil]
    · obtain ⟨t, ht⟩ := List.head?_eq_some_iff.mp hhead
      simp [ht]
  unfold lastPiece?
  rw [List.reverse_append, dropIdle_name h]
  split
  · next heq =>
      exact absurd (List.reverse_eq_nil_iff.mp (List.append_eq_nil_iff.mp heq).1) h.toList_ne_nil
  · rw [List.takeWhile_append_of_pos hall, List.dropWhile_append_of_pos hall, hstop.1, hstop.2,
      List.append_nil, List.reverse_reverse]

/-- The parent of a path is its text up to the last piece. -/
theorem parent?_of_lastPiece? {p : Path} {head body before piece : List Char}
    (hsplit : splitHead p.text.toList = (head, body))
    (hlast : lastPiece? body = some (before, piece)) :
    p.parent? = some ⟨String.ofList (head ++ before)⟩ := by
  unfold parent?
  simp only [hsplit, hlast]

/-- The text of a tight path, in front of the name of a child. -/
theorem exists_toList_child {p : Path} {body : List Char} (htext : p.text.toList = '/' :: body)
    (hidle : dropIdle body.reverse = body.reverse) {name : String} (h : IsName name) :
    ∃ lead, (p.child name).text.toList = '/' :: (lead ++ name.toList)
      ∧ (lead = [] ∨ lead.getLast? = some '/') ∧ (dropIdle lead.reverse).reverse = body := by
  by_cases hbody : body = []
  · subst hbody
    refine ⟨[], ?_, Or.inl rfl, rfl⟩
    rw [child_toList h, htext]
    rfl
  · have hlast : ¬ ('/' :: body).getLast? = some '/' := by
      intro hslash
      rw [List.getLast?_cons_of_ne_nil hbody, ← List.head?_reverse] at hslash
      obtain ⟨t, ht⟩ := List.head?_eq_some_iff.mp hslash
      rw [ht] at hidle
      exact (dropIdle_eq_cons hidle).1 rfl
    refine ⟨body ++ ['/'], ?_, Or.inr (by simp), ?_⟩
    · rw [child_toList h, htext, if_neg (not_or.mpr ⟨List.cons_ne_nil _ _, hlast⟩)]
      rfl
    · rw [List.reverse_append]
      show (dropIdle body.reverse).reverse = body
      rw [hidle, List.reverse_reverse]

/-- A child of a tight path is tight, and that path is its parent. -/
theorem IsTight.child {p : Path} (hp : p.IsTight) {name : String} (h : IsName name) :
    (p.child name).IsTight ∧ (p.child name).parent? = some p := by
  obtain ⟨body, htext, hidle⟩ := hp
  obtain ⟨lead, hchild, hlead, hbefore⟩ := exists_toList_child htext hidle h
  refine ⟨⟨_, hchild, ?_⟩, ?_⟩
  · rw [List.reverse_append]
    exact dropIdle_name h _
  · have hpiece : lastPiece? (lead ++ name.toList) = some (body, name.toList) := by
      rw [lastPiece?_name h hlead, hbefore]
    have hsplit : splitHead (p.child name).text.toList = (['/'], lead ++ name.toList) := by
      rw [hchild]
      rfl
    have hp : p = ⟨String.ofList ('/' :: body)⟩ := by rw [← htext, String.ofList_toList]
    rw [parent?_of_lastPiece? hsplit hpiece, hp]
    rfl

/-- A path made of names is tight. -/
theorem isTight_ofNames {names : List String} (h : ∀ n ∈ names, IsName n) :
    (ofNames names).IsTight := by
  have hfold : ∀ (names : List String) (p : Path), (∀ n ∈ names, IsName n) → p.IsTight →
      (names.foldl Path.child p).IsTight := by
    intro names
    induction names with
    | nil => exact fun _ _ hp => hp
    | cons n names ih =>
        intro p hn hp
        exact ih _ (fun m hm => hn m (List.mem_cons_of_mem _ hm))
          (hp.child (hn n (List.mem_cons_self ..))).1
  have := ofNames_append [] names
  rw [List.nil_append] at this
  rw [this]
  exact hfold names _ h ⟨[], rfl, rfl⟩

/-- A child of a tight path that is not the root has the name as one more
piece. -/
theorem splitAt_child {p : Path} (hp : p.IsTight) (hroot : p.text.toList ≠ ['/']) {name : String}
    (h : IsName name) :
    Text.splitAt '/' (p.child name).text.toList
      = Text.splitAt '/' p.text.toList ++ [name.toList] := by
  obtain ⟨body, htext, hidle⟩ := hp
  have hbody : body ≠ [] := fun hnil => hroot (by rw [htext, hnil])
  have hlast : ¬ ('/' :: body).getLast? = some '/' := by
    intro hslash
    rw [List.getLast?_cons_of_ne_nil hbody, ← List.head?_reverse] at hslash
    obtain ⟨t, ht⟩ := List.head?_eq_some_iff.mp hslash
    rw [ht] at hidle
    exact (dropIdle_eq_cons hidle).1 rfl
  rw [child_toList h, htext, if_neg (not_or.mpr ⟨List.cons_ne_nil _ _, hlast⟩), List.append_assoc]
  show Text.splitAt '/' (('/' :: body) ++ '/' :: name.toList) = _
  rw [Text.splitAt_append_cons, Text.splitAt_of_not_mem h.2.1]

/-- Names are appended piece by piece. -/
theorem splitAt_foldl_child {names : List String} (h : ∀ n ∈ names, IsName n) {p : Path}
    (hp : p.IsTight) (hroot : p.text.toList ≠ ['/']) :
    Text.splitAt '/' (names.foldl child p).text.toList
      = Text.splitAt '/' p.text.toList ++ names.map String.toList := by
  induction names generalizing p with
  | nil => exact (List.append_nil _).symm
  | cons n names ih =>
      have hn := h n List.mem_cons_self
      have hchild : (p.child n).text.toList ≠ ['/'] := by
        obtain ⟨before, hbefore⟩ := child_toList_suffix p n
        intro hslash
        refine hn.2.1 ?_
        rw [hslash] at hbefore
        rcases List.append_eq_singleton_iff.mp hbefore.symm with ⟨-, hname⟩ | ⟨-, hname⟩
        · rw [hname]
          exact List.mem_singleton_self _
        · exact absurd hname hn.toList_ne_nil
      rw [List.foldl_cons, ih (fun m hm => h m (List.mem_cons_of_mem _ hm)) (hp.child hn).1 hchild,
        splitAt_child hp hroot hn, List.append_assoc]
      rfl

/-- The pieces of a canonical path are its names, behind the slash that it
begins with. -/
theorem splitAt_ofNames {names : List String} (h : ∀ n ∈ names, IsName n) (hne : names ≠ []) :
    Text.splitAt '/' (ofNames names).text.toList = [] :: names.map String.toList := by
  cases names with
  | nil => exact absurd rfl hne
  | cons n names =>
      have hn := h n List.mem_cons_self
      have hfirst : ofNames (n :: names) = names.foldl child ((ofNames []).child n) :=
        ofNames_append [n] names
      have htext : ((ofNames []).child n).text.toList = '/' :: n.toList := by
        rw [child_toList hn]
        rfl
      have hroot : ((ofNames []).child n).text.toList ≠ ['/'] := by
        rw [htext]
        simpa using hn.toList_ne_nil
      rw [hfirst, splitAt_foldl_child (fun m hm => h m (List.mem_cons_of_mem _ hm))
        (IsTight.child ⟨[], rfl, rfl⟩ hn).1 hroot, htext]
      rw [Text.splitAt, if_pos (by rfl), Text.splitAt_of_not_mem hn.2.1]
      rfl

/-- The paths above a child are those of its parent and above. -/
theorem ancestors_child {p : Path} (hp : p.IsTight) {name : String} (h : IsName name) :
    (p.child name).ancestors = p.child name :: p.ancestors := by
  unfold ancestors
  rw [components_child p h, List.length_append, List.length_singleton, ancestorsWithin,
    (hp.child h).2]

/-- The path itself comes before those above it. -/
theorem ancestors_eq_cons (p : Path) : p.ancestors = p :: p.ancestors.drop 1 := by
  unfold ancestors ancestorsWithin
  split <;> rfl

theorem ofNames_concat (names : List String) (name : String) :
    ofNames (names ++ [name]) = (ofNames names).child name := ofNames_append names [name]

/-- A canonical path below another has this one as its parent. -/
theorem parent?_ofNames_concat {names : List String} {name : String}
    (h : ∀ n ∈ names ++ [name], IsName n) :
    (ofNames (names ++ [name])).parent? = some (ofNames names) := by
  rw [ofNames_concat]
  exact ((isTight_ofNames fun n hn => h n (List.mem_append_left _ hn)).child (h name (by simp))).2

/-- What is above a canonical path leaves out names at its end. -/
theorem eq_ofNames_of_mem_above {names : List String} (h : ∀ n ∈ names, IsName n) {p : Path}
    (hp : p ∈ (ofNames names).ancestors.drop 1) :
    ∃ above rest, names = above ++ rest ∧ rest ≠ [] ∧ p = ofNames above := by
  induction names using List.reverseRecOn with
  | nil => cases hp
  | append_singleton names name ih =>
      have hnames : ∀ n ∈ names, IsName n := fun n hn => h n (List.mem_append_left _ hn)
      rw [ofNames_concat, ancestors_child (isTight_ofNames hnames) (h name (by simp)),
        List.drop_succ_cons, List.drop_zero, ancestors_eq_cons] at hp
      rcases List.mem_cons.mp hp with rfl | hp
      · exact ⟨names, [name], rfl, List.cons_ne_nil _ _, rfl⟩
      · obtain ⟨above, rest, rfl, -, rfl⟩ := ih hnames hp
        exact ⟨above, rest ++ [name], List.append_assoc .., by simp, rfl⟩

end Path

end ResourceLint
