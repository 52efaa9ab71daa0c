/-
A shown path tells which file it is.

Paths are shown from the directory on that the requested paths have in
common.  What is shown of an absolute path is its own text, which begins with
a slash, or what follows the directory, which does not
(`display_cases`).  So two paths that look alike were shown in the same way,
and have the same components (`display_injective`); and what follows the
directory leads from there to the path again.

# The directory

Beginning with what two lists have in common is beginning with both
(`prefix_commonStart_iff`), and from this comes what holds of the whole fold:
the directory is the longest one that all begin with
(`prefix_foldl_commonStart_iff`).  This says of the requested paths only which there
are, so their order does not matter and neither does saying one twice.

# What follows it

The steps of a path are dropped from its text one by one, and the text that is
left has the steps that are left (`steps_dropSteps`).  A directory that is put
together from the beginning of a path has the components it was made from
(`components_ofComponents`).
-/
import ResourceLint.PathDisplay
import ResourceLint.Proofs.Entries

namespace ResourceLint

namespace Path

variable {p q : Path} {s rest : List Char} {c : Char} {l : List Component}

-- ========================================================== leaving out steps

theorem dropIdleFront_eq_dropIdle (s : List Char) : dropIdleFront s = dropIdle s := by
  fun_induction dropIdleFront s with
  | case1 => rfl
  | case2 => rfl
  | case3 s ih => rw [ih, dropIdle]
  | case4 s ih => rw [ih, dropIdle]
  | case5 s h₁ h₂ h₃ h₄ => exact (dropIdle.eq_5 s h₁ h₂ h₃ h₄).symm

/-- Idle text at the front denotes nothing. -/
theorem steps_dropIdleFront (s : List Char) : steps (dropIdleFront s) = steps s := by
  fun_induction dropIdleFront s with
  | case1 => rfl
  | case2 => rfl
  | case3 s ih =>
      rw [ih]
      exact (steps_append_slash [] s).symm
  | case4 s ih =>
      rw [ih]
      exact (steps_append_slash ['.'] s).symm
  | case5 s => rfl

/-- Where no idle text is at the front, the first piece is the first step. -/
theorem steps_dropWhile (h : dropIdle s = c :: rest) :
    steps ((c :: rest).dropWhile (· != '/')) = (steps (c :: rest)).drop 1 := by
  obtain ⟨hnotin, hne, hnedot⟩ := firstPiece_of_dropIdle h
  obtain ⟨x, hx⟩ := stepOf?_isSome hne hnedot
  have hfirst : steps ((c :: rest).takeWhile (· != '/')) = [x] := by
    rw [steps_piece hnotin, hx]
    rfl
  have hsplit := List.takeWhile_append_dropWhile (p := (· != '/')) (l := c :: rest)
  have hhead := List.head?_dropWhile_not (· != '/') (c :: rest)
  generalize (c :: rest).dropWhile (· != '/') = tail at hsplit hhead ⊢
  cases tail with
  | nil =>
      rw [List.append_nil] at hsplit
      rw [← hsplit, hfirst]
      rfl
  | cons d more =>
      obtain rfl : d = '/' := by simpa using hhead
      rw [← hsplit, steps_append_slash, hfirst]
      exact steps_append_slash [] more

/-- Dropping steps from a text leaves the other ones. -/
theorem steps_dropSteps (n : Nat) (s : List Char) : steps (dropSteps n s) = (steps s).drop n := by
  induction n generalizing s with
  | zero => exact steps_dropIdleFront s
  | succ n ih =>
      rw [dropSteps, ih, ← steps_dropIdleFront s, dropIdleFront_eq_dropIdle]
      cases hidle : dropIdle s with
      | nil => rw [List.dropWhile_nil, steps_nil, List.drop_nil, List.drop_nil]
      | cons c rest => rw [steps_dropWhile hidle, List.drop_drop, Nat.add_comm]

theorem head?_dropSteps (n : Nat) (s : List Char) : (dropSteps n s).head? ≠ some '/' := by
  induction n generalizing s with
  | zero =>
      rw [dropSteps, dropIdleFront_eq_dropIdle]
      cases hidle : dropIdle s with
      | nil => exact fun hhead => by cases hhead
      | cons c rest => exact fun hhead => (dropIdle_eq_cons hidle).1 (Option.some.inj hhead)
  | succ n ih => exact ih _

/-- What follows some components of an absolute path, the root among them, has
the other ones, and is a relative path. -/
theorem textAfter_of_isAbsolute (hp : p.isAbsolute) {n : Nat} (hn : n ≠ 0) :
    steps (p.textAfter n) = p.components.drop n ∧ (p.textAfter n).head? ≠ some '/' := by
  obtain ⟨body, hbody⟩ : ∃ body, p.text.toList = '/' :: body := by
    unfold isAbsolute at hp
    exact List.head?_eq_some_iff.mp (by simpa using hp)
  obtain ⟨n, rfl⟩ := Nat.exists_eq_succ_of_ne_zero hn
  have hcomponents : p.components = .root :: steps body := by
    rw [components_eq, hbody]
    rfl
  have htext : p.textAfter (n + 1) = (dropIdle (dropSteps n body).reverse).reverse := by
    unfold textAfter
    rw [hbody]
    rfl
  rw [Nat.succ_eq_add_one, htext]
  constructor
  · rw [steps_dropIdle, List.reverse_reverse, steps_dropSteps, hcomponents]
    rfl
  · obtain ⟨idle, hidle⟩ := List.reverse_prefix.mpr (dropIdle_suffix (dropSteps n body).reverse)
    rw [List.reverse_reverse] at hidle
    intro hhead
    refine head?_dropSteps n body ?_
    rw [← hidle, List.head?_append, hhead]
    rfl

-- ============================================================ putting together

/-- The names that a path denotes are names of entries. -/
theorem isName_of_mem_steps {name : String} (h : Component.name name ∈ steps s) : IsName name := by
  obtain ⟨piece, hpiece, hstep⟩ := List.mem_filterMap.mp h
  exact isName_of_stepOf? (Text.not_mem_of_mem_splitAt hpiece) hstep

/-- A path is its steps, behind the root, a leading dot or nothing. -/
theorem components_cases (p : Path) :
    p.components = steps p.text.toList
      ∨ ∃ head, (head = .root ∨ head = .here) ∧ p.components = head :: steps p.text.toList := by
  rw [components_eq, steps_splitHead]
  rcases headOf_splitHead_cases p.text.toList with ⟨hhead, -⟩ | ⟨hhead | hhead, -⟩
  · exact Or.inr ⟨.root, Or.inl rfl, by rw [hhead]; rfl⟩
  · exact Or.inr ⟨.here, Or.inr rfl, by rw [hhead]; rfl⟩
  · exact Or.inl (by rw [hhead]; rfl)

/-- The text of a step is that step, and leads on. -/
theorem steps_text {x : Component} (h : x ∈ steps s) :
    steps x.text.toList = [x] ∧ splitHead x.text.toList = ([], x.text.toList)
      ∧ (Path.mk x.text).isAbsolute = false := by
  obtain ⟨piece, -, hpiece⟩ := List.mem_filterMap.mp h
  rcases eq_of_stepOf? hpiece with rfl | ⟨name, rfl⟩
  · exact ⟨rfl, rfl, rfl⟩
  · have hname := isName_of_mem_steps h
    exact ⟨hname.steps, hname.splitHead, hname.not_isAbsolute⟩

/-- The text of a component denotes it. -/
theorem components_text {x : Component} (h : x ∈ p.components) :
    (Path.mk x.text).components = [x] := by
  have hstep : x ∈ steps p.text.toList → (Path.mk x.text).components = [x] := fun hx => by
    obtain ⟨hsteps, hsplit, -⟩ := steps_text hx
    rw [components_eq, hsplit, hsteps]
    rfl
  rcases components_cases p with hp | ⟨head, hhead, hp⟩
  · exact hstep (hp ▸ h)
  · rw [hp] at h
    rcases List.mem_cons.mp h with rfl | hx
    · rcases hhead with rfl | rfl <;> rfl
    · exact hstep hx

/-- A component that is not the first is a step. -/
theorem mem_steps_of_concat {x : Component} (h : l ++ [x] <+: p.components) (hl : l ≠ []) :
    x ∈ steps p.text.toList := by
  obtain ⟨y, l, rfl⟩ := List.exists_cons_of_ne_nil hl
  rcases components_cases p with hp | ⟨head, -, hp⟩
  · rw [hp] at h
    exact h.subset (List.mem_append_right _ List.mem_cons_self)
  · rw [hp, List.cons_append, List.cons_prefix_cons] at h
    exact h.2.subset (List.mem_append_right _ List.mem_cons_self)

theorem text_ne_nil (h : p.components ≠ []) : p.text.toList ≠ [] := fun hnil => h (by
  rw [components_eq, hnil]
  rfl)

/-- A path that is put together from the beginning of another one has these
components. -/
theorem components_ofComponents (h : l <+: p.components) : (ofComponents l).components = l := by
  induction l using List.reverseRecOn with
  | nil => rfl
  | append_singleton l x ih =>
      have hl := ih ((List.prefix_append l [x]).trans h)
      have hconcat : ofComponents (l ++ [x]) = (ofComponents l).join ⟨x.text⟩ := by
        unfold ofComponents
        rw [List.foldl_append]
        rfl
      by_cases hnil : l = []
      · subst hnil
        have hfirst : ofComponents [x] = ⟨x.text⟩ := by
          unfold ofComponents
          rw [List.foldl_cons, List.foldl_nil, join]
          split <;> rfl
        rw [List.nil_append, hfirst]
        exact components_text (h.subset List.mem_cons_self)
      · obtain ⟨hsteps, -, hrelative⟩ := steps_text (mem_steps_of_concat h hnil)
        rw [hconcat, components_join (text_ne_nil (by rwa [hl])) hrelative, hl, hsteps]

end Path

namespace PathDisplay

open ResourceLint.Path

variable {inputs : List Path} {d : PathDisplay} {p q base : Path} {l : List Component}

-- ======================================================= what paths have in common

/-- To begin with what two lists have in common is to begin with both. -/
theorem prefix_commonStart_iff {α : Type} [BEq α] [LawfulBEq α] {l a b : List α} :
    l <+: commonStart a b ↔ l <+: a ∧ l <+: b := by
  induction l generalizing a b with
  | nil => exact iff_of_true List.nil_prefix ⟨List.nil_prefix, List.nil_prefix⟩
  | cons x l ih =>
      cases a with
      | nil => exact iff_of_false (by simp [commonStart]) (by simp)
      | cons y a =>
          cases b with
          | nil => exact iff_of_false (by simp [commonStart]) (by simp)
          | cons z b =>
              rw [commonStart]
              by_cases hyz : y = z
              · subst hyz
                rw [if_pos (beq_self_eq_true y), List.cons_prefix_cons, List.cons_prefix_cons,
                  List.cons_prefix_cons, ih, and_and_left]
              · rw [if_neg (by simpa using hyz), List.cons_prefix_cons, List.cons_prefix_cons]
                refine iff_of_false (by simp) ?_
                -- a first element of both would make them one
                rintro ⟨⟨rfl, -⟩, rfl, -⟩
                exact hyz rfl

theorem prefix_foldl_commonStart_iff {first : List Component} {more : List Path} :
    l <+: more.foldl (fun steps p => commonStart steps p.components) first
      ↔ l <+: first ∧ ∀ p ∈ more, l <+: p.components := by
  induction more generalizing first with
  | nil => simp
  | cons p more ih =>
      rw [List.foldl_cons, ih, prefix_commonStart_iff, List.forall_mem_cons, and_assoc]

/-- What some paths have in common at their start, and the directory of it. -/
theorem exists_commonBase?_eq {paths : List Path} (hne : paths ≠ []) :
    ∃ shared, (∀ l, l <+: shared ↔ ∀ p ∈ paths, l <+: p.components)
      ∧ commonBase? paths = if shared.isEmpty then none else some (ofComponents shared) := by
  cases paths with
  | nil => exact absurd rfl hne
  | cons first more =>
      refine ⟨_, fun l => ?_, rfl⟩
      rw [prefix_foldl_commonStart_iff, List.forall_mem_cons]

/-- Only the paths count, not in which order they are and how often. -/
theorem commonBase?_congr {paths paths' : List Path} (h : ∀ p, p ∈ paths ↔ p ∈ paths') :
    commonBase? paths = commonBase? paths' := by
  by_cases hne : paths = []
  · subst hne
    rw [List.eq_nil_iff_forall_not_mem.mpr fun p hp => List.not_mem_nil ((h p).mpr hp)]
  · have hne' : paths' ≠ [] := by
      obtain ⟨p, hp⟩ := List.exists_mem_of_ne_nil paths hne
      exact List.ne_nil_of_mem ((h p).mp hp)
    obtain ⟨shared, hshared, hbase⟩ := exists_commonBase?_eq hne
    obtain ⟨shared', hshared', hbase'⟩ := exists_commonBase?_eq hne'
    have hiff : ∀ l, l <+: shared ↔ l <+: shared' := fun l => by
      rw [hshared, hshared']
      exact forall_congr' fun p => by rw [h p]
    have hsame : shared = shared' :=
      ((hiff shared).mp (List.prefix_refl _)).eq_of_length_le
        ((hiff shared').mpr (List.prefix_refl _)).length_le
    rw [hbase, hbase', hsame]

/-- The directory that a requested path is in. -/
def parentOf (p : Path) : Path := p.parent?.getD .empty

/-- The directory that requested paths have in common: it has a component, it is
there only for some path, and the directories of all of them begin with it and
with nothing longer. -/
structure IsBase (inputs : List Path) (base : Option Path) : Prop where
  requested : inputs = [] → base = none
  components_ne_nil : ∀ b ∈ base, b.components ≠ []
  longest : inputs ≠ [] → ∀ l, l <+: base.elim [] components
    ↔ ∀ p ∈ inputs, l <+: (parentOf p).components

theorem isBase_new (inputs : List Path) (full : Bool) : IsBase inputs (new inputs full).base := by
  by_cases hne : inputs = []
  · subst hne
    exact ⟨fun _ => rfl, (fun b hb => nomatch hb), fun h => absurd rfl h⟩
  · have hparents : inputs.map parentOf ≠ [] := by simpa using hne
    obtain ⟨shared, hshared, hbase⟩ := exists_commonBase?_eq hparents
    -- the prefixes of what is shared are the shared prefixes
    have hinputs : ∀ l, l <+: shared ↔ ∀ p ∈ inputs, l <+: (parentOf p).components := fun l => by
      rw [hshared, List.forall_mem_map]
    have hcomponents : (ofComponents shared).components = shared := by
      obtain ⟨p, hp⟩ := List.exists_mem_of_ne_nil inputs hne
      exact components_ofComponents ((hinputs shared).mp (List.prefix_refl _) p hp)
    have hnew : (new inputs full).base
        = if shared.isEmpty then none else some (ofComponents shared) := hbase
    rw [hnew]
    refine ⟨fun h => absurd h hne, ?_, fun _ l => ?_⟩
    · split
      · exact fun b hb => nomatch hb
      · next hshared =>
          rintro b ⟨⟩
          rw [hcomponents]
          simpa using hshared
    · rw [← hinputs l]
      split
      · next hshared => rw [List.isEmpty_iff.mp hshared, Option.elim_none]
      · rw [Option.elim_some, hcomponents]

-- =================================================================== what is shown

/-- An absolute path is shown as it is, or as what leads to it from the common
directory. -/
theorem display_cases (hbase : ∀ b ∈ d.base, b.components ≠ []) (hp : p.isAbsolute) :
    d.display p = p.text
      ∨ ∃ base, d.base = some base ∧ (Path.mk (d.display p)).isAbsolute = false
        ∧ p.components = base.components ++ steps (d.display p).toList := by
  unfold display
  split
  · exact Or.inl rfl
  · cases hd : d.base with
    | none => exact Or.inl rfl
    | some base =>
        rw [Option.bind_some]
        unfold stripBase?
        by_cases hprefix : base.components.isPrefixOf p.components
        · rw [if_pos hprefix]
          dsimp only
          split
          · exact Or.inl rfl
          · -- what is left out has the root among it, so what is left is relative
            obtain ⟨rest, hrest⟩ := List.isPrefixOf_iff_prefix.mp hprefix
            have hlength : base.components.length ≠ 0 :=
              mt List.length_eq_zero_iff.mp (hbase base (by rw [hd]; rfl))
            obtain ⟨hsteps, hhead⟩ := textAfter_of_isAbsolute hp hlength
            refine Or.inr ⟨base, rfl, ?_, ?_⟩
            · unfold isAbsolute
              rw [String.toList_ofList]
              simpa using hhead
            · rw [String.toList_ofList, hsteps, ← hrest, List.drop_left]
        · rw [if_neg hprefix]
          exact Or.inl rfl

/-- Paths that are shown alike have the same components. -/
theorem display_injective (hbase : ∀ b ∈ d.base, b.components ≠ []) (hp : p.isAbsolute)
    (hq : q.isAbsolute) (h : d.display p = d.display q) : p.components = q.components := by
  have hmk : ∀ r : Path, Path.mk r.text = r := fun _ => rfl
  rcases display_cases hbase hp with hshown | ⟨base, hd, hrelative, hcomponents⟩
  · rcases display_cases hbase hq with hshown' | ⟨base', hd', hrelative', -⟩
    · rw [← hmk p, ← hmk q, ← hshown, ← hshown', h]
    · rw [← h, hshown, hmk, hp] at hrelative'
      cases hrelative'
  · rcases display_cases hbase hq with hshown' | ⟨base', hd', -, hcomponents'⟩
    · rw [h, hshown', hmk, hq] at hrelative
      cases hrelative
    · obtain rfl : base = base' := Option.some.inj (hd.symm.trans hd')
      rw [hcomponents, hcomponents', h]

/-- Shown paths.  Absolute paths that are shown alike are the same; one that is
not shown as it is leads there from the common directory; this directory is the
longest one that the directories of the requested paths begin with; and it does
not depend on the order in which they are requested or on how often. -/
theorem display_new (inputs : List Path) :
    (∀ p q : Path, p.isAbsolute → q.isAbsolute →
        (new inputs false).display p = (new inputs false).display q → p.components = q.components)
      ∧ (∀ p : Path, p.isAbsolute → (new inputs false).display p ≠ p.text →
        ∃ base, (new inputs false).base = some base
          ∧ (base.join ⟨(new inputs false).display p⟩).components = p.components)
      ∧ IsBase inputs (new inputs false).base
      ∧ ∀ inputs' : List Path, (∀ p, p ∈ inputs ↔ p ∈ inputs') →
        (new inputs false).base = (new inputs' false).base := by
  have hbase := isBase_new inputs false
  refine ⟨fun p q hp hq => display_injective hbase.components_ne_nil hp hq, fun p hp hshown => ?_,
    hbase, fun inputs' hinputs => ?_⟩
  · rcases display_cases hbase.components_ne_nil hp with hself | ⟨base, hd, hrelative, hcomponents⟩
    · exact absurd hself hshown
    · refine ⟨base, hd, ?_⟩
      have hne : base.components ≠ [] := hbase.components_ne_nil base hd
      rw [components_join (text_ne_nil hne) hrelative, hcomponents]
  · refine commonBase?_congr fun p => ?_
    simp only [List.mem_map, hinputs]

/-- Two directories, requested in another order and one of them twice, and a path in
one of them that is written in two ways. -/
theorem display_new_below :
    (Path.mk "//work/app/.//res/").components = (Path.mk "/work/app/.//res").components
      ∧ (∃ base, (new [⟨"/work/lib"⟩, ⟨"/work/./app/"⟩] false).base = some base
        ∧ (base.join ⟨"app/.//res"⟩).components = (Path.mk "//work/app/.//res/").components)
      ∧ (new [⟨"/work/lib"⟩, ⟨"/work/./app/"⟩] false).base
        = (new [⟨"/work/./app/"⟩, ⟨"/work/lib"⟩, ⟨"/work/./app/"⟩] false).base := by
  obtain ⟨hinjective, hjoin, -, horder⟩ := display_new [⟨"/work/lib"⟩, ⟨"/work/./app/"⟩]
  have hshown : (new [⟨"/work/lib"⟩, ⟨"/work/./app/"⟩] false).display ⟨"//work/app/.//res/"⟩
      = "app/.//res" := by decide +kernel
  have hshown' : (new [⟨"/work/lib"⟩, ⟨"/work/./app/"⟩] false).display ⟨"/work/app/.//res"⟩
      = "app/.//res" := by decide +kernel
  refine ⟨hinjective _ _ rfl rfl (hshown.trans hshown'.symm), ?_, horder _ fun p => ?_⟩
  · have hback := hjoin ⟨"//work/app/.//res/"⟩ rfl (by rw [hshown]; decide)
    rwa [hshown] at hback
  · simp only [List.mem_cons, List.not_mem_nil, or_false]
    tauto

end PathDisplay

end ResourceLint
