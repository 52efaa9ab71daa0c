/-
Lists that say the same in other words.

A list of a command line goes by its entries that are not blank, so it may be
reworded (`Rewords`): blank entries may be added, entries padded, repeated and
reordered, and a name may be replaced by the ids that it stands for.  Every
step leaves alone what a list accepts and selects (`Rewords.alike`), and so
does any number of steps in either direction (`alike_of_eqvGen`).

One thing does not go by the entries that say something: whether a run is
restricted, for which a list of checks has to be empty and not merely blank.
So severities are the same under reworded lists exactly where both lists of
checks are empty or neither is (`severity_of_rewording`).
-/
import Mathlib.Data.Fintype.EquivFin
import Mathlib.Logic.Relation
import ResourceLint.Proofs.Entries
import ResourceLint.Proofs.Selecting

namespace ResourceLint

namespace Text

variable {left right cs : List Char}

/-- Blanks in front are trimmed, -/
theorem trimStart_append (h : ∀ c ∈ left, isBlank c) (cs : List Char) :
    trimStart (left ++ cs) = trimStart cs := List.dropWhile_append_of_pos h

theorem trimEnd_append (h : ∀ c ∈ right, isBlank c) (cs : List Char) :
    trimEnd (cs ++ right) = trimEnd cs := by
  unfold trimEnd
  rw [List.reverse_append,
    List.dropWhile_append_of_pos fun c hc => h c (List.mem_reverse.mp hc)]

/-- Blanks at the ends of a text make no difference to what is left of it. -/
theorem trim_pad (hleft : ∀ c ∈ left, isBlank c) (hright : ∀ c ∈ right, isBlank c)
    (cs : List Char) : trim (left ++ cs ++ right) = trim cs := by
  have hstart : trimEnd (trimStart (cs ++ right)) = trimEnd (trimStart cs) := by
    by_cases hblank : trimStart cs = []
    · have hall : ∀ c ∈ cs ++ right, isBlank c := by
        intro c hc
        rcases List.mem_append.mp hc with hc | hc
        · exact List.dropWhile_eq_nil_iff.mp hblank c hc
        · exact hright c hc
      have hnone : trimStart (cs ++ right) = [] := List.dropWhile_eq_nil_iff.mpr hall
      rw [hblank, hnone]
    · have hsome : trimStart (cs ++ right) = trimStart cs ++ right := by
        unfold trimStart at hblank ⊢
        rw [List.dropWhile_append, if_neg (by simpa using hblank)]
      rw [hsome, trimEnd_append hright]
  unfold trim
  rw [List.append_assoc, trimStart_append hleft, hstart]

end Text

-- ================================================================ categories

/-- A category begins with the names that it has. -/
theorem Category.beginsWith_of_isNamed {c : Category} {name : String} (h : c.isNamed name) :
    c.beginsWith name := by
  unfold isNamed at h
  unfold beginsWith
  rw [Bool.or_eq_true, Bool.or_eq_true, beq_iff_eq, beq_iff_eq] at h
  rw [Bool.or_eq_true, List.isPrefixOf_iff_prefix, List.isPrefixOf_iff_prefix]
  rcases h with (hfull | hname) | hinside
  · exact Or.inl (hfull ▸ List.prefix_rfl)
  · exact Or.inr (hname ▸ List.prefix_rfl)
  · cases hafter : Text.after? name c.fullName with
    | none =>
        rw [hafter] at hinside
        cases hinside
    | some rest =>
        obtain ⟨after, hstrip, -⟩ := Option.map_eq_some_iff.mp hafter
        exact Or.inl ⟨after, (Text.strip?_eq_some_iff.mp hstrip).symm⟩

/-- The ids of a registry are texts that say something, without blanks at their
ends. -/
structure Registry.Tidy (r : Registry) : Prop where
  trimmed : ∀ issue ∈ r.issues, Text.trimmed issue.id = issue.id
  filled : ∀ issue ∈ r.issues, issue.id ≠ ""

namespace Selection

variable {r : Registry} {a b entries before after : List String} {entry name id : String}

-- ==================================================== what a list goes by

/-- Whether a name is that of an issue or of a category. -/
def Knows (r : Registry) (name : String) : Prop := r.isIssueId name ∨ r.isCategoryName name

/-- The names of a list are its entries without their blanks, where anything is
left. -/
theorem mem_names : name ∈ names entries
    ↔ ∃ entry ∈ entries, Text.trimmed entry = name ∧ name ≠ "" := by
  unfold names
  rw [List.mem_filter, List.mem_map, bne_iff_ne]
  constructor
  · intro ⟨⟨entry, hentry, htrimmed⟩, hsome⟩
    exact ⟨entry, hentry, htrimmed, hsome⟩
  · intro ⟨entry, hentry, htrimmed, hsome⟩
    exact ⟨⟨entry, hentry, htrimmed⟩, hsome⟩

/-- A list is refused for some name that nobody knows. -/
theorem not_accepts_iff : ¬ Accepts r entries
    ↔ ∃ entry ∈ entries, Text.trimmed entry ≠ "" ∧ ¬ Knows r (Text.trimmed entry) := by
  unfold Accepts Knows
  simp only [mem_names]
  push Not
  constructor
  · intro ⟨name, ⟨entry, hentry, htrimmed, hsome⟩, hunknown⟩
    subst htrimmed
    exact ⟨entry, hentry, hsome, hunknown⟩
  · intro ⟨entry, hentry, hsome, hunknown⟩
    exact ⟨_, ⟨entry, hentry, rfl, hsome⟩, hunknown⟩

/-- A name stands for the ids of issues. -/
theorem isIssueId_of_names (h : Names r name id) : r.isIssueId id := by
  unfold Names at h
  split at h
  · next hid => exact h ▸ hid
  · obtain ⟨issue, hissue, rfl, -⟩ := h
    exact Registry.isIssueId_iff.mpr ⟨issue, hissue, rfl⟩

/-- A name that is known stands for some issue. -/
theorem exists_names_of_knows (h : Knows r name) : ∃ id, Names r name id := by
  unfold Names
  by_cases hid : r.isIssueId name
  · simp only [hid, if_true]
    exact ⟨name, rfl⟩
  · obtain ⟨issue, hissue, hnamed⟩ := List.any_eq_true.mp (h.resolve_left hid)
    simp only [hid, Bool.false_eq_true, if_false]
    exact ⟨issue.id, issue, hissue, rfl, Category.beginsWith_of_isNamed hnamed⟩

/-- The ids that a name is replaced by are there, and ids of issues. -/
theorem exists_idsOf_ne_nil (h : Knows r name) :
    ∃ ids, idsOf r name = .ok ids ∧ ids ≠ [] ∧ ∀ id ∈ ids, r.isIssueId id := by
  obtain ⟨ids, hids⟩ := exists_idsOf.mpr h
  obtain ⟨id, hnames⟩ := exists_names_of_knows h
  exact ⟨ids, hids, List.ne_nil_of_mem ((mem_idsOf hids).mpr hnames), fun id hmem =>
    isIssueId_of_names ((mem_idsOf hids).mp hmem)⟩

-- ================================================================= rewording

/-- One list is another in other words, with more of them. -/
inductive Rewords (r : Registry) : List String → List String → Prop
  /-- an entry that says nothing -/
  | blank {entry : String} (h : Text.trimmed entry = "") : Rewords r [] [entry]
  /-- an entry with blanks around it -/
  | pad {entry : String} {left right : List Char} (hleft : ∀ c ∈ left, Text.isBlank c)
      (hright : ∀ c ∈ right, Text.isBlank c) :
      Rewords r [entry] [String.ofList (left ++ entry.toList ++ right)]
  /-- an entry once more -/
  | again {entry : String} : Rewords r [entry] [entry, entry]
  /-- the ids that a name stands for -/
  | expand {entry : String} {ids : List String} (hsome : Text.trimmed entry ≠ "")
      (h : idsOf r (Text.trimmed entry) = .ok ids) : Rewords r [entry] ids
  /-- another order -/
  | reorder {a b : List String} (h : a.Perm b) : Rewords r a b
  /-- among other entries -/
  | within {before after a b : List String} (h : Rewords r a b) :
      Rewords r (before ++ a ++ after) (before ++ b ++ after)

/-- Two lists accept and select the same. -/
structure Alike (r : Registry) (a b : List String) : Prop where
  accepts : Accepts r a ↔ Accepts r b
  selects : ∀ id, Selects r a id ↔ Selects r b id

namespace Alike

theorem refl (a : List String) : Alike r a a := ⟨Iff.rfl, fun _ => Iff.rfl⟩

theorem symm (h : Alike r a b) : Alike r b a := ⟨h.accepts.symm, fun id => (h.selects id).symm⟩

theorem trans {c : List String} (h : Alike r a b) (h' : Alike r b c) : Alike r a c :=
  ⟨h.accepts.trans h'.accepts, fun id => (h.selects id).trans (h'.selects id)⟩

/-- Lists with the same names are alike. -/
theorem of_mem_names (h : ∀ name, name ∈ names a ↔ name ∈ names b) : Alike r a b where
  accepts := forall_congr' fun name => imp_congr_left (h name)
  selects _ := exists_congr fun name => and_congr_left' (h name)

/-- Lists stay alike among other entries. -/
theorem within (h : Alike r a b) : Alike r (before ++ a ++ after) (before ++ b ++ after) := by
  have hjoins : ∀ list, Joins (before ++ list ++ after) (before ++ after) list := by
    intro list entry
    simp only [List.mem_append]
    tauto
  constructor
  · rw [(hjoins a).accepts, (hjoins b).accepts, h.accepts]
  · intro id
    rw [(hjoins a).selects, (hjoins b).selects, h.selects]

/-- The ids that a name stands for are alike with it. -/
theorem of_idsOf (htidy : r.Tidy) (hsome : Text.trimmed entry ≠ "") {ids : List String}
    (h : idsOf r (Text.trimmed entry) = .ok ids) : Alike r [entry] ids := by
  have hissues : ∀ id ∈ ids, r.isIssueId id := fun id hid =>
    isIssueId_of_names ((mem_idsOf h).mp hid)
  -- in a tidy registry an id names itself
  have hmem : ∀ name, name ∈ names ids ↔ name ∈ ids := by
    have hplain : ∀ id ∈ ids, Text.trimmed id = id ∧ id ≠ "" := by
      intro id hid
      obtain ⟨issue, hissue, rfl⟩ := Registry.isIssueId_iff.mp (hissues id hid)
      exact ⟨htidy.trimmed issue hissue, htidy.filled issue hissue⟩
    intro name
    rw [mem_names]
    constructor
    · intro ⟨id, hid, htrimmed, _⟩
      rwa [← htrimmed, (hplain id hid).1]
    · intro hname
      exact ⟨name, hname, hplain name hname⟩
  have hone : ∀ name, name ∈ names [entry] ↔ name = Text.trimmed entry := by
    intro name
    simp only [mem_names, List.mem_singleton, exists_eq_left]
    constructor
    · intro ⟨heq, _⟩
      exact heq.symm
    · intro heq
      exact ⟨heq.symm, heq ▸ hsome⟩
  constructor
  · unfold Accepts
    simp only [hone, hmem, forall_eq]
    exact iff_of_true (exists_idsOf.mp ⟨ids, h⟩) fun id hid => Or.inl (hissues id hid)
  · intro id
    unfold Selects
    simp only [hone, hmem, exists_eq_left, ← mem_idsOf h]
    constructor
    · intro hid
      refine ⟨id, hid, ?_⟩
      unfold Names
      rw [if_pos (hissues id hid)]
    · intro ⟨name, hname, hnames⟩
      unfold Names at hnames
      rw [if_pos (hissues name hname)] at hnames
      exact hnames ▸ hname

end Alike

/-- A rewording leaves alone what a list accepts and selects. -/
theorem Rewords.alike (htidy : r.Tidy) (h : Rewords r a b) : Alike r a b := by
  induction h with
  | blank hblank =>
      refine .of_mem_names fun name => ?_
      simp only [mem_names, List.not_mem_nil, false_and, exists_false, List.mem_singleton,
        exists_eq_left, hblank, false_iff]
      rintro ⟨heq, hsome⟩
      exact hsome heq.symm
  | pad hleft hright =>
      refine .of_mem_names fun name => ?_
      simp only [mem_names, List.mem_singleton, exists_eq_left, Text.trimmed,
        String.toList_ofList, Text.trim_pad hleft hright]
  | again => exact .of_mem_names fun name => by simp [mem_names]
  | expand hsome hids => exact .of_idsOf htidy hsome hids
  | reorder hperm =>
      refine .of_mem_names fun name => ?_
      simp only [mem_names, hperm.mem_iff]
  | within _ ih => exact ih.within

/-- So do any number of them, there and back. -/
theorem alike_of_eqvGen (htidy : r.Tidy) (h : Relation.EqvGen (Rewords r) a b) : Alike r a b := by
  induction h with
  | rel a b hrewords => exact hrewords.alike htidy
  | refl a => exact .refl a
  | symm a b _ ih => exact ih.symm
  | trans a b c _ _ first second => exact first.trans second

-- ============================================================ unknown names

/-- The name a refusal gives is the one that is not known. -/
theorem of_idsOf_eq_error {u : UnknownName} (h : idsOf r name = .error u) :
    u.name = name ∧ ¬ Knows r name := by
  unfold idsOf at h
  unfold Knows
  split at h
  · cases h
  · next hid =>
      split at h
      · cases h
      · next hcategory =>
          cases h
          exact ⟨rfl, not_or.mpr ⟨hid, hcategory⟩⟩

/-- The name that a list is refused for is one of its names, and nobody knows
it. -/
theorem of_mapM_eq_error {names : List String} {u : UnknownName}
    (h : names.mapM (idsOf r) = .error u) : u.name ∈ names ∧ ¬ Knows r u.name := by
  induction names with
  | nil => cases h
  | cons first more ih =>
      rw [List.mapM_cons] at h
      cases hfirst : idsOf r first with
      | error e =>
          rw [hfirst] at h
          cases h
          obtain ⟨hname, hunknown⟩ := of_idsOf_eq_error hfirst
          exact ⟨hname ▸ List.mem_cons_self, hname ▸ hunknown⟩
      | ok ids =>
          rw [hfirst] at h
          cases hmore : more.mapM (idsOf r) with
          | error e =>
              rw [hmore] at h
              cases h
              obtain ⟨hname, hunknown⟩ := ih hmore
              exact ⟨List.mem_cons_of_mem _ hname, hunknown⟩
          | ok lists =>
              rw [hmore] at h
              cases h

/-- A list that cannot be read holds the unknown name. -/
theorem exists_of_expand_eq_error {u : UnknownName} (h : expand r entries = .error u) :
    ∃ entry ∈ entries, Text.trimmed entry = u.name ∧ u.name ≠ "" ∧ ¬ Knows r u.name := by
  unfold expand at h
  cases hlists : (names entries).mapM (idsOf r) with
  | ok lists =>
      rw [hlists] at h
      cases h
  | error e =>
      rw [hlists] at h
      cases h
      obtain ⟨hname, hunknown⟩ := of_mapM_eq_error hlists
      obtain ⟨entry, hentry, htrimmed, hsome⟩ := mem_names.mp hname
      exact ⟨entry, hentry, htrimmed, hsome, hunknown⟩

variable {enable disable check enable' disable' check' : List String} {s s' : Selection}

/-- Where three lists cannot be read, an unknown name of one of them is given. -/
theorem exists_of_ofFlags_eq_error {u : UnknownName}
    (h : ofFlags r enable disable check = .error u) :
    ∃ entry ∈ enable ++ disable ++ check,
      Text.trimmed entry = u.name ∧ u.name ≠ "" ∧ ¬ Knows r u.name := by
  have hlist : ∀ entries ∈ [enable, disable, check], expand r entries = .error u →
      ∃ entry ∈ enable ++ disable ++ check,
        Text.trimmed entry = u.name ∧ u.name ≠ "" ∧ ¬ Knows r u.name := by
    intro entries hentries hexpand
    obtain ⟨entry, hentry, hunknown⟩ := exists_of_expand_eq_error hexpand
    refine ⟨entry, ?_, hunknown⟩
    simp only [List.mem_cons, List.not_mem_nil, or_false] at hentries
    rcases hentries with rfl | rfl | rfl <;> simp [hentry]
  -- the lists are read in this order, and the first fault is given
  unfold ofFlags at h
  cases hdisable : expand r disable with
  | error e =>
      rw [hdisable] at h
      cases h
      exact hlist disable (by simp) hdisable
  | ok suppressed =>
      cases henable : expand r enable with
      | error e =>
          rw [hdisable, henable] at h
          cases h
          exact hlist enable (by simp) henable
      | ok enabled =>
          rw [hdisable, henable] at h
          cases hcheck : expand r check with
          | error e =>
              cases check with
              | nil => cases h
              | cons entry more =>
                  rw [hcheck] at h
                  cases h
                  exact hlist (entry :: more) (by simp) hcheck
          | ok ids =>
              rw [hcheck] at h
              cases check <;> cases h

/-- Three lists cannot be read where one of them holds an unknown name. -/
theorem exists_ofFlags_eq_error_iff :
    (∃ u, ofFlags r enable disable check = .error u)
      ↔ ∃ entry ∈ enable ++ disable ++ check,
        Text.trimmed entry ≠ "" ∧ ¬ Knows r (Text.trimmed entry) := by
  constructor
  · intro ⟨u, hu⟩
    obtain ⟨entry, hentry, htrimmed, hsome, hunknown⟩ := exists_of_ofFlags_eq_error hu
    exact ⟨entry, hentry, htrimmed ▸ hsome, htrimmed ▸ hunknown⟩
  · intro ⟨entry, hentry, hsome, hunknown⟩
    cases hread : ofFlags r enable disable check with
    | error u => exact ⟨u, rfl⟩
    | ok s =>
        obtain ⟨henable, hdisable, hcheck⟩ := exists_ofFlags_iff.mp ⟨s, hread⟩
        simp only [List.mem_append] at hentry
        rcases hentry with (hentry | hentry) | hentry
        · exact absurd henable (not_accepts_iff.mpr ⟨entry, hentry, hsome, hunknown⟩)
        · exact absurd hdisable (not_accepts_iff.mpr ⟨entry, hentry, hsome, hunknown⟩)
        · exact absurd hcheck (not_accepts_iff.mpr ⟨entry, hentry, hsome, hunknown⟩)

-- ================================================================ severities

/-- Selections from lists that are alike give the same severities, where both
restrict the run or neither does. -/
theorem Says.severity_congr (h : Says r enable disable check s)
    (h' : Says r enable' disable' check' s') (henable : Alike r enable enable')
    (hdisable : Alike r disable disable') (hcheck : Alike r check check')
    (hrestricted : check = [] ↔ check' = []) (issue : Issue) (beneath : Severity) :
    s.severity issue beneath = s'.severity issue beneath := by
  have hasks : Asks r enable check issue.id ↔ Asks r enable' check' issue.id :=
    or_congr (henable.selects _) (hcheck.selects _)
  by_cases hsuppressed : Selects r disable issue.id
  · rw [h.severity_of_suppressed hsuppressed,
      h'.severity_of_suppressed ((hdisable.selects _).mp hsuppressed)]
  · have hsuppressed' := mt (hdisable.selects _).mpr hsuppressed
    by_cases hasked : Asks r enable check issue.id
    · rw [h.severity_of_asked hsuppressed hasked,
        h'.severity_of_asked hsuppressed' (hasks.mp hasked)]
    · rw [h.severity_of_unasked hsuppressed hasked,
        h'.severity_of_unasked hsuppressed' (mt hasks.mpr hasked)]
      exact if_congr hrestricted rfl rfl

/-- An issue that a registry does not have, and that is reported by itself. -/
theorem exists_foreign (r : Registry) :
    ∃ issue : Issue, issue.builtInSeverity = .warning
      ∧ ∀ entries, ¬ Selects r entries issue.id := by
  obtain ⟨id, hid⟩ := Infinite.exists_notMem_finset (r.issues.map (·.id)).toFinset
  refine ⟨.new id "" "" .correctness 1 .warning .resourceFileOnly, rfl, fun entries h => ?_⟩
  obtain ⟨name, -, hnames⟩ := h
  obtain ⟨issue, hissue, heq⟩ := Registry.isIssueId_iff.mp (isIssueId_of_names hnames)
  exact hid (List.mem_toFinset.mpr (List.mem_map.mpr ⟨issue, hissue, heq⟩))

/-- Selections that give the same severities restrict the run or do not. -/
theorem Says.restricted_iff (h : Says r enable disable check s)
    (h' : Says r enable' disable' check' s')
    (hsame : ∀ (parent : Configuration) (issue : Issue),
      (Configuration.selected s parent).severity issue
        = (Configuration.selected s' parent).severity issue) :
    check = [] ↔ check' = [] := by
  obtain ⟨issue, hbeneath, hforeign⟩ := exists_foreign r
  have hunasked : ∀ enable check, ¬ Asks r enable check issue.id := fun enable check hasks =>
    hasks.elim (hforeign enable) (hforeign check)
  have hthis : s.severity issue issue.builtInSeverity = s'.severity issue issue.builtInSeverity :=
    hsame .builtIn issue
  rw [h.severity_of_unasked (hforeign _) (hunasked _ _),
    h'.severity_of_unasked (hforeign _) (hunasked _ _), hbeneath] at hthis
  by_cases hcheck : check = [] <;> by_cases hcheck' : check' = [] <;>
    simp [hcheck, hcheck'] at hthis ⊢

/-- Rewording.  Three lists cannot be read exactly where an entry of one of them
says something that is neither an issue nor a category, and what is given as
unknown is such an entry.  A name that is known stands for some ids.  And where
three lists can be read, so can they in other words, with the same severities
for every issue over every configuration exactly where both lists of checks are
empty or neither is. -/
theorem severity_of_rewording (htidy : r.Tidy)
    (henable : Relation.EqvGen (Rewords r) enable enable')
    (hdisable : Relation.EqvGen (Rewords r) disable disable')
    (hcheck : Relation.EqvGen (Rewords r) check check') :
    ((∃ u, ofFlags r enable disable check = .error u)
        ↔ ∃ entry ∈ enable ++ disable ++ check,
          Text.trimmed entry ≠ "" ∧ ¬ Knows r (Text.trimmed entry))
      ∧ (∀ u, ofFlags r enable disable check = .error u →
        ∃ entry ∈ enable ++ disable ++ check,
          Text.trimmed entry = u.name ∧ u.name ≠ "" ∧ ¬ Knows r u.name)
      ∧ (∀ name, Knows r name →
        ∃ ids, idsOf r name = .ok ids ∧ ids ≠ [] ∧ ∀ id ∈ ids, r.isIssueId id)
      ∧ ∀ s, ofFlags r enable disable check = .ok s →
        ∃ s', ofFlags r enable' disable' check' = .ok s'
          ∧ ((∀ (parent : Configuration) (issue : Issue),
              (Configuration.selected s parent).severity issue
                = (Configuration.selected s' parent).severity issue)
            ↔ (check = [] ↔ check' = [])) := by
  have halikeEnable := alike_of_eqvGen htidy henable
  have halikeDisable := alike_of_eqvGen htidy hdisable
  have halikeCheck := alike_of_eqvGen htidy hcheck
  refine ⟨exists_ofFlags_eq_error_iff, fun u hu => exists_of_ofFlags_eq_error hu,
    fun name hname => exists_idsOf_ne_nil hname, fun s hs => ?_⟩
  obtain ⟨hacceptsEnable, hacceptsDisable, hacceptsCheck⟩ := exists_ofFlags_iff.mp ⟨s, hs⟩
  -- a rewording is accepted where the list was
  obtain ⟨s', hs'⟩ := exists_ofFlags_iff.mpr ⟨halikeEnable.accepts.mp hacceptsEnable,
    halikeDisable.accepts.mp hacceptsDisable, halikeCheck.accepts.mp hacceptsCheck⟩
  have hsays := says_of_ofFlags hs
  have hsays' := says_of_ofFlags hs'
  refine ⟨s', hs', fun hsame => hsays.restricted_iff hsays' hsame, fun hrestricted => ?_⟩
  intro parent issue
  exact hsays.severity_congr hsays' halikeEnable halikeDisable halikeCheck hrestricted issue
    (parent.severity issue)

theorem tidy_threeIssues : threeIssues.Tidy where
  trimmed := by decide +kernel
  filled := by decide +kernel

/-- A category in place of its one issue, another order, and a blank entry beside
another one make no difference. -/
theorem severity_of_rewording_threeIssues :
    ∃ s s', ofFlags threeIssues ["Performance"] ["PxUsage", "Usability"] ["Icons"] = .ok s
      ∧ ofFlags threeIssues ["UnusedResources"] ["Usability", "PxUsage"] ["Icons", " "] = .ok s'
      ∧ ∀ (parent : Configuration) (issue : Issue),
        (Configuration.selected s parent).severity issue
          = (Configuration.selected s' parent).severity issue := by
  have henable : Rewords threeIssues ["Performance"] ["UnusedResources"] :=
    .expand (by decide) rfl
  have hdisable : Rewords threeIssues ["PxUsage", "Usability"] ["Usability", "PxUsage"] :=
    .reorder (List.Perm.swap _ _ _)
  have hcheck : Rewords threeIssues ["Icons"] ["Icons", " "] :=
    @Rewords.within threeIssues ["Icons"] [] [] [" "] (.blank (by decide))
  obtain ⟨-, -, -, hread⟩ := severity_of_rewording tidy_threeIssues (.rel _ _ henable)
    (.rel _ _ hdisable) (.rel _ _ hcheck)
  have hfirst : ofFlags threeIssues ["Performance"] ["PxUsage", "Usability"] ["Icons"]
      = .ok ⟨["IconDensities", "PxUsage"], ["UnusedResources"], some ["IconDensities"]⟩ := rfl
  obtain ⟨s', hs', hsame⟩ := hread _ hfirst
  exact ⟨_, s', hfirst, hs', hsame.mpr (by simp)⟩

/-- A list of checks with nothing but a blank entry is the empty one in other
words, and yet it silences a run. -/
theorem not_severity_of_rewording :
    ¬ ∀ r : Registry, r.Tidy → ∀ check check', Relation.EqvGen (Rewords r) check check' →
      ∀ s s', ofFlags r [] [] check = .ok s → ofFlags r [] [] check' = .ok s' →
        ∀ (parent : Configuration) (issue : Issue),
          (Configuration.selected s parent).severity issue
            = (Configuration.selected s' parent).severity issue := by
  intro hsame
  have hblank : Rewords threeIssues [] [" "] := .blank (by decide)
  have hempty : ofFlags threeIssues [] [] [] = .ok ⟨[], [], none⟩ := rfl
  have hread : ofFlags threeIssues [] [] [" "] = .ok ⟨[], [], some []⟩ := rfl
  have hpixels := hsame threeIssues tidy_threeIssues [] [" "] (.rel _ _ hblank) _ _ hempty hread
    .builtIn Dimension.pxIssue
  exact absurd hpixels (by decide)

end Selection

end ResourceLint
