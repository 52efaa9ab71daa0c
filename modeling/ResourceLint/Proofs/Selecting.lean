/-
What the lists of a command line do to severities.

A list selects issues (`Selects`), and a selection says which list selects
what (`Says`).  With that, an issue is in one of three cases: it is
suppressed, it is asked for, or nobody speaks of it; and each case settles
its severity from the one beneath (`severity_of_suppressed`,
`severity_of_asked`, `severity_of_unasked`).

# More entries

More entries select more issues, so that an issue moves from one case to
another only where the new entries select it.  Entries for suppression
switch these issues off; entries that ask for issues raise their severities
or leave them (`severity_of_more`).  All this holds over any configuration
beneath, whatever layers it is made of.
-/
import ResourceLint.Check.BuiltIn
import ResourceLint.Config.Flags
import ResourceLint.Proofs.Drafting
import ResourceLint.Proofs.Keys
import ResourceLint.Proofs.Trees

namespace ResourceLint

namespace Selection

variable {r : Registry} {entries added all : List String} {name id : String}

-- ================================================== what a list selects

/-- Whether a name stands for an issue: the one that has it as its id or,
where there is none, any whose category begins with it. -/
def Names (r : Registry) (name id : String) : Prop :=
  if r.isIssueId name then id = name
  else ∃ issue ∈ r.issues, issue.id = id ∧ issue.category.beginsWith name

/-- Whether a list selects an issue. -/
def Selects (r : Registry) (entries : List String) (id : String) : Prop :=
  ∃ name ∈ names entries, Names r name id

/-- Whether all that a list says is known. -/
def Accepts (r : Registry) (entries : List String) : Prop :=
  ∀ name ∈ names entries, r.isIssueId name ∨ r.isCategoryName name

instance : Decidable (Names r name id) := by
  unfold Names
  infer_instance

instance : Decidable (Selects r entries id) :=
  inferInstanceAs (Decidable (∃ name ∈ names entries, Names r name id))

instance : Decidable (Accepts r entries) :=
  inferInstanceAs (Decidable (∀ name ∈ names entries, _))

/-- A name stands for the ids it names. -/
theorem mem_idsOf {ids : List String} (h : idsOf r name = .ok ids) :
    id ∈ ids ↔ Names r name id := by
  unfold idsOf at h
  unfold Names
  split at h
  · next hid =>
      cases h
      rw [if_pos hid]
      exact List.mem_singleton
  · next hid =>
      split at h
      · cases h
        rw [if_neg hid]
        simp only [List.mem_map, List.mem_filter, and_assoc, and_comm (a := _ = id)]
      · cases h

/-- A name stands for ids when it is an issue's or a category's. -/
theorem exists_idsOf :
    (∃ ids, idsOf r name = .ok ids) ↔ r.isIssueId name ∨ r.isCategoryName name := by
  unfold idsOf
  by_cases hid : r.isIssueId name
  · simp [hid]
  · by_cases hcategory : r.isCategoryName name <;> simp [hid, hcategory]

/-- The ids that names stand for are those of each name. -/
theorem mapM_idsOf_cons {names : List String} {lists : List (List String)} :
    (name :: names).mapM (idsOf r) = .ok lists ↔
      ∃ first, idsOf r name = .ok first
        ∧ ∃ more, names.mapM (idsOf r) = .ok more ∧ lists = first :: more := by
  rw [List.mapM_cons, bind_eq_ok_iff]
  refine exists_congr fun first => and_congr_right fun _ => ?_
  rw [bind_eq_ok_iff]
  refine exists_congr fun more => and_congr_right fun _ => ?_
  exact ⟨fun h => by cases h; rfl, fun h => h ▸ rfl⟩

/-- A list of names stands for what each of them names. -/
theorem mem_flatten_of_mapM {names : List String} {lists : List (List String)}
    (h : names.mapM (idsOf r) = .ok lists) :
    id ∈ lists.flatten ↔ ∃ name ∈ names, Names r name id := by
  induction names generalizing lists with
  | nil =>
      cases h
      simp
  | cons name names ih =>
      obtain ⟨first, hfirst, more, hmore, rfl⟩ := mapM_idsOf_cons.mp h
      rw [List.flatten_cons, List.mem_append, mem_idsOf hfirst, ih hmore]
      simp only [List.mem_cons, exists_eq_or_imp]

/-- A list is accepted when each of its names is known. -/
theorem exists_mapM_iff {names : List String} :
    (∃ lists, names.mapM (idsOf r) = .ok lists)
      ↔ ∀ name ∈ names, r.isIssueId name ∨ r.isCategoryName name := by
  induction names with
  | nil => exact iff_of_true ⟨[], rfl⟩ fun _ h => nomatch h
  | cons name names ih =>
      rw [List.forall_mem_cons, ← ih, ← exists_idsOf]
      constructor
      · rintro ⟨lists, h⟩
        obtain ⟨first, hfirst, more, hmore, -⟩ := mapM_idsOf_cons.mp h
        exact ⟨⟨first, hfirst⟩, more, hmore⟩
      · rintro ⟨⟨first, hfirst⟩, more, hmore⟩
        exact ⟨first :: more, mapM_idsOf_cons.mpr ⟨first, hfirst, more, hmore, rfl⟩⟩

/-- A list stands for the issues that it selects. -/
theorem mem_expand {ids : List String} (h : expand r entries = .ok ids) :
    id ∈ ids ↔ Selects r entries id := by
  obtain ⟨lists, hlists, hids⟩ := bind_eq_ok_iff.mp h
  cases hids
  rw [Assoc.mem_keySet]
  exact mem_flatten_of_mapM hlists

/-- A list is read when all that it says is known. -/
theorem exists_expand_iff : (∃ ids, expand r entries = .ok ids) ↔ Accepts r entries := by
  unfold Accepts
  rw [← exists_mapM_iff]
  constructor
  · rintro ⟨ids, h⟩
    obtain ⟨lists, hlists, -⟩ := bind_eq_ok_iff.mp h
    exact ⟨lists, hlists⟩
  · rintro ⟨lists, hlists⟩
    exact ⟨_, bind_eq_ok_iff.mpr ⟨lists, hlists, rfl⟩⟩

-- ================================================== lists that are joined

/-- A list that has the entries of two lists, in any order. -/
def Joins (all entries added : List String) : Prop :=
  ∀ entry, entry ∈ all ↔ entry ∈ entries ∨ entry ∈ added

/-- The names of a joined list are those of both, -/
theorem Joins.mem_names (h : Joins all entries added) :
    name ∈ names all ↔ name ∈ names entries ∨ name ∈ names added := by
  unfold names
  simp only [List.mem_filter, List.mem_map, h _, or_and_right, exists_or]

/-- A joined list selects what either of its halves selects. -/
theorem Joins.selects (h : Joins all entries added) :
    Selects r all id ↔ Selects r entries id ∨ Selects r added id := by
  unfold Selects
  simp only [h.mem_names, or_and_right, exists_or]

theorem Joins.accepts (h : Joins all entries added) :
    Accepts r all ↔ Accepts r entries ∧ Accepts r added := by
  unfold Accepts
  simp only [h.mem_names, or_imp, forall_and]

-- ======================================================= what is selected

variable {enable disable check enable' disable' check' : List String} {s s' : Selection}
  {issue : Issue}

/-- A selection that says what three lists select. -/
structure Says (r : Registry) (enable disable check : List String) (s : Selection) : Prop where
  suppressed : ∀ id, id ∈ s.suppressed ↔ Selects r disable id
  enabled : ∀ id, id ∈ s.enabled ↔ Selects r enable id
  unrestricted : s.check = none ↔ check = []
  checked : ∀ ids, s.check = some ids → ∀ id, id ∈ ids ↔ Selects r check id

/-- Whether an issue is asked for. -/
def Asks (r : Registry) (enable check : List String) (id : String) : Prop :=
  Selects r enable id ∨ Selects r check id

/-- What three lists are read as. -/
theorem ofFlags_eq_ok_iff :
    ofFlags r enable disable check = .ok s ↔
      expand r disable = .ok s.suppressed ∧ expand r enable = .ok s.enabled
        ∧ (if check = [] then s.check = none
          else ∃ ids, expand r check = .ok ids ∧ s.check = some ids) := by
  obtain ⟨suppressed, enabled, restriction⟩ := s
  unfold ofFlags
  -- without a list of checks none is read
  by_cases hnil : check = []
  · subst hnil
    rw [if_pos rfl]
    simp only [List.isEmpty_nil, if_true, bind_eq_ok_iff]
    constructor
    · rintro ⟨_, hdisable, _, henable, _, hfound, hs⟩
      cases hfound
      cases hs
      exact ⟨hdisable, henable, rfl⟩
    · rintro ⟨hdisable, henable, hnone⟩
      cases hnone
      exact ⟨_, hdisable, _, henable, _, rfl, rfl⟩
  · rw [if_neg hnil]
    simp only [List.isEmpty_iff, hnil, if_false, bind_eq_ok_iff]
    constructor
    · rintro ⟨_, hdisable, _, henable, _, hfound, hs⟩
      cases hs
      cases hids : expand r check with
      | error e =>
          rw [hids] at hfound
          cases hfound
      | ok ids =>
          rw [hids] at hfound
          cases hfound
          exact ⟨hdisable, henable, ids, rfl, rfl⟩
    · rintro ⟨hdisable, henable, ids, hids, hsome⟩
      cases hsome
      exact ⟨_, hdisable, _, henable, some ids, congrArg (Except.map some) hids, rfl⟩

/-- Three lists are read when each of them can be. -/
theorem exists_ofFlags_iff :
    (∃ s, ofFlags r enable disable check = .ok s)
      ↔ Accepts r enable ∧ Accepts r disable ∧ Accepts r check := by
  have hnil : Accepts r [] := fun _ h => nomatch h
  simp only [ofFlags_eq_ok_iff, ← exists_expand_iff]
  constructor
  · rintro ⟨s, hdisable, henable, hcheck⟩
    refine ⟨⟨_, henable⟩, ⟨_, hdisable⟩, ?_⟩
    split at hcheck
    · next h => exact h ▸ exists_expand_iff.mpr hnil
    · obtain ⟨ids, hids, -⟩ := hcheck
      exact ⟨ids, hids⟩
  · rintro ⟨⟨enabled, henable⟩, ⟨suppressed, hdisable⟩, ⟨ids, hcheck⟩⟩
    by_cases h : check = []
    · exact ⟨⟨suppressed, enabled, none⟩, hdisable, henable, (if_pos h).mpr rfl⟩
    · exact ⟨⟨suppressed, enabled, some ids⟩, hdisable, henable,
        (if_neg h).mpr ⟨ids, hcheck, rfl⟩⟩

/-- What is read from three lists says what they select. -/
theorem says_of_ofFlags (h : ofFlags r enable disable check = .ok s) :
    Says r enable disable check s := by
  obtain ⟨hdisable, henable, hcheck⟩ := ofFlags_eq_ok_iff.mp h
  refine ⟨fun _ => mem_expand hdisable, fun _ => mem_expand henable, ?_, fun ids hids _ => ?_⟩
  · split at hcheck
    · next hnil => exact iff_of_true hcheck hnil
    · next hnil =>
        obtain ⟨ids, -, hids⟩ := hcheck
        exact iff_of_false (fun hnone => nomatch hids.symm.trans hnone) hnil
  · split at hcheck
    · exact nomatch hids.symm.trans hcheck
    · obtain ⟨found, hfound, hcheck⟩ := hcheck
      cases hids.symm.trans hcheck
      exact mem_expand hfound

-- ======================================================= the three cases

namespace Says

variable {beneath : Severity}

/-- What is suppressed is not reported, whoever asks for it. -/
theorem severity_of_suppressed (h : Says r enable disable check s)
    (hid : Selects r disable issue.id) : s.severity issue beneath = .ignore := by
  unfold severity
  rw [if_pos (by simpa using (h.suppressed _).mpr hid)]

/-- The ids that are asked for are those enabled or checked by name. -/
theorem explicit_iff (h : Says r enable disable check s) (id : String) :
    (s.enabled.contains id || s.check.map (·.contains id) == some true)
      ↔ Asks r enable check id := by
  unfold Asks
  rw [Bool.or_eq_true, List.contains_iff_mem, h.enabled, beq_iff_eq]
  refine or_congr_right ?_
  cases hcheck : s.check with
  | none =>
      rw [h.unrestricted.mp hcheck]
      exact iff_of_false (fun hnone => nomatch hnone) fun ⟨_, hname, _⟩ => nomatch hname
  | some ids => simp [h.checked ids hcheck]

/-- What is asked for is reported, with the severity that it has beneath
unless it is off there. -/
theorem severity_of_asked (h : Says r enable disable check s)
    (hid : ¬ Selects r disable issue.id) (hasks : Asks r enable check issue.id) :
    s.severity issue beneath
      = if beneath = .ignore then issue.requestedSeverity else beneath := by
  unfold severity
  rw [if_neg (by simpa using mt (h.suppressed _).mp hid)]
  simp only [(h.explicit_iff issue.id).mpr hasks]
  simp

/-- What nobody speaks of keeps its severity, unless the run is restricted. -/
theorem severity_of_unasked (h : Says r enable disable check s)
    (hid : ¬ Selects r disable issue.id) (hasks : ¬ Asks r enable check issue.id) :
    s.severity issue beneath = if check = [] then beneath else .ignore := by
  unfold severity
  rw [if_neg (by simpa using mt (h.suppressed _).mp hid)]
  simp only [Bool.eq_false_iff.mpr (mt (h.explicit_iff issue.id).mp hasks)]
  cases hcheck : s.check with
  | none => simp [h.unrestricted.mp hcheck]
  | some ids =>
      have hsome : check ≠ [] := fun hnil => nomatch (h.unrestricted.mpr hnil).symm.trans hcheck
      have hno : issue.id ∉ ids := mt (h.checked ids hcheck _).mp (not_or.mp hasks).2
      simp [hsome, hno]

end Says

end Selection

-- ========================================================== more entries

/-- What is asked for is not ignored. -/
theorem Issue.requestedSeverity_ne_ignore (issue : Issue) :
    issue.requestedSeverity ≠ .ignore := by
  unfold requestedSeverity
  split
  · decide
  · assumption

namespace Configuration

/-- Certain issues are off afterwards, and all others are as before. -/
def SwitchesOff (which : String → Prop) (before after : Configuration) : Prop :=
  ∀ issue : Issue, (which issue.id → after.severity issue = .ignore)
    ∧ (¬ which issue.id → after.severity issue = before.severity issue)

/-- No severity is lower afterwards, and only those of certain issues differ. -/
def Raises (which : String → Prop) (before after : Configuration) : Prop :=
  ∀ issue : Issue, (before.severity issue).rank ≤ (after.severity issue).rank
    ∧ (¬ which issue.id → after.severity issue = before.severity issue)

end Configuration

namespace Selection

open ResourceLint.Configuration (SwitchesOff Raises)

variable {r : Registry} {enable disable check enable' disable' check' added : List String}
  {s s' : Selection}

/-- Suppressing more issues switches these off. -/
theorem Says.switchesOff (h : Says r enable disable check s)
    (h' : Says r enable disable' check s')
    (hmore : ∀ id, Selects r disable' id ↔ Selects r disable id ∨ Selects r added id)
    (parent : Configuration) :
    SwitchesOff (Selects r added) (.selected s parent) (.selected s' parent) := by
  intro issue
  refine ⟨fun hid => h'.severity_of_suppressed ((hmore _).mpr (Or.inr hid)), fun hid => ?_⟩
  show s'.severity issue (parent.severity issue) = s.severity issue (parent.severity issue)
  by_cases hsuppressed : Selects r disable issue.id
  · rw [h.severity_of_suppressed hsuppressed,
      h'.severity_of_suppressed ((hmore _).mpr (Or.inl hsuppressed))]
  · have hsuppressed' : ¬ Selects r disable' issue.id :=
      mt (hmore _).mp (not_or.mpr ⟨hsuppressed, hid⟩)
    by_cases hasks : Asks r enable check issue.id
    · rw [h.severity_of_asked hsuppressed hasks, h'.severity_of_asked hsuppressed' hasks]
    · rw [h.severity_of_unasked hsuppressed hasks, h'.severity_of_unasked hsuppressed' hasks]

/-- Asking for more issues, where the run is restricted as before or not at
all, raises the severities of these. -/
theorem Says.raises (h : Says r enable disable check s) (h' : Says r enable' disable check' s')
    (hrestricted : check = [] ↔ check' = [])
    (hmore : ∀ id, Asks r enable' check' id ↔ Asks r enable check id ∨ Selects r added id)
    (parent : Configuration) :
    Raises (Selects r added) (.selected s parent) (.selected s' parent) := by
  intro issue
  show (s.severity issue (parent.severity issue)).rank
      ≤ (s'.severity issue (parent.severity issue)).rank
    ∧ (¬ Selects r added issue.id →
      s'.severity issue (parent.severity issue) = s.severity issue (parent.severity issue))
  generalize parent.severity issue = beneath
  by_cases hsuppressed : Selects r disable issue.id
  · rw [h.severity_of_suppressed hsuppressed, h'.severity_of_suppressed hsuppressed]
    exact ⟨Nat.le_refl _, fun _ => rfl⟩
  · by_cases hasks : Asks r enable check issue.id
    · rw [h.severity_of_asked hsuppressed hasks,
        h'.severity_of_asked hsuppressed ((hmore _).mpr (Or.inl hasks))]
      exact ⟨Nat.le_refl _, fun _ => rfl⟩
    · rw [h.severity_of_unasked hsuppressed hasks]
      by_cases hid : Selects r added issue.id
      · -- nobody asked for it before: it was off, or as it is beneath
        rw [h'.severity_of_asked hsuppressed ((hmore _).mpr (Or.inr hid))]
        refine ⟨?_, fun hno => absurd hid hno⟩
        by_cases hoff : beneath = .ignore
        · rw [hoff, ite_self]
          exact Nat.zero_le _
        · rw [if_neg hoff]
          split
          · exact Nat.le_refl _
          · exact Nat.zero_le _
      · rw [h'.severity_of_unasked hsuppressed (mt (hmore _).mp (not_or.mpr ⟨hasks, hid⟩))]
        have hsame : (if check = [] then beneath else .ignore)
            = if check' = [] then beneath else .ignore := if_congr hrestricted rfl rfl
        rw [hsame]
        exact ⟨Nat.le_refl _, fun _ => rfl⟩

/-- Adding entries to the lists of a command line is monotone.  Whatever the
configuration beneath, the lists with the new entries, in any order, can be
read as well.  New entries for suppression switch off the issues that they
select and change no other.  New entries that ask for issues, among those
that are enabled or in a list that restricts the run already, lower no
severity and change those of the selected issues at most.  And an issue that is
asked for and not suppressed is never off. -/
theorem severity_of_more (hs : ofFlags r enable disable check = .ok s) (hadded : Accepts r added)
    (parent : Configuration) :
    (∀ all, Joins all disable added → ∃ s', ofFlags r enable all check = .ok s'
        ∧ SwitchesOff (Selects r added) (.selected s parent) (.selected s' parent))
      ∧ (∀ all, Joins all enable added → ∃ s', ofFlags r all disable check = .ok s'
        ∧ Raises (Selects r added) (.selected s parent) (.selected s' parent))
      ∧ (check ≠ [] → ∀ all, Joins all check added → ∃ s', ofFlags r enable disable all = .ok s'
        ∧ Raises (Selects r added) (.selected s parent) (.selected s' parent))
      ∧ ∀ issue : Issue, Selects r enable issue.id ∨ Selects r check issue.id →
        ¬ Selects r disable issue.id →
          (Configuration.selected s parent).severity issue ≠ .ignore := by
  have hlists := says_of_ofFlags hs
  obtain ⟨henable, hdisable, hcheck⟩ := exists_ofFlags_iff.mp ⟨s, hs⟩
  refine ⟨fun all hall => ?_, fun all hall => ?_, fun hsome all hall => ?_, ?_⟩
  · obtain ⟨s', hs'⟩ := exists_ofFlags_iff.mpr
      ⟨henable, hall.accepts.mpr ⟨hdisable, hadded⟩, hcheck⟩
    exact ⟨s', hs', hlists.switchesOff (says_of_ofFlags hs') (fun _ => hall.selects) parent⟩
  · obtain ⟨s', hs'⟩ := exists_ofFlags_iff.mpr
      ⟨hall.accepts.mpr ⟨henable, hadded⟩, hdisable, hcheck⟩
    refine ⟨s', hs', hlists.raises (says_of_ofFlags hs') Iff.rfl (fun id => ?_) parent⟩
    unfold Asks
    rw [hall.selects, or_right_comm]
  · obtain ⟨s', hs'⟩ := exists_ofFlags_iff.mpr
      ⟨henable, hdisable, hall.accepts.mpr ⟨hcheck, hadded⟩⟩
    -- a run that is restricted stays so
    have hall' : all ≠ [] := by
      obtain ⟨entry, hentry⟩ := List.exists_mem_of_ne_nil _ hsome
      exact List.ne_nil_of_mem ((hall entry).mpr (Or.inl hentry))
    refine ⟨s', hs', hlists.raises (says_of_ofFlags hs') (iff_of_false hsome hall')
      (fun id => ?_) parent⟩
    unfold Asks
    rw [hall.selects, or_assoc]
  · intro issue hasks hid
    show s.severity issue (parent.severity issue) ≠ .ignore
    rw [hlists.severity_of_asked hid hasks]
    split
    · exact issue.requestedSeverity_ne_ignore
    · assumption

/-- Three issues; the last is off where nothing else is said. -/
def threeIssues : Registry :=
  ⟨[Icons.densitiesIssue, Dimension.pxIssue, UnusedResources.issue], []⟩

/-- A layer that switches the last of them off once more. -/
def offBeneath : Configuration := .overridden (.parse "PxUsage=ERROR" "UnusedResources") .builtIn

/-- Resources that are not used are looked for when they are asked for by
their category, and icons are not when they are suppressed in addition. -/
theorem severity_of_more_threeIssues :
    ∃ s s', ofFlags threeIssues ["Performance"] ["PxUsage"] ["Icons"] = .ok s
      ∧ ofFlags threeIssues ["Performance"] [" Usability", "PxUsage"] ["Icons"] = .ok s'
      ∧ SwitchesOff (Selects threeIssues [" Usability"]) (.selected s offBeneath)
        (.selected s' offBeneath)
      ∧ (Configuration.selected s offBeneath).severity UnusedResources.issue ≠ .ignore := by
  have hread : ofFlags threeIssues ["Performance"] ["PxUsage"] ["Icons"]
      = .ok ⟨["PxUsage"], ["UnusedResources"], some ["IconDensities"]⟩ := rfl
  obtain ⟨hoff, -, -, hasked⟩ := severity_of_more hread
    (show Accepts threeIssues [" Usability"] by decide +kernel) offBeneath
  obtain ⟨s', hs', hswitches⟩ := hoff [" Usability", "PxUsage"] fun entry => by simp [or_comm]
  exact ⟨_, s', hread, hs', hswitches,
    hasked _ (Or.inl (by decide +kernel)) (by decide +kernel)⟩

end Selection

end ResourceLint
