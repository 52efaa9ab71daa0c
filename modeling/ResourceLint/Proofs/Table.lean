/-
The table of issues and detectors, as far as runs rely on it.

An `Orderly` registry has conforming detectors, no issue served by two of
them, and one scope for all issues of a detector.  Then what a check
reports under an issue is decided by the issue alone: nothing, where it is
not enabled or needs more than the scope of the run, and otherwise the
findings of its detector (`filter_check_of_orderly`).  Which other issues
are enabled plays no part, although it decides which detectors run and
which files are opened.

The built-in registry is orderly (`orderly_builtIn`).
-/
import ResourceLint.Proofs.Detectors
import ResourceLint.Proofs.Drafting

namespace ResourceLint

namespace Registry

-- ========================================================= the built-in table

/-- The built-in issues, as they are registered. -/
def builtInIssues : List Issue :=
  [parserError, HardcodedText.issue, Dimension.pxIssue, Dimension.spIssue, DuplicateIds.issue,
    Manifest.orderIssue, Manifest.minSdkIssue, Manifest.multipleUsesSdkIssue,
    Manifest.wrongParentIssue, UselessView.parentIssue, UselessView.leafIssue,
    UnusedResources.issue, Icons.densitiesIssue, Icons.missingFolderIssue, ShrinkingRules.issue]

/-- The built-in detectors, as they are registered. -/
def builtInRegistrations : List Registration :=
  [⟨"HardcodedTextDetector", ["HardcodedText"], HardcodedText.detector⟩,
    ⟨"PxUsageDetector", ["PxUsage", "SpUsage"], Dimension.detector⟩,
    ⟨"DuplicateIdDetector", ["DuplicateIds"], DuplicateIds.detector⟩,
    ⟨"ManifestOrderDetector",
      ["ManifestOrder", "UsesMinSdkAttributes", "MultipleUsesSdk", "WrongManifestParent"],
      Manifest.detector⟩,
    ⟨"UselessViewDetector", ["UselessParent", "UselessLeaf"], UselessView.detector⟩,
    ⟨"UnusedResourceDetector", ["UnusedResources"], UnusedResources.detector⟩,
    ⟨"IconDetector", ["IconDensities", "IconMissingDensityFolder"], Icons.detector⟩,
    ⟨"ProguardDetector", ["Proguard"], ShrinkingRules.detector⟩]

theorem registrations_builtIn : builtIn.registrations = builtInRegistrations := rfl

/-- The built-in issues are those of the table. -/
theorem perm_issues_builtIn : builtIn.issues.Perm builtInIssues :=
  List.mergeSort_perm _ _

theorem nodup_ids_builtIn : (builtInIssues.map (·.id)).Nodup := by decide

/-- Looking up a built-in issue finds it by its id. -/
theorem issue?_builtIn {id : String} {issue : Issue} :
    builtIn.issue? id = some issue ↔ issue ∈ builtInIssues ∧ issue.id = id := by
  have hnodup : (builtIn.issues.map (·.id)).Nodup :=
    (perm_issues_builtIn.map _).nodup_iff.mpr nodup_ids_builtIn
  rw [issue?_eq_find? hnodup, Issue.find?_eq_some_iff hnodup, perm_issues_builtIn.mem_iff]

/-- An issue that needs one resource file only is served by a local
detector. -/
theorem isLocal_of_resourceFileOnly {reg : Registration} (hreg : reg ∈ builtIn.registrations)
    {issue : Issue} (hissue : issue ∈ builtInIssues) (hmem : issue.id ∈ reg.issues)
    (hscope : issue.scope = .resourceFileOnly) : reg.detector.Local reg.issues := by
  rw [registrations_builtIn] at hreg
  simp only [builtInRegistrations, List.mem_cons, List.not_mem_nil, or_false] at hreg
  rcases hreg with rfl | rfl | rfl | rfl | rfl | rfl | rfl | rfl
  · exact HardcodedText.isLocal
  · exact Dimension.isLocal
  · exact DuplicateIds.isLocal
  · exact Manifest.isLocal
  · exact UselessView.isLocal
  · have hwide : ∀ issue ∈ builtInIssues, issue.id ∈ ["UnusedResources"] →
        issue.scope ≠ .resourceFileOnly := by decide
    exact absurd hscope (hwide issue hissue hmem)
  · have hwide : ∀ issue ∈ builtInIssues,
        issue.id ∈ ["IconDensities", "IconMissingDensityFolder"] →
          issue.scope ≠ .resourceFileOnly := by decide
    exact absurd hscope (hwide issue hissue hmem)
  · exact ShrinkingRules.isLocal

-- ===================================================== orderly registries

/-- What runs rely on in a registry. -/
structure Orderly (r : Registry) : Prop where
  conforms : ∀ reg ∈ r.registrations, reg.detector.Conforms reg.issues
  /-- an issue is served once -/
  disjoint : r.registrations.Pairwise fun a b => ∀ id ∈ a.issues, id ∉ b.issues
  /-- the issues of a detector have one scope -/
  scopes : ∀ reg ∈ r.registrations, ∀ a b, r.issue? a.id = some a → r.issue? b.id = some b →
    a.id ∈ reg.issues → b.id ∈ reg.issues → a.scope = b.scope
  /-- parse errors are nobody's -/
  parserError : ∀ reg ∈ r.registrations, parserErrorId ∉ reg.issues

/-- The built-in registry is orderly. -/
theorem orderly_builtIn : builtIn.Orderly where
  conforms reg hreg := by
    rw [registrations_builtIn] at hreg
    simp only [builtInRegistrations, List.mem_cons, List.not_mem_nil, or_false] at hreg
    -- one proof for each detector, in the order of the table
    rcases hreg with rfl | rfl | rfl | rfl | rfl | rfl | rfl | rfl
    · exact HardcodedText.isLocal.conforms
    · exact Dimension.isLocal.conforms
    · exact DuplicateIds.isLocal.conforms
    · exact Manifest.isLocal.conforms
    · exact UselessView.isLocal.conforms
    · exact UnusedResources.conforms
    · exact Icons.conforms
    · exact ShrinkingRules.isLocal.conforms
  disjoint := by
    have h : (builtIn.registrations.map (·.issues)).Pairwise fun a b => ∀ id ∈ a, id ∉ b := by
      rw [registrations_builtIn]
      decide
    exact List.pairwise_map.mp h
  scopes reg hreg a b ha hb hamem hbmem := by
    have h : ∀ ids ∈ builtIn.registrations.map (·.issues), ∀ a ∈ builtInIssues,
        ∀ b ∈ builtInIssues, a.id ∈ ids → b.id ∈ ids → a.scope = b.scope := by
      rw [registrations_builtIn]
      decide
    exact h _ (List.mem_map_of_mem hreg) a (issue?_builtIn.mp ha).1 b (issue?_builtIn.mp hb).1
      hamem hbmem
  parserError reg hreg := by
    have h : ∀ ids ∈ builtIn.registrations.map (·.issues), parserErrorId ∉ ids := by
      rw [registrations_builtIn]
      decide
    exact h _ (List.mem_map_of_mem hreg)

-- ==================================================== the detectors of a run

variable {r : Registry} {isEnabled : Issue → Bool} {scope : Scope} {reg : Registration}
  {a : ActiveDetector}

/-- A detector of a run is that of a registration, with nothing in mind. -/
theorem of_activate? (h : r.activate? isEnabled scope reg = some a) :
    a.detector = reg.detector ∧ a.memory = .blank :=
  ⟨(runsAs_of_activate? h).detector, (runsAs_of_activate? h).memory⟩

/-- A detector of a run is told of its issues that the run enables. -/
theorem issues_of_activate? (h : r.activate? isEnabled scope reg = some a) :
    a.issues = (r.activeIssues isEnabled scope reg).map (·.id) :=
  (runsAs_of_activate? h).issues.trans (r.map_id_activeIssues isEnabled scope reg).symm

/-- An active detector is one that is registered, and remembers nothing yet. -/
theorem mem_activate (h : a ∈ r.activate isEnabled scope) :
    ∃ reg ∈ r.registrations, a.detector = reg.detector ∧ a.memory = .blank := by
  obtain ⟨reg, hreg, ha⟩ := List.mem_filterMap.mp h
  exact ⟨reg, hreg, of_activate? ha⟩

/-- The issues it serves are its own that are known, in the scope and
enabled. -/
theorem mem_activeIssues {issue : Issue} :
    issue ∈ r.activeIssues isEnabled scope reg
      ↔ (issue.id ∈ reg.issues ∧ r.issue? issue.id = some issue)
        ∧ issue.scope.isSubset scope ∧ isEnabled issue := by
  unfold activeIssues
  rw [List.mem_filter, List.mem_filterMap, Bool.and_eq_true]
  refine and_congr_left fun _ => ⟨?_, fun h => ⟨issue.id, h.1, h.2⟩⟩
  rintro ⟨id, hid, hissue⟩
  rw [id_of_issue? hissue]
  exact ⟨hid, hissue⟩

/-- Scopes of one kind add up to that scope. -/
theorem foldl_union_eq {issues : List Issue} {scope : Scope} (hsome : issues ≠ [])
    (h : ∀ issue ∈ issues, issue.scope = scope) :
    issues.foldl (fun all issue => all.union issue.scope) .empty = scope := by
  have hself : ∀ s : Scope, s.union s = s := fun s => by simp [Scope.union]
  have hrest : ∀ issues : List Issue, (∀ issue ∈ issues, issue.scope = scope) →
      issues.foldl (fun all issue => all.union issue.scope) scope = scope := by
    intro issues h
    induction issues with
    | nil => rfl
    | cons issue issues ih =>
        rw [List.foldl_cons, h issue List.mem_cons_self, hself]
        exact ih fun issue hissue => h issue (List.mem_cons_of_mem _ hissue)
  cases issues with
  | nil => exact absurd rfl hsome
  | cons issue issues =>
      have hfirst : Scope.empty.union issue.scope = scope := by
        rw [h issue List.mem_cons_self]
        cases scope
        rfl
      rw [List.foldl_cons, hfirst]
      exact hrest issues fun issue hissue => h issue (List.mem_cons_of_mem _ hissue)

/-- The detector behind an active issue runs, with the scope of the issue. -/
theorem Orderly.activate?_eq_some (horderly : r.Orderly) (hreg : reg ∈ r.registrations)
    {issue : Issue} (hissue : r.issue? issue.id = some issue) (hmem : issue.id ∈ reg.issues)
    (hscope : issue.scope.isSubset scope) (henabled : isEnabled issue) :
    ∃ a, r.activate? isEnabled scope reg = some a ∧ a.scope = issue.scope := by
  have hactive : issue ∈ r.activeIssues isEnabled scope reg :=
    mem_activeIssues.mpr ⟨⟨hmem, hissue⟩, hscope, henabled⟩
  have hsame : ∀ other ∈ r.activeIssues isEnabled scope reg, other.scope = issue.scope := by
    intro other hother
    obtain ⟨⟨hothermem, hotherissue⟩, -⟩ := mem_activeIssues.mp hother
    exact horderly.scopes reg hreg other issue hotherissue hissue hothermem hmem
  have hunion := foldl_union_eq (List.ne_nil_of_mem hactive) hsame
  unfold activate?
  cases hlist : r.activeIssues isEnabled scope reg with
  | nil => rw [hlist] at hactive; cases hactive
  | cons first more =>
      rw [hlist] at hunion
      exact ⟨_, rfl, hunion⟩

/-- A detector none of whose issues fits into the scope does not run. -/
theorem Orderly.activate?_eq_none (horderly : r.Orderly) (hreg : reg ∈ r.registrations)
    {issue : Issue} (hissue : r.issue? issue.id = some issue) (hmem : issue.id ∈ reg.issues)
    (hscope : issue.scope.isSubset scope = false) : r.activate? isEnabled scope reg = none := by
  have hnil : r.activeIssues isEnabled scope reg = [] := by
    rw [List.eq_nil_iff_forall_not_mem]
    intro other hother
    obtain ⟨⟨hothermem, hotherissue⟩, hfits, -⟩ := mem_activeIssues.mp hother
    rw [horderly.scopes reg hreg other issue hotherissue hissue hothermem hmem, hscope] at hfits
    cases hfits
  unfold activate?
  rw [hnil]

/-- The registration that serves an issue. -/
def serving? (r : Registry) (id : String) : Option Registration :=
  r.registrations.find? (·.issues.contains id)

/-- Who serves an id is registered for it. -/
theorem mem_of_serving? {id : String} (h : r.serving? id = some reg) :
    reg ∈ r.registrations ∧ id ∈ reg.issues :=
  ⟨List.mem_of_find?_eq_some h, by simpa using List.find?_some h⟩

/-- The registrations around the one that serves an issue. -/
theorem Orderly.split (horderly : r.Orderly) {id : String} (h : r.serving? id = some reg) :
    ∃ before after, r.registrations = before ++ reg :: after
      ∧ ∀ other, other ∈ before ∨ other ∈ after → id ∉ other.issues := by
  obtain ⟨-, before, after, hsplit, hbefore⟩ := List.find?_eq_some_iff_append.mp h
  refine ⟨before, after, hsplit, fun other hother => ?_⟩
  rcases hother with hother | hother
  · simpa using hbefore other hother
  · have hpairwise := horderly.disjoint
    rw [hsplit, List.pairwise_append] at hpairwise
    exact (List.pairwise_cons.mp hpairwise.2.1).1 other hother id (mem_of_serving? h).2

/-- A detector of a registration that does not serve an issue spares it. -/
theorem Orderly.spares (horderly : r.Orderly) (hreg : reg ∈ r.registrations) {id : String}
    (hid : id ∉ reg.issues) (ha : r.activate? isEnabled scope reg = some a) :
    a.detector.Spares id := by
  rw [(of_activate? ha).1]
  exact (horderly.conforms reg hreg).reports.spares hid

/-- Where the detector behind an issue does not run, all that run spare the
issue. -/
theorem Orderly.spares_of_mem_activate (horderly : r.Orderly) {id : String}
    (h : ∀ reg, r.serving? id = some reg → r.activate? isEnabled scope reg = none)
    (ha : a ∈ r.activate isEnabled scope) : a.detector.Spares id := by
  obtain ⟨reg, hreg, ha⟩ := List.mem_filterMap.mp ha
  refine horderly.spares hreg (fun hid => ?_) ha
  cases hserving : r.serving? id with
  | none => exact absurd (by simpa using hid) (List.find?_eq_none.mp hserving reg hreg)
  | some serving =>
      obtain ⟨before, after, hsplit, hothers⟩ := horderly.split hserving
      rw [hsplit] at hreg
      rcases List.mem_append.mp hreg with hreg | hreg
      · exact hothers reg (Or.inl hreg) hid
      · rcases List.mem_cons.mp hreg with rfl | hreg
        · rw [h reg hserving] at ha
          cases ha
        · exact hothers reg (Or.inr hreg) hid

/-- Where the detector behind an issue runs, all others spare the issue. -/
theorem Orderly.exists_place (horderly : r.Orderly) {id : String}
    (hserving : r.serving? id = some reg) (ha : r.activate? isEnabled scope reg = some a) :
    ∃ w : Nat, (r.activate isEnabled scope)[w]? = some a
      ∧ ∀ (i : Nat) b, (r.activate isEnabled scope)[i]? = some b → i ≠ w →
          b.detector.Spares id := by
  obtain ⟨before, after, hsplit, hothers⟩ := horderly.split hserving
  have hlist : r.activate isEnabled scope
      = before.filterMap (r.activate? isEnabled scope)
        ++ a :: after.filterMap (r.activate? isEnabled scope) := by
    rw [activate, hsplit, List.filterMap_append, List.filterMap_cons_some ha]
  rw [hlist]
  refine ⟨(before.filterMap (r.activate? isEnabled scope)).length, ?_, fun i b hb hi => ?_⟩
  · rw [List.getElem?_append_right (Nat.le_refl _), Nat.sub_self]
    rfl
  · have hmem : ∃ other, (other ∈ before ∨ other ∈ after)
        ∧ r.activate? isEnabled scope other = some b := by
      -- another detector stands before its place or behind it
      rcases Nat.lt_or_gt_of_ne hi with hlt | hgt
      · rw [List.getElem?_append_left hlt] at hb
        obtain ⟨other, hother, hb⟩ := List.mem_filterMap.mp (List.mem_of_getElem? hb)
        exact ⟨other, Or.inl hother, hb⟩
      · obtain ⟨n, rfl⟩ := Nat.exists_eq_add_of_lt hgt
        rw [List.getElem?_append_right (Nat.le_of_lt hgt), Nat.add_assoc, Nat.add_sub_cancel_left,
          List.getElem?_cons_succ] at hb
        obtain ⟨other, hother, hb⟩ := List.mem_filterMap.mp (List.mem_of_getElem? hb)
        exact ⟨other, Or.inr hother, hb⟩
    obtain ⟨other, hother, hb⟩ := hmem
    refine horderly.spares ?_ (hothers other hother) hb
    rw [hsplit]
    rcases hother with hother | hother
    · exact List.mem_append_left _ hother
    · exact List.mem_append_right _ (List.mem_cons_of_mem _ hother)

end Registry

-- ================================================== what a check reports

namespace Run.Job

variable {job : Job} {p : Progress} {id : String}

/-- The findings of a check under an issue: those of its detector, where the
issue is enabled and fits into the scope. -/
def reported (job : Job) (id : String) : List Warning :=
  match job.registry.issue? id, job.registry.serving? id with
  | some issue, some reg =>
    if issue.scope.isSubset job.scope && job.configuration.isEnabled issue then
      job.findings id issue.scope reg.detector
    else []
  | _, _ => []

/-- Nothing is found under an issue that is not enabled. -/
theorem findings_eq_nil (h : job.isEnabled id = false) (scope : Scope) (d : Detector) :
    job.findings id scope d = [] := by
  unfold findings
  rw [List.filterMap_eq_nil_iff]
  intro f hf
  exact warningOf?_eq_none (by rw [Detector.issue_of_mem_findings hf, h])

/-- What is reported where the detector behind an issue does not run. -/
theorem reported_eq_nil (horderly : job.registry.Orderly)
    (h : ∀ reg, job.registry.serving? id = some reg →
      job.registry.activate? job.configuration.isEnabled job.scope reg = none) :
    job.reported id = [] := by
  unfold reported
  split
  · next issue reg hissue hserving =>
      rw [if_neg]
      intro hreported
      rw [Bool.and_eq_true] at hreported
      obtain rfl := Registry.id_of_issue? hissue
      obtain ⟨hreg, hmem⟩ := Registry.mem_of_serving? hserving
      obtain ⟨a, hsome, -⟩ :=
        horderly.activate?_eq_some hreg hissue hmem hreported.1 hreported.2
      rw [h reg hserving] at hsome
      cases hsome
  · rfl

/-- What is reported where the detector behind an issue runs, for this issue
or for another one it serves. -/
theorem reported_eq_findings (horderly : job.registry.Orderly) {reg : Registration}
    {a : ActiveDetector} (hserving : job.registry.serving? id = some reg)
    (ha : job.registry.activate? job.configuration.isEnabled job.scope reg = some a) :
    job.reported id = job.findings id a.scope a.detector := by
  obtain ⟨hreg, hmem⟩ := Registry.mem_of_serving? hserving
  unfold reported
  rw [hserving, (Registry.of_activate? ha).1]
  cases hissue : job.registry.issue? id with
  | none => rw [findings_eq_nil (by rw [isEnabled, hissue]; rfl)]
  | some issue =>
      obtain rfl := Registry.id_of_issue? hissue
      dsimp only
      split
      · next hreported =>
          rw [Bool.and_eq_true] at hreported
          -- the detector is active already, and with the scope of this issue
          obtain ⟨a', hsome, hscope⟩ :=
            horderly.activate?_eq_some hreg hissue hmem hreported.1 hreported.2
          rw [ha] at hsome
          cases hsome
          rw [hscope]
      · next hreported =>
          rw [findings_eq_nil]
          cases hfits : issue.scope.isSubset job.scope with
          | false =>
              rw [horderly.activate?_eq_none hreg hissue hmem hfits] at ha
              cases ha
          | true =>
              rw [isEnabled, hissue]
              simpa [hfits] using hreported

/-- What an uncanceled check reports under an issue does not depend on the
other issues. -/
theorem filter_check_of_orderly (horderly : job.registry.Orderly)
    (hactive : p.active = job.registry.activate job.configuration.isEnabled job.scope)
    (hsources : p.sources = []) (hcoherent : Coherent job.host)
    (hid : id ≠ Registry.parserErrorId) (hend : (job.check p).canceled = false) :
    (job.check p).warnings.filter (·.issue.id == id)
      = p.warnings.filter (·.issue.id == id) ++ job.reported id := by
  by_cases h : ∀ reg, job.registry.serving? id = some reg →
      job.registry.activate? job.configuration.isEnabled job.scope reg = none
  · rw [filter_check_of_spares hend hid, reported_eq_nil horderly h, List.append_nil]
    intro a ha
    rw [hactive] at ha
    exact horderly.spares_of_mem_activate h ha
  · simp only [not_forall] at h
    obtain ⟨reg, hserving, hruns⟩ := h
    obtain ⟨a, ha⟩ := Option.ne_none_iff_exists'.mp hruns
    obtain ⟨w, hplace, hothers⟩ := horderly.exists_place hserving ha
    have hplaces : a.detector.Places := by
      rw [(Registry.of_activate? ha).1]
      exact (horderly.conforms reg (Registry.mem_of_serving? hserving).1).places
    rw [← hactive] at hplace hothers
    rw [filter_check hend hsources hid hcoherent hplace (Registry.of_activate? ha).2 hplaces
      hothers, reported_eq_findings horderly hserving ha]

/-- A check over an orderly registry is ended by its listener only. -/
theorem canceled_check_of_orderly (horderly : job.registry.Orderly)
    (hactive : p.active = job.registry.activate job.configuration.isEnabled job.scope)
    (hhost : ∀ events, job.host.cancels events = false) (hp : p.canceled = false) :
    (job.check p).canceled = false := by
  refine canceled_check_eq_false hhost (fun a ha => ?_) hp
  rw [hactive] at ha
  obtain ⟨reg, hreg, hdetector, -⟩ := Registry.mem_activate ha
  exact hdetector ▸ (horderly.conforms reg hreg).reports.stays

end Run.Job

end ResourceLint
