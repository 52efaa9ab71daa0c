/-
Registries that are put together step by step.

A draft `Holds` the issues that were offered to it: of those under one id it
has the first.  So a step can be told by what was offered before it
(`newIds_eq`), and a detector that is registered serves the ids that are new
then.  No id is new twice; hence at most one detector serves an id, and an
exchange reaches every detector that it names (`exchange_eq_map`).

From this the detectors are known at once (`entriesOf`), each with the last
exchange that comes after it (`registrations_foldl_take`).  Sorting moves the
issues about, but which one is found under an id is not a matter of their
order (`find?_eq_of_perm`).  The index of a registry leads to the same issue as
a search would (`issue?_eq_find?`).
-/
import Mathlib.Data.List.Nodup
import ResourceLint.Proofs.Sorting
import ResourceLint.Registry

namespace ResourceLint

namespace Issue

variable {issues others : List Issue} {issue : Issue} {id : String}

/-- Where ids are different, an issue is found by its id. -/
theorem find?_eq_some_iff (h : (issues.map (·.id)).Nodup) :
    issues.find? (·.id == id) = some issue ↔ issue ∈ issues ∧ issue.id = id := by
  constructor
  · intro hfind
    exact ⟨List.mem_of_find?_eq_some hfind, by simpa using List.find?_some hfind⟩
  · rintro ⟨hmem, rfl⟩
    cases hfind : issues.find? (·.id == issue.id) with
    | none => exact absurd (beq_self_eq_true issue.id) (List.find?_eq_none.mp hfind issue hmem)
    | some first =>
        have hid : first.id = issue.id := by simpa using List.find?_some hfind
        rw [List.inj_on_of_nodup_map h (List.mem_of_find?_eq_some hfind) hmem hid]

/-- Which one it is does not depend on their order. -/
theorem find?_eq_of_perm (h : (issues.map (·.id)).Nodup) (hperm : issues.Perm others)
    (id : String) : issues.find? (·.id == id) = others.find? (·.id == id) := by
  refine Option.ext fun issue => ?_
  rw [find?_eq_some_iff h, find?_eq_some_iff ((hperm.map _).nodup_iff.mp h), hperm.mem_iff]

/-- Whether an issue is listed before another one. -/
def Precedes (a b : Issue) : Prop :=
  a.category.fullName < b.category.fullName
    ∨ a.category.fullName = b.category.fullName
      ∧ (b.priority < a.priority ∨ b.priority = a.priority ∧ a.id < b.id)

/-- The comparison of issues decides their order. -/
theorem compare_eq_lt_iff {a b : Issue} : compare a b = .lt ↔ Precedes a b := by
  have hlt : ∀ s t : String, Ord.compare s t = .lt ↔ s < t := fun _ _ => compareOfLessAndEq_eq_lt
  unfold compare Precedes
  rw [Ordering.then_eq_lt, Ordering.then_eq_lt, Std.compare_eq_iff_eq, Std.compare_eq_iff_eq,
    Nat.compare_eq_lt, hlt, hlt]

/-- Sorted issues with different ids precede one another. -/
theorem pairwise_precedes (hsorted : issues.Pairwise fun a b => (compare a b).isLE)
    (h : (issues.map (·.id)).Nodup) : issues.Pairwise Precedes := by
  rw [List.Nodup, List.pairwise_map] at h
  refine (hsorted.and h).imp fun {a b} ⟨hab, hne⟩ => compare_eq_lt_iff.mp ?_
  cases hcmp : compare a b with
  | lt => rfl
  | eq => exact absurd (id_eq_of_compare hcmp) hne
  | gt =>
      rw [hcmp] at hab
      cases hab

end Issue

namespace Registry

namespace Draft

/-- What is done to a draft. -/
inductive Step
  | issue (issue : Issue)
  | detector (name : String) (issues : List Issue) (detector : Detector)
  | substitute (id : String) (detector : Detector)

def take (d : Draft) : Step → Draft
  | .issue issue => d.issue issue
  | .detector name issues detector => d.detector name issues detector
  | .substitute id detector => d.substitute id detector

/-- The draft after some steps. -/
def after (steps : List Step) : Draft := steps.foldl take new

/-- The issues that come with a step. -/
def Step.offers : Step → List Issue
  | .issue one => [one]
  | .detector _ issues _ => issues
  | .substitute _ _ => []

/-- All issues that were offered, in order. -/
def offered (steps : List Step) : List Issue := parserError :: steps.flatMap Step.offers

/-- The detector that a step gives to whatever serves one of the ids. -/
def Step.replacement? (ids : List String) : Step → Option Detector
  | .substitute id other => if ids.contains id then some other else none
  | _ => none

/-- The last such detector. -/
def lastReplacement? (ids : List String) (steps : List Step) : Option Detector :=
  steps.reverse.findSome? (Step.replacement? ids)

/-- The ids of issues that are not among others, each once. -/
def newIds (known issues : List Issue) : List String :=
  ((issues.map (·.id)).filter fun id => !known.any (·.id == id)).eraseDups

/-- The detectors that steps register, where some issues have been offered. -/
def entriesOf (known : List Issue) : List Step → List Registration
  | [] => []
  | .detector name issues detector :: more =>
    let ids := newIds known issues
    ⟨name, ids, (lastReplacement? ids more).getD detector⟩ :: entriesOf (known ++ issues) more
  | step :: more => entriesOf (known ++ step.offers) more

variable {d : Draft} {all : List Issue}

-- ================================================================== the issues

/-- Whether a draft has the first issue of each id that was offered. -/
structure Holds (all : List Issue) (d : Draft) : Prop where
  nodup : (d.issues.map (·.id)).Nodup
  find : ∀ id, d.issues.find? (·.id == id) = all.find? (·.id == id)

/-- A draft knows an id that was offered. -/
theorem Holds.knows_eq (h : Holds all d) (id : String) : d.knows id = all.any (·.id == id) := by
  unfold knows
  rw [← List.isSome_find?, ← List.isSome_find?, h.find]

/-- A new draft holds the issue of parse errors alone. -/
theorem holds_new : Holds [parserError] new := ⟨List.nodup_singleton _, fun _ => rfl⟩

/-- An issue is taken in when its id is new, and dropped otherwise. -/
theorem Holds.issue (h : Holds all d) (issue : Issue) : Holds (all ++ [issue]) (d.issue issue) := by
  unfold Draft.issue
  -- the first issue of an id stays; `find?` meets it before the one offered now
  cases hknows : d.knows issue.id with
  | true =>
      refine ⟨h.nodup, fun id => ?_⟩
      rw [if_pos rfl, List.find?_append, h.find]
      cases hfind : all.find? (·.id == id) with
      | some first => rfl
      | none =>
          rw [Option.none_or, eq_comm, List.find?_eq_none]
          intro other hother hid
          rw [List.mem_singleton.mp hother, beq_iff_eq] at hid
          rw [h.knows_eq, hid, ← List.isSome_find?, hfind] at hknows
          cases hknows
  | false =>
      refine ⟨?_, fun id => ?_⟩
      · rw [if_neg (by simp), List.map_append, List.map_singleton, List.nodup_append]
        refine ⟨h.nodup, List.nodup_singleton _, ?_⟩
        rintro id hid _ hnew rfl
        obtain ⟨known, hmem, rfl⟩ := List.mem_map.mp hid
        have hnot := List.any_eq_false.mp hknows known hmem
        exact hnot (by simpa using List.mem_singleton.mp hnew)
      · rw [if_neg (by simp), List.find?_append, List.find?_append, h.find]

/-- Issues that are added are offered, too. -/
theorem Holds.addAll (h : Holds all d) (issues : List Issue) :
    Holds (all ++ issues) (addAll issues d).1 := by
  induction issues generalizing d all with
  | nil => rwa [List.append_nil]
  | cons issue issues ih =>
      rw [List.append_cons]
      exact ih (h.issue issue)

/-- After an issue is offered its id is known. -/
theorem knows_issue (d : Draft) (issue : Issue) (id : String) :
    (d.issue issue).knows id = (d.knows id || issue.id == id) := by
  unfold Draft.issue
  split
  · next hknows =>
      by_cases hid : issue.id = id
      · rw [← hid, hknows]
        rfl
      · simp [hid]
  · simp [knows]

/-- The ids of the issues that were new. -/
theorem addAll_snd (issues : List Issue) (d : Draft) :
    (Draft.addAll issues d).2
      = ((issues.map (·.id)).filter fun id => !d.knows id).eraseDups := by
  induction issues generalizing d with
  | nil => rfl
  | cons issue issues ih =>
      simp only [Draft.addAll, List.map_cons, ih, knows_issue]
      cases hknows : d.knows issue.id with
      | true =>
          rw [if_pos rfl, List.filter_cons_of_neg (by simp [hknows])]
          congr 1
          refine List.filter_congr fun id _ => ?_
          by_cases hid : issue.id = id
          · rw [← hid, hknows]
            rfl
          · simp [hid]
      | false =>
          rw [if_neg (by simp), List.filter_cons_of_pos (by simp [hknows]), List.eraseDups_cons,
            List.filter_filter]
          congr 2
          refine List.filter_congr fun id _ => ?_
          rw [Bool.not_or, Bool.and_comm, BEq.comm]

/-- The ids a registration gets are those that were new at its turn. -/
theorem Holds.newIds_eq (h : Holds all d) (issues : List Issue) :
    (Draft.addAll issues d).2 = newIds all issues := by
  rw [addAll_snd]
  unfold newIds
  simp only [h.knows_eq]

/-- The issues after a step. -/
theorem Holds.take (h : Holds all d) (step : Step) : Holds (all ++ step.offers) (d.take step) := by
  cases step with
  | issue issue => exact h.issue issue
  | detector name issues detector => exact ⟨(h.addAll issues).nodup, (h.addAll issues).find⟩
  | substitute id detector =>
      rw [Step.offers, List.append_nil]
      exact ⟨h.nodup, h.find⟩

/-- Steps leave a draft that holds all they have offered. -/
theorem holds_foldl_take (h : Holds all d) (steps : List Step) :
    Holds (all ++ steps.flatMap Step.offers) (steps.foldl take d) := by
  induction steps generalizing d all with
  | nil => rwa [List.flatMap_nil, List.append_nil]
  | cons step steps ih =>
      rw [List.flatMap_cons, ← List.append_assoc]
      exact ih (h.take step)

/-- After any steps a draft holds all the issues they offered. -/
theorem holds_after (steps : List Step) : Holds (offered steps) (after steps) :=
  holds_foldl_take holds_new steps

-- =============================================================== the detectors

/-- A registration with another detector, where there is one. -/
def replaced (r : Registration) (detector? : Option Detector) : Registration :=
  { r with detector := detector?.getD r.detector }

/-- Of two replacements the later is in force. -/
theorem replaced_replaced (r : Registration) (first? last? : Option Detector) :
    replaced (replaced r first?) last? = replaced r (last?.or first?) := by
  cases last? <;> rfl

/-- The last replacement is among the later steps, or else is the first
step's. -/
theorem lastReplacement?_cons (ids : List String) (step : Step) (steps : List Step) :
    lastReplacement? ids (step :: steps)
      = (lastReplacement? ids steps).or (step.replacement? ids) := by
  unfold lastReplacement?
  rw [List.reverse_cons, List.findSome?_append, List.findSome?_singleton]

/-- Whether every id is served once, and stands for an issue that was offered. -/
structure ServesOnce (all : List Issue) (registrations : List Registration) : Prop where
  nodup : (registrations.flatMap (·.issues)).Nodup
  known : ∀ id ∈ registrations.flatMap (·.issues), all.any (·.id == id)

/-- In a new draft no detector serves anything. -/
theorem servesOnce_new : ServesOnce [parserError] new.registrations := ⟨List.nodup_nil, nofun⟩

/-- Where no two registrations serve an id, the first one that does is all. -/
theorem exchange_eq_map {registrations : List Registration}
    (h : (registrations.flatMap (·.issues)).Nodup) (id : String) (detector : Detector) :
    exchange id detector registrations = registrations.map fun r =>
      replaced r (Step.replacement? r.issues (.substitute id detector)) := by
  induction registrations with
  | nil => rfl
  | cons r more ih =>
      rw [List.flatMap_cons, List.nodup_append] at h
      obtain ⟨-, hmore, hapart⟩ := h
      rw [exchange, List.map_cons, Step.replacement?]
      split
      · next hserves =>
          -- nobody behind the first one serves the id, so nothing there is replaced
          have hrest : more.map (fun r => replaced r (Step.replacement? r.issues
              (.substitute id detector))) = more := by
            refine (List.map_congr_left fun other hother => ?_).trans (List.map_id more)
            rw [Step.replacement?, if_neg]
            · rfl
            · intro hagain
              rw [List.contains_iff_mem] at hserves hagain
              exact hapart id hserves id (List.mem_flatMap.mpr ⟨other, hother, hagain⟩) rfl
          rw [hrest]
          rfl
      · rw [ih hmore]
        rfl

theorem nodup_eraseDups {α : Type} [BEq α] [LawfulBEq α] : ∀ l : List α, l.eraseDups.Nodup
  | [] => List.nodup_nil
  | a :: l => by
      rw [List.eraseDups_cons, List.nodup_cons, List.mem_eraseDups]
      exact ⟨by simp, nodup_eraseDups _⟩
termination_by l => l.length
decreasing_by exact Nat.lt_succ_of_le (List.length_filter_le _ _)

/-- What is new is among the issues and not known. -/
theorem mem_newIds {known issues : List Issue} {id : String} :
    id ∈ newIds known issues ↔ issues.any (·.id == id) ∧ known.any (·.id == id) = false := by
  unfold newIds
  rw [List.mem_eraseDups, List.mem_filter, List.mem_map, Bool.not_eq_true', List.any_eq_true]
  simp only [beq_iff_eq]

/-- An issue by itself registers nobody. -/
theorem registrations_issue (d : Draft) (issue : Issue) :
    (d.issue issue).registrations = d.registrations := by
  unfold Draft.issue
  split <;> rfl

/-- Issues by themselves register nobody. -/
theorem registrations_addAll (issues : List Issue) (d : Draft) :
    (Draft.addAll issues d).1.registrations = d.registrations := by
  induction issues generalizing d with
  | nil => rfl
  | cons issue issues ih => exact (ih _).trans (registrations_issue d issue)

/-- A detector is registered last, with the ids that were new. -/
theorem registrations_detector (d : Draft) (name : String) (issues : List Issue)
    (detector : Detector) : (d.detector name issues detector).registrations
      = d.registrations ++ [⟨name, (Draft.addAll issues d).2, detector⟩] := by
  show (Draft.addAll issues d).1.registrations ++ _ = _
  rw [registrations_addAll]

/-- What a step registers. -/
def entryOf (known : List Issue) : Step → List Registration
  | .detector name issues detector => [⟨name, newIds known issues, detector⟩]
  | .issue _ => []
  | .substitute _ _ => []

/-- A detector serves ids that its own step has offered and nobody before. -/
theorem Step.mem_offers_of_mem_entryOf {known : List Issue} {step : Step} {id : String}
    (h : id ∈ (entryOf known step).flatMap (·.issues)) :
    step.offers.any (·.id == id) ∧ known.any (·.id == id) = false := by
  cases step with
  | issue => cases h
  | substitute => cases h
  | detector name issues detector =>
      simp only [entryOf, List.flatMap_singleton] at h
      exact mem_newIds.mp h

/-- The detectors after a step. -/
theorem registrations_take (h : Holds all d) (honce : ServesOnce all d.registrations)
    (step : Step) : (d.take step).registrations
      = d.registrations.map (fun r => replaced r (step.replacement? r.issues))
        ++ entryOf all step := by
  cases step with
  | issue issue =>
      rw [entryOf, List.append_nil]
      exact (registrations_issue d issue).trans (List.map_id _).symm
  | detector name issues detector =>
      have hsame : d.registrations.map (fun r => replaced r none) = d.registrations := List.map_id _
      show (d.detector name issues detector).registrations
        = d.registrations.map (fun r => replaced r none) ++ [⟨name, newIds all issues, detector⟩]
      rw [registrations_detector, h.newIds_eq, hsame]
  | substitute id detector =>
      rw [entryOf, List.append_nil]
      exact exchange_eq_map honce.nodup id detector

/-- A step has no id served twice. -/
theorem ServesOnce.take (honce : ServesOnce all d.registrations) (h : Holds all d) (step : Step) :
    ServesOnce (all ++ step.offers) (d.take step).registrations := by
  rw [registrations_take h honce]
  have hissues : (d.registrations.map fun r => replaced r (step.replacement? r.issues)).flatMap
      (·.issues) = d.registrations.flatMap (·.issues) := List.flatMap_map ..
  -- a replacement changes no ids; a detector brings ids that were unknown, so no earlier
  -- one has them
  refine ⟨?_, fun id hid => ?_⟩
  · rw [List.flatMap_append, hissues, List.nodup_append]
    refine ⟨honce.nodup, ?_, ?_⟩
    · cases step with
      | issue => exact List.nodup_nil
      | substitute => exact List.nodup_nil
      | detector name issues detector =>
          rw [entryOf, List.flatMap_singleton]
          exact nodup_eraseDups _
    · rintro id hold _ hnew rfl
      have hknown := honce.known id hold
      rw [(Step.mem_offers_of_mem_entryOf hnew).2] at hknown
      cases hknown
  · rw [List.any_append, Bool.or_eq_true]
    rw [List.flatMap_append, hissues, List.mem_append] at hid
    rcases hid with hold | hnew
    · exact .inl (honce.known id hold)
    · exact .inr (Step.mem_offers_of_mem_entryOf hnew).1

/-- All detectors after all steps. -/
theorem registrations_foldl_take (h : Holds all d) (honce : ServesOnce all d.registrations)
    (steps : List Step) : (steps.foldl take d).registrations
      = d.registrations.map (fun r => replaced r (lastReplacement? r.issues steps))
        ++ entriesOf all steps := by
  induction steps generalizing d all with
  | nil => simp [lastReplacement?, replaced, entriesOf]
  | cons step steps ih =>
      have hold : (d.registrations.map fun r => replaced r (step.replacement? r.issues)).map
          (fun r => replaced r (lastReplacement? r.issues steps))
          = d.registrations.map fun r => replaced r (lastReplacement? r.issues (step :: steps)) := by
        rw [List.map_map]
        refine List.map_congr_left fun r _ => ?_
        rw [lastReplacement?_cons, ← replaced_replaced]
        rfl
      have hnew : (entryOf all step).map (fun r => replaced r (lastReplacement? r.issues steps))
          ++ entriesOf (all ++ step.offers) steps = entriesOf all (step :: steps) := by
        cases step <;> rfl
      rw [List.foldl_cons, ih (h.take step) (honce.take h step), registrations_take h honce,
        List.map_append, hold, List.append_assoc, hnew]

/-- However a draft came about, no id is served twice. -/
theorem servesOnce_foldl_take (honce : ServesOnce all d.registrations) (h : Holds all d)
    (steps : List Step) :
    ServesOnce (all ++ steps.flatMap Step.offers) (steps.foldl take d).registrations := by
  induction steps generalizing d all with
  | nil => rwa [List.flatMap_nil, List.append_nil]
  | cons step steps ih =>
      rw [List.flatMap_cons, ← List.append_assoc]
      exact ih (honce.take h step) (h.take step)

/-- The registrations of a history are told step by step. -/
theorem registrations_after (steps : List Step) :
    (after steps).registrations = entriesOf [parserError] steps :=
  registrations_foldl_take holds_new servesOnce_new steps

end Draft

-- ==================================================================== the registry

open Draft (Step)

variable {r : Registry} {isEnabled : Issue → Bool} {scope : Scope}

/-- Building sorts the issues and loses none. -/
theorem issues_build_perm (d : Draft) : d.build.issues.Perm d.issues := List.mergeSort_perm _ _

/-- A registry has every id once. -/
theorem nodup_issues_build (steps : List Step) :
    ((Draft.after steps).build.issues.map (·.id)).Nodup :=
  ((issues_build_perm _).map _).nodup_iff.mpr (Draft.holds_after steps).nodup

/-- The issues of a registry are in order. -/
theorem pairwise_issues_build (d : Draft) :
    d.build.issues.Pairwise fun a b => (Issue.compare a b).isLE := by
  have hle : (fun a b => Issue.compare a b != .gt) = fun a b => (Issue.compare a b).isLE := by
    funext a b
    cases Issue.compare a b <;> rfl
  unfold Draft.build
  rw [hle]
  refine List.pairwise_mergeSort (fun a b c => Std.TransCmp.isLE_trans) (fun a b => ?_) d.issues
  have hswap : Issue.compare b a = (Issue.compare a b).swap := Std.OrientedCmp.eq_swap
  rw [hswap]
  cases Issue.compare a b <;> rfl

/-- The index tells the place of every issue. -/
theorem mem_index {id : String} {place : Nat} :
    (id, place) ∈ r.index ↔ ∃ issue, r.issues[place]? = some issue ∧ issue.id = id := by
  unfold index
  rw [List.mem_reverse, List.mem_map]
  constructor
  · rintro ⟨⟨issue, i⟩, hmem, heq⟩
    cases heq
    exact ⟨issue, List.mk_mem_zipIdx_iff_getElem?.mp hmem, rfl⟩
  · rintro ⟨issue, hissue, rfl⟩
    exact ⟨(issue, place), List.mk_mem_zipIdx_iff_getElem?.mpr hissue, rfl⟩

/-- The index leads to an issue that bears the id. -/
theorem exists_of_lookup_index {id : String} {place : Nat} (h : r.index.lookup id = some place) :
    ∃ issue, r.issues[place]? = some issue ∧ issue.id = id := by
  obtain ⟨front, back, hindex, -⟩ := List.lookup_eq_some_iff.mp h
  exact mem_index.mp (hindex ▸ List.mem_append_right front List.mem_cons_self)

/-- What is found under an id has this id. -/
theorem mem_of_issue? {id : String} {issue : Issue} (h : r.issue? id = some issue) :
    issue ∈ r.issues ∧ issue.id = id := by
  obtain ⟨place, hplace, hissue⟩ := Option.bind_eq_some_iff.mp h
  obtain ⟨other, hother, hid⟩ := exists_of_lookup_index hplace
  rw [hissue] at hother
  cases hother
  exact ⟨List.mem_of_getElem? hissue, hid⟩

/-- The issue under an id bears it. -/
theorem id_of_issue? {id : String} {issue : Issue} (h : r.issue? id = some issue) :
    issue.id = id :=
  (mem_of_issue? h).2

/-- The index knows the ids of the issues. -/
theorem isIssueId_iff {id : String} : r.isIssueId id ↔ ∃ issue ∈ r.issues, issue.id = id := by
  unfold isIssueId
  constructor
  · intro h
    obtain ⟨place, hplace⟩ := Option.isSome_iff_exists.mp h
    obtain ⟨issue, hissue, hid⟩ := exists_of_lookup_index hplace
    exact ⟨issue, List.mem_of_getElem? hissue, hid⟩
  · rintro ⟨issue, hmem, rfl⟩
    obtain ⟨place, hplace⟩ := List.mem_iff_getElem?.mp hmem
    rw [Option.isSome_iff_ne_none, ne_eq, List.lookup_eq_none_iff]
    intro hnone
    simpa using hnone _ (mem_index.mpr ⟨issue, hplace, rfl⟩)

/-- An id is known when an issue is found under it. -/
theorem isIssueId_eq_isSome (r : Registry) (id : String) :
    r.isIssueId id = (r.issue? id).isSome := by
  unfold isIssueId issue?
  cases hplace : r.index.lookup id with
  | none => rfl
  | some place =>
      obtain ⟨issue, hissue, -⟩ := exists_of_lookup_index hplace
      rw [Option.bind_some, hissue]
      rfl

/-- Where ids are different, the index finds what a search would. -/
theorem issue?_eq_find? (h : (r.issues.map (·.id)).Nodup) (id : String) :
    r.issue? id = r.issues.find? (·.id == id) := by
  cases hissue : r.issue? id with
  | some issue => exact ((Issue.find?_eq_some_iff h).mpr (mem_of_issue? hissue)).symm
  | none =>
      have hknown : r.isIssueId id = false := by
        rw [isIssueId_eq_isSome, hissue]
        rfl
      rw [eq_comm, List.find?_eq_none]
      exact fun issue hmem hid =>
        absurd (isIssueId_iff.mpr ⟨issue, hmem, by simpa using hid⟩) (by simp [hknown])

/-- Whether the issue under an id is looked for. -/
def isActive (r : Registry) (isEnabled : Issue → Bool) (scope : Scope) (id : String) : Bool :=
  (r.issue? id).any fun issue => issue.scope.isSubset scope && isEnabled issue

/-- A detector that a registration is run with. -/
structure RunsAs (r : Registry) (isEnabled : Issue → Bool) (scope : Scope)
    (registration : Registration) (a : ActiveDetector) : Prop where
  name : a.name = registration.name
  issues : a.issues = registration.issues.filter (r.isActive isEnabled scope)
  detector : a.detector = registration.detector
  memory : a.memory = .blank

/-- The active issues of a detector are those of its ids that are active, in its
order. -/
theorem map_id_activeIssues (r : Registry) (isEnabled : Issue → Bool) (scope : Scope)
    (registration : Registration) :
    (r.activeIssues isEnabled scope registration).map (·.id)
      = registration.issues.filter (r.isActive isEnabled scope) := by
  unfold activeIssues
  induction registration.issues with
  | nil => rfl
  | cons id ids ih =>
      cases hissue : r.issue? id with
      | none =>
          rw [List.filterMap_cons_none hissue, ih, List.filter_cons_of_neg]
          simp [isActive, hissue]
      | some issue =>
          have hactive : r.isActive isEnabled scope id
              = (issue.scope.isSubset scope && isEnabled issue) := by
            unfold isActive
            rw [hissue, Option.any_some]
          rw [List.filterMap_cons_some hissue, List.filter_cons, List.filter_cons, hactive, ← ih]
          split
          · rw [List.map_cons, id_of_issue? hissue]
          · rfl

/-- One registration runs where one of its issues is looked for. -/
theorem activate?_cases (r : Registry) (isEnabled : Issue → Bool) (scope : Scope)
    (registration : Registration) :
    registration.issues.any (r.isActive isEnabled scope) = false
        ∧ r.activate? isEnabled scope registration = none
      ∨ registration.issues.any (r.isActive isEnabled scope)
        ∧ ∃ a, r.activate? isEnabled scope registration = some a
          ∧ r.RunsAs isEnabled scope registration a := by
  have hids := map_id_activeIssues r isEnabled scope registration
  unfold activate?
  cases hissues : r.activeIssues isEnabled scope registration with
  | nil =>
      rw [hissues, List.map_nil, eq_comm, List.filter_eq_nil_iff] at hids
      exact .inl ⟨by simpa [List.any_eq_false] using hids, rfl⟩
  | cons issue more =>
      rw [hissues] at hids
      refine .inr ⟨?_, _, rfl, rfl, hids, rfl, rfl⟩
      have hmem : issue.id ∈ registration.issues.filter (r.isActive isEnabled scope) :=
        hids ▸ List.mem_cons_self
      rw [List.any_eq_true]
      exact ⟨issue.id, List.mem_filter.mp hmem⟩

/-- A detector that is activated runs as it was registered. -/
theorem runsAs_of_activate? {registration : Registration} {a : ActiveDetector}
    (h : r.activate? isEnabled scope registration = some a) :
    r.RunsAs isEnabled scope registration a := by
  rcases r.activate?_cases isEnabled scope registration with
    ⟨-, hnone⟩ | ⟨-, other, hsome, hruns⟩
  · rw [hnone] at h
    cases h
  · rw [hsome] at h
    exact Option.some.inj h ▸ hruns

/-- The detectors of a run are those of the registrations with issues that are
looked for. -/
theorem forall₂_activate (r : Registry) (isEnabled : Issue → Bool) (scope : Scope) :
    List.Forall₂ (r.RunsAs isEnabled scope)
      (r.registrations.filter fun registration =>
        registration.issues.any (r.isActive isEnabled scope))
      (r.activate isEnabled scope) := by
  unfold activate
  induction r.registrations with
  | nil => exact .nil
  | cons registration more ih =>
      rcases r.activate?_cases isEnabled scope registration with
        ⟨hany, hnone⟩ | ⟨hany, a, hsome, ha⟩
      · rw [List.filter_cons_of_neg (by simp [hany]), List.filterMap_cons_none hnone]
        exact ih
      · rw [List.filter_cons, if_pos hany, List.filterMap_cons_some hsome]
        exact .cons ha ih

/-- What is known of a registry that was put together in some steps. -/
structure Made (steps : List Step) (r : Registry) : Prop where
  distinct : (r.issues.map (·.id)).Nodup
  sorted : r.issues.Pairwise Issue.Precedes
  /-- the first issue that was offered under an id counts -/
  first : ∀ id, r.issue? id = (Draft.offered steps).find? (·.id == id)
  /-- an id is known if an issue was offered under it -/
  known : ∀ id, ((r.issue? id).isSome ↔ ∃ issue ∈ Draft.offered steps, issue.id = id)
    ∧ r.isIssueId id = (r.issue? id).isSome
  /-- no id is served twice -/
  once : (r.registrations.flatMap (·.issues)).Nodup
  /-- each detector serves what was new with it, by the last that was put in its place -/
  entries : r.registrations = Draft.entriesOf [parserError] steps
  /-- a run has the detectors of the registrations, in order, with issues that it looks for -/
  runs : ∀ isEnabled scope, List.Forall₂ (r.RunsAs isEnabled scope)
    (r.registrations.filter fun registration =>
      registration.issues.any (r.isActive isEnabled scope))
    (r.activate isEnabled scope)

/-- Whatever the steps. -/
theorem made_build (steps : List Step) : Made steps (Draft.after steps).build := by
  have hfirst : ∀ id, (Draft.after steps).build.issue? id
      = (Draft.offered steps).find? (·.id == id) := fun id => by
    rw [issue?_eq_find? (nodup_issues_build steps),
      Issue.find?_eq_of_perm (nodup_issues_build steps) (issues_build_perm _) id,
      (Draft.holds_after steps).find id]
  have hdistinct := nodup_issues_build steps
  refine ⟨hdistinct, Issue.pairwise_precedes (pairwise_issues_build _) hdistinct, hfirst,
    fun id => ⟨?_, ?_⟩, ?_, Draft.registrations_after steps, forall₂_activate _⟩
  · rw [hfirst, List.find?_isSome]
    simp only [beq_iff_eq]
  · exact isIssueId_eq_isSome _ id
  · exact (Draft.servesOnce_foldl_take Draft.servesOnce_new Draft.holds_new steps).nodup

end Registry
end ResourceLint
