/-
Findings by issue.

The first finding opens a group, which holds what is found under the same
id; the other groups are those of the findings that are left
(`groupByIssue_cons`).  Hence the groups have different ids, and each holds
the findings under its id in the order they came (`Groups`).

The issues of the groups come in the order of their first findings.  In a
sorted list they are sorted too, so that the groups of a category stand side
by side.
-/
import Mathlib.Algebra.Ring.Nat
import ResourceLint.Proofs.Sorting
import ResourceLint.Registry

namespace ResourceLint.Warning

/-- The findings under an id. -/
def under (id : String) (found : List Warning) : List Warning := found.filter (·.issue.id == id)

/-- The findings under other ids. -/
def besides (id : String) (found : List Warning) : List Warning := found.filter (·.issue.id != id)

/-- The ids of groups. -/
def idsOf (groups : List Group) : List String := groups.map (·.issue.id)

variable {found : List Warning} {groups : List Group} {w : Warning} {id : String}

-- ============================================================ the first group

theorem foldl_addToGroups (g : Group) (groups : List Group) (found : List Warning) :
    found.foldl (fun groups w => addToGroups w groups) (g :: groups)
      = { g with warnings := g.warnings ++ under g.issue.id found }
        :: (besides g.issue.id found).foldl (fun groups w => addToGroups w groups) groups := by
  induction found generalizing g groups with
  | nil => simp [under, besides]
  | cons w found ih =>
      rw [List.foldl_cons, addToGroups]
      by_cases h : g.issue.id = w.issue.id
      · rw [if_pos (by simpa using h), ih]
        simp [under, besides, h]
      · rw [if_neg (by simpa using h), ih]
        simp [under, besides, Ne.symm h]

/-- The group of the first finding, and those of the findings under other ids. -/
theorem groupByIssue_cons (w : Warning) (found : List Warning) :
    groupByIssue (w :: found)
      = ⟨w.issue, w :: under w.issue.id found⟩ :: groupByIssue (besides w.issue.id found) :=
  foldl_addToGroups ⟨w.issue, [w]⟩ [] found

theorem length_under_add_besides (id : String) (found : List Warning) :
    (under id found).length + (besides id found).length = found.length :=
  (List.length_eq_length_filter_add _).symm

theorem under_besides_of_ne {other : String} (h : other ≠ id) :
    under other (besides id found) = under other found := by
  unfold under besides
  rw [List.filter_filter]
  refine List.filter_congr fun w _ => ?_
  by_cases heq : w.issue.id = other
  · simp [heq, h]
  · simp [heq]

-- ================================================================= all groups

/-- Groups that a list of findings is divided into. -/
structure Groups (found : List Warning) (groups : List Group) : Prop where
  nodup : (idsOf groups).Nodup
  complete : ∀ id, id ∈ idsOf groups ↔ ∃ w ∈ found, w.issue.id = id
  warnings : ∀ g ∈ groups, g.warnings = under g.issue.id found
  total : (groups.map (·.warnings.length)).sum = found.length
  /-- each issue is that of the first finding of its group -/
  issues : (groups.map (·.issue)).Sublist (found.map (·.issue))

theorem mem_besides_iff : w ∈ besides id found ↔ w ∈ found ∧ w.issue.id ≠ id := by
  simp [besides]

/-- A group more, for the first finding. -/
theorem Groups.cons (h : Groups (besides w.issue.id found) groups) :
    Groups (w :: found) (⟨w.issue, w :: under w.issue.id found⟩ :: groups) := by
  -- the other groups are of what is left without the id
  have hother : ∀ id ∈ idsOf groups, id ≠ w.issue.id := by
    intro id hid
    obtain ⟨w', hw', rfl⟩ := (h.complete id).mp hid
    exact (mem_besides_iff.mp hw').2
  refine ⟨List.nodup_cons.mpr ⟨fun hmem => hother _ hmem rfl, h.nodup⟩, fun id => ?_, ?_, ?_, ?_⟩
  · rw [idsOf, List.map_cons, List.mem_cons, ← idsOf, h.complete]
    constructor
    · rintro (rfl | ⟨w', hw', rfl⟩)
      · exact ⟨w, List.mem_cons_self, rfl⟩
      · exact ⟨w', List.mem_cons_of_mem _ (mem_besides_iff.mp hw').1, rfl⟩
    · rintro ⟨w', hw', rfl⟩
      by_cases heq : w'.issue.id = w.issue.id
      · exact Or.inl heq
      · have hfound : w' ∈ found :=
          (List.mem_cons.mp hw').resolve_left fun hw => heq (by rw [hw])
        exact Or.inr ⟨w', mem_besides_iff.mpr ⟨hfound, heq⟩, rfl⟩
  · rw [List.forall_mem_cons]
    refine ⟨by simp [under], fun g hg => ?_⟩
    have hne := hother _ (List.mem_map_of_mem hg)
    rw [h.warnings g hg, under_besides_of_ne hne]
    simp [under, Ne.symm hne]
  · have hlength := length_under_add_besides w.issue.id found
    rw [List.map_cons, List.sum_cons, h.total, List.length_cons, List.length_cons]
    omega
  · exact (h.issues.trans (List.filter_sublist.map _)).cons_cons _

/-- What a list of findings is divided into. -/
theorem groups_groupByIssue : ∀ found : List Warning, Groups found (groupByIssue found)
  | [] => ⟨List.nodup_nil, by simp [groupByIssue, idsOf], nofun, rfl, List.nil_sublist _⟩
  | w :: found => by
      rw [groupByIssue_cons]
      exact (groups_groupByIssue (besides w.issue.id found)).cons
termination_by found => found.length
decreasing_by exact Nat.lt_succ_of_le (List.length_filter_le _ _)

-- ================================================================ sorted findings

theorem isLE_category_of_le {a b : Warning} (h : le a b) :
    (Ord.compare a.issue.category.fullName b.issue.category.fullName).isLE := by
  rw [le_eq_isLE] at h
  exact Ordering.isLE_left_of_isLE_then (Ordering.isLE_left_of_isLE_then h)

/-- The groups of sorted findings come by category. -/
theorem Groups.pairwise_category (h : Groups found groups)
    (hsorted : found.Pairwise fun a b => le a b) :
    (groups.map (·.issue.category.fullName)).Pairwise fun a b => (Ord.compare a b).isLE := by
  have hfound : (found.map (·.issue)).Pairwise fun a b : Issue =>
      (Ord.compare a.category.fullName b.category.fullName).isLE :=
    List.pairwise_map.mpr (hsorted.imp isLE_category_of_le)
  have hgroups := hfound.sublist h.issues
  rw [List.pairwise_map] at hgroups ⊢
  exact hgroups

/-- Where the findings come from one registry, a group has the issue of each of
its findings. -/
theorem Groups.issue_eq (h : Groups found groups) {r : Registry}
    (hregistry : ∀ w ∈ found, r.issue? w.issue.id = some w.issue) {g : Group} (hg : g ∈ groups)
    (hw : w ∈ found) (hid : w.issue.id = g.issue.id) : w.issue = g.issue := by
  have hmem : g.issue ∈ found.map (·.issue) := h.issues.subset (List.mem_map_of_mem hg)
  obtain ⟨first, hfirst, hissue⟩ := List.mem_map.mp hmem
  have hregistered := hregistry first hfirst
  rw [hissue, ← hid, hregistry w hw] at hregistered
  exact Option.some.inj hregistered

end ResourceLint.Warning
