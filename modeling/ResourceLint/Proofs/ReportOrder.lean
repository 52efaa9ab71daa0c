/-
The order of a report and the order of the registry.

Findings are compared by their issues first, as issues are listed.  Category
and priority come before the id there, and neither belongs to one issue, so
it is the registry that keeps the findings of an issue together: two of its
issues with one id are the same (`eq_of_id`), and what stands between two
findings of an issue is neither before nor behind it (`id_eq_of_between`).

So in a sorted list the findings of the first issue come first, and the
others follow (`split_of_sorted`).  Peeled off one by one, the groups give
the list back (`flatMap_groupByIssue_of_sorted`), and their issues are some
of the registry's in its order (`sublist_issues`).
-/
import Mathlib.Data.List.Perm.Subperm
import ResourceLint.Proofs.Drafting
import ResourceLint.Proofs.Grouping

namespace ResourceLint.Warning

open Registry (Draft)

variable {r : Registry} {found : List Warning} {a b w x y z : Warning}

-- ============================================================ one comparison

theorem compareOption_eq_iff {α : Type} [Ord α] [Std.LawfulEqOrd α] {a b : Option α} :
    compareOption a b = .eq ↔ a = b := by
  cases a <;> cases b <;> simp [compareOption]

theorem compare_eq_iff : compare a b = .eq ↔ Issue.compare a.issue b.issue = .eq
    ∧ a.path = b.path ∧ a.line = b.line ∧ a.column = b.column ∧ a.message = b.message := by
  unfold compare
  simp only [Ordering.then_eq_eq, compareOption_eq_iff, Std.compare_eq_iff_eq]

theorem isLE_issue_of_le (h : le a b) : (Issue.compare a.issue b.issue).isLE := by
  rw [le_eq_isLE] at h
  exact Ordering.isLE_left_of_isLE_then h

-- ============================================================= one registry

/-- Issues of a registry with one id are the same. -/
theorem eq_of_id (hr : (r.issues.map (·.id)).Nodup) (hfound : ∀ w ∈ found, w.issue ∈ r.issues)
    (hx : x ∈ found) (hy : y ∈ found) (hid : x.issue.id = y.issue.id) : x.issue = y.issue :=
  List.inj_on_of_nodup_map hr (hfound x hx) (hfound y hy) hid

/-- What stands between two findings of one issue is a finding of it. -/
theorem id_eq_of_between (hissue : x.issue = y.issue) (hxz : le x z) (hzy : le z y) :
    z.issue.id = x.issue.id := by
  refine (Issue.id_eq_of_compare (Std.OrientedCmp.isLE_antisymm (isLE_issue_of_le hxz) ?_)).symm
  rw [hissue]
  exact isLE_issue_of_le hzy

/-- Behind the first finding of a sorted list come those of its issue, and then
the others. -/
theorem split_of_sorted (hr : (r.issues.map (·.id)).Nodup) :
    ∀ {found : List Warning}, (∀ x ∈ w :: found, x.issue ∈ r.issues) →
      (w :: found).Pairwise (fun a b => le a b) →
      under w.issue.id found ++ besides w.issue.id found = found
  | [], _, _ => rfl
  | x :: found, hfound, hsorted => by
      have hrest : (w :: found).Sublist (w :: x :: found) :=
        (List.sublist_cons_self x found).cons_cons w
      by_cases hid : x.issue.id = w.issue.id
      · have ih := split_of_sorted hr (fun y hy => hfound y (hrest.subset hy))
          (hsorted.sublist hrest)
        unfold under besides at ih ⊢
        rw [List.filter_cons_of_pos (by simpa using hid),
          List.filter_cons_of_neg (by simpa using hid), List.cons_append, ih]
      · -- a finding of the first issue cannot come behind one of another
        have hother : ∀ y ∈ x :: found, y.issue.id ≠ w.issue.id := by
          intro y hy heq
          rcases List.mem_cons.mp hy with rfl | hy
          · exact hid heq
          · have hbetween := List.pairwise_cons.mp hsorted
            refine hid (id_eq_of_between ?_ (hbetween.1 x List.mem_cons_self)
              ((List.pairwise_cons.mp hbetween.2).1 y hy))
            exact eq_of_id hr hfound List.mem_cons_self
              (List.mem_cons_of_mem _ (List.mem_cons_of_mem _ hy)) heq.symm
        have hnone : under w.issue.id (x :: found) = [] :=
          List.filter_eq_nil_iff.mpr fun y hy => by simpa using hother y hy
        have hall : besides w.issue.id (x :: found) = x :: found :=
          List.filter_eq_self.mpr fun y hy => by simpa using hother y hy
        rw [hnone, hall, List.nil_append]

/-- The groups of a sorted list make up the list. -/
theorem flatMap_groupByIssue_of_sorted (hr : (r.issues.map (·.id)).Nodup) :
    ∀ {found : List Warning}, (∀ w ∈ found, w.issue ∈ r.issues) →
      found.Pairwise (fun a b => le a b) → (groupByIssue found).flatMap (·.warnings) = found
  | [], _, _ => rfl
  | w :: found, hfound, hsorted => by
      have hrest : (besides w.issue.id found).Sublist (w :: found) :=
        List.filter_sublist.trans (List.sublist_cons_self w found)
      have ih := flatMap_groupByIssue_of_sorted hr (fun x hx => hfound x (hrest.subset hx))
        (hsorted.sublist hrest)
      rw [groupByIssue_cons, List.flatMap_cons, ih, List.cons_append,
        split_of_sorted hr hfound hsorted]
termination_by found => found.length
decreasing_by exact Nat.lt_succ_of_le (List.length_filter_le _ _)

/-- The groups of any list have its findings. -/
theorem perm_flatMap_groupByIssue :
    ∀ found : List Warning, ((groupByIssue found).flatMap (·.warnings)).Perm found
  | [] => .nil
  | w :: found => by
      rw [groupByIssue_cons, List.flatMap_cons, List.cons_append]
      have ih := perm_flatMap_groupByIssue (besides w.issue.id found)
      refine .cons w ((ih.append_left _).trans ?_)
      exact List.filter_append_perm (·.issue.id == w.issue.id) found
termination_by found => found.length
decreasing_by exact Nat.lt_succ_of_le (List.length_filter_le _ _)

instance : Std.Antisymm Issue.Precedes where
  antisymm a b hab hba := by
    rw [← Issue.compare_eq_lt_iff] at hab hba
    have hswap : Issue.compare b a = (Issue.compare a b).swap := Std.OrientedCmp.eq_swap
    rw [hswap, hab] at hba
    cases hba

/-- The issues of the groups of a sorted list are some of the registry's, in
its order. -/
theorem sublist_issues (hlisted : r.issues.Pairwise Issue.Precedes)
    (hfound : ∀ w ∈ found, w.issue ∈ r.issues) (hsorted : found.Pairwise fun a b => le a b) :
    ((groupByIssue found).map (·.issue)).Sublist r.issues := by
  have hgroups := groups_groupByIssue found
  have hids : (((groupByIssue found).map (·.issue)).map (·.id)).Nodup := by
    rw [List.map_map]
    exact hgroups.nodup
  have hissues : (found.map (·.issue)).Pairwise fun a b => (Issue.compare a b).isLE :=
    List.pairwise_map.mpr (hsorted.imp isLE_issue_of_le)
  refine List.sublist_of_subperm_of_pairwise ?_
    (Issue.pairwise_precedes (hissues.sublist hgroups.issues) hids) hlisted
  refine List.subperm_of_subset hids.of_map fun issue hissue => ?_
  obtain ⟨w, hw, rfl⟩ := List.mem_map.mp (hgroups.issues.subset hissue)
  exact hfound w hw

-- ================================================================ the report

/-- What is known of findings whose issues are those of a registry. -/
structure Arranged (r : Registry) (found : List Warning) : Prop where
  /-- any two compare, and the other way round the other way -/
  swap : ∀ a ∈ found, ∀ b ∈ found, compare b a = (compare a b).swap
  trans : ∀ a ∈ found, ∀ b ∈ found, ∀ c ∈ found,
    (compare a b).isLE → (compare b c).isLE → (compare a c).isLE
  antisymm : ∀ a ∈ found, ∀ b ∈ found, (compare a b).isLE → (compare b a).isLE → compare a b = .eq
  /-- findings that are not told apart are alike in what is compared -/
  eq_iff : ∀ a ∈ found, ∀ b ∈ found, compare a b = .eq ↔ a.issue = b.issue ∧ a.path = b.path
    ∧ a.line = b.line ∧ a.column = b.column ∧ a.message = b.message
  /-- a report is sorted, and nothing is lost in it -/
  sorted : (sort found).Perm found ∧ (sort found).Pairwise fun a b => (compare a b).isLE
  /-- in a report the findings of an issue stand side by side -/
  contiguous : ∀ x z y, [x, z, y].Sublist (sort found) → x.issue.id = y.issue.id →
    z.issue.id = x.issue.id
  /-- it has one group for each id, -/
  groups : Groups (sort found) (groupByIssue (sort found))
  /-- which together are the report, -/
  whole : (groupByIssue (sort found)).flatMap (·.warnings) = sort found
  /-- and their issues come as they do in the registry -/
  listed : ((groupByIssue (sort found)).map (·.issue)).Sublist r.issues
  /-- findings in another order have such groups, too -/
  unsorted : Groups found (groupByIssue found)
    ∧ ((groupByIssue found).flatMap (·.warnings)).Perm found

/-- Whatever registry was put together. -/
theorem arranged_build (steps : List Draft.Step) (found : List Warning)
    (hfound : ∀ w ∈ found, w.issue ∈ (Draft.after steps).build.issues) :
    Arranged (Draft.after steps).build found := by
  have hr := Registry.nodup_issues_build steps
  have hlisted := Issue.pairwise_precedes (Registry.pairwise_issues_build (Draft.after steps)) hr
  have hsorted : (sort found).Pairwise fun a b => le a b :=
    List.pairwise_mergeSort le_trans le_total found
  have hreport : ∀ w ∈ sort found, w.issue ∈ (Draft.after steps).build.issues :=
    fun w hw => hfound w (List.mem_mergeSort.mp hw)
  refine ⟨fun a _ b _ => Std.OrientedCmp.eq_swap, fun a _ b _ c _ => Std.TransCmp.isLE_trans,
    fun a _ b _ => Std.OrientedCmp.isLE_antisymm, fun a ha b hb => ?_,
    ⟨List.mergeSort_perm _ _, ?_⟩, fun x z y hxzy hid => ?_, groups_groupByIssue _,
    flatMap_groupByIssue_of_sorted hr hreport hsorted, sublist_issues hlisted hreport hsorted,
    groups_groupByIssue _, perm_flatMap_groupByIssue _⟩
  · rw [compare_eq_iff]
    refine and_congr_left fun _ => ⟨fun h => ?_, fun h => ?_⟩
    · exact eq_of_id hr hfound ha hb (Issue.id_eq_of_compare h)
    · rw [h]
      exact Std.ReflCmp.compare_self
  · simpa only [le_eq_isLE] using hsorted
  · -- what stands between two warnings of an issue is between them in the order too
    have hmem : ∀ w ∈ [x, z, y], w ∈ sort found := fun w hw => hxzy.subset hw
    have hle := hsorted.sublist hxzy
    simp only [List.pairwise_cons, List.mem_cons, forall_eq_or_imp] at hle
    refine id_eq_of_between ?_ hle.1.1 hle.2.1.1
    exact eq_of_id hr hreport (hmem x (by simp)) (hmem y (by simp)) hid

/-- An issue that only its id tells from others. -/
def plainIssue (id : String) : Issue := .new id "" "" .icons 5 .warning .empty

/-- Findings of two such issues, in turns. -/
theorem arranged_inTurns :
    (∀ w ∈ ["B", "A", "B"].map fun id => new (plainIssue id) "" .warning,
        w.issue ∈ (Draft.after [.issue (plainIssue "B"), .issue (plainIssue "A")]).build.issues)
      ∧ Arranged (Draft.after [.issue (plainIssue "B"), .issue (plainIssue "A")]).build
        (["B", "A", "B"].map fun id => new (plainIssue id) "" .warning) := by
  have hfound : ∀ w ∈ ["B", "A", "B"].map fun id => new (plainIssue id) "" .warning,
      w.issue ∈ (Draft.after [.issue (plainIssue "B"), .issue (plainIssue "A")]).build.issues := by
    intro w hw
    refine (Registry.issues_build_perm _).mem_iff.mpr ?_
    revert w
    decide
  exact ⟨hfound, arranged_build _ _ hfound⟩

end ResourceLint.Warning
