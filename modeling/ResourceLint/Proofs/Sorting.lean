/-
The order of a report as an order on lists: what sorting warnings does to
the warnings of one issue.

# Stable sorting, characterised

A stable sort is the only sorted list that keeps, for every element, the
elements equivalent to it in the order they came (`eq_of_classes`).  From
this it follows that sorting commutes with leaving elements out
(`mergeSort_filter`): the warnings of one issue stand in a report as they
would if there were no others.

# The order of warnings

`Warning.compare` is total and transitive, being put together from
comparisons that are; that is all the sort needs.  It is not antisymmetric,
since two warnings may differ in what the order does not look at, so
stability is not an idle demand.
-/
import Mathlib.Data.List.Sort
import ResourceLint.Warning

namespace ResourceLint

open Std (OrientedCmp TransCmp)

-- ======================================================= stable sorting

namespace Sorting

variable {α : Type _} {le : α → α → Bool}

/-- Equivalent under the order: each may stand before the other. -/
def tied (le : α → α → Bool) (a b : α) : Bool := le a b && le b a

theorem tied_comm (a b : α) : tied le a b = tied le b a := Bool.and_comm ..

/-- Where the order is transitive, two elements tied with a third are tied. -/
theorem tied_trans (trans : ∀ a b c, le a b → le b c → le a c) {a b c : α}
    (hab : tied le a b) (hbc : tied le b c) : tied le a c := by
  simp only [tied, Bool.and_eq_true] at hab hbc ⊢
  exact ⟨trans _ _ _ hab.1 hbc.1, trans _ _ _ hbc.2 hab.2⟩

/-- Lists with the same classes have the same elements. -/
theorem mem_of_classes (refl : ∀ a, le a a) {l m : List α}
    (h : ∀ a, l.filter (tied le a) = m.filter (tied le a)) {a : α} (ha : a ∈ l) : a ∈ m := by
  have hclass : a ∈ l.filter (tied le a) := List.mem_filter.mpr ⟨ha, by simp [tied, refl]⟩
  rw [h] at hclass
  exact (List.mem_filter.mp hclass).1

/-- The head of a sorted list comes before its elements. -/
theorem le_of_mem_cons (refl : ∀ a, le a a) {a b : α} {l : List α}
    (h : (b :: l).Pairwise fun a b => le a b) (ha : a ∈ b :: l) : le b a := by
  rcases List.mem_cons.mp ha with rfl | ha
  · exact refl _
  · exact (List.pairwise_cons.mp h).1 a ha

/-- Two sorted lists are the same once the elements tied with any one
element stand in the same order in both. -/
theorem eq_of_classes (total : ∀ a b, le a b || le b a) :
    ∀ {l m : List α}, l.Pairwise (fun a b => le a b) → m.Pairwise (fun a b => le a b) →
      (∀ a, l.filter (tied le a) = m.filter (tied le a)) → l = m := by
  have refl : ∀ a, le a a := fun a => by simpa using total a a
  intro l
  induction l with
  | nil =>
      intro m _ _ h
      cases m with
      | nil => rfl
      | cons b m => cases mem_of_classes refl (fun a => (h a).symm) (List.mem_cons_self (a := b))
  | cons a l ih =>
      intro m hl hm h
      cases m with
      | nil => cases mem_of_classes refl h (List.mem_cons_self (a := a))
      | cons b m =>
          have ha := h a
          have hself : tied le a a := by simp [tied, refl]
          -- the heads are tied: each occurs behind the other one
          have hab : le a b := le_of_mem_cons refl hl
            (mem_of_classes refl (fun a => (h a).symm) List.mem_cons_self)
          have hba : le b a := le_of_mem_cons refl hm (mem_of_classes refl h List.mem_cons_self)
          have htie : tied le a b := by simp [tied, hab, hba]
          rw [List.filter_cons_of_pos hself, List.filter_cons_of_pos htie] at ha
          have heq : a = b := (List.cons.inj ha).1
          subst heq
          refine congrArg (a :: ·) (ih hl.tail hm.tail fun x => ?_)
          have hx := h x
          by_cases hxa : tied le x a
          · rw [List.filter_cons_of_pos hxa, List.filter_cons_of_pos hxa] at hx
            exact (List.cons.inj hx).2
          · rwa [List.filter_cons_of_neg hxa, List.filter_cons_of_neg hxa] at hx

/-- Sorting leaves elements that are tied with one element in their order. -/
theorem filter_tied_mergeSort (trans : ∀ a b c, le a b → le b c → le a c)
    (total : ∀ a b, le a b || le b a) (a : α) (l : List α) :
    (l.mergeSort le).filter (tied le a) = l.filter (tied le a) := by
  have hclass : (l.filter (tied le a)).Pairwise (fun x y => le x y) := by
    refine List.pairwise_of_forall_mem_list fun x hx y hy => ?_
    have hx' := (List.mem_filter.mp hx).2
    have hy' := (List.mem_filter.mp hy).2
    rw [tied_comm] at hx'
    have := tied_trans trans hx' hy'
    simp only [tied, Bool.and_eq_true] at this
    exact this.1
  have hsub : (l.filter (tied le a)).Sublist ((l.mergeSort le).filter (tied le a)) := by
    have := (List.sublist_mergeSort trans total hclass List.filter_sublist).filter (tied le a)
    rwa [List.filter_filter, show (fun x => tied le a x && tied le a x) = tied le a from
      funext fun x => Bool.and_self _] at this
  refine (hsub.eq_of_length ?_).symm
  exact ((List.mergeSort_perm l le).filter _).length_eq.symm

/-- Sorting what is left of a list leaves the same out of the sorted list. -/
theorem mergeSort_filter (trans : ∀ a b c, le a b → le b c → le a c)
    (total : ∀ a b, le a b || le b a) (p : α → Bool) (l : List α) :
    (l.mergeSort le).filter p = (l.filter p).mergeSort le := by
  refine eq_of_classes total ((List.pairwise_mergeSort trans total l).filter p)
    (List.pairwise_mergeSort trans total _) fun a => ?_
  rw [filter_tied_mergeSort trans total, List.filter_filter, List.filter_filter]
  have hl := congrArg (List.filter p) (filter_tied_mergeSort trans total a l)
  rw [List.filter_filter, List.filter_filter] at hl
  simpa only [Bool.and_comm] using hl

end Sorting

-- ================================================ the order of warnings

/-- Comparing by what a function gives is as good as comparing that. -/
theorem transCmp_comap {α β : Type _} (cmp : β → β → Ordering) [TransCmp cmp] (f : α → β) :
    TransCmp fun a b => cmp (f a) (f b) where
  eq_swap := OrientedCmp.eq_swap
  isLE_trans := TransCmp.isLE_trans

namespace Issue

instance : TransCmp Issue.compare := by
  have heq : Issue.compare
      = compareLex (compareOn fun i : Issue => i.category.fullName)
          (compareLex (fun a b => Ord.compare b.priority a.priority)
            (compareOn fun i : Issue => i.id)) := rfl
  have : TransCmp fun a b : Issue => Ord.compare b.priority a.priority :=
    transCmp_comap (fun m n : Nat => Ord.compare n m) Issue.priority
  rw [heq]
  infer_instance

/-- Issues that the order does not tell apart have one id. -/
theorem id_eq_of_compare {a b : Issue} (h : Issue.compare a b = .eq) : a.id = b.id := by
  simp only [Issue.compare, Ordering.then_eq_eq, Std.compare_eq_iff_eq] at h
  exact h.2.2

end Issue

namespace Warning

/-- A missing value comes first, and the others as they are ordered. -/
instance {α : Type} [Ord α] [Std.TransOrd α] : TransCmp (compareOption (α := α)) where
  eq_swap {a b} := by
    cases a <;> cases b <;> simp [compareOption]
    exact OrientedCmp.eq_swap
  isLE_trans {a b c} := by
    cases a <;> cases b <;> cases c <;> simp [compareOption]
    exact TransCmp.isLE_trans

instance : TransCmp Warning.compare := by
  have heq : Warning.compare
      = compareLex (fun a b => Issue.compare a.issue b.issue)
          (compareLex (fun a b => compareOption a.path b.path)
            (compareLex (fun a b => compareOption a.line b.line)
              (compareLex (fun a b => compareOption a.column b.column)
                (compareOn fun w : Warning => w.message)))) := rfl
  have := transCmp_comap Issue.compare Warning.issue
  have := transCmp_comap compareOption Warning.path
  have := transCmp_comap compareOption Warning.line
  have := transCmp_comap compareOption Warning.column
  rw [heq]
  infer_instance

theorem le_eq_isLE (a b : Warning) : le a b = (compare a b).isLE := by
  unfold le
  cases compare a b <;> rfl

theorem le_trans (a b c : Warning) (hab : le a b) (hbc : le b c) : le a c := by
  rw [le_eq_isLE] at *
  exact TransCmp.isLE_trans hab hbc

theorem le_total (a b : Warning) : le a b || le b a := by
  have hswap : compare b a = (compare a b).swap := OrientedCmp.eq_swap
  rw [le_eq_isLE, le_eq_isLE, hswap]
  cases compare a b <;> rfl

/-- Tied warnings are of issues with one id. -/
theorem id_eq_of_tied {a b : Warning} (h : Sorting.tied le a b) : a.issue.id = b.issue.id := by
  have heq : compare a b = .eq := by
    rw [Sorting.tied, Bool.and_eq_true, le_eq_isLE, le_eq_isLE] at h
    exact OrientedCmp.isLE_antisymm h.1 h.2
  simp only [compare, Ordering.then_eq_eq] at heq
  exact Issue.id_eq_of_compare heq.1

/-- The warnings that a report is left with are sorted as if the others had
never been found. -/
theorem sort_filter (p : Warning → Bool) (ws : List Warning) :
    (sort ws).filter p = sort (ws.filter p) :=
  Sorting.mergeSort_filter le_trans le_total p ws

end Warning

end ResourceLint
