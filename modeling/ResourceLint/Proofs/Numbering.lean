/-
The numbers in a store say how the nodes lie.

A store is a tree laid out, and this module reads the layout entry by entry.
An entry heads the entries of what its node holds, so the numbers that it lists
are theirs (`Heads.forall₂`); every entry but the first is listed by an earlier
one, which it names (`IsListed`); and the elements have ascending numbers in
the order in which a walk by these lists comes to them (`Arena.Walk`).

The numbers of a part of the tree begin anywhere, so entries are looked at
together with their numbers (`Node.numbered`).  Each fact is an induction over
a node and over nodes side by side at once, as the layout is.
-/
import Mathlib.Data.List.Forall2
import ResourceLint.Proofs.Spans

namespace ResourceLint.Xml

variable {entry : Entry} {entries more : List (Entry × Nat)} {node : Node} {i k lo hi : Nat}

/-- The entries of a node with their numbers. -/
def Node.numbered (parent : Option Nat) (number : Nat) (node : Node) : List (Entry × Nat) :=
  (node.laid parent number).zipIdx number

/-- The entries of nodes side by side with their numbers. -/
def numberedAll (parent first : Nat) (nodes : List Node) : List (Entry × Nat) :=
  (laidAll parent first nodes).zipIdx first

/-- A node is numbered before its children. -/
theorem Node.numbered_eq (parent : Option Nat) (number : Nat) (node : Node) :
    node.numbered parent number
      = (node.entry parent number, number) :: numberedAll number (number + 1) node.inner := by
  unfold Node.numbered numberedAll
  rw [Node.laid_eq, List.zipIdx_cons]

theorem numberedAll_nil (parent first : Nat) : numberedAll parent first [] = [] := by
  unfold numberedAll
  rw [laidAll]
  rfl

/-- The nodes of a row are numbered one after the other. -/
theorem numberedAll_cons (parent first : Nat) (node : Node) (nodes : List Node) :
    numberedAll parent first (node :: nodes)
      = node.numbered (some parent) first ++ numberedAll parent (first + node.size) nodes := by
  unfold Node.numbered numberedAll
  rw [laidAll, List.zipIdx_append, Node.length_laid]

-- ============================================================== what is listed

/-- The entry of a node that another holds. -/
def IsEntryOf (entries : List (Entry × Nat)) (parent k : Nat) (node : Node) : Prop :=
  (node.entry (some parent) k, k) ∈ entries

/-- The numbers of children lead to their entries. -/
theorem forall₂_numbersOf (parent first : Nat) (nodes : List Node) :
    List.Forall₂ (IsEntryOf (numberedAll parent first nodes) parent) (numbersOf first nodes)
      nodes := by
  induction nodes generalizing first with
  | nil => exact List.Forall₂.nil
  | cons node nodes ih =>
      rw [numberedAll_cons, numbersOf]
      refine List.Forall₂.cons ?_ ((ih _).imp fun k node h => ?_)
      · rw [Node.numbered_eq]
        exact List.mem_append_left _ List.mem_cons_self
      · exact List.mem_append_right _ h

/-- The entry is that of a node, and behind it are the entries of what the node
holds. -/
structure Heads (entries : List (Entry × Nat)) (entry : Entry) (i : Nat) (node : Node) : Prop where
  entry : entry = node.entry entry.parent i
  below : numberedAll i (i + 1) node.inner ⊆ entries

/-- An entry heads the same node among more entries. -/
theorem Heads.mono (h : Heads entries entry i node) (hsub : entries ⊆ more) :
    Heads more entry i node :=
  ⟨h.entry, fun _ he => hsub (h.below he)⟩

/-- What an entry lists are the entries of what its node holds. -/
theorem Heads.forall₂ (h : Heads entries entry i node) :
    List.Forall₂ (IsEntryOf entries i) entry.children node.inner := by
  rw [h.entry]
  exact (forall₂_numbersOf i (i + 1) node.inner).imp fun k node hk => h.below hk

mutual

/-- Every entry is that of a node, which fits wherever the whole does. -/
theorem Node.exists_heads (parent : Option Nat) (number : Nat) :
    ∀ node : Node, (entry, i) ∈ node.numbered parent number →
      ∃ part, Heads (node.numbered parent number) entry i part
        ∧ ∀ lo hi, node.Fits lo hi → part.Fits lo hi
  | .element tag span children, h => by
      rw [Node.numbered_eq] at h ⊢
      rcases List.mem_cons.mp h with h | h
      · cases h
        exact ⟨.element tag span children, ⟨rfl, List.subset_cons_self _ _⟩, fun _ _ h => h⟩
      · obtain ⟨part, hheads, hfits⟩ := exists_heads_all number (number + 1) children h
        refine ⟨part, hheads.mono (List.subset_cons_self _ _), fun lo hi hnode => ?_⟩
        rw [Node.Fits] at hnode
        exact (hfits _ _ hnode.2.1).mono hnode.1 hnode.2.2
  | .text content span, h => by
      rw [Node.numbered_eq] at h ⊢
      rcases List.mem_cons.mp h with h | h
      · cases h
        exact ⟨.text content span, ⟨rfl, List.subset_cons_self _ _⟩, fun _ _ h => h⟩
      · rw [Node.inner, numberedAll_nil] at h
        cases h

/-- Every entry of a row heads some part of it, which lies where the row
does. -/
theorem exists_heads_all (parent first : Nat) :
    ∀ nodes, (entry, i) ∈ numberedAll parent first nodes →
      ∃ part, Heads (numberedAll parent first nodes) entry i part
        ∧ ∀ lo hi, FitAll lo hi nodes → part.Fits lo hi
  | [], h => by
      rw [numberedAll_nil] at h
      cases h
  | node :: nodes, h => by
      rw [numberedAll_cons] at h ⊢
      rcases List.mem_append.mp h with h | h
      · obtain ⟨part, hheads, hfits⟩ := Node.exists_heads (some parent) first node h
        refine ⟨part, hheads.mono (List.subset_append_left _ _), fun lo hi hall => ?_⟩
        rw [FitAll] at hall
        exact (hfits _ _ hall.1).mono (Nat.le_refl _) hall.2.le
      · obtain ⟨part, hheads, hfits⟩ := exists_heads_all parent _ nodes h
        refine ⟨part, hheads.mono (List.subset_append_right _ _), fun lo hi hall => ?_⟩
        rw [FitAll] at hall
        have hnode := hall.1.bounds
        exact (hfits _ _ hall.2).mono (Nat.le_trans hnode.1 hnode.2.1) (Nat.le_refl _)

end

/-- The entry is listed by an earlier one, which it names. -/
def IsListed (entries : List (Entry × Nat)) (entry : Entry) (i : Nat) : Prop :=
  ∃ holder p, (holder, p) ∈ entries ∧ p < i ∧ entry.parent = some p ∧ i ∈ holder.children

theorem IsListed.mono (h : IsListed entries entry i) (hsub : entries ⊆ more) :
    IsListed more entry i := by
  obtain ⟨holder, p, hholder, hlisted⟩ := h
  exact ⟨holder, p, hsub hholder, hlisted⟩

mutual

/-- Every entry but the first is listed. -/
theorem Node.listed_of_mem_numbered (parent : Option Nat) (number : Nat) :
    ∀ node : Node, (entry, i) ∈ node.numbered parent number →
      (entry.parent = parent ∧ i = number) ∨ IsListed (node.numbered parent number) entry i
  | .element tag span children, h => by
      rw [Node.numbered_eq] at h ⊢
      rcases List.mem_cons.mp h with h | h
      · cases h
        exact Or.inl ⟨rfl, rfl⟩
      · rcases listed_of_mem_numberedAll number (number + 1) children h with hfirst | hlisted
        · refine Or.inr ⟨_, number, List.mem_cons_self, ?_, hfirst.1, hfirst.2⟩
          exact le_of_mem_numbersOf hfirst.2
        · exact Or.inr (hlisted.mono (List.subset_cons_self _ _))
  | .text content span, h => by
      rw [Node.numbered_eq] at h ⊢
      rcases List.mem_cons.mp h with h | h
      · cases h
        exact Or.inl ⟨rfl, rfl⟩
      · rw [Node.inner, numberedAll_nil] at h
        cases h

/-- Every entry of a row is listed by its parent, inside of the row or around
it. -/
theorem listed_of_mem_numberedAll (parent first : Nat) :
    ∀ nodes, (entry, i) ∈ numberedAll parent first nodes →
      (entry.parent = some parent ∧ i ∈ numbersOf first nodes)
        ∨ IsListed (numberedAll parent first nodes) entry i
  | [], h => by
      rw [numberedAll_nil] at h
      cases h
  | node :: nodes, h => by
      rw [numberedAll_cons] at h ⊢
      rw [numbersOf]
      rcases List.mem_append.mp h with h | h
      · rcases Node.listed_of_mem_numbered (some parent) first node h with hfirst | hlisted
        · exact Or.inl ⟨hfirst.1, hfirst.2 ▸ List.mem_cons_self⟩
        · exact Or.inr (hlisted.mono (List.subset_append_left _ _))
      · rcases listed_of_mem_numberedAll parent _ nodes h with hfirst | hlisted
        · exact Or.inl ⟨hfirst.1, List.mem_cons_of_mem _ hfirst.2⟩
        · exact Or.inr (hlisted.mono (List.subset_append_right _ _))

end

-- ================================================================= elements

namespace Arena

variable {a : Arena}

/-- The element under a number is this one. -/
def Shows (a : Arena) (number : Nat) (e : Element) : Prop :=
  ∃ entry, a.entries[number]? = some entry ∧ entry.node = .element e.tag
    ∧ entry.start = e.span.start ∧ entry.stop? = some e.span.stop

mutual

/-- A walk that goes from an element to each of those it holds comes to these
numbers, in this order. -/
inductive Walk (a : Arena) : Nat → List Nat → Prop
  | element {number : Nat} {below : List Nat} (h : WalkAll a (a.childElements number) below) :
      Walk a number (number :: below)

/-- So do walks from some elements, one after the other. -/
inductive WalkAll (a : Arena) : List Nat → List Nat → Prop
  | nil : WalkAll a [] []
  | cons {number : Nat} {numbers here there : List Nat} (h : Walk a number here)
      (hmore : WalkAll a numbers there) : WalkAll a (number :: numbers) (here ++ there)

end

/-- The elements among some numbers in a row. -/
def elementsIn (a : Arena) (first count : Nat) : List Nat :=
  (List.range' first count).filter a.isElement

/-- Elements are listed stretch by stretch. -/
theorem elementsIn_add (first m n : Nat) :
    a.elementsIn first (m + n) = a.elementsIn first m ++ a.elementsIn (first + m) n := by
  unfold elementsIn
  rw [← List.filter_append, List.range'_append_1]

/-- The first place of a stretch is asked by itself. -/
theorem elementsIn_succ (first n : Nat) :
    a.elementsIn first (1 + n)
      = (if a.isElement first then [first] else []) ++ a.elementsIn (first + 1) n := by
  have hfirst : a.elementsIn first 1 = if a.isElement first then [first] else [] := by
    unfold elementsIn
    rw [List.range'_one, List.filter_singleton]
    cases a.isElement first <;> rfl
  rw [elementsIn_add, hfirst]

/-- What lies at a number says whether it is an element. -/
theorem isElement_of_holds {number : Nat} {rest : List Entry}
    (h : Holds a.entries.toList number (entry :: rest)) : a.isElement number = entry.isElement := by
  have hentry := h.head
  rw [Array.getElem?_toList] at hentry
  rw [isElement, hentry, Option.any_some]

mutual

/-- The elements of a node have the numbers of its elements, in their order. -/
theorem forall₂_shows (parent : Option Nat) (number : Nat) (around : List Content) :
    ∀ node : Node, Holds a.entries.toList number (node.laid parent number) →
      List.Forall₂ a.Shows (a.elementsIn number node.size) (node.elements around)
  | .element tag span children, h => by
      rw [Node.laid] at h
      have hentry := h.head
      rw [Array.getElem?_toList] at hentry
      rw [Node.size, elementsIn_succ, isElement_of_holds h, Node.elements]
      exact .cons ⟨_, hentry, rfl, rfl, rfl⟩
        (forall₂_shows_all number (number + 1) (⟨tag, span, children⟩ :: around) children h.tail)
  | .text content span, h => by
      rw [Node.laid] at h
      rw [Node.size, ← Nat.add_zero 1, elementsIn_succ, isElement_of_holds h, Node.elements]
      exact .nil

/-- The numbers of elements show the elements of the tree, in its order. -/
theorem forall₂_shows_all (parent first : Nat) (around : List Content) :
    ∀ nodes, Holds a.entries.toList first (laidAll parent first nodes) →
      List.Forall₂ a.Shows (a.elementsIn first (sizeOfAll nodes)) (elementsOfAll around nodes)
  | [], _ => by
      rw [sizeOfAll, elementsOfAll]
      exact .nil
  | node :: nodes, h => by
      obtain ⟨hnode, hmore⟩ := h.cons_laidAll
      rw [sizeOfAll, elementsIn_add, elementsOfAll]
      exact List.rel_append (forall₂_shows (some parent) first around node hnode)
        (forall₂_shows_all parent (first + node.size) around nodes hmore)

end

mutual

/-- A walk from an element comes to the elements behind it in ascending order. -/
theorem walk_of_holds (parent : Option Nat) (number : Nat) :
    ∀ node : Node, Holds a.entries.toList number (node.laid parent number) →
      a.isElement number → a.Walk number (a.elementsIn number node.size)
  | .element tag span children, h, helement => by
      rw [Node.laid] at h
      have hentry := h.head
      rw [Array.getElem?_toList] at hentry
      have hchildren : a.childElements number
          = (numbersOf (number + 1) children).filter a.isElement := by
        rw [childElements, hentry]
        rfl
      rw [Node.size, elementsIn_succ, if_pos helement]
      refine .element ?_
      rw [hchildren]
      exact walkAll_of_holds number (number + 1) children h.tail
  | .text content span, h, helement => by
      rw [Node.laid] at h
      rw [isElement_of_holds h] at helement
      cases helement

/-- Walking from child to child meets the elements in the order of their
numbers. -/
theorem walkAll_of_holds (parent first : Nat) :
    ∀ nodes, Holds a.entries.toList first (laidAll parent first nodes) →
      a.WalkAll ((numbersOf first nodes).filter a.isElement) (a.elementsIn first (sizeOfAll nodes))
  | [], _ => by
      rw [sizeOfAll]
      exact .nil
  | node :: nodes, h => by
      obtain ⟨hnode, hmore⟩ := h.cons_laidAll
      have hwalks := walkAll_of_holds parent (first + node.size) nodes hmore
      rw [sizeOfAll, elementsIn_add, numbersOf]
      by_cases helement : a.isElement first
      · rw [List.filter_cons_of_pos helement]
        exact .cons (walk_of_holds (some parent) first node hnode helement) hwalks
      · -- a run of text is passed over, and has no elements in it
        have hnone : a.elementsIn first node.size = [] := by
          cases node with
          | element tag span children =>
              rw [Node.laid] at hnode
              exact absurd (isElement_of_holds hnode) helement
          | text content span =>
              rw [Node.size, ← Nat.add_zero 1, elementsIn_succ, if_neg helement]
              rfl
        rw [List.filter_cons_of_neg helement, hnone]
        exact hwalks

end

end Arena

-- ====================================================== two lists side by side

variable {α β : Type} {R : α → β → Prop} {S : β → β → Prop} {xs : List α} {ys : List β}

/-- What is related member by member has a partner for each. -/
theorem exists_of_forall₂ (h : List.Forall₂ R xs ys) {x : α} (hx : x ∈ xs) :
    ∃ y ∈ ys, R x y := by
  induction h with
  | nil => cases hx
  | cons hxy hrest ih =>
      rcases List.mem_cons.mp hx with rfl | hx
      · exact ⟨_, List.mem_cons_self, hxy⟩
      · obtain ⟨y, hy, hxy⟩ := ih hx
        exact ⟨y, List.mem_cons_of_mem _ hy, hxy⟩

/-- What holds between any two on one side holds between their counterparts. -/
theorem pairwise_of_forall₂ (h : List.Forall₂ R xs ys) (hys : ys.Pairwise S) :
    xs.Pairwise fun x x' => ∃ y y', R x y ∧ R x' y' ∧ S y y' := by
  induction h with
  | nil => exact List.Pairwise.nil
  | @cons x y xs ys hxy hrest ih =>
      obtain ⟨hfirst, hmore⟩ := List.pairwise_cons.mp hys
      refine List.pairwise_cons.mpr ⟨fun x' hx' => ?_, ih hmore⟩
      obtain ⟨y', hy', hxy'⟩ := exists_of_forall₂ hrest hx'
      exact ⟨y, y', hxy, hxy', hfirst y' hy'⟩

end ResourceLint.Xml
