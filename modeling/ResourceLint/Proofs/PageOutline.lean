/-
What a page says, part by part.

The parts of a page are the elements made from a template, in the order they
are in (`select`), and what a part says are the characters in it, with
entities replaced (`Node.text`).

Where all pieces use templates that differ from one in what is fixed
(`Template.isApart`), none of its parts is among them (`select_eq_nil`), so
that each part of a page need only be looked for where it is made.
-/
import ResourceLint.Proofs.PageTags

namespace ResourceLint

namespace Template

/-- Whether two values are fixed, and not the same. -/
def differ : Option String → Option String → Bool
  | some x, some y => x != y
  | _, _ => false

/-- Whether no attributes are allowed by both. -/
def areApart : List (String × Option String) → List (String × Option String) → Bool
  | [], [] => false
  | a :: as, b :: bs => a.1 != b.1 || differ a.2 b.2 || areApart as bs
  | _, _ => true

/-- Whether no tag is made from both templates. -/
def isApart (t other : Template) : Bool :=
  t.tag != other.tag || areApart t.attributes other.attributes

/-- A value cannot be both of two that differ. -/
theorem all_eq_false {a b : Option String} {value : String} (h : differ a b)
    (hb : b.all (value == ·)) : a.all (value == ·) = false := by
  cases a <;> cases b <;> simp [differ] at *
  rw [hb]
  exact Ne.symm h

/-- Attributes that one template allows are not allowed by a template apart from
it. -/
theorem allow_eq_false {a b : List (String × Option String)} {attributes : List (String × String)}
    (hapart : areApart a b) (h : allow b attributes) : allow a attributes = false := by
  fun_induction areApart a b generalizing attributes with
  | case1 => cases hapart
  | case2 a as b bs ih =>
      cases attributes with
      | nil => cases h
      | cons read rest =>
          rw [allow, Bool.and_eq_true, Bool.and_eq_true, beq_iff_eq] at h
          obtain ⟨⟨hname, hvalue⟩, hrest⟩ := h
          rw [Bool.or_eq_true, Bool.or_eq_true, bne_iff_ne] at hapart
          rw [allow, Bool.and_eq_false_iff, Bool.and_eq_false_iff]
          -- they are told apart by a name, by a value, or further on
          rcases hapart with (hne | hdiffer) | hapart
          · exact Or.inl (Or.inl (by simp [hname, Ne.symm hne]))
          · exact Or.inl (Or.inr (all_eq_false hdiffer hvalue))
          · exact Or.inr (ih hapart hrest)
  | case3 a b hnil hcons =>
      cases a with
      | nil =>
          cases attributes with
          | nil =>
              cases b with
              | nil => exact absurd rfl (hnil rfl)
              | cons => cases h
          | cons => rfl
      | cons =>
          cases attributes with
          | nil => rfl
          | cons =>
              cases b with
              | nil => cases h
              | cons => exact absurd rfl (hcons _ _ _ _ rfl)

/-- A tag that fits one template fits none apart from it. -/
theorem fits_eq_false {t other : Template} {tag : String} {attributes : List (String × String)}
    (hapart : t.isApart other) (h : other.fits tag attributes) : t.fits tag attributes = false := by
  unfold fits at *
  unfold isApart at hapart
  rw [Bool.and_eq_true, beq_iff_eq] at h
  rw [Bool.or_eq_true, bne_iff_ne] at hapart
  rw [Bool.and_eq_false_iff, h.1]
  exact hapart.imp (fun hne => by simpa using Ne.symm hne) fun hapart => allow_eq_false hapart h.2

end Template

namespace Html

-- ================================================================== the parts

mutual

/-- The elements made from a template in a node, and the node itself if it is
one. -/
def Node.select (t : Template) : Node → List Node
  | .char _ => []
  | .element tag attributes children =>
    (if t.fits tag attributes then [.element tag attributes children] else []) ++ select t children

/-- The elements among nodes and inside them that are made from a template. -/
def select (t : Template) : List Node → List Node
  | [] => []
  | node :: more => node.select t ++ select t more

end

mutual

/-- A node without the elements inside it that are made from a template; none,
if it is one. -/
def Node.prune (t : Template) : Node → List Node
  | .char c => [.char c]
  | .element tag attributes children =>
    if t.fits tag attributes then [] else [.element tag attributes (prune t children)]

/-- The nodes without the elements that are made from a template. -/
def prune (t : Template) : List Node → List Node
  | [] => []
  | node :: more => node.prune t ++ prune t more

end

mutual

/-- The characters in a node, as they are written. -/
def Node.chars : Node → List Char
  | .char c => [c]
  | .element _ _ children => charsOf children

def charsOf : List Node → List Char
  | [] => []
  | node :: more => node.chars ++ charsOf more

end

/-- Characters with entities replaced. -/
def unescape : List Char → List Char
  | '&' :: 'a' :: 'm' :: 'p' :: ';' :: rest => '&' :: unescape rest
  | '&' :: 'l' :: 't' :: ';' :: rest => '<' :: unescape rest
  | '&' :: 'g' :: 't' :: ';' :: rest => '>' :: unescape rest
  | '&' :: 'q' :: 'u' :: 'o' :: 't' :: ';' :: rest => '"' :: unescape rest
  | '&' :: '#' :: '3' :: '9' :: ';' :: rest => '\'' :: unescape rest
  | c :: rest => c :: unescape rest
  | [] => []

/-- What a node says. -/
def Node.text (node : Node) : String := String.ofList (unescape node.chars)

-- ==================================================================== entities

/-- Whatever begins no escape stands for itself. -/
theorem unescape_cons {c : Char} (h : c ≠ '&') (s : List Char) :
    unescape (c :: s) = c :: unescape s := by
  rw [unescape] <;> simp [h]

/-- An escaped character is read back. -/
theorem unescape_escapeChar (c : Char) (s : List Char) :
    unescape (escapeChar c ++ s) = c :: unescape s := by
  unfold escapeChar
  split
  · rfl
  · rfl
  · rfl
  · rfl
  · rfl
  · next h _ _ _ _ => exact unescape_cons h s

/-- Replacing the entities undoes escaping. -/
theorem unescape_escape (s : String) : unescape (escape s).toList = s.toList := by
  unfold escape
  rw [String.toList_ofList]
  induction s.toList with
  | nil => rfl
  | cons c s ih => rw [List.flatMap_cons, unescape_escapeChar, ih]

/-- A text without `&` has nothing to be read back. -/
theorem unescape_of_not_mem {s : List Char} (h : '&' ∉ s) : unescape s = s := by
  induction s with
  | nil => rfl
  | cons c s ih =>
      rw [List.mem_cons, not_or] at h
      rw [unescape_cons (Ne.symm h.1), ih h.2]

-- ============================================================= parts of pieces

variable {t : Template} {allowed : List Template}

/-- Nodes are selected one after the other. -/
theorem select_append (t : Template) (a b : List Node) :
    select t (a ++ b) = select t a ++ select t b := by
  induction a with
  | nil => rfl
  | cons node a ih => rw [List.cons_append, select, select, ih, List.append_assoc]

/-- No character is an element. -/
theorem select_chars (t : Template) (s : List Char) : select t (s.map .char) = [] := by
  induction s with
  | nil => rfl
  | cons c s ih => rw [List.map_cons, select, ih]; rfl

/-- Nodes are pruned one after the other. -/
theorem prune_append (t : Template) (a b : List Node) :
    prune t (a ++ b) = prune t a ++ prune t b := by
  induction a with
  | nil => rfl
  | cons node a ih => rw [List.cons_append, prune, prune, ih, List.append_assoc]

/-- No character is cut away. -/
theorem prune_chars (t : Template) (s : List Char) : prune t (s.map .char) = s.map .char := by
  induction s with
  | nil => rfl
  | cons c s ih => rw [List.map_cons, prune, ih]; rfl

theorem charsOf_chars (s : List Char) : charsOf (s.map .char) = s := by
  induction s with
  | nil => rfl
  | cons c s ih => rw [List.map_cons, charsOf, ih]; rfl

/-- Pieces become nodes one after the other. -/
theorem nodesOfAll_append (a b : List Html) :
    nodesOfAll (a ++ b) = nodesOfAll a ++ nodesOfAll b := by
  induction a with
  | nil => rfl
  | cons piece a ih => rw [List.cons_append, nodesOfAll, nodesOfAll, ih, List.append_assoc]

/-- What a piece may be is told by its templates. -/
theorem fits_eq_false_of_any {tag : String} {attributes : List HtmlAttribute}
    (hapart : allowed.all t.isApart) (h : allowed.any (·.covers tag attributes)) :
    t.fits tag (attributes.map written) = false := by
  obtain ⟨other, hmem, hcovers⟩ := List.any_eq_true.mp h
  exact Template.fits_eq_false (List.all_eq_true.mp hapart other hmem)
    (Bool.and_eq_true_iff.mp hcovers).1

mutual

/-- A piece whose templates are apart has no such element, at any depth. -/
theorem select_nodes (hapart : allowed.all t.isApart) : ∀ piece : Html, uses allowed piece →
    select t (nodes piece) = []
  | .text _, _ => select_chars t _
  | .fixed _, _ => select_chars t _
  | .element tag attributes children, h => by
      rw [uses, Bool.and_eq_true, Bool.and_eq_true] at h
      rw [nodes, select, Node.select, fits_eq_false_of_any hapart h.1.2,
        select_eq_nil hapart children h.2]
      rfl
  | .void tag attributes closing, h => by
      rw [uses, Bool.and_eq_true, Bool.and_eq_true] at h
      rw [nodes, select, Node.select, fits_eq_false_of_any hapart h.1.2]
      rfl

/-- No part of this kind is where no template of it is used. -/
theorem select_eq_nil (hapart : allowed.all t.isApart) : ∀ pieces : List Html,
    allUse allowed pieces → select t (nodesOfAll pieces) = []
  | [], _ => rfl
  | piece :: more, h => by
      rw [allUse, Bool.and_eq_true] at h
      rw [nodesOfAll, select_append, select_nodes hapart piece h.1, select_eq_nil hapart more h.2]
      rfl

end

mutual

/-- A piece whose templates are apart from one loses nothing when that one is
cut away. -/
theorem prune_nodes (hapart : allowed.all t.isApart) : ∀ piece : Html, uses allowed piece →
    prune t (nodes piece) = nodes piece
  | .text _, _ => prune_chars t _
  | .fixed _, _ => prune_chars t _
  | .element tag attributes children, h => by
      rw [uses, Bool.and_eq_true, Bool.and_eq_true] at h
      rw [nodes, prune, Node.prune, fits_eq_false_of_any hapart h.1.2,
        prune_eq_self hapart children h.2]
      rfl
  | .void tag attributes closing, h => by
      rw [uses, Bool.and_eq_true, Bool.and_eq_true] at h
      rw [nodes, prune, Node.prune, fits_eq_false_of_any hapart h.1.2]
      rfl

theorem prune_eq_self (hapart : allowed.all t.isApart) : ∀ pieces : List Html,
    allUse allowed pieces → prune t (nodesOfAll pieces) = nodesOfAll pieces
  | [], _ => rfl
  | piece :: more, h => by
      rw [allUse, Bool.and_eq_true] at h
      rw [nodesOfAll, prune_append, prune_nodes hapart piece h.1, prune_eq_self hapart more h.2]

end

end Html
end ResourceLint
