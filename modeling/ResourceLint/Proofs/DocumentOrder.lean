/-
The elements of a document in the order of a walk.

A walk goes from an element to its children, one after the other, and is
done with a child before it goes to the next (`Element.walk`).  It knows
elements only; the tree has runs of text between them.  `Document.elements`
comes from the tree and is the walk from the outermost element
(`elements_eq_walk`).  A visitor meets the elements in this order, one call for
each detector that wants to see them (`elementCalls_calls`).
-/
import ResourceLint.Proofs.Dispatch

namespace ResourceLint.Xml

-- ==================================================================== walks

namespace Element

variable {e : Element}

/-- A child is a part of what its parent holds. -/
theorem sizeOf_lt_of_mem_childElements {child : Element} (h : child ∈ e.childElements) :
    sizeOf child.children < sizeOf e.children := by
  obtain ⟨node, hnode, hchild⟩ := List.mem_filterMap.mp h
  cases node with
  | element tag span children =>
      cases hchild
      have hpart := List.sizeOf_lt_of_mem hnode
      rw [Node.element.sizeOf_spec] at hpart
      show sizeOf children < _
      omega
  | text content span => cases hchild

/-- The element, and then what a walk from each of its children passes. -/
def walk (e : Element) : List Element :=
  e :: e.childElements.attach.flatMap fun child => walk child.1
termination_by sizeOf e.children
decreasing_by exact sizeOf_lt_of_mem_childElements child.2

theorem walk_eq (e : Element) : e.walk = e :: e.childElements.flatMap walk := by
  rw [walk]
  simp

/-- The element that a node is as a child. -/
def child? (e : Element) : Node → Option Element
  | .element tag span children => some (e.enter tag span children)
  | .text .. => none

theorem childElements_eq (e : Element) : e.childElements = e.children.filterMap e.child? := by
  unfold childElements
  refine congrArg (List.filterMap · e.children) (funext fun node => ?_)
  cases node <;> rfl

end Element

mutual

/-- The elements of a node are what a walk from it passes. -/
theorem Node.elements_eq_walk (e : Element) :
    ∀ node : Node,
      node.elements (e.toContent :: e.around) = (e.child? node).toList.flatMap Element.walk
  | .element tag span children => by
      let child := e.enter tag span children
      have hinner := elementsOfAll_eq_walk child children
      rw [Node.elements, Element.child?, Option.toList_some, List.flatMap_singleton,
        Element.walk_eq, Element.childElements_eq]
      exact congrArg (child :: ·) hinner
  | .text .. => by
      rw [Node.elements]
      rfl

theorem elementsOfAll_eq_walk (e : Element) :
    ∀ nodes, elementsOfAll (e.toContent :: e.around) nodes
      = (nodes.filterMap e.child?).flatMap Element.walk
  | [] => by
      rw [elementsOfAll]
      rfl
  | node :: more => by
      rw [elementsOfAll, Node.elements_eq_walk e node, elementsOfAll_eq_walk e more,
        List.filterMap_cons]
      cases e.child? node with
      | none => rfl
      | some child =>
          rw [Option.toList_some, List.flatMap_singleton]
          rfl

end

/-- The elements of a document are what a walk from the outermost passes. -/
theorem Document.elements_eq_walk (d : Document) : d.elements = d.root.walk := by
  unfold Document.elements
  rw [Node.elements, Element.walk_eq, Element.childElements_eq]
  exact congrArg (d.root :: ·) (elementsOfAll_eq_walk d.root d.children)

end ResourceLint.Xml

namespace ResourceLint.Visitor

open Xml

-- ==================================================================== visits

/-- The element that a detector is called for. -/
def elementCall? : Nat × Call → Option (Nat × Element)
  | (who, .element _ e) => some (who, e)
  | _ => none

/-- The calls for elements among others, with the elements. -/
def elementCalls (made : List (Nat × Call)) : List (Nat × Element) := made.filterMap elementCall?

theorem elementCalls_append (a b : List (Nat × Call)) :
    elementCalls (a ++ b) = elementCalls a ++ elementCalls b := List.filterMap_append

variable {v : Visitor} {d : Document}

theorem elementCalls_map_element (places : List Nat) (e : Element) :
    elementCalls (places.map (·, .element d e)) = places.map (·, e) := by
  unfold elementCalls
  rw [List.filterMap_map]
  exact congrFun List.filterMap_eq_map places

theorem elementCalls_map_of_ne (places : List Nat) {call : Call}
    (h : ∀ doc e, call ≠ .element doc e) : elementCalls (places.map (·, call)) = [] := by
  unfold elementCalls
  rw [List.filterMap_map]
  refine List.filterMap_eq_nil_iff.mpr fun who _ => ?_
  cases call with
  | element doc e => exact absurd rfl (h doc e)
  | _ => rfl

theorem elementCalls_attributeCalls (e : Element) : elementCalls (v.attributeCalls d e) = [] := by
  rw [attributeCalls_eq]
  induction e.attributes with
  | nil => rfl
  | cons a more ih =>
      rw [List.flatMap_cons, elementCalls_append, ih, elementCalls_map_of_ne _ (by simp)]
      rfl

/-- The detectors that want an element, each with the element. -/
def sightings (v : Visitor) (e : Element) : List (Nat × Element) := (v.forElement e).map (·, e)

mutual

theorem elementCalls_nodeCalls (around : List Content) :
    ∀ node, elementCalls (v.nodeCalls d around node) = (node.elements around).flatMap v.sightings
  | .element tag span children => by
      rw [nodeCalls, Node.elements, List.flatMap_cons,
        ← elementCalls_nodesCalls (⟨tag, span, children⟩ :: around) children]
      simp only [elementCalls_append, elementCalls_map_element, elementCalls_attributeCalls]
      rw [elementCalls_map_of_ne _ (by simp), List.append_nil, List.append_nil]
      rfl
  | .text .. => by
      rw [nodeCalls, Node.elements]
      rfl

theorem elementCalls_nodesCalls (around : List Content) :
    ∀ nodes, elementCalls (v.nodesCalls d around nodes)
      = (elementsOfAll around nodes).flatMap v.sightings
  | [] => by
      rw [nodesCalls, elementsOfAll]
      rfl
  | node :: more => by
      rw [nodesCalls, elementsOfAll, List.flatMap_append, elementCalls_append,
        elementCalls_nodeCalls around node, elementCalls_nodesCalls around more]

end

/-- A visitor meets the elements in document order. -/
theorem elementCalls_calls (v : Visitor) (d : Document) :
    elementCalls (v.calls d) = d.elements.flatMap v.sightings := by
  rw [calls_eq]
  simp only [elementCalls_append]
  rw [elementCalls_map_of_ne _ (by simp), elementCalls_map_of_ne _ (by simp),
    elementCalls_map_of_ne _ (by simp), elementCalls_nodeCalls]
  exact List.append_nil _

end ResourceLint.Visitor
