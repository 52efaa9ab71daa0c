/-
Where the nodes of a tree lie in a store.

A tree is laid out in document order, a node before what it holds, so the
number of a node is told by the sizes of the nodes before it (`numbersOf`).
The elements that are open while a text is read are laid out in the same way;
they have no end yet, and each lists the next one behind the nodes that it has
so far (`laidOpen`).

What a reader does to its store is then a step from one layout to the next.
An element is opened behind everything (`laidOpen_open`), a node that is
finished goes to the innermost open element (`laidOpen_grown`), and an open
element with an end is a node like others (`laidOpen_shut`).

The tree that the numbers of a store describe is the one that was laid out
(`Arena.root?_ofTree`): an induction over a node and over nodes side by side at
once, for every place in a store that holds their entries (`Holds`).
-/
import ResourceLint.Proofs.Taking

namespace ResourceLint.Xml

namespace Node

/-- What a node is, apart from what it holds. -/
def kind : Node → NodeKind
  | .element tag _ _ => .element tag
  | .text content _ => .text content

/-- The stretch of text that a node takes. -/
def span : Node → Span
  | .element _ span _ => span
  | .text _ span => span

/-- The nodes that a node holds. -/
def inner : Node → List Node
  | .element _ _ children => children
  | .text .. => []

end Node

-- ================================================================= numbers

mutual

/-- How many nodes a node is, its own included. -/
def Node.size : Node → Nat
  | .element _ _ children => 1 + sizeOfAll children
  | .text .. => 1

def sizeOfAll : List Node → Nat
  | [] => 0
  | node :: more => node.size + sizeOfAll more

end

/-- A node takes one place for itself and those of its children. -/
theorem Node.size_eq (node : Node) : node.size = 1 + sizeOfAll node.inner := by
  cases node <;> rw [Node.size] <;> rfl

theorem Node.size_pos (node : Node) : 0 < node.size := by
  rw [node.size_eq]
  omega

/-- One more node takes its own places. -/
theorem sizeOfAll_concat (nodes : List Node) (node : Node) :
    sizeOfAll (nodes ++ [node]) = sizeOfAll nodes + node.size := by
  induction nodes with
  | nil => rw [List.nil_append, sizeOfAll, sizeOfAll, Nat.add_comm, sizeOfAll]
  | cons first more ih => rw [List.cons_append, sizeOfAll, ih, sizeOfAll, Nat.add_assoc]

/-- The numbers of nodes side by side, the first of them given. -/
def numbersOf (first : Nat) : List Node → List Nat
  | [] => []
  | node :: more => first :: numbersOf (first + node.size) more

/-- One more node has the number behind all that came before. -/
theorem numbersOf_concat (first : Nat) (nodes : List Node) (node : Node) :
    numbersOf first (nodes ++ [node]) = numbersOf first nodes ++ [first + sizeOfAll nodes] := by
  induction nodes generalizing first with
  | nil => rfl
  | cons head more ih =>
      rw [List.cons_append, numbersOf, ih, numbersOf, sizeOfAll, Nat.add_assoc]
      rfl

/-- Numbers are given upwards from the first. -/
theorem le_of_mem_numbersOf {first k : Nat} {nodes : List Node} (h : k ∈ numbersOf first nodes) :
    first ≤ k := by
  induction nodes generalizing first with
  | nil => cases h
  | cons node more ih =>
      rw [numbersOf] at h
      rcases List.mem_cons.mp h with rfl | h
      · exact Nat.le_refl _
      · have hrest := ih h
        omega

/-- Numbers of nodes side by side ascend. -/
theorem pairwise_numbersOf (first : Nat) (nodes : List Node) :
    (numbersOf first nodes).Pairwise (· < ·) := by
  induction nodes generalizing first with
  | nil => exact List.Pairwise.nil
  | cons node more ih =>
      rw [numbersOf]
      refine List.pairwise_cons.mpr ⟨fun k hk => ?_, ih _⟩
      have hlater := le_of_mem_numbersOf hk
      have hsize := node.size_pos
      omega

-- ================================================================= entries

/-- The entry of a node under a number. -/
def Node.entry (parent : Option Nat) (number : Nat) (node : Node) : Entry :=
  { node := node.kind, parent, children := numbersOf (number + 1) node.inner
    start := node.span.start, stop? := some node.span.stop }

mutual

/-- The entries of a node and of what it holds. -/
def Node.laid (parent : Option Nat) (number : Nat) : Node → List Entry
  | .element tag span children =>
    (Node.element tag span children).entry parent number :: laidAll number (number + 1) children
  | .text content span => [(Node.text content span).entry parent number]

/-- The entries of nodes side by side, the number of the first given. -/
def laidAll (parent first : Nat) : List Node → List Entry
  | [] => []
  | node :: more => node.laid (some parent) first ++ laidAll parent (first + node.size) more

end

/-- A node is laid out before its children. -/
theorem Node.laid_eq (parent : Option Nat) (number : Nat) (node : Node) :
    node.laid parent number = node.entry parent number :: laidAll number (number + 1) node.inner := by
  cases node <;> rw [Node.laid] <;> rfl

mutual

/-- As many entries are laid out as the node takes places. -/
theorem Node.length_laid (parent : Option Nat) (number : Nat) :
    ∀ node : Node, (node.laid parent number).length = node.size
  | .element tag span children => by
      rw [Node.laid, Node.size, List.length_cons, length_laidAll number (number + 1) children]
      omega
  | .text .. => by
      rw [Node.laid, Node.size]
      rfl

theorem length_laidAll (parent first : Nat) :
    ∀ nodes, (laidAll parent first nodes).length = sizeOfAll nodes
  | [] => by
      rw [laidAll, sizeOfAll]
      rfl
  | node :: more => by
      rw [laidAll, sizeOfAll, List.length_append, Node.length_laid (some parent) first node,
        length_laidAll parent (first + node.size) more]

end

/-- One more node is laid out behind the others. -/
theorem laidAll_concat (parent first : Nat) (nodes : List Node) (node : Node) :
    laidAll parent first (nodes ++ [node])
      = laidAll parent first nodes ++ node.laid (some parent) (first + sizeOfAll nodes) := by
  induction nodes generalizing first with
  | nil =>
      rw [List.nil_append, laidAll, laidAll, laidAll, sizeOfAll, List.append_nil]
      rfl
  | cons head more ih =>
      rw [List.cons_append, laidAll, ih, laidAll, sizeOfAll, List.append_assoc, Nat.add_assoc]

-- ============================================================ open elements

/-- How many nodes there are when these elements are open. -/
def extent : List Open → Nat
  | [] => 0
  | inner :: outer => extent outer + 1 + sizeOfAll inner.children.reverse

/-- The numbers of open elements, innermost first. -/
def openNumbers : List Open → List Nat
  | [] => []
  | _ :: outer => extent outer :: openNumbers outer

/-- The entry of an open element, which lists `more` behind its nodes. -/
def Open.entry (o : Open) (outer : List Open) (more : List Nat) : Entry :=
  { node := .element o.tag, parent := (openNumbers outer).head?
    children := numbersOf (extent outer + 1) o.children.reverse ++ more
    start := o.start, stop? := none }

/-- The entries of open elements with what these hold; the innermost lists
`more` behind its nodes. -/
def laidOpen (more : List Nat) : List Open → List Entry
  | [] => []
  | inner :: outer =>
    laidOpen [extent outer] outer
      ++ inner.entry outer more :: laidAll (extent outer) (extent outer + 1) inner.children.reverse

variable {inner : Open} {opened outer : List Open}

/-- The layout of what is open ends where the arena does. -/
theorem length_laidOpen (more : List Nat) (opened : List Open) :
    (laidOpen more opened).length = extent opened := by
  induction opened generalizing more with
  | nil => rfl
  | cons inner outer ih =>
      rw [laidOpen, extent, List.length_append, ih, List.length_cons, length_laidAll]
      omega

/-- The entry of the innermost element has its number. -/
theorem getElem?_laidOpen (more : List Nat) (inner : Open) (outer : List Open) :
    (laidOpen more (inner :: outer))[extent outer]? = some (inner.entry outer more) := by
  rw [laidOpen, List.getElem?_append_right (Nat.le_of_eq (length_laidOpen _ outer)),
    length_laidOpen, Nat.sub_self]
  rfl

/-- A change at the number of the innermost element is one of its entry. -/
theorem modify_laidOpen (change : Entry → Entry) (inner : Open) (outer : List Open)
    (behind : List Entry) :
    (laidOpen [] (inner :: outer) ++ behind).modify (extent outer) change
      = laidOpen [extent outer] outer
        ++ change (inner.entry outer [])
          :: (laidAll (extent outer) (extent outer + 1) inner.children.reverse ++ behind) := by
  have hplace := List.modifyTailIdx_add (List.modifyHead change) 0
    (laidOpen [extent outer] outer) (inner.entry outer []
      :: (laidAll (extent outer) (extent outer + 1) inner.children.reverse ++ behind))
  rw [length_laidOpen] at hplace
  rw [laidOpen, List.append_assoc]
  exact hplace

/-- The innermost element lists one more node, which lies behind it. -/
theorem link_laidOpen (number : Nat) (inner : Open) (outer : List Open) (behind : List Entry) :
    (laidOpen [] (inner :: outer) ++ behind).modify (extent outer) (·.link number)
      = laidOpen [number] (inner :: outer) ++ behind := by
  have hlink : (inner.entry outer []).link number = inner.entry outer [number] := by
    unfold Open.entry Entry.link
    rw [List.append_nil]
  rw [modify_laidOpen, hlink, laidOpen, List.append_assoc]
  rfl

/-- An element that was just opened lies behind everything else. -/
theorem laidOpen_open {o : Open} (h : o.children = []) (opened : List Open) :
    laidOpen [] (o :: opened) = laidOpen [extent opened] opened ++ [o.entry opened []] := by
  rw [laidOpen, h, List.reverse_nil, laidAll]

/-- So does a node that the innermost element has now. -/
theorem laidOpen_grown (node : Node) (inner : Open) (outer : List Open) :
    laidOpen [] (grown node (inner :: outer))
      = laidOpen [extent (inner :: outer)] (inner :: outer)
        ++ node.laid (some (extent outer)) (extent (inner :: outer)) := by
  have hentry : (inner.add node).entry outer []
      = inner.entry outer [extent (inner :: outer)] := by
    unfold Open.entry Open.add
    rw [List.reverse_cons, numbersOf_concat, List.append_nil]
    rfl
  rw [grown, laidOpen, hentry, laidOpen, List.append_assoc]
  refine congrArg (laidOpen [extent outer] outer ++ inner.entry outer _ :: ·) ?_
  show laidAll _ _ (node :: inner.children).reverse = _
  rw [List.reverse_cons, laidAll_concat]
  rfl

/-- An open element that gets its end is a node. -/
theorem laidOpen_shut (stop : Position) (inner : Open) (outer : List Open) :
    (laidOpen [] (inner :: outer)).modify (extent outer) (·.ended stop)
      = laidOpen [extent outer] outer
        ++ (inner.shut stop).node.laid (openNumbers outer).head? (extent outer) := by
  have hentry : (inner.entry outer []).ended stop
      = (inner.shut stop).node.entry (openNumbers outer).head? (extent outer) := by
    unfold Open.entry Entry.ended
    rw [List.append_nil]
    rfl
  rw [← List.append_nil (laidOpen [] (inner :: outer)), modify_laidOpen, hentry, List.append_nil,
    Node.laid_eq]
  rfl

-- ========================================================= finished stores

/-- From a place on, these are the entries. -/
def Holds (entries : List Entry) (first : Nat) (part : List Entry) : Prop :=
  part <+: entries.drop first

variable {entries part more : List Entry} {entry : Entry} {first : Nat}

/-- The first of the entries stands at their place. -/
theorem Holds.head (h : Holds entries first (entry :: more)) : entries[first]? = some entry := by
  obtain ⟨rest, hrest⟩ := h
  rw [← Nat.add_zero first, ← List.getElem?_drop, ← hrest]
  rfl

/-- An arena that holds entries holds the first of them, -/
theorem Holds.left (h : Holds entries first (part ++ more)) : Holds entries first part :=
  (List.prefix_append part more).trans h

theorem Holds.right (h : Holds entries first (part ++ more)) :
    Holds entries (first + part.length) more := by
  obtain ⟨rest, hrest⟩ := h
  refine ⟨rest, ?_⟩
  rw [← List.drop_drop, ← hrest, List.append_assoc, List.drop_left]

theorem Holds.tail (h : Holds entries first (entry :: more)) : Holds entries (first + 1) more :=
  @Holds.right entries [entry] more first h

/-- The nodes side by side lie one behind the other. -/
theorem Holds.cons_laidAll {parent : Nat} {node : Node} {nodes : List Node}
    (h : Holds entries first (laidAll parent first (node :: nodes))) :
    Holds entries first (node.laid (some parent) first)
      ∧ Holds entries (first + node.size) (laidAll parent (first + node.size) nodes) := by
  rw [laidAll] at h
  refine ⟨h.left, ?_⟩
  have hright := h.right
  rw [Node.length_laid] at hright
  exact hright

namespace Arena

/-- The store in which an element is laid out, with all that it holds. -/
def ofTree (root : Content) : Arena := ⟨(root.node.laid none 0).toArray, some 0⟩

variable {a : Arena}

mutual

/-- What a number describes is the node that lies there. -/
theorem node?_of_holds (parent : Option Nat) (number : Nat) :
    ∀ (node : Node) (depth : Nat), Holds a.entries.toList number (node.laid parent number) →
      node.size ≤ depth → a.node? depth number = some node
  | node, 0, _, hsize => absurd hsize (Nat.not_le.mpr node.size_pos)
  | .element tag span children, depth + 1, h, hsize => by
      rw [Node.laid] at h
      have hentry := h.head
      rw [Array.getElem?_toList] at hentry
      rw [Node.size] at hsize
      have hinner := filterMap_node?_of_holds number (number + 1) children depth h.tail (by omega)
      rw [node?, hentry]
      exact congrArg (fun inner => some (Node.element tag span inner)) hinner
  | .text content span, depth + 1, h, _ => by
      rw [Node.laid] at h
      have hentry := h.head
      rw [Array.getElem?_toList] at hentry
      rw [node?, hentry]
      rfl

/-- Nodes that are laid out are read back, given as much depth as they take
places. -/
theorem filterMap_node?_of_holds (parent first : Nat) :
    ∀ (nodes : List Node) (depth : Nat), Holds a.entries.toList first (laidAll parent first nodes) →
      sizeOfAll nodes ≤ depth → (numbersOf first nodes).filterMap (a.node? depth) = nodes
  | [], _, _, _ => rfl
  | node :: more, depth, h, hsize => by
      obtain ⟨hnode, hmore⟩ := h.cons_laidAll
      rw [sizeOfAll] at hsize
      rw [numbersOf, List.filterMap_cons_some
        (node?_of_holds (some parent) first node depth hnode (by omega)),
        filterMap_node?_of_holds parent (first + node.size) more depth hmore (by omega)]

end

/-- The arena of a tree is its layout. -/
theorem holds_ofTree (root : Content) :
    Holds (ofTree root).entries.toList 0 (root.node.laid none 0) := List.prefix_refl _

/-- An arena has one entry for each node of its tree. -/
theorem size_ofTree (root : Content) : (ofTree root).entries.size = root.node.size :=
  root.node.length_laid none 0

/-- The tree that was laid out is the one that the numbers describe. -/
theorem root?_ofTree (root : Content) : (ofTree root).root? = some root := by
  have hnode := node?_of_holds none 0 root.node (ofTree root).entries.size (holds_ofTree root)
    (Nat.le_of_eq (size_ofTree root).symm)
  have hroot : (ofTree root).root.bind ((ofTree root).node? (ofTree root).entries.size)
      = some root.node := hnode
  unfold root?
  rw [hroot]
  rfl

end Arena

/-- The document of a text that is this tree. -/
def Document.ofTree (source : String) (root : Content) : Document :=
  { source, arena := .ofTree root, content := root, root?_arena := Arena.root?_ofTree root }

end ResourceLint.Xml
