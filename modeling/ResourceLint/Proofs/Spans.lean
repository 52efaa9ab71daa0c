/-
The stretches of the nodes lie in each other as the nodes do.

A node `Fits` between two bytes when it begins and ends there and what it
holds fits into its own stretch, side by side and in order.  This is kept by
every piece that a builder takes, in the form `Sits`: the nodes of each open
element fit behind its first byte, the next open element begins behind them,
and what is left of the text begins behind it all.  A run of text that no tag
has ended yet is no node, so the nodes end before it (`Builder.reached`).

The pieces give the bytes.  They are in a row (`inRow_scan`), so everything a
piece adds begins and ends in its own stretch of the text.
-/
import ResourceLint.Proofs.Layout
import ResourceLint.Proofs.Pieces

namespace ResourceLint.Xml

open Position (Cursor)

variable {lo mid hi : Nat} {node : Node} {nodes more : List Node}

-- ================================================================= fitting

mutual

/-- The node lies between two bytes, and what it holds lies in it. -/
def Node.Fits (lo hi : Nat) : Node → Prop
  | .element _ span children =>
    lo ≤ span.start.offset ∧ FitAll span.start.offset span.stop.offset children
      ∧ span.stop.offset ≤ hi
  | .text _ span =>
    lo ≤ span.start.offset ∧ span.start.offset ≤ span.stop.offset ∧ span.stop.offset ≤ hi

/-- The nodes lie between two bytes, one behind the other. -/
def FitAll (lo hi : Nat) : List Node → Prop
  | [] => lo ≤ hi
  | node :: more => node.Fits lo node.span.stop.offset ∧ FitAll node.span.stop.offset hi more

end

mutual

/-- A node that fits begins and ends within the bounds. -/
theorem Node.Fits.bounds :
    ∀ {node : Node} {lo hi : Nat}, node.Fits lo hi →
      lo ≤ node.span.start.offset ∧ node.span.start.offset ≤ node.span.stop.offset
        ∧ node.span.stop.offset ≤ hi
  | .element _ _ children, _, _, h => by
      rw [Node.Fits] at h
      exact ⟨h.1, FitAll.le h.2.1, h.2.2⟩
  | .text .., _, _, h => by
      rw [Node.Fits] at h
      exact h

/-- Nodes that fit leave the bounds in order. -/
theorem FitAll.le : ∀ {nodes : List Node} {lo hi : Nat}, FitAll lo hi nodes → lo ≤ hi
  | [], _, _, h => by
      rw [FitAll] at h
      exact h
  | node :: more, _, _, h => by
      rw [FitAll] at h
      have hnode := h.1.bounds
      have hmore := FitAll.le h.2
      omega

end

/-- What a node holds lies in the node. -/
theorem Node.Fits.inner (h : node.Fits lo hi) :
    FitAll node.span.start.offset node.span.stop.offset node.inner := by
  cases node with
  | element tag span children =>
      rw [Node.Fits] at h
      exact h.2.1
  | text content span =>
      rw [Node.Fits] at h
      show FitAll _ _ []
      rw [FitAll]
      exact h.2.1

theorem Node.Fits.mono (h : node.Fits mid hi) (hlo : lo ≤ mid) {hi' : Nat} (hhi : hi ≤ hi') :
    node.Fits lo hi' := by
  cases node with
  | element tag span children =>
      rw [Node.Fits] at h ⊢
      exact ⟨Nat.le_trans hlo h.1, h.2.1, Nat.le_trans h.2.2 hhi⟩
  | text content span =>
      rw [Node.Fits] at h ⊢
      exact ⟨Nat.le_trans hlo h.1, h.2.1, Nat.le_trans h.2.2 hhi⟩

/-- A node fits up to its own last byte, wherever it fits at all. -/
theorem Node.Fits.snug (h : node.Fits lo hi) : node.Fits lo node.span.stop.offset := by
  cases node with
  | element tag span children =>
      rw [Node.Fits] at h ⊢
      exact ⟨h.1, h.2.1, Nat.le_refl _⟩
  | text content span =>
      rw [Node.Fits] at h ⊢
      exact ⟨h.1, h.2.1, Nat.le_refl _⟩

theorem FitAll.mono (h : FitAll lo hi nodes) {hi' : Nat} (hhi : hi ≤ hi') :
    FitAll lo hi' nodes := by
  induction nodes generalizing lo with
  | nil =>
      rw [FitAll] at h ⊢
      exact Nat.le_trans h hhi
  | cons node more ih =>
      rw [FitAll] at h ⊢
      exact ⟨h.1, ih h.2⟩

/-- Another node fits behind those that fit. -/
theorem FitAll.concat (h : FitAll lo mid nodes) (hnode : node.Fits mid hi) :
    FitAll lo hi (nodes ++ [node]) := by
  induction nodes generalizing lo with
  | nil =>
      rw [FitAll] at h
      rw [List.nil_append, FitAll, FitAll]
      exact ⟨hnode.snug.mono h (Nat.le_refl _), hnode.bounds.2.2⟩
  | cons first more ih =>
      rw [FitAll] at h
      rw [List.cons_append, FitAll]
      exact ⟨h.1, ih h.2⟩

theorem FitAll.of_mem (h : FitAll lo hi nodes) (hnode : node ∈ nodes) : node.Fits lo hi := by
  induction nodes generalizing lo with
  | nil => cases hnode
  | cons first more ih =>
      rw [FitAll] at h
      have hfirst := h.1.bounds
      rcases List.mem_cons.mp hnode with rfl | hmore
      · exact h.1.mono (Nat.le_refl _) h.2.le
      · exact (ih h.2 hmore).mono (Nat.le_trans hfirst.1 hfirst.2.1) (Nat.le_refl _)

/-- Each of the nodes ends before the next ones begin. -/
theorem FitAll.pairwise (h : FitAll lo hi nodes) :
    nodes.Pairwise fun a b => a.span.stop.offset ≤ b.span.start.offset := by
  induction nodes generalizing lo with
  | nil => exact List.Pairwise.nil
  | cons first more ih =>
      rw [FitAll] at h
      exact List.pairwise_cons.mpr ⟨fun b hb => (h.2.of_mem hb).bounds.1, ih h.2⟩

-- ======================================================= elements that are open

/-- The nodes of each open element fit behind its first byte, and there the
next open element begins; the innermost reaches to `hi` at most. -/
def Seated (hi : Nat) : List Open → Prop
  | [] => True
  | inner :: outer =>
    FitAll inner.start.offset hi inner.children.reverse ∧ Seated inner.start.offset outer

variable {inner : Open} {opened outer : List Open}

/-- Open elements stay seated further on. -/
theorem Seated.mono (h : Seated mid opened) (hle : mid ≤ hi) : Seated hi opened := by
  cases opened with
  | nil => trivial
  | cons inner outer => exact ⟨h.1.mono hle, h.2⟩

/-- A node is added to the innermost element. -/
theorem Seated.grown (h : Seated mid opened) (hnode : node.Fits mid hi) :
    Seated hi (grown node opened) := by
  cases opened with
  | nil => trivial
  | cons inner outer =>
      refine ⟨?_, h.2⟩
      show FitAll _ _ (node :: inner.children).reverse
      rw [List.reverse_cons]
      exact h.1.concat hnode

/-- An element is opened behind what is there. -/
theorem Seated.ofTag (h : Seated lo opened) {source content : List Char}
    {attributes : List (String × String)} {offset : Nat} (hlo : lo ≤ offset) (hhi : offset ≤ hi)
    (hsize : offset ≤ Text.byteSize source) :
    Seated hi (Open.ofTag source opened content attributes offset :: opened) := by
  have hstart := Position.offset_ofOffset_of_le hsize
  refine ⟨?_, ?_⟩
  · show FitAll (Position.ofOffset source offset).offset hi []
    rw [FitAll, hstart]
    exact hhi
  · show Seated (Position.ofOffset source offset).offset opened
    rw [hstart]
    exact h.mono hlo

/-- An element that is closed fits where it was open. -/
theorem Seated.shut (h : Seated hi (inner :: outer)) {stop : Position} (hstop : stop.offset = hi) :
    (inner.shut stop).node.Fits inner.start.offset hi := by
  show Node.Fits _ _ (.element _ _ _)
  rw [Node.Fits]
  refine ⟨Nat.le_refl _, ?_, Nat.le_of_eq hstop⟩
  show FitAll inner.start.offset stop.offset inner.children.reverse
  rw [hstop]
  exact h.1

-- ================================================================ the builder

/-- The byte that the nodes end before, when the pieces so far end at
`at'`. -/
def Builder.reached (at' : Nat) (b : Builder) : Nat :=
  match b.pending with
  | none => at'
  | some run => run.start

/-- A tree that is being built of the text before the byte `at'`. -/
structure Sits (source : List Char) (at' : Nat) (b : Builder) : Prop where
  opened : Seated (b.reached at') b.opened
  run : ∀ run, b.pending = some run → run.start ≤ run.stop ∧ run.stop ≤ at'
  root : ∀ root, b.root = some root → root.node.Fits 0 (Text.byteSize source)

variable {source : List Char} {b after : Builder} {piece : Placed} {pieces : List Placed}
  {at' : Nat}

theorem Sits.mono (h : Sits source at' b) (hle : at' ≤ hi) : Sits source hi b := by
  refine ⟨?_, fun run hrun => ?_, h.root⟩
  · refine h.opened.mono ?_
    unfold Builder.reached
    cases b.pending with
    | none => exact hle
    | some run => exact Nat.le_refl _
  · have hends := h.run run hrun
    omega

/-- The run of text becomes a node that ends where the pieces do. -/
theorem Sits.settled (h : Sits source at' b) (hat : at' ≤ Text.byteSize source) :
    Seated at' (b.settled source) := by
  have hopened := h.opened
  unfold Builder.reached at hopened
  unfold Builder.settled
  cases hpending : b.pending with
  | none =>
      rw [hpending] at hopened
      exact hopened
  | some run =>
      rw [hpending] at hopened
      obtain ⟨hle, hstop⟩ := h.run run hpending
      refine hopened.grown ?_
      unfold Pending.node
      rw [Node.Fits, Position.offset_ofOffset_of_le (by omega),
        Position.offset_ofOffset_of_le (by omega)]
      exact ⟨Nat.le_refl _, hle, hstop⟩

/-- An element that is closed fits into the text, and into what is around it. -/
theorem Sits.closed (h : Sits source at' b) {stop : Nat} (hseated : Seated stop (inner :: outer))
    (hstop : stop ≤ Text.byteSize source) {cursor : Cursor} :
    Sits source stop (b.closed (inner.shut (Position.ofOffset source stop)) outer cursor) := by
  have hnode := hseated.shut (Position.offset_ofOffset_of_le hstop)
  refine ⟨hseated.2.grown hnode, fun run hrun => (by cases hrun), fun root hroot => ?_⟩
  unfold Builder.closed at hroot
  by_cases houter : outer = []
  · rw [if_pos houter] at hroot
    cases hroot
    exact hnode.mono (Nat.zero_le _) hstop
  · rw [if_neg houter] at hroot
    exact h.root root hroot

/-- Text that waits adds no node, and it waits from where its run began. -/
theorem Sits.running (h : Sits source at' b) {stop : Nat} (hle : at' ≤ stop)
    (content : List Char) :
    Sits source stop { b with pending := some (b.running content at' stop) } := by
  have hopened := h.opened
  unfold Builder.reached at hopened
  unfold Builder.running
  cases hpending : b.pending with
  | none =>
      rw [hpending] at hopened
      refine ⟨hopened, fun run hrun => ?_, h.root⟩
      cases hrun
      exact ⟨hle, Nat.le_refl _⟩
  | some run =>
      rw [hpending] at hopened
      obtain ⟨hbegins, hends⟩ := h.run run hpending
      refine ⟨hopened, fun longer hlonger => ?_, h.root⟩
      cases hlonger
      exact ⟨Nat.le_trans hbegins (Nat.le_trans hends hle), Nat.le_refl _⟩

/-- What a builder makes of a piece lies in the piece. -/
theorem Sits.takes (h : Sits source piece.start b) (hle : piece.start ≤ piece.stop)
    (htag : ∀ content, piece.lexeme = .tag content →
      piece.stop = piece.start + Text.byteSize content + 2)
    (hsize : piece.stop ≤ Text.byteSize source) (htakes : Takes source b piece after) :
    Sits source piece.stop after := by
  have hsettled := h.settled (by omega)
  cases htakes with
  | aside | blank => exact h.mono hle
  | text hsaid hopened => exact h.running hle _
  | @tag content attributes cursor hpiece hslash hplace hread hcursor =>
      have hbounds := tagStart_bounds (htag content hpiece)
      refine ⟨?_, fun run hrun => (by cases hrun), h.root⟩
      show Seated piece.stop _
      exact hsettled.ofTag hbounds.1 (by omega) (by omega)
  | @emptyTag content attributes cursor hpiece hplace hread hcursor =>
      -- the element is opened and closed in one piece
      have hbounds := tagStart_bounds (htag _ hpiece)
      exact h.closed (hsettled.ofTag hbounds.1 (by omega) (by omega)) hsize
  | @endTag name inner outer cursor hpiece hopened hname hcursor =>
      exact h.closed ((hopened ▸ hsettled).mono hle) hsize

/-- So it is with all the pieces of a text. -/
theorem Sits.takesAll (h : Sits source at' b) (hrow : InRow at' hi pieces)
    (hsize : hi ≤ Text.byteSize source) (htakes : TakesAll source b pieces after) :
    Sits source hi after := by
  induction htakes generalizing at' with
  | nil => exact h.mono hrow
  | cons hstep hrest ih =>
      obtain ⟨rfl, hle, htag, hmore⟩ := hrow
      have hend := hmore.le
      exact ih (h.takes hle htag (by omega) hstep) hmore

/-- The tree of a text fits into the text. -/
theorem fits_of_tree {root : Content} (h : tree source = .ok root) :
    root.node.Fits 0 (Text.byteSize source) := by
  obtain ⟨junk, input, hsource, -, -, b, htakes, -, hroot⟩ := takesAll_of_tree h
  have hstart : Sits source (Text.byteSize junk) (Builder.start source) :=
    ⟨trivial, fun run hrun => (by cases hrun), fun root hroot => by cases hroot⟩
  have hsize : Text.byteSize junk + Text.byteSize input ≤ Text.byteSize source :=
    Nat.le_of_eq (by rw [hsource, Text.byteSize_append])
  exact (hstart.takesAll (inRow_scan _ _) hsize htakes).root root hroot

end ResourceLint.Xml
