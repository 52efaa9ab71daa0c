/-
One element outside of all others.

How deep a piece stands is counted from the tags alone (`Lexeme.depthAfter`).
`outermost` keeps what stands in no element: of an outermost element its
first tag, and whatever lies before, between and behind such elements.  A
text that has a tree has one such tag, and everything else out there is idle
(`frames_of_tree`).

A builder passes through three phases, and there is a run lemma for each,
the later ones first.  When the outermost element is closed nothing but idle
pieces can be taken (`idle_of_closed`); while it is open the depth is the
number of open elements, so the pieces out there begin where it is closed
(`idle_of_inside`); and before it, the first piece that is not idle is its
tag (`framed_of_fresh`).  Where the outermost element begins is carried
through the second phase: it is where the last of the open elements does.
-/
import Mathlib.Data.List.TakeWhile
import ResourceLint.Proofs.Pieces
import ResourceLint.Proofs.Taking

namespace ResourceLint.Xml

-- ================================================================== depths

/-- How many elements are open after a piece, when so many were before. -/
def Lexeme.depthAfter (depth : Nat) : Lexeme → Nat
  | .tag content => if content.getLast? = some '/' then depth else depth + 1
  | .endTag _ => depth - 1
  | .text _ | .literal _ | .aside => depth

/-- The pieces that stand in no element, the first tags of the outermost
elements among them. -/
def outermost : Nat → List Placed → List Placed
  | _, [] => []
  | 0, p :: more => p :: outermost (p.lexeme.depthAfter 0) more
  | depth + 1, p :: more => outermost (p.lexeme.depthAfter (depth + 1)) more

/-- Comments and the like, and text or a literal section of blanks. -/
def Placed.IsIdle (p : Placed) : Prop :=
  p.lexeme = .aside ∨ ∃ content, p.lexeme.said? = some content ∧ content.all Text.isBlank

/-- Where an idle piece stands makes no difference to the depth. -/
theorem Placed.IsIdle.depthAfter {p : Placed} (h : p.IsIdle) (depth : Nat) :
    p.lexeme.depthAfter depth = depth := by
  rcases h with haside | ⟨content, hsaid, -⟩
  · rw [haside]
    rfl
  · cases hpiece : p.lexeme with
    | text _ | literal _ | aside => rfl
    | tag _ | endTag _ =>
        rw [hpiece] at hsaid
        cases hsaid

/-- Blank text is idle. -/
theorem isIdle_of_trimStart {p : Placed} {content : List Char}
    (hsaid : p.lexeme.said? = some content) (hblank : Text.trimStart content = []) : p.IsIdle :=
  Or.inr ⟨content, hsaid, List.all_eq_true.mpr (List.dropWhile_eq_nil_iff.mp hblank)⟩

variable {source : List Char} {b after : Builder} {piece : Placed} {pieces : List Placed}
  {root : Content}

-- =========================================================== the open elements

/-- Adding a node leaves as many elements open. -/
theorem length_grown (node : Node) (opened : List Open) :
    (grown node opened).length = opened.length := by
  cases opened <;> rfl

theorem Builder.length_settled : (b.settled source).length = b.opened.length := by
  unfold Builder.settled
  cases b.pending with
  | none => rfl
  | some run => exact length_grown _ _

/-- The depth is the number of open elements. -/
theorem Takes.length_opened (h : Takes source b piece after) :
    after.opened.length = piece.lexeme.depthAfter b.opened.length := by
  cases h with
  | aside h =>
      rw [h]
      rfl
  | blank h hopened hblank => rw [(isIdle_of_trimStart h hblank).depthAfter]
  | text h hopened =>
      cases hpiece : piece.lexeme with
      | text _ | literal _ | aside => rfl
      | tag _ | endTag _ =>
          rw [hpiece] at h
          cases h
  | tag h hslash hplace hread hcursor =>
      rw [h, Lexeme.depthAfter, if_neg hslash]
      exact congrArg (· + 1) Builder.length_settled
  | emptyTag h hplace hread hcursor =>
      rw [h, Lexeme.depthAfter, if_pos List.getLast?_concat]
      exact (length_grown _ _).trans Builder.length_settled
  | endTag h hopened hname hcursor =>
      have hlength := @Builder.length_settled source b
      rw [hopened, List.length_cons] at hlength
      rw [h]
      show (grown _ _).length = b.opened.length - 1
      rw [length_grown, ← hlength, Nat.add_sub_cancel]

/-- Where the outermost of the open elements begins. -/
def outset (opened : List Open) : Option Position := opened.getLast?.map (·.start)

/-- The outermost start stays where it is. -/
theorem outset_grown (node : Node) (opened : List Open) :
    outset (grown node opened) = outset opened := by
  cases opened with
  | nil => rfl
  | cons inner outer => cases outer <;> rfl

theorem Builder.outset_settled : outset (b.settled source) = outset b.opened := by
  unfold Builder.settled
  cases b.pending with
  | none => rfl
  | some run => exact outset_grown _ _

theorem outset_cons {o : Open} {opened : List Open} (h : opened ≠ []) :
    outset (o :: opened) = outset opened := by
  unfold outset
  rw [List.getLast?_cons_of_ne_nil h]

-- ================================================================= the phases

/-- Behind the outermost element everything is idle. -/
theorem idle_of_closed (h : TakesAll source b pieces after) (hopened : b.opened = [])
    (hroot : b.root = some root) :
    after.root = some root ∧ outermost 0 pieces = pieces ∧ ∀ p ∈ pieces, p.IsIdle := by
  induction h with
  | nil b => exact ⟨hroot, rfl, fun p hp => by cases hp⟩
  | @cons b between after piece pieces hstep hrest ih =>
      -- there is a root and nothing is open, so nothing else may be taken
      have hidle : between = b ∧ piece.IsIdle := by
        cases hstep with
        | aside h => exact ⟨rfl, Or.inl h⟩
        | blank h _ hblank => exact ⟨rfl, isIdle_of_trimStart h hblank⟩
        | text h hinside => exact absurd hopened hinside
        | tag h hslash hplace hread hcursor =>
            rcases hplace with hinside | hfirst
            · exact absurd hopened hinside
            · rw [hroot] at hfirst
              cases hfirst
        | emptyTag h hplace hread hcursor =>
            rcases hplace with hinside | hfirst
            · exact absurd hopened hinside
            · rw [hroot] at hfirst
              cases hfirst
        | endTag h hinner hname hcursor =>
            rw [Builder.settled_eq_nil_iff.mpr hopened] at hinner
            cases hinner
      obtain ⟨rfl, hpiece⟩ := hidle
      obtain ⟨hafter, hpieces, hmore⟩ := ih hopened hroot
      refine ⟨hafter, ?_, List.forall_mem_cons.mpr ⟨hpiece, hmore⟩⟩
      rw [outermost, hpiece.depthAfter, hpieces]

/-- What a step leads to inside of the outermost element: it is still open,
or it was closed. -/
theorem Takes.of_inside (h : Takes source b piece after) (hopened : b.opened ≠ [])
    (hroot : b.root = none) :
    (after.opened ≠ [] ∧ after.root = none ∧ outset after.opened = outset b.opened)
      ∨ (after.opened = [] ∧ ∃ root, after.root = some root
        ∧ some root.span.start = outset b.opened
        ∧ root.span.stop = Position.ofOffset source piece.stop) := by
  have hsettled : b.settled source ≠ [] := mt Builder.settled_eq_nil_iff.mp hopened
  cases h with
  | aside | text => exact Or.inl ⟨hopened, hroot, rfl⟩
  | blank h houtside => exact absurd houtside hopened
  | tag h hslash hplace hread hcursor =>
      refine Or.inl ⟨List.cons_ne_nil _ _, hroot, ?_⟩
      exact (outset_cons hsettled).trans Builder.outset_settled
  | emptyTag h hplace hread hcursor =>
      refine Or.inl ⟨mt grown_eq_nil_iff.mp hsettled, ?_, ?_⟩
      · exact (if_neg hsettled).trans hroot
      · exact (outset_grown _ _).trans Builder.outset_settled
  | @endTag name inner outer cursor h hinner hname hcursor =>
      have houtset := @Builder.outset_settled source b
      rw [hinner] at houtset
      -- the tag closes the outermost element, or one inside of it
      by_cases houter : outer = []
      · refine Or.inr ⟨grown_eq_nil_iff.mpr houter, _, if_pos houter, ?_, rfl⟩
        rw [← houtset, houter]
        rfl
      · refine Or.inl ⟨mt grown_eq_nil_iff.mp houter, ?_, ?_⟩
        · exact (if_neg houter).trans hroot
        · rw [outset_cons houter] at houtset
          exact (outset_grown _ _).trans houtset

/-- Inside of the outermost element nothing stands out there, up to the piece
that closes it; behind that everything is idle. -/
theorem idle_of_inside (h : TakesAll source b pieces after) (hopened : b.opened ≠ [])
    (hroot : b.root = none) (hafter : after.opened = []) (hlast : after.root = some root) :
    some root.span.start = outset b.opened
      ∧ ∃ inner close last, pieces = inner ++ close :: last
        ∧ root.span.stop = Position.ofOffset source close.stop
        ∧ outermost b.opened.length pieces = last ∧ ∀ p ∈ last, p.IsIdle := by
  induction h with
  | nil b => exact absurd hafter hopened
  | @cons b between after piece pieces hstep hrest ih =>
      -- inside of an element the level never starts at zero
      have hlevel : outermost b.opened.length (piece :: pieces)
          = outermost between.opened.length pieces := by
        rw [hstep.length_opened]
        cases hlength : b.opened.length with
        | zero => exact absurd (List.length_eq_zero_iff.mp hlength) hopened
        | succ depth => rfl
      rw [hlevel]
      rcases hstep.of_inside hopened hroot with ⟨hinside, hnone, hsame⟩ | ⟨hclosed, r, hr, hends⟩
      · obtain ⟨hstart, inner, close, last, rfl, hstop⟩ := ih hinside hnone hafter hlast
        exact ⟨hsame ▸ hstart, piece :: inner, close, last, rfl, hstop⟩
      · obtain ⟨hkept, hpieces, hidle⟩ := idle_of_closed hrest hclosed hr
        rw [hlast] at hkept
        cases hkept
        rw [hclosed]
        exact ⟨hends.1, [], piece, pieces, rfl, hends.2, hpieces, hidle⟩

/-- Pieces that are one element and idle ones around it: what stands in no
element are those and the first tag of the element. -/
structure Frames (pieces before element last : List Placed) (first close : Placed) : Prop where
  split : pieces = before ++ (element ++ last)
  head : element.head? = some first
  closes : element.getLast? = some close
  tag : ∃ content, first.lexeme = .tag content
  outermost : outermost 0 pieces = before ++ first :: last
  idle : ∀ p ∈ before ++ last, p.IsIdle

/-- One more idle piece before the element changes nothing. -/
theorem Frames.cons {before element last : List Placed} {first close : Placed}
    (h : Frames pieces before element last first close) (hpiece : piece.IsIdle) :
    Frames (piece :: pieces) (piece :: before) element last first close := by
  refine ⟨?_, h.head, h.closes, h.tag, ?_, ?_⟩
  · rw [h.split]
    rfl
  · rw [Xml.outermost, hpiece.depthAfter, h.outermost]
    rfl
  · rw [List.cons_append]
    exact List.forall_mem_cons.mpr ⟨hpiece, h.idle⟩

/-- A tag that stands in no element begins one with the pieces behind it that
stand in it. -/
theorem Frames.of_tag {rest last : List Placed} {close : Placed} {content : List Char}
    (h : piece.lexeme = .tag content) (hclose : (piece :: rest).getLast? = some close)
    (hinside : Xml.outermost (piece.lexeme.depthAfter 0) (rest ++ last) = last)
    (hidle : ∀ p ∈ last, p.IsIdle) :
    Frames (piece :: (rest ++ last)) [] (piece :: rest) last piece close where
  split := rfl
  head := rfl
  closes := hclose
  tag := ⟨content, h⟩
  outermost := congrArg (piece :: ·) hinside
  idle := hidle

/-- Pieces that are one element, whose span is that of the root, and idle ones
around it. -/
def Framed (source : List Char) (root : Content) (pieces : List Placed) : Prop :=
  ∃ before element last first close, Frames pieces before element last first close
    ∧ (∀ content, first.lexeme = .tag content →
      root.span.start = Position.ofOffset source (tagStart content first.stop))
    ∧ root.span.stop = Position.ofOffset source close.stop

/-- Something idle may stand before the root. -/
theorem Framed.cons (h : Framed source root pieces) (hpiece : piece.IsIdle) :
    Framed source root (piece :: pieces) := by
  obtain ⟨before, element, last, first, close, hframes, hspan⟩ := h
  exact ⟨piece :: before, element, last, first, close, hframes.cons hpiece, hspan⟩

/-- The root begins at the tag that stands in no element. -/
theorem Framed.of_tag {rest last : List Placed} {close : Placed} {content : List Char}
    (h : piece.lexeme = .tag content)
    (hframes : Frames pieces [] (piece :: rest) last piece close)
    (hstart : root.span.start = Position.ofOffset source (tagStart content piece.stop))
    (hstop : root.span.stop = Position.ofOffset source close.stop) :
    Framed source root pieces := by
  refine ⟨[], piece :: rest, last, piece, close, hframes, fun written hwritten => ?_, hstop⟩
  obtain rfl : content = written := by simpa [h] using hwritten
  exact hstart

/-- Before the outermost element everything is idle up to its tag. -/
theorem framed_of_fresh (h : TakesAll source b pieces after) (hopened : b.opened = [])
    (hroot : b.root = none) (hafter : after.opened = []) (hlast : after.root = some root) :
    Framed source root pieces := by
  induction h with
  | nil b =>
      rw [hroot] at hlast
      cases hlast
  | @cons b between after piece pieces hstep hrest ih =>
      have hsettled : b.settled source = [] := Builder.settled_eq_nil_iff.mpr hopened
      have hdepth := hstep.length_opened
      rw [hopened] at hdepth
      cases hstep with
      | aside h => exact (ih hopened hroot hafter hlast).cons (Or.inl h)
      | blank h _ hblank =>
          exact (ih hopened hroot hafter hlast).cons (isIdle_of_trimStart h hblank)
      | text h hinside => exact absurd hopened hinside
      | tag h hslash hplace hread hcursor =>
          obtain ⟨hstart, inner, close, last, hpieces, hstop, hbehind, hidle⟩ :=
            idle_of_inside hrest (List.cons_ne_nil _ _) hroot hafter hlast
          rw [hsettled] at hstart
          -- the frame goes from the tag to the piece that closes it
          rw [hdepth, hpieces, List.append_cons] at hbehind
          rw [hpieces, List.append_cons]
          refine .of_tag h (.of_tag h ?_ hbehind hidle) (Option.some.inj hstart) hstop
          rw [← List.cons_append, List.getLast?_concat]
      | @emptyTag content attributes cursor h hplace hread hcursor =>
          obtain ⟨hkept, hbehind, hidle⟩ :=
            idle_of_closed hrest (grown_eq_nil_iff.mpr hsettled) (if_pos hsettled)
          rw [hlast] at hkept
          cases hkept
          have hshut : piece.lexeme.depthAfter 0 = 0 := by
            rw [h, Lexeme.depthAfter, if_pos List.getLast?_concat]
          have hclose : (piece :: ([] : List Placed)).getLast? = some piece := rfl
          rw [← hshut] at hbehind
          exact .of_tag h (.of_tag h hclose hbehind hidle) rfl rfl
      | endTag h hinner hname hcursor =>
          rw [hsettled] at hinner
          cases hinner

-- ================================================================== documents

/-- Behind something without brackets, a text is one element with idle pieces
around it: the tag that begins it holds the first byte of its span, and the
piece that closes it ends with the span. -/
theorem frames_of_tree (h : tree source = .ok root) :
    ∃ junk input, source = junk ++ input ∧ junk.all (· != '<')
      ∧ (scan (Text.byteSize junk) input).fault = none
      ∧ ∃ before element last first close,
        Frames (scan (Text.byteSize junk) input).pieces before element last first close
          ∧ first.start ≤ root.span.start.offset ∧ root.span.start.offset < first.stop
          ∧ root.span.stop.offset = close.stop := by
  obtain ⟨junk, input, hsource, hjunk, hfault, b, htakes, hopened, hroot⟩ := takesAll_of_tree h
  obtain ⟨before, element, last, first, close, hframes, hstart, hend⟩ :=
    framed_of_fresh htakes rfl rfl hopened hroot
  refine ⟨junk, input, hsource, hjunk, hfault, before, element, last, first, close, hframes, ?_⟩
  -- pieces stand in a row, so their places are those in the whole text
  have hrow := inRow_scan (Text.byteSize junk) input
  have hmem : ∀ p ∈ element, p ∈ (scan (Text.byteSize junk) input).pieces := by
    intro p hp
    rw [hframes.split]
    exact List.mem_append_right before (List.mem_append_left last hp)
  obtain ⟨content, htag⟩ := hframes.tag
  obtain ⟨hstop, hsize⟩ := hrow.of_mem (hmem first (List.mem_of_mem_head? hframes.head))
  obtain ⟨hclose, -⟩ := hrow.of_mem (hmem close (List.mem_of_getLast? hframes.closes))
  have hbounds := tagStart_bounds (hsize content htag)
  have hall : Text.byteSize source = Text.byteSize junk + Text.byteSize input := by
    rw [hsource, Text.byteSize_append]
  rw [hstart content htag, hend, Position.offset_ofOffset_of_le (by omega),
    Position.offset_ofOffset_of_le (by omega)]
  exact ⟨hbounds.1, hbounds.2, rfl⟩

end ResourceLint.Xml
