/-
What a detector sees of a document, whoever else looks at it.

`Detector.seen` says it without a visitor: the file, the document if nothing in
it is asked for, and then the elements in the order a walk comes to them, each
between the two calls for it if its name is declared, with the attributes that
are declared.  Of a visitor with many candidates, each candidate sees just this.
A place that is listed more than once among the candidates gets each call that
many times, and whoever is not listed, or does not want files of the kind, gets
none.
-/
import ResourceLint.Proofs.Dispatch
import ResourceLint.Proofs.Layout

namespace ResourceLint

open Xml (Document Element Node Content)

-- ================================================================= interests

namespace Interest

/-- Whether an interest asks for a name. -/
def declares : Interest → String → Bool
  | .nothing, _ => false
  | .all, _ => true
  | .names listed, name => listed.contains name

/-- Whether an interest lists no name twice. -/
def IsPlain : Interest → Prop
  | .names listed => listed.Nodup
  | .nothing | .all => True

/-- What is listed once is asked for once. -/
theorem IsPlain.times_eq {interest : Interest} (h : interest.IsPlain) (name : String) :
    interest.times name = if interest.declares name then 1 else 0 := by
  cases interest with
  | nothing => rfl
  | all => rfl
  | names listed =>
      have hcount : listed.count name = if name ∈ listed then 1 else 0 := List.Nodup.count h
      simpa [times, declares] using hcount

end Interest

-- ==================================================================== sights

namespace Detector

/-- The attributes of an element that a detector sees. -/
def seenAttributes (d : Detector) (doc : Document) (e : Element) : List Call :=
  (e.attributes.filter fun a => d.attributes.declares a.localName).map (.attribute doc e)

mutual

/-- What a detector sees of a node: the element, its attributes, its children,
and the element again. -/
def seenNode (d : Detector) (doc : Document) (around : List Content) : Node → List Call
  | .element tag span children =>
    let e : Element := { tag, span, children, around }
    (if d.elements.declares e.name then [.element doc e] else [])
      ++ d.seenAttributes doc e
      ++ seenNodes d doc (⟨tag, span, children⟩ :: around) children
      ++ (if d.elements.declares e.name then [.elementEnd doc e] else [])
  | .text .. => []

def seenNodes (d : Detector) (doc : Document) (around : List Content) : List Node → List Call
  | [] => []
  | node :: more => seenNode d doc around node ++ seenNodes d doc around more

end

/-- What a detector sees of a document. -/
def seen (d : Detector) (doc : Document) : List Call :=
  [.beforeFile]
    ++ (if d.elements = .nothing ∧ d.attributes = .nothing then [.document doc] else [])
    ++ d.seenNode doc [] (.element doc.tag doc.span doc.children)
    ++ [.afterFile]

/-- Whether a detector lists no name twice. -/
def IsPlain (d : Detector) : Prop := d.elements.IsPlain ∧ d.attributes.IsPlain

variable {d : Detector}

theorem toldAttributes_eq (h : d.IsPlain) (doc : Document) (e : Element) :
    d.toldAttributes doc e = d.seenAttributes doc e := by
  unfold toldAttributes seenAttributes
  induction e.attributes with
  | nil => rfl
  | cons a more ih =>
      rw [List.flatMap_cons, ih, h.2.times_eq, List.filter_cons]
      by_cases hdeclared : d.attributes.declares a.localName
      · rw [if_pos hdeclared, if_pos hdeclared]
        rfl
      · rw [if_neg hdeclared, if_neg hdeclared]
        rfl

theorem replicate_times (h : d.IsPlain) (name : String) (call : Call) :
    List.replicate (d.elements.times name) call
      = if d.elements.declares name then [call] else [] := by
  rw [h.1.times_eq]
  by_cases hdeclared : d.elements.declares name
  · rw [if_pos hdeclared, if_pos hdeclared]
    rfl
  · rw [if_neg hdeclared, if_neg hdeclared]
    rfl

mutual

theorem toldNode_eq (h : d.IsPlain) (doc : Document) (around : List Content) :
    ∀ node, d.toldNode doc around node = d.seenNode doc around node
  | .text .. => by rw [toldNode, seenNode]
  | .element tag span children => by
      rw [toldNode, seenNode]
      simp only [replicate_times h, toldAttributes_eq h,
        toldNodes_eq h doc (⟨tag, span, children⟩ :: around) children]

theorem toldNodes_eq (h : d.IsPlain) (doc : Document) (around : List Content) :
    ∀ nodes, d.toldNodes doc around nodes = d.seenNodes doc around nodes
  | [] => by rw [toldNodes, seenNodes]
  | node :: more => by
      rw [toldNodes, seenNodes, toldNode_eq h doc around node, toldNodes_eq h doc around more]

end

/-- Where no name is listed twice, nothing is told twice. -/
theorem told_eq_seen (h : d.IsPlain) (doc : Document) : d.told doc = d.seen doc := by
  unfold told seen
  rw [toldNode_eq h]
  rfl

end Detector

namespace Visitor

-- ================================================================ candidates

/-- The detectors at some places of a list, with their places. -/
def seated (active : List ActiveDetector) (places : List Nat) : List (ActiveDetector × Nat) :=
  places.filterMap fun place => active[place]?.map (·, place)

variable {active : List ActiveDetector} {a : ActiveDetector} {w : Nat}

theorem seats_cons (b : ActiveDetector) (place : Nat) (candidates : List (ActiveDetector × Nat))
    (folder : Option FolderType) :
    seats ((b, place) :: candidates) folder
      = (if wants folder b.detector then [(b.detector, place)] else []) ++ seats candidates folder := by
  unfold seats
  rw [List.filter_cons]
  by_cases hwants : wants folder b.detector <;> simp [hwants]

/-- A candidate that wants files of a kind has a seat each time it is listed. -/
theorem filter_seats_seated (ha : active[w]? = some a) (places : List Nat)
    (folder : Option FolderType) :
    (seats (seated active places) folder).filter (·.2 == w)
      = List.replicate (if wants folder a.detector then places.count w else 0) (a.detector, w) := by
  induction places with
  | nil => cases wants folder a.detector <;> rfl
  | cons place places ih =>
      have hcons : seated active (place :: places)
          = (active[place]?.map (·, place)).toList ++ seated active places := by
        unfold seated
        rw [List.filterMap_cons]
        cases active[place]? <;> rfl
      rw [hcons]
      -- only the own place is seated for the candidate
      by_cases hplace : place = w
      · subst hplace
        rw [ha, Option.map_some, Option.toList_some, List.singleton_append, seats_cons,
          List.filter_append, ih, List.count_cons_self]
        by_cases hwants : wants folder a.detector
        · simp [hwants, List.replicate_succ]
        · simp [hwants]
      · rw [List.count_cons_of_ne hplace, ← ih]
        cases active[place]? with
        | none => rfl
        | some other =>
            rw [Option.map_some, Option.toList_some, List.singleton_append, seats_cons,
              List.filter_append]
            by_cases hwants : wants folder other.detector
            · simp [hwants, hplace]
            · simp [hwants]

/-- Each candidate that wants files of a kind sees of a document what it would
see alone, and nobody else sees anything. -/
theorem callsTo_calls_seated (ha : active[w]? = some a) (hplain : a.detector.IsPlain)
    (places : List Nat) (folder : Option FolderType) (doc : Document) :
    callsTo w ((Visitor.new (seated active places) folder).calls doc)
        = (if wants folder a.detector then a.detector.seen doc else []).flatMap
          (List.replicate (places.count w))
      ∧ (places.Nodup → w ∈ places →
        callsTo w ((Visitor.new (seated active places) folder).calls doc)
          = if wants folder a.detector then a.detector.seen doc else []) := by
  have hcalls : callsTo w ((Visitor.new (seated active places) folder).calls doc)
      = (if wants folder a.detector then a.detector.seen doc else []).flatMap
        (List.replicate (places.count w)) := by
    rw [callsTo_calls_of_seats (filter_seats_seated ha places folder),
      Detector.told_eq_seen hplain]
    by_cases hwants : wants folder a.detector
    · rw [if_pos hwants, if_pos hwants]
    · rw [if_neg hwants, if_neg hwants]
      exact List.flatMap_eq_nil_iff.mpr fun _ _ => rfl
  refine ⟨hcalls, fun hnodup hmem => ?_⟩
  rw [hcalls, List.Nodup.count hnodup, if_pos hmem]
  exact List.flatMap_singleton' _

/-- A detector with some interests, made for a run. -/
def watching (elements attributes : Interest) : ActiveDetector :=
  { name := "Watching", scope := .resourceFileOnly, issues := ["Watched"], memory := .blank
    detector := { Detector.silent "Watching" with elements, attributes } }

/-- A layout with a button. -/
def buttonLayout : Document :=
  .ofTree "<LinearLayout a='1'><Button b='2'/></LinearLayout>"
    { tag := ⟨"LinearLayout", none, [⟨"a", none, "a", none, "1"⟩]⟩
      span := default
      children := [.element ⟨"Button", none, [⟨"b", none, "b", none, "2"⟩]⟩ default []] }

/-- The second of two detectors, asked last and first, sees the elements that it
names and all attributes. -/
theorem callsTo_buttonLayout :
    (watching (.names ["Button", "TextView"]) .all).detector.IsPlain
      ∧ callsTo 1 ((Visitor.new (seated
          [watching .all .nothing, watching (.names ["Button", "TextView"]) .all] [1, 0])
          (some .layout)).calls buttonLayout)
        = (watching (.names ["Button", "TextView"]) .all).detector.seen buttonLayout
      ∧ ((watching (.names ["Button", "TextView"]) .all).detector.seen buttonLayout).length = 6 := by
  have hplain : (watching (.names ["Button", "TextView"]) .all).detector.IsPlain :=
    ⟨(by decide : ["Button", "TextView"].Nodup), trivial⟩
  exact ⟨hplain, (callsTo_calls_seated rfl hplain [1, 0] (some .layout) buttonLayout).2
    (by decide) (by decide), by decide +kernel⟩

end Visitor

end ResourceLint
