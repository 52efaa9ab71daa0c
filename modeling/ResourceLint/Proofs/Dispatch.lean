/-
What a detector is told about a document.

A visitor serves many detectors at once: it keeps tables from names to
those who asked for them and interleaves their calls.  `Detector.told` is
the same traversal for one detector alone, read off what it declares.  The
calls of a visitor, filtered to one of its detectors, are what that
detector is told (`callsTo_calls`); whoever is not among the candidates, or
does not want the folder, is told nothing (`callsTo_calls_of_not_wants`).

# Shortcuts

A visitor does not walk the tree where nobody asks for elements or attributes,
and does not look at attributes where nobody asks for these.  Neither skips a
call: an empty table has nobody to be called (`attributeCalls_eq`, `calls_eq`).

# Counting

A detector may list a name twice and is then called twice, so the tables
are compared by how often they hold a detector: `Interest.times` is what
one entry adds to a count (`count_interested_enter`), and a visitor's
counts are the sums over its seats (`count_forElement`,
`count_forAttribute`).  Where every seat has a place of its own, the sum
for a place is the one interest of the detector that sits there.
-/
import Mathlib.Algebra.Ring.Nat
import ResourceLint.Visitor

namespace ResourceLint

open Xml (Document Element Node Content)

-- ================================================= one detector's calls

/-- How often an interest asks for a name. -/
def Interest.times : Interest → String → Nat
  | .nothing, _ => 0
  | .all, _ => 1
  | .names listed, name => listed.count name

namespace Detector

/-- Whether a detector asks for the document and nothing in it. -/
def wantsDocument (d : Detector) : Prop := d.elements = .nothing ∧ d.attributes = .nothing

instance (d : Detector) : Decidable d.wantsDocument :=
  inferInstanceAs (Decidable (d.elements = .nothing ∧ d.attributes = .nothing))

/-- What a detector is told about the attributes of an element. -/
def toldAttributes (d : Detector) (doc : Document) (e : Element) : List Call :=
  e.attributes.flatMap fun a =>
    List.replicate (d.attributes.times a.localName) (.attribute doc e a)

mutual

/-- What a detector is told about a node and what is in it. -/
def toldNode (d : Detector) (doc : Document) (around : List Content) : Node → List Call
  | .element tag span children =>
    let e : Element := { tag, span, children, around }
    List.replicate (d.elements.times e.name) (.element doc e)
      ++ d.toldAttributes doc e
      ++ toldNodes d doc (⟨tag, span, children⟩ :: around) children
      ++ List.replicate (d.elements.times e.name) (.elementEnd doc e)
  | .text .. => []

def toldNodes (d : Detector) (doc : Document) (around : List Content) : List Node → List Call
  | [] => []
  | node :: more => toldNode d doc around node ++ toldNodes d doc around more

end

/-- What a detector is told about a document. -/
def told (d : Detector) (doc : Document) : List Call :=
  [.beforeFile]
    ++ (if d.wantsDocument then [.document doc] else [])
    ++ d.toldNode doc [] (.element doc.tag doc.span doc.children)
    ++ [.afterFile]

end Detector

namespace Visitor

-- ========================================================== the shortcuts

section Shortcuts

variable {v : Visitor} {doc : Document}

theorem interested_nil (name : String) : interested [] [] name = [] := rfl

/-- Where the tables of attributes are empty, an attribute is for nobody. -/
theorem forAttribute_eq_nil (h : v.readsAttributes = false) (a : Xml.Attribute) :
    v.forAttribute a = [] := by
  simp only [readsAttributes, Bool.or_eq_false_iff, Bool.not_eq_false', List.isEmpty_iff] at h
  rw [forAttribute, h.1, h.2, interested_nil]

/-- Where the tables of elements and of attributes are empty, an element is for
nobody. -/
theorem forElement_eq_nil (h : v.walksElements = false) (e : Element) : v.forElement e = [] := by
  simp only [walksElements, Bool.or_eq_false_iff, Bool.not_eq_false', List.isEmpty_iff] at h
  rw [forElement, h.1.1, h.1.2, interested_nil]

/-- Where nobody asks for attributes, the calls for them are none anyway. -/
theorem attributeCalls_eq (v : Visitor) (doc : Document) (e : Element) :
    v.attributeCalls doc e
      = e.attributes.flatMap fun a => (v.forAttribute a).map (·, .attribute doc e a) := by
  unfold attributeCalls
  cases h : v.readsAttributes with
  | true => rw [if_pos rfl]
  | false =>
      rw [if_neg Bool.false_ne_true]
      exact (List.flatMap_eq_nil_iff.mpr fun a _ => by rw [forAttribute_eq_nil h]; rfl).symm

mutual

/-- Where nobody asks for elements or attributes, a walk makes no calls. -/
theorem nodeCalls_eq_nil (h : v.walksElements = false) (around : List Content) :
    ∀ node, v.nodeCalls doc around node = []
  | .element tag span children => by
      have hattributes : v.readsAttributes = false := (Bool.or_eq_false_iff.mp h).2
      rw [nodeCalls, nodesCalls_eq_nil h (⟨tag, span, children⟩ :: around) children,
        attributeCalls, hattributes, forElement_eq_nil h]
      rfl
  | .text .. => by rw [nodeCalls]

theorem nodesCalls_eq_nil (h : v.walksElements = false) (around : List Content) :
    ∀ nodes, v.nodesCalls doc around nodes = []
  | [] => by rw [nodesCalls]
  | node :: more => by
      rw [nodesCalls, nodeCalls_eq_nil h around node, nodesCalls_eq_nil h around more]
      rfl

end

/-- The calls are those of a walk, whether there is one or not. -/
theorem calls_eq (v : Visitor) (doc : Document) :
    v.calls doc
      = v.all.map (·, .beforeFile)
        ++ v.documents.map (·, .document doc)
        ++ v.nodeCalls doc [] (.element doc.tag doc.span doc.children)
        ++ v.all.map (·, .afterFile) := by
  unfold calls
  cases h : v.walksElements with
  | true => rw [if_pos rfl]
  | false => rw [if_neg Bool.false_ne_true, nodeCalls_eq_nil h]

end Shortcuts

-- ============================================== the calls to one place

/-- The calls to the detector at a place. -/
def callsTo (w : Nat) (made : List (Nat × Call)) : List Call :=
  (made.filter (·.1 == w)).map (·.2)

@[simp] theorem callsTo_nil (w : Nat) : callsTo w [] = [] := rfl

@[simp] theorem callsTo_append (w : Nat) (a b : List (Nat × Call)) :
    callsTo w (a ++ b) = callsTo w a ++ callsTo w b := by
  unfold callsTo
  rw [List.filter_append, List.map_append]

/-- One call to several places reaches a place as often as it is listed. -/
theorem callsTo_map (w : Nat) (places : List Nat) (call : Call) :
    callsTo w (places.map (·, call)) = List.replicate (places.count w) call := by
  induction places with
  | nil => rfl
  | cons place places ih =>
      unfold callsTo at ih ⊢
      rw [List.map_cons, List.count_cons]
      by_cases h : place = w
      · rw [List.filter_cons_of_pos (by simpa using h), List.map_cons, ih,
          if_pos (by simpa using h)]
        rfl
      · rw [List.filter_cons_of_neg (by simpa using h), ih, if_neg (by simpa using h)]
        rfl

-- ============================================================== counts

/-- Who asked by name is counted so often as it asked, and once more for asking
for everything. -/
theorem count_interested (w : Nat) (table : List (String × Nat)) (everything : List Nat)
    (name : String) :
    (interested table everything name).count w
      = table.count (name, w) + everything.count w := by
  unfold interested
  rw [List.count_append]
  congr 1
  induction table with
  | nil => rfl
  | cons entry table ih =>
      obtain ⟨known, who⟩ := entry
      rw [List.count_cons]
      by_cases h : known = name
      · rw [List.filter_cons_of_pos (by simpa using h), List.map_cons, List.count_cons, ih, h]
        simp
      · rw [List.filter_cons_of_neg (by simpa using h), ih]
        simp [h]

/-- A detector enters a table once for each name it gives. -/
theorem count_map_pair (names : List String) (who w : Nat) (name : String) :
    (names.map (·, who)).count (name, w) = if who = w then names.count name else 0 := by
  induction names with
  | nil => simp
  | cons known names ih =>
      rw [List.map_cons, List.count_cons, ih, List.count_cons]
      by_cases h : who = w
      · simp [h]
      · simp [h]

/-- What an interest adds to the count of a place. -/
theorem count_interested_enter (who w : Nat) (interest : Interest) (table : List (String × Nat))
    (everything : List Nat) (name : String) :
    (interested (enter who interest table everything).1
        (enter who interest table everything).2 name).count w
      = (interested table everything name).count w
        + if who = w then interest.times name else 0 := by
  rw [count_interested, count_interested]
  cases interest with
  | nothing => simp [enter, Interest.times]
  | all =>
      simp only [enter, Interest.times, List.count_append, List.count_singleton]
      by_cases h : who = w
      · simp [h]; omega
      · simp [h]
  | names names =>
      simp only [enter, Interest.times, List.count_append, count_map_pair]
      omega

-- =============================================================== seats

/-- The visitor of some detectors, each under its place. -/
def ofSeats (seats : List (Detector × Nat)) : Visitor :=
  seats.foldl (fun v (d, who) => v.add who d) empty

/-- The candidates that want files of a kind, with their places. -/
def seats (candidates : List (ActiveDetector × Nat)) (folder : Option FolderType) :
    List (Detector × Nat) :=
  (candidates.filter fun (a, _) => wants folder a.detector).map fun (a, who) => (a.detector, who)

/-- A new visitor has a seat for every candidate that wants the folder. -/
theorem new_eq_ofSeats (candidates : List (ActiveDetector × Nat)) (folder : Option FolderType) :
    Visitor.new candidates folder = ofSeats (seats candidates folder) := by
  unfold Visitor.new ofSeats seats
  rw [List.foldl_map]

/-- The sum of an interest over the seats at a place. -/
def asked (interest : Detector → Interest) (w : Nat) (name : String)
    (seats : List (Detector × Nat)) : Nat :=
  ((seats.filter (·.2 == w)).map fun (d, _) => (interest d).times name).sum

/-- What is asked from a seat adds up, seat by seat. -/
theorem asked_cons (interest : Detector → Interest) (w : Nat) (name : String) (d : Detector)
    (who : Nat) (seats : List (Detector × Nat)) :
    asked interest w name ((d, who) :: seats)
      = (if who = w then (interest d).times name else 0) + asked interest w name seats := by
  unfold asked
  by_cases h : who = w
  · rw [List.filter_cons_of_pos (by simpa using h), if_pos h]
    rfl
  · rw [List.filter_cons_of_neg (by simpa using h), if_neg h, Nat.zero_add]

/-- A detector is called for an element as often as it asked from its seats. -/
theorem count_forElement (w : Nat) (e : Element) (seats : List (Detector × Nat)) :
    ((ofSeats seats).forElement e).count w = asked Detector.elements w e.name seats := by
  suffices h : ∀ v : Visitor,
      ((seats.foldl (fun v (d, who) => v.add who d) v).forElement e).count w
        = (v.forElement e).count w + asked Detector.elements w e.name seats by
    rw [ofSeats, h empty]
    exact Nat.zero_add _
  induction seats with
  | nil => exact fun v => rfl
  | cons seat seats ih =>
      obtain ⟨d, who⟩ := seat
      intro v
      rw [List.foldl_cons, ih, asked_cons]
      have hadd := count_interested_enter who w d.elements v.elements v.allElements e.name
      rw [← Nat.add_assoc]
      exact congrArg (· + _) hadd

theorem count_forAttribute (w : Nat) (a : Xml.Attribute) (seats : List (Detector × Nat)) :
    ((ofSeats seats).forAttribute a).count w = asked Detector.attributes w a.localName seats := by
  suffices h : ∀ v : Visitor,
      ((seats.foldl (fun v (d, who) => v.add who d) v).forAttribute a).count w
        = (v.forAttribute a).count w + asked Detector.attributes w a.localName seats by
    rw [ofSeats, h empty]
    exact Nat.zero_add _
  induction seats with
  | nil => exact fun v => rfl
  | cons seat seats ih =>
      obtain ⟨d, who⟩ := seat
      intro v
      rw [List.foldl_cons, ih, asked_cons]
      have hadd :=
        count_interested_enter who w d.attributes v.attributes v.allAttributes a.localName
      rw [← Nat.add_assoc]
      exact congrArg (· + _) hadd

theorem all_ofSeats (seats : List (Detector × Nat)) : (ofSeats seats).all = seats.map (·.2) := by
  suffices h : ∀ v : Visitor,
      (seats.foldl (fun v (d, who) => v.add who d) v).all = v.all ++ seats.map (·.2) from h empty
  induction seats with
  | nil => exact fun v => (List.append_nil _).symm
  | cons seat seats ih =>
      intro v
      rw [List.foldl_cons, ih, List.map_cons]
      exact List.append_assoc v.all [seat.2] (seats.map (·.2))

/-- A detector stands in the list of all once a seat. -/
theorem count_all (w : Nat) (seats : List (Detector × Nat)) :
    (ofSeats seats).all.count w = (seats.filter (·.2 == w)).length := by
  rw [all_ofSeats, List.count_eq_length_filter, List.filter_map, List.length_map]
  rfl

/-- A detector without other wishes is shown the document once a seat. -/
theorem count_documents (w : Nat) (seats : List (Detector × Nat)) :
    (ofSeats seats).documents.count w
      = ((seats.filter (·.2 == w)).filter fun (d, _) => decide d.wantsDocument).length := by
  -- from any visitor on, since the fold adds to what is there
  suffices h : ∀ v : Visitor,
      (seats.foldl (fun v (d, who) => v.add who d) v).documents.count w
        = v.documents.count w
          + ((seats.filter (·.2 == w)).filter fun (d, _) => decide d.wantsDocument).length by
    rw [ofSeats, h empty]
    exact Nat.zero_add _
  induction seats with
  | nil => exact fun v => rfl
  | cons seat seats ih =>
      obtain ⟨d, who⟩ := seat
      intro v
      have hadd : (v.add who d).documents
          = if d.wantsDocument then v.documents ++ [who] else v.documents := rfl
      rw [List.foldl_cons, ih, hadd]
      by_cases hw : who = w
      · rw [List.filter_cons_of_pos (by simpa using hw)]
        by_cases hd : d.wantsDocument
        · rw [if_pos hd, List.count_append, List.count_singleton, if_pos (by simpa using hw),
            List.filter_cons_of_pos (by simpa using hd), List.length_cons]
          omega
        · rw [if_neg hd, List.filter_cons_of_neg (by simpa using hd)]
      · rw [List.filter_cons_of_neg (by simpa using hw)]
        split
        · rw [List.count_append, List.count_singleton, if_neg (by simpa using hw), Nat.add_zero]
        · rfl

-- ==================================================== a place by itself

/-- The seats at a place, where every seat has a place of its own. -/
theorem filter_place {seats : List (Detector × Nat)} (hplaces : (seats.map (·.2)).Nodup)
    {d : Detector} {w : Nat} (hd : (d, w) ∈ seats) : seats.filter (·.2 == w) = [(d, w)] := by
  induction seats with
  | nil => cases hd
  | cons seat seats ih =>
      rw [List.map_cons, List.nodup_cons] at hplaces
      rcases List.mem_cons.mp hd with rfl | hd
      · have hrest : seats.filter (·.2 == w) = [] := by
          rw [List.filter_eq_nil_iff]
          intro other hother heq
          exact hplaces.1 (List.mem_map.mpr ⟨other, hother, by simpa using heq⟩)
        rw [List.filter_cons_of_pos (by simp), hrest]
      · have hne : seat.2 ≠ w := fun heq =>
          hplaces.1 (heq ▸ List.mem_map.mpr ⟨(d, w), hd, rfl⟩)
        rw [List.filter_cons_of_neg (by simpa using hne), ih hplaces.2 hd]

variable {v : Visitor} {d : Detector} {w n : Nat} {doc : Document}

/-- A visitor tells a place what the detector declares, as far as the names
in a document go, and each thing as often as the detector sits there. -/
structure Tells (v : Visitor) (w n : Nat) (d : Detector) : Prop where
  elements : ∀ e, (v.forElement e).count w = n * d.elements.times e.name
  attributes : ∀ a, (v.forAttribute a).count w = n * d.attributes.times a.localName

/-- Repetitions of a repeated call are as many repetitions. -/
theorem replicate_mul (n m : Nat) (call : Call) :
    List.replicate (n * m) call = (List.replicate m call).flatMap (List.replicate n) := by
  induction m with
  | zero => rfl
  | succ m ih =>
      rw [Nat.mul_succ, Nat.add_comm, ← List.replicate_append_replicate, ih, List.replicate_succ,
        List.flatMap_cons]

/-- A detector is called for the attributes of an element as it is told of
them. -/
theorem Tells.attributeCalls (h : Tells v w n d) (e : Element) :
    callsTo w (v.attributeCalls doc e) = (d.toldAttributes doc e).flatMap (List.replicate n) := by
  rw [attributeCalls_eq]
  unfold Detector.toldAttributes
  induction e.attributes with
  | nil => rfl
  | cons a more ih =>
      rw [List.flatMap_cons, List.flatMap_cons, List.flatMap_append, callsTo_append, callsTo_map, ih,
        h.attributes, replicate_mul]

mutual

/-- A detector is called in a node, children and all, as it is told of it. -/
theorem Tells.nodeCalls (h : Tells v w n d) (around : List Content) : ∀ node,
    callsTo w (v.nodeCalls doc around node)
      = (d.toldNode doc around node).flatMap (List.replicate n)
  | .text .. => by
      rw [Visitor.nodeCalls, Detector.toldNode]
      rfl
  | .element tag span children => by
      rw [Visitor.nodeCalls, Detector.toldNode]
      simp only [callsTo_append, callsTo_map, List.flatMap_append, h.elements, replicate_mul,
        h.attributeCalls, h.nodesCalls (⟨tag, span, children⟩ :: around) children]

theorem Tells.nodesCalls (h : Tells v w n d) (around : List Content) : ∀ nodes,
    callsTo w (v.nodesCalls doc around nodes)
      = (d.toldNodes doc around nodes).flatMap (List.replicate n)
  | [] => by
      rw [Visitor.nodesCalls, Detector.toldNodes]
      rfl
  | node :: more => by
      rw [Visitor.nodesCalls, Detector.toldNodes, callsTo_append, List.flatMap_append,
        h.nodeCalls around node, h.nodesCalls around more]

end

variable {candidates : List (ActiveDetector × Nat)} {folder : Option FolderType}

/-- A visitor serves nobody where no candidate wants the file. -/
theorem isEmpty_new :
    (Visitor.new candidates folder).isEmpty
      = !candidates.any fun (a, _) => wants folder a.detector := by
  rw [new_eq_ofSeats, Visitor.isEmpty, all_ofSeats, seats, List.isEmpty_map, List.isEmpty_map]
  induction candidates with
  | nil => rfl
  | cons candidate candidates ih =>
      obtain ⟨a, who⟩ := candidate
      rw [List.any_cons, Bool.not_or, ← ih]
      by_cases h : wants folder a.detector
      · rw [List.filter_cons_of_pos (by simpa using h)]
        simp [h]
      · rw [List.filter_cons_of_neg (by simpa using h)]
        simp [h]

/-- A place where a detector sits some number of times is told each thing so
many times. -/
theorem callsTo_calls_of_seats
    (hplace : (seats candidates folder).filter (·.2 == w) = List.replicate n (d, w))
    (doc : Document) :
    callsTo w ((Visitor.new candidates folder).calls doc)
      = (d.told doc).flatMap (List.replicate n) := by
  have hasked : ∀ (interest : Detector → Interest) (name : String),
      asked interest w name (seats candidates folder) = n * (interest d).times name := by
    intro interest name
    rw [asked, hplace, List.map_replicate, List.sum_replicate_nat]
  have htells : Tells (ofSeats (seats candidates folder)) w n d :=
    { elements := fun e => by rw [count_forElement, hasked]
      attributes := fun a => by rw [count_forAttribute, hasked] }
  rw [new_eq_ofSeats, calls_eq]
  unfold Detector.told
  simp only [callsTo_append, callsTo_map, count_all, count_documents, hplace, htells.nodeCalls,
    List.flatMap_append]
  by_cases h : d.wantsDocument <;> simp [h]

/-- The calls to a candidate that wants a file are what its detector is
told about it. -/
theorem callsTo_calls (hplaces : (candidates.map (·.2)).Nodup) {a : ActiveDetector}
    (ha : (a, w) ∈ candidates) (hwants : wants folder a.detector) (doc : Document) :
    callsTo w ((Visitor.new candidates folder).calls doc) = a.detector.told doc := by
  have hseat : (a.detector, w) ∈ seats candidates folder :=
    List.mem_map.mpr ⟨(a, w), List.mem_filter.mpr ⟨ha, hwants⟩, rfl⟩
  have hnodup : ((seats candidates folder).map (·.2)).Nodup := by
    unfold seats
    rw [List.map_map]
    exact List.Sublist.nodup (List.filter_sublist.map _) hplaces
  have honce : (seats candidates folder).filter (·.2 == w) = List.replicate 1 (a.detector, w) :=
    filter_place hnodup hseat
  rw [callsTo_calls_of_seats honce]
  exact List.flatMap_singleton' _

/-- A place where no candidate wants a file is told nothing about it. -/
theorem callsTo_calls_of_not_wants
    (h : ∀ a, (a, w) ∈ candidates → wants folder a.detector = false) (doc : Document) :
    callsTo w ((Visitor.new candidates folder).calls doc) = [] := by
  have hplace : (seats candidates folder).filter (·.2 == w)
      = List.replicate 0 (Detector.silent "", w) := by
    rw [List.replicate_zero, List.filter_eq_nil_iff]
    intro seat hseat heq
    obtain ⟨⟨a, who⟩, ha, rfl⟩ := List.mem_map.mp hseat
    obtain ⟨ha, hwants⟩ := List.mem_filter.mp ha
    have hw : who = w := by simpa using heq
    exact absurd hwants (by simpa using h a (hw ▸ ha))
  rw [callsTo_calls_of_seats hplace]
  exact List.flatMap_eq_nil_iff.mpr fun _ _ => rfl

end Visitor

end ResourceLint
