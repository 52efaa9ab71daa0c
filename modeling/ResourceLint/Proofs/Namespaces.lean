/-
The namespace of a name, told from the finished tree.

A name may have a qualifier, the part before its first colon, and the
qualifier stands for a namespace.  While a text is read, the namespace is
looked up in the declarations of the elements that are open.  In the tree the
same is found from the element outwards: the nearest element that declares
the qualifier, the element itself first, says the namespace
(`Element.namespace?`).  This holds of every name of every document
(`Document.resolved_of_parse`), since every element was made by its tag inside
of the elements around it.

A name without a colon has the empty qualifier, where it is the name of an
element, and none where it is that of an attribute.  Two attributes declare
the empty qualifier: `xmlns`, and `xmlns:` with nothing behind the colon.
-/
import ResourceLint.Proofs.Ancestry
import ResourceLint.Proofs.Entries

namespace ResourceLint.Xml

variable {q : String} {attributes : List (String × String)}

-- ================================================================ qualifiers

/-- What stands before the first colon of a name. -/
def HasQualifier (name q : String) : Prop :=
  ':' ∉ q.toList ∧ ∃ localName, name.toList = q.toList ++ ':' :: localName

theorem Tag.splitName_of_hasQualifier {name : String} (h : HasQualifier name q) :
    (Tag.splitName name).1 = some q := by
  obtain ⟨hcolon, localName, hname⟩ := h
  have hcut : Text.cut? [':'] name.toList = some (q.toList, localName) :=
    Text.cut?_eq_some_iff.mpr ⟨hname, hcolon⟩
  unfold Tag.splitName Text.splitOnce?
  rw [hcut]
  exact congrArg some String.ofList_toList

theorem Tag.splitName_of_not_mem {name : String} (h : ':' ∉ name.toList) :
    (Tag.splitName name).1 = none := by
  unfold Tag.splitName Text.splitOnce?
  cases hcut : Text.cut? [':'] name.toList with
  | none => rfl
  | some parts =>
      obtain ⟨hname, -⟩ := Text.cut?_eq_some_iff.mp hcut
      exact absurd (hname ▸ List.mem_append_right _ List.mem_cons_self) h

-- ============================================================== declarations

/-- The attribute declares a qualifier. -/
def Attribute.Declares (a : Attribute) (q : String) : Prop :=
  a.name = "xmlns:" ++ q ∨ q = "" ∧ a.name = "xmlns"

instance (a : Attribute) (q : String) : Decidable (a.Declares q) :=
  inferInstanceAs (Decidable (_ ∨ _))

/-- The namespace that an element declares a qualifier to stand for. -/
def Content.declaration? (c : Content) (q : String) : Option String :=
  (c.tag.attributes.find? fun a => decide (a.Declares q)).map (·.value)

theorem Tag.declaredQualifier?_eq_some_iff {key : String} :
    Tag.declaredQualifier? key = some q ↔ key = "xmlns:" ++ q ∨ q = "" ∧ key = "xmlns" := by
  unfold Tag.declaredQualifier?
  by_cases hdefault : key = "xmlns"
  · have hcolon : "xmlns" ≠ "xmlns:" ++ q := fun heq => by
      have hlength := congrArg String.length heq
      rw [String.length_append] at hlength
      have hleft : "xmlns".length = 5 := by decide
      have hright : "xmlns:".length = 6 := by decide
      omega
    rw [if_pos hdefault, hdefault]
    simp [hcolon, eq_comm]
  · rw [if_neg hdefault]
    unfold Text.after?
    rw [Option.map_eq_some_iff]
    simp only [Text.strip?_eq_some_iff, hdefault, and_false, or_false]
    constructor
    · rintro ⟨rest, hkey, rfl⟩
      apply String.toList_inj.mp
      rw [hkey, String.toList_append]
      exact congrArg (_ ++ ·) String.toList_ofList.symm
    · rintro rfl
      exact ⟨q.toList, String.toList_append, String.ofList_toList⟩

/-- What a tag declares is looked up among its attributes. -/
theorem lookup_declared (c : Content) (q : String) :
    c.tag.declared.lookup q = c.declaration? q := by
  unfold Tag.declared Tag.declarations Tag.said Content.declaration?
  induction c.tag.attributes with
  | nil => rfl
  | cons a more ih =>
      simp only [List.map_cons, List.filterMap_cons]
      by_cases ha : a.Declares q
      · have hdeclared : Tag.declaredQualifier? a.name = some q :=
          Tag.declaredQualifier?_eq_some_iff.mpr ha
        simp [hdeclared, ha]
      · have hother : Tag.declaredQualifier? a.name ≠ some q :=
          mt Tag.declaredQualifier?_eq_some_iff.mp ha
        rw [List.find?_cons_of_neg (by simpa using ha)]
        cases hkey : Tag.declaredQualifier? a.name with
        | none => exact ih
        | some other =>
            rw [hkey] at hother
            have hne : (q == other) = false := beq_eq_false_iff_ne.mpr fun heq => hother (heq ▸ rfl)
            rw [Option.map_some, List.lookup_cons, hne]
            exact ih

/-- Scopes one inside of the other are looked up from the innermost on. -/
theorem lookup_flatten (scopes : List (List (String × String))) (q : String) :
    scopes.flatten.lookup q = scopes.findSome? (·.lookup q) := by
  induction scopes with
  | nil => rfl
  | cons scope outer ih =>
      rw [List.flatten_cons, List.lookup_append, ih, List.findSome?_cons]
      cases scope.lookup q <;> rfl

-- ================================================================ namespaces

namespace Element

variable {e : Element}

/-- The element and those around it, innermost first. -/
def lineage (e : Element) : List Content := e.toContent :: e.around

/-- The namespace that a qualifier stands for in an element. -/
def namespace? (e : Element) (q : String) : Option String :=
  if q = "xml" then some Tag.xmlUri else e.lineage.findSome? (·.declaration? q)

/-- The names in the tag of an element have the namespaces that their
qualifiers stand for. -/
structure Resolved (e : Element) : Prop where
  qualified : ∀ q, HasQualifier e.name q → e.tag.uri = e.namespace? q
  plain : ':' ∉ e.name.toList → e.tag.uri = e.namespace? ""
  attributes : ∀ a ∈ e.attributes,
    (∀ q, HasQualifier a.name q → a.uri = e.namespace? q) ∧ (':' ∉ a.name.toList → a.uri = none)

/-- What the tags of a lineage declare is what its elements do. -/
theorem resolve_map_declared (e : Element) (q : String) :
    Tag.resolve (e.lineage.map fun c => c.tag.declared) q = e.namespace? q := by
  unfold Tag.resolve namespace?
  rw [lookup_flatten, List.findSome?_map]
  refine congrArg (ite (q = "xml") (some Tag.xmlUri)) ?_
  refine congrArg (List.findSome? · e.lineage) (funext fun c => ?_)
  exact lookup_declared c q

end Element

/-- The tag that made an element resolved its names in the scopes of the
lineage. -/
theorem Made.exists_ofWritten {source : List Char} {e : Element}
    (h : Made source (e.around.map (·.tag)) e.tag e.span) :
    ∃ name attributes,
      e.tag = Tag.ofWritten (e.lineage.map fun c => c.tag.declared) name attributes := by
  obtain ⟨t, -, ⟨⟨attributes, -, htag⟩, -⟩, -⟩ := h
  have hdeclared : e.tag.declared = Tag.declarations attributes := by
    unfold Tag.declared
    rw [htag, Tag.said_ofWritten]
  refine ⟨t.name, attributes, ?_⟩
  rw [Element.lineage, List.map_cons, hdeclared]
  conv => lhs; rw [htag]
  rw [List.map_map]
  rfl

/-- Every name in a document has the namespace that the nearest element
declares for its qualifier. -/
theorem Document.resolved_of_parse {text : String} {d : Document} (h : parse text = .ok d) :
    ∀ e ∈ d.elements, e.Resolved := by
  intro e he
  obtain ⟨name, attributes, htag⟩ := (made_of_mem h he).exists_ofWritten
  have hname : e.name = name := congrArg Tag.name htag
  have huri : e.tag.uri = e.namespace? ((Tag.splitName name).1.getD "") := by
    rw [← Element.resolve_map_declared]
    exact congrArg Tag.uri htag
  refine ⟨fun q hq => ?_, fun hplain => ?_, fun a ha => ?_⟩
  · rw [huri, ← hname, Tag.splitName_of_hasQualifier hq, Option.getD_some]
  · rw [huri, ← hname, Tag.splitName_of_not_mem hplain, Option.getD_none]
  · have hattributes : e.attributes = _ := congrArg Tag.attributes htag
    rw [hattributes] at ha
    obtain ⟨⟨key, value⟩, -, rfl⟩ := List.mem_map.mp ha
    refine ⟨fun q hq => ?_, fun hplain => ?_⟩
    · show (Tag.splitName key).1.bind _ = _
      rw [Tag.splitName_of_hasQualifier hq, Option.bind_some, Element.resolve_map_declared]
    · show (Tag.splitName key).1.bind _ = _
      rw [Tag.splitName_of_not_mem hplain, Option.bind_none]

/-- A qualifier is declared again inside, and the element behind it has the
outer namespace. -/
theorem Document.resolved_redeclared :
    ∃ d, parse "<a xmlns='u' xmlns:p='v'><p:b xmlns:p='w' p:c='' d=''/><p:e/></a>" = .ok d
      ∧ (∀ e ∈ d.elements, e.Resolved)
      ∧ d.elements.map (fun e => (e.name, e.tag.uri, e.attributes.map (·.uri)))
        = [("a", some "u", [none, none]), ("p:b", some "w", [none, some "w", none]),
          ("p:e", some "v", [])] := by
  have huris :
      (parse "<a xmlns='u' xmlns:p='v'><p:b xmlns:p='w' p:c='' d=''/><p:e/></a>").toOption.map
        (fun d => d.elements.map fun e => (e.name, e.tag.uri, e.attributes.map (·.uri)))
        = some [("a", some "u", [none, none]), ("p:b", some "w", [none, some "w", none]),
          ("p:e", some "v", [])] := by decide +kernel
  obtain ⟨d, hparse, huris⟩ := exists_parse_of_map huris
  exact ⟨d, hparse, resolved_of_parse hparse, huris⟩

/-- The empty qualifier is not declared by `xmlns` alone. -/
theorem Document.not_resolved_byDefaultOnly :
    ¬ ∀ text d, parse text = .ok d → ∀ e ∈ d.elements, ':' ∉ e.name.toList →
        e.tag.uri = e.lineage.findSome? fun c =>
          (c.tag.attributes.find? (·.name == "xmlns")).map (·.value) := by
  intro h
  have hroot : (parse "<a xmlns:='u'/>").toOption.map (fun d =>
      d.elements.map fun e => (decide (':' ∈ e.name.toList), e.tag.uri,
        e.lineage.findSome? fun c => (c.tag.attributes.find? (·.name == "xmlns")).map (·.value)))
        = some [(false, some "u", none)] := by decide +kernel
  obtain ⟨d, hparse, hall⟩ := exists_parse_of_map hroot
  obtain ⟨e, he, heq⟩ := List.mem_map.mp (hall ▸ List.mem_singleton_self _)
  obtain ⟨hplain, huri, hdefault⟩ : decide (':' ∈ e.name.toList) = false ∧ e.tag.uri = some "u"
      ∧ _ = none := by simpa only [Prod.mk.injEq] using heq
  have hclaimed := h _ d hparse e he (of_decide_eq_false hplain)
  rw [huri, hdefault] at hclaimed
  cases hclaimed

end ResourceLint.Xml
