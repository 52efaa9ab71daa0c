/-
What the files of a project declare and mention.

A file declares the named children of its outermost element if it is in a
values folder, and itself in any other folder of resources (`Declares`); the
manifest declares nothing.  It mentions what its attributes and its text refer
to, anywhere, and what its styles build on (`Mentions`).  Both are decided by
the lists of what is declared and mentioned, in the order of the elements
(`mem_keys_declared`, `mem_mentions`).

Neither depends on that order (`Reorders`, `Declares.reorders`,
`Mentions.reorders`).
-/
import Mathlib.Data.List.Basic
import ResourceLint.Proofs.References

namespace ResourceLint

open Xml (Document Element)

/-- A file that was parsed, with the type of the folder that it is in. -/
structure Parsed where
  file : Path
  folder : Option FolderType
  document : Document

/-- An element has the attributes of its tag. -/
theorem Xml.Element.attribute?_congr {e e' : Element} (h : e'.tag = e.tag) (name : String) :
    e'.attribute? name = e.attribute? name := by
  unfold Element.attribute? Element.attributes
  rw [h]

namespace UnusedResources

variable {p q : Parsed} {key : ResourceKey} {e : Element} {visited others : List Parsed}

-- ============================================================= what files declare

/-- The name of a file up to its first dot. -/
def stem (file : Path) : String :=
  String.ofList ((file.fileName?.getD "").toList.takeWhile (· != '.'))

/-- A file declares a resource: a named child of the outermost element of a
values file does, and any other resource file does itself, if there is
something before the first dot of its name. -/
inductive Declares (p : Parsed) : ResourceKey → Prop
  | child {e : Element} {kind name : String} (hfolder : p.folder = some .values)
      (he : e ∈ p.document.root.childElements) (hname : e.attribute? "name" = some name)
      (hkind : kindOf? e = some kind) : Declares p (keyOf kind name)
  | file {folder : FolderType} (hfolder : p.folder = some folder) (hvalues : folder ≠ .values)
      (hstem : stem p.file ≠ "") : Declares p (keyOf folder.name (stem p.file))

/-- What a child of a values file declares, and where. -/
def declaration? (file : Path) (e : Element) : Option (ResourceKey × Place) :=
  match e.attribute? "name", kindOf? e with
  | some name, some kind => some (keyOf kind name, .ofSpan file e.span)
  | _, _ => none

/-- What a file declares and where, in the order of its elements. -/
def declared (p : Parsed) : List (ResourceKey × Place) :=
  match p.folder with
  | none => []
  | some .values => p.document.root.childElements.filterMap (declaration? p.file)
  | some folder =>
    if stem p.file = "" then [] else [(keyOf folder.name (stem p.file), .ofFile p.file)]

/-- A child of the root declares a key when it has a name and is of a kind, at
its own place. -/
theorem declaration?_eq_some_iff {file : Path} {entry : ResourceKey × Place} :
    declaration? file e = some entry
      ↔ ∃ name kind, e.attribute? "name" = some name ∧ kindOf? e = some kind
          ∧ (keyOf kind name, .ofSpan file e.span) = entry := by
  unfold declaration?
  cases e.attribute? "name" <;> cases kindOf? e <;> simp

/-- Outside of the folders for values a file declares its own name. -/
theorem declared_of_ne_values {folder : FolderType} (hfolder : p.folder = some folder)
    (hvalues : folder ≠ .values) :
    declared p
      = if stem p.file = "" then []
        else [(keyOf folder.name (stem p.file), .ofFile p.file)] := by
  unfold declared
  rw [hfolder]
  split
  · next heq => cases heq
  · next heq => exact absurd (Option.some.inj heq) hvalues
  · next heq => rw [Option.some.inj heq]

/-- The keys declared in a file are those it is said to declare. -/
theorem mem_keys_declared : key ∈ (declared p).map (·.1) ↔ Declares p key := by
  rw [List.mem_map]
  constructor
  · rintro ⟨entry, hentry, rfl⟩
    unfold declared at hentry
    split at hentry
    · cases hentry
    · next hfolder =>
        obtain ⟨e, he, hdeclaration⟩ := List.mem_filterMap.mp hentry
        obtain ⟨name, kind, hname, hkind, rfl⟩ := declaration?_eq_some_iff.mp hdeclaration
        exact .child hfolder he hname hkind
    · next folder hvalues hfolder =>
        split at hentry
        · cases hentry
        · next hstem =>
            rw [List.mem_singleton.mp hentry]
            exact .file hfolder hvalues hstem
  · -- each way to declare puts its key into the list
    rintro (@⟨e, kind, name, hfolder, he, hname, hkind⟩ | ⟨hfolder, hvalues, hstem⟩)
    · unfold declared
      rw [hfolder]
      refine ⟨(keyOf kind name, .ofSpan p.file e.span), List.mem_filterMap.mpr ⟨e, he, ?_⟩, rfl⟩
      exact declaration?_eq_some_iff.mpr ⟨name, kind, hname, hkind, rfl⟩
    · rw [declared_of_ne_values hfolder hvalues, if_neg hstem]
      exact ⟨_, List.mem_singleton_self _, rfl⟩

-- ============================================================= what files mention

/-- A file mentions a resource: in an attribute or in text anywhere, or as what
a style in a values file builds on. -/
inductive Mentions (p : Parsed) : ResourceKey → Prop
  | value {e : Element} {a : Xml.Attribute} {key : ResourceKey} (he : e ∈ p.document.elements)
      (ha : a ∈ e.attributes) (hoccurs : Occurs key a.value.toList) : Mentions p key
  | text {text : Option Element × String} {key : ResourceKey} (htext : text ∈ p.document.texts)
      (hoccurs : Occurs key text.2.toList) : Mentions p key
  | parent {e : Element} {name parent : String} (hfolder : p.folder = some .values)
      (he : e ∈ p.document.root.childElements) (hname : e.attribute? "name" = some name)
      (hkind : kindOf? e = some "style") (hbuilds : BuildsOn e name parent) :
      Mentions p (keyOf "style" parent)

/-- What a child of a values file builds on, if it is a style. -/
def parentKey? (e : Element) : Option ResourceKey :=
  match e.attribute? "name", kindOf? e with
  | some name, some "style" => (styleParent? e name).map (keyOf "style")
  | _, _ => none

/-- What the styles of a file build on. -/
def parents (p : Parsed) : List ResourceKey :=
  match p.folder with
  | some .values => p.document.root.childElements.filterMap parentKey?
  | _ => []

/-- The texts of a document in which resources may be mentioned. -/
def speech (doc : Document) : List String :=
  (doc.elements.flatMap fun e => e.attributes.map (·.value)) ++ doc.texts.map (·.2)

/-- What a file mentions. -/
def mentions (p : Parsed) : List ResourceKey :=
  parents p ++ (speech p.document).flatMap fun text => references text.toList

/-- A style builds on the parent it names, or else on what stands before its
last dot. -/
theorem parentKey?_eq_some_iff :
    parentKey? e = some key
      ↔ ∃ name parent, e.attribute? "name" = some name ∧ kindOf? e = some "style"
          ∧ BuildsOn e name parent ∧ keyOf "style" parent = key := by
  unfold parentKey?
  split
  · next name hname hkind =>
      rw [Option.map_eq_some_iff]
      simp only [styleParent?_eq_some_iff, hname, hkind, Option.some.injEq, true_and]
      exact ⟨fun ⟨parent, h⟩ => ⟨name, parent, rfl, h⟩, fun ⟨_, parent, hsame, h⟩ =>
        ⟨parent, hsame ▸ h⟩⟩
  · next hother =>
      refine iff_of_false (by simp) ?_
      rintro ⟨name, parent, hname, hkind, -⟩
      exact hother name hname hkind

/-- The parents that are mentioned are those of the styles in a values file. -/
theorem mem_parents :
    key ∈ parents p
      ↔ ∃ e ∈ p.document.root.childElements, p.folder = some .values ∧ parentKey? e = some key := by
  unfold parents
  split
  · next hfolder => simp [hfolder]
  · next hother =>
      refine iff_of_false List.not_mem_nil ?_
      rintro ⟨e, -, hfolder, -⟩
      exact hother hfolder

/-- What a document says are the values of its attributes and its texts. -/
theorem mem_speech {doc : Document} {text : String} :
    text ∈ speech doc
      ↔ (∃ e ∈ doc.elements, ∃ a ∈ e.attributes, a.value = text)
          ∨ ∃ found ∈ doc.texts, found.2 = text := by
  unfold speech
  simp only [List.mem_append, List.mem_flatMap, List.mem_map]

/-- The keys mentioned in a file are those it is said to mention. -/
theorem mem_mentions : key ∈ mentions p ↔ Mentions p key := by
  unfold mentions
  rw [List.mem_append, mem_parents, List.mem_flatMap]
  simp only [mem_speech, mem_references_iff]
  constructor
  · rintro (⟨e, he, hfolder, hparent⟩ | ⟨_, ⟨e, he, a, ha, rfl⟩ | ⟨found, hfound, rfl⟩, hoccurs⟩)
    · obtain ⟨name, parent, hname, hkind, hbuilds, rfl⟩ := parentKey?_eq_some_iff.mp hparent
      exact .parent hfolder he hname hkind hbuilds
    · exact .value he ha hoccurs
    · exact .text hfound hoccurs
  · rintro (⟨he, ha, hoccurs⟩ | ⟨htext, hoccurs⟩ | ⟨hfolder, he, hname, hkind, hbuilds⟩)
    · exact Or.inr ⟨_, Or.inl ⟨_, he, _, ha, rfl⟩, hoccurs⟩
    · exact Or.inr ⟨_, Or.inr ⟨_, htext, rfl⟩, hoccurs⟩
    · exact Or.inl ⟨_, he, hfolder, parentKey?_eq_some_iff.mpr ⟨_, _, hname, hkind, hbuilds, rfl⟩⟩

instance (p : Parsed) : DecidablePred (Declares p) := fun _ =>
  decidable_of_iff _ mem_keys_declared

instance (p : Parsed) : DecidablePred (Mentions p) := fun _ =>
  decidable_of_iff _ mem_mentions

-- ============================================================ in another order

/-- A file is another one with its elements, its attributes by element and its
texts in another order. -/
structure Reorders (p q : Parsed) : Prop where
  file : p.file = q.file
  folder : p.folder = q.folder
  children : (p.document.root.childElements.map (·.tag)).Perm
    (q.document.root.childElements.map (·.tag))
  elements : (p.document.elements.map (·.tag)).Perm (q.document.elements.map (·.tag))
  texts : (p.document.texts.map (·.2)).Perm (q.document.texts.map (·.2))

/-- The files are others in another order, and so are their elements. -/
def Reordered (visited others : List Parsed) : Prop :=
  ∃ order : List Parsed, order.Perm others ∧ List.Forall₂ Reorders visited order

theorem Reorders.symm (h : Reorders p q) : Reorders q p :=
  ⟨h.file.symm, h.folder.symm, h.children.symm, h.elements.symm, h.texts.symm⟩

/-- A member has its image among those of a reordered list. -/
theorem exists_of_perm_map {α β : Type} {f : α → β} {l l' : List α} {a : α}
    (h : (l.map f).Perm (l'.map f)) (ha : a ∈ l) : ∃ a' ∈ l', f a' = f a :=
  List.mem_map.mp (h.subset (List.mem_map_of_mem ha))

variable {e' : Element}

/-- The kind is read off the tag. -/
theorem kindOf?_congr (h : e'.tag = e.tag) : kindOf? e' = kindOf? e := by
  unfold kindOf?
  rw [Element.attribute?_congr h]
  unfold Element.name
  rw [h]

theorem BuildsOn.congr (h : e'.tag = e.tag) {name parent : String}
    (hbuilds : BuildsOn e name parent) : BuildsOn e' name parent := by
  have hparent := Element.attribute?_congr h "parent"
  cases hbuilds with
  | stated marks hstated hempty hsplit hat hplatform =>
      exact .stated marks (hparent.trans hstated) hempty hsplit hat hplatform
  | dotted hnone hsplit hlast => exact .dotted (hparent ▸ hnone) hsplit hlast

/-- A reordered file declares the same keys. -/
theorem Declares.reorders (hdeclares : Declares p key) (h : Reorders p q) : Declares q key := by
  cases hdeclares with
  | child hfolder he hname hkind =>
      obtain ⟨e', he', htag⟩ := exists_of_perm_map h.children he
      exact .child (h.folder ▸ hfolder) he' ((Element.attribute?_congr htag _).trans hname)
        ((kindOf?_congr htag).trans hkind)
  | file hfolder hvalues hstem =>
      rw [h.file] at hstem ⊢
      exact .file (h.folder ▸ hfolder) hvalues hstem

theorem Mentions.reorders (hmentions : Mentions p key) (h : Reorders p q) : Mentions q key := by
  cases hmentions with
  | value he ha hoccurs =>
      obtain ⟨e', he', htag⟩ := exists_of_perm_map h.elements he
      refine .value he' ?_ hoccurs
      unfold Element.attributes at ha ⊢
      exact htag ▸ ha
  | text htext hoccurs =>
      obtain ⟨text', htext', hsame⟩ := exists_of_perm_map h.texts htext
      exact .text htext' (hsame ▸ hoccurs)
  | parent hfolder he hname hkind hbuilds =>
      obtain ⟨e', he', htag⟩ := exists_of_perm_map h.children he
      exact .parent (h.folder ▸ hfolder) he' ((Element.attribute?_congr htag _).trans hname)
        ((kindOf?_congr htag).trans hkind) (hbuilds.congr htag)

/-- What a reordered file keeps is had by some file of either list. -/
theorem exists_mem_iff_of_forall₂ {P : Parsed → Prop} (hP : ∀ p q, Reorders p q → P p → P q)
    (h : List.Forall₂ Reorders visited others) : (∃ p ∈ visited, P p) ↔ ∃ p ∈ others, P p := by
  induction h with
  | nil => rfl
  | cons hpq _ ih =>
      rw [List.exists_mem_cons_iff, List.exists_mem_cons_iff, ih]
      exact or_congr_left ⟨hP _ _ hpq, hP _ _ hpq.symm⟩

/-- A property that reordering keeps is had by some file of one project when it
is by one of the other. -/
theorem Reordered.exists_iff (h : Reordered visited others) {P : Parsed → Prop}
    (hP : ∀ p q, Reorders p q → P p → P q) : (∃ p ∈ visited, P p) ↔ ∃ p ∈ others, P p := by
  obtain ⟨order, hperm, hforall⟩ := h
  rw [exists_mem_iff_of_forall₂ hP hforall]
  simp only [hperm.mem_iff]

end UnusedResources

end ResourceLint
