/-
Ids that are given again in one layout.

The detector keeps a table of the ids that it has come by, with the place
where each was given first.  Along the ids of a document in document order
the table says of every value where the first of the earlier ids with this
value is (`Holds`), so an id is reported exactly where an earlier one has its
value, together with the first of them (`findings_told`).  The table is
emptied for every file, and what a run remarks is put together from the files
one by one (`remarks_repeatedIds`).
-/
import ResourceLint.Proofs.Meeting
import ResourceLint.Proofs.Remarks

namespace ResourceLint.DuplicateIds

open Xml (Document Element Attribute)

variable {memory : Memory} {c : Context} {doc : Document}

-- ====================================================================== ids

/-- Whether an attribute gives an id that is not empty. -/
def isId (a : Attribute) : Bool :=
  a.localName == "id" && (a.uri == some androidUri && a.value != "")

/-- The ids that are given in a document, each with its element, in document
order. -/
def given (doc : Document) : List (Element × Attribute) :=
  doc.elements.flatMap fun e => (e.attributes.filter isId).map (e, ·)

/-- The first of some ids that has a value. -/
def firstWith? (value : String) (ids : List (Element × Attribute)) : Option (Element × Attribute) :=
  ids.find? (·.2.value == value)

/-- The ids with an earlier one of the same value, each with the first of
those. -/
def repeated (ids : List (Element × Attribute)) :
    List ((Element × Attribute) × (Element × Attribute)) :=
  ids.zipIdx.filterMap fun (given, i) =>
    (firstWith? given.2.value (ids.take i)).map (given, ·)

/-- Where an id is given. -/
def placeOf (file : Path) (doc : Document) (given : Element × Attribute) : Place :=
  doc.attributePlace file given.1 given.2.name

/-- The remark about an id that is given again. -/
def repeatedRemark (file : Path) (doc : Document)
    (pair : (Element × Attribute) × (Element × Attribute)) : Remark :=
  let value := pair.1.2.value
  { message := "Duplicate id " ++ value ++ ", already defined earlier in this layout"
    places :=
      [placeOf file doc pair.1,
        { placeOf file doc pair.2 with message := some (value ++ " originally defined here") }] }

-- ==================================================================== the table

/-- The table says of every value where the first of the ids with it is. -/
def Holds (file : Path) (doc : Document) (memory : Memory) (earlier : List (Element × Attribute)) :
    Prop :=
  ∀ value, memory.defined.lookup ("id", value)
    = (firstWith? value earlier).map (placeOf file doc)

theorem Holds.keep {file : Path} {earlier : List (Element × Attribute)}
    (h : Holds file doc memory earlier) (given : Element × Attribute)
    (hknown : (firstWith? given.2.value earlier).isSome) :
    Holds file doc memory (earlier ++ [given]) := by
  intro value
  rw [h value]
  unfold firstWith? at hknown ⊢
  rw [List.find?_append]
  by_cases hvalue : given.2.value = value
  · obtain ⟨first, hfirst⟩ := Option.isSome_iff_exists.mp (hvalue ▸ hknown)
    rw [hfirst]
    rfl
  · rw [List.find?_singleton, if_neg (by simpa using hvalue), Option.or_none]

theorem Holds.add {file : Path} {earlier : List (Element × Attribute)}
    (h : Holds file doc memory earlier) (given : Element × Attribute) :
    Holds file doc
      { memory with defined := memory.defined ++ [(("id", given.2.value), placeOf file doc given)] }
      (earlier ++ [given]) := by
  intro value
  have hlookup : [(("id", given.2.value), placeOf file doc given)].lookup ("id", value)
      = ([given].find? (·.2.value == value)).map (placeOf file doc) := by
    by_cases hvalue : given.2.value = value
    · simp [hvalue]
    · have hother : (("id", value) == ("id", given.2.value)) = false :=
        beq_eq_false_iff_ne.mpr fun heq => hvalue (Prod.mk.inj heq).2.symm
      simp [hvalue, List.lookup_cons, hother]
  unfold firstWith?
  rw [List.lookup_append, h value, hlookup, List.find?_append]
  unfold firstWith?
  cases earlier.find? (·.2.value == value) <;> rfl

/-- Along the ids of a document, each is reported that has an earlier one of the
same value. -/
theorem findings_ids {earlier later : List (Element × Attribute)}
    (hids : ∀ given ∈ later, isId given.2) (h : Holds c.file doc memory earlier) :
    (detector.findings issue.id memory
        (later.map fun given => (c, .attribute doc given.1 given.2))).map Finding.remark
      = ((later.zipIdx earlier.length).filterMap fun entry =>
          (firstWith? entry.1.2.value ((earlier ++ later).take entry.2)).map (entry.1, ·)).map
        (repeatedRemark c.file doc) := by
  induction later generalizing memory earlier with
  | nil => rfl
  | cons given later ih =>
      have hreact : detector.react memory c (.attribute doc given.1 given.2)
          = visitId memory (placeOf c.file doc given) given.2.value := by
        rw [react_attribute, if_pos (Bool.and_eq_true_iff.mp (hids given List.mem_cons_self)).2]
        rfl
      have hlater : ∀ other ∈ later, isId other.2 := fun other hother =>
        hids other (List.mem_cons_of_mem _ hother)
      have hshift : earlier ++ given :: later = (earlier ++ [given]) ++ later := by simp
      have hlength : earlier.length + 1 = (earlier ++ [given]).length := by simp
      rw [List.map_cons, Detector.findings, Detector.heard, hreact, List.zipIdx_cons,
        List.filterMap_cons]
      dsimp only
      rw [List.take_left, hlength, hshift]
      unfold visitId
      rw [h given.2.value]
      -- a first id of its value is entered; a later one leaves the memory
      cases hfirst : firstWith? given.2.value earlier with
      | none =>
          have hadd := h.add given
          exact ih hlater hadd
      | some first =>
          have hkeep := h.keep given (by rw [hfirst]; rfl)
          exact congrArg (repeatedRemark c.file doc (given, first) :: ·) (ih hlater hkeep)

-- ==================================================================== documents

/-- Whether a call can lead to anything. -/
def isCounted : Call → Bool
  | .attribute _ _ a => a.uri == some androidUri && a.value != ""
  | .beforeFile | .afterFile => true
  | _ => false

theorem ignores_of_not_isCounted (call : Call) (h : isCounted call = false) :
    detector.Ignores issue.id call := by
  intro memory context
  cases call with
  | «attribute» doc e a =>
      unfold Detector.heard
      rw [react_attribute, if_neg (fun hid => by rw [isCounted, hid] at h; cases h)]
      exact ⟨rfl, rfl⟩
  | beforeFile | afterFile => cases h
  | _ => exact ⟨rfl, rfl⟩

theorem isPlain : detector.IsPlain := ⟨trivial, (by decide : ["id"].Nodup)⟩

/-- The calls that count are those for the ids. -/
theorem filter_isCounted_seen (doc : Document) :
    (detector.seen doc).filter isCounted
      = .beforeFile
        :: ((given doc).map (fun given => .attribute doc given.1 given.2) ++ [.afterFile]) := by
  have hmet : ∀ e ∈ doc.elements, (detector.met doc e).filter isCounted
      = ((e.attributes.filter isId).map (e, ·)).map fun given =>
          Call.attribute doc given.1 given.2 := fun e _ => by
    have hids : (e.attributes.filter fun a => (Interest.names ["id"]).declares a.localName).filter
        (fun a => a.uri == some androidUri && a.value != "") = e.attributes.filter isId := by
      rw [List.filter_filter]
      refine List.filter_congr fun a _ => ?_
      rw [Bool.and_comm]
      simp [isId, Interest.declares, Bool.beq_eq_decide_eq]
    rw [Detector.met_of_no_elements rfl, List.map_map, ← hids]
    unfold Detector.seenAttributes
    rw [List.filter_map]
    rfl
  rw [Detector.filter_seen (fun _ _ => rfl) rfl rfl (by decide), List.flatMap_congr hmet]
  unfold given
  rw [List.map_flatMap]

theorem isId_of_mem_given (doc : Document) : ∀ found ∈ given doc, isId found.2 := by
  intro found h
  obtain ⟨e, -, hmem⟩ := List.mem_flatMap.mp h
  obtain ⟨a, ha, rfl⟩ := List.mem_map.mp hmem
  exact (List.mem_filter.mp ha).2

/-- What is found in a document is told from its ids alone. -/
theorem findings_told (c : Context) (doc : Document) :
    (detector.findings issue.id .blank ((detector.told doc).map (c, ·))).map Finding.remark
      = (repeated (given doc)).map (repeatedRemark c.file doc) := by
  have hempty : Holds c.file doc .blank [] := fun _ => rfl
  have hends : ∀ memory, detector.findings issue.id memory [(c, .afterFile)] = [] := fun _ => rfl
  have hids := findings_ids (isId_of_mem_given doc) hempty
  rw [Detector.told_eq_seen isPlain, Detector.findings_filter ignores_of_not_isCounted,
    filter_isCounted_seen, List.map_cons, List.map_append, List.map_map, Detector.findings,
    Detector.findings_append, List.map_cons, List.map_nil, hends, List.append_nil]
  exact hids

-- ========================================================================= runs

variable {s : Session} {host : Host} {scope : Option Scope} {files : List Path}
  {project : Project}

/-- What is remarked on the ids of a document. -/
def repeatedRemarks (file : Path) (doc : Document) : List Remark :=
  (repeated (given doc)).map (repeatedRemark file doc)

theorem mem_registration :
    ⟨"DuplicateIdDetector", ["DuplicateIds"], detector⟩ ∈ Registry.builtInRegistrations := by
  simp [Registry.builtInRegistrations]

/-- Repeated ids.  What a run remarks on the ids of a project is what there is to
remark on the ids of its layouts and menus, in each of them by itself: on each
id with an earlier one of the same value in the file, with the first of
those. -/
theorem remarks_repeatedIds (h : s.Checks host scope files project)
    (hlooks : (s.jobOf host scope files project).LooksFor issue) :
    ((s.analyze host files scope).1.remarks project issue.id).Perm
        ((Run.Job.resourceFiles host.tree project).flatMap
          (host.remarksOf detector repeatedRemarks))
      ∧ (host.tree.WellFormed →
        ∀ file folder, (file, folder) ∈ Run.Job.resourceFiles host.tree project →
          (folder = .layout ∨ folder = .menu) → ∀ doc, host.document? file = some doc →
            (((s.analyze host files scope).1.remarks project issue.id).filter (·.isIn file)).Perm
              (repeatedRemarks file doc)) := by
  have hsaid : ∀ file folder doc, (detector.findings issue.id .blank ((detector.told doc).map
      ((s.jobOf host scope files project).context file (host.read file) folder, ·))).map
        Finding.remark = repeatedRemarks file doc := fun file folder doc => findings_told _ doc
  have hissue : issue ∈ Registry.builtInIssues := by simp [Registry.builtInIssues]
  have hperm := h.perm_remarks_resourceFiles hissue rfl mem_registration (by decide) isLocal hlooks
    hsaid
  refine ⟨hperm, fun hwell file folder hfile hfolder doc hdoc => ?_⟩
  have hin : ∀ file doc, ∀ r ∈ repeatedRemarks file doc, r.isIn file := fun file doc r hr => by
    obtain ⟨pair, -, rfl⟩ := List.mem_map.mp hr
    exact beq_self_eq_true file
  -- a file is walked to once, so its share of the whole is its own list
  have hone : ((Run.Job.resourceFiles host.tree project).flatMap
      (host.remarksOf detector repeatedRemarks)).filter (·.isIn file) = _ :=
    Host.filter_isIn_remarksOf hwell (Project.distinct_ofInputs _ _ project h.mem) hin hfile
  have happlies : detector.appliesToFolder folder := by
    rcases hfolder with rfl | rfl <;> rfl
  rw [← Host.remarksOf_of_document? happlies hdoc repeatedRemarks, ← hone]
  exact hperm.filter _

/-- A project with a layout that gives an id twice, and a menu that gives it once
more. -/
def sharedIds : FileTree :=
  { here := ["ROOT"]
    entries :=
      [(["ROOT"], .directory),
        (["ROOT", "app"], .directory),
        (["ROOT", "app", "AndroidManifest.xml"], .file "<manifest/>".toUTF8),
        (["ROOT", "app", "res"], .directory),
        (["ROOT", "app", "res", "layout"], .directory),
        (["ROOT", "app", "res", "layout", "main.xml"],
          .file ("<a xmlns:x='http://schemas.android.com/apk/res/android' x:id='i'>"
            ++ "<b x:id='j'/><c x:id='i'/></a>").toUTF8),
        (["ROOT", "app", "res", "menu"], .directory),
        (["ROOT", "app", "res", "menu", "main.xml"],
          .file "<a xmlns:x='http://schemas.android.com/apk/res/android' x:id='i'/>".toUTF8)] }

def sharedHost : Host := .ofTree sharedIds fun _ => false

def sharedProject : Project := .new ⟨"/ROOT/app"⟩ none

/-- The layout has one repeated id, and the menu has none. -/
theorem remarks_repeatedIds_shared :
    ∃ layout menu,
      sharedHost.document? ⟨"/ROOT/app/res/layout/main.xml"⟩ = some layout
      ∧ sharedHost.document? ⟨"/ROOT/app/res/menu/main.xml"⟩ = some menu
      ∧ (((Session.plain.analyze sharedHost [⟨"/ROOT/app"⟩] none).1.remarks sharedProject
          issue.id).filter (·.isIn ⟨"/ROOT/app/res/layout/main.xml"⟩)).Perm
        (repeatedRemarks ⟨"/ROOT/app/res/layout/main.xml"⟩ layout)
      ∧ (((Session.plain.analyze sharedHost [⟨"/ROOT/app"⟩] none).1.remarks sharedProject
          issue.id).filter (·.isIn ⟨"/ROOT/app/res/menu/main.xml"⟩)).Perm
        (repeatedRemarks ⟨"/ROOT/app/res/menu/main.xml"⟩ menu)
      ∧ (repeated (given layout)).map (·.1.1.name) = ["c"]
      ∧ (repeated (given layout)).map (·.2.1.name) = ["a"]
      ∧ repeated (given menu) = [] := by
  have hwell : sharedIds.WellFormed :=
    { isName := by decide +kernel
      nodup := by decide +kernel
      parents := by decide +kernel
      here := rfl }
  have hprojects : Session.projectsFor sharedHost [⟨"/ROOT/app"⟩] = [sharedProject] := by
    decide +kernel
  have hchecks : Session.plain.Checks sharedHost none [⟨"/ROOT/app"⟩] sharedProject :=
    Session.checks_ofTree rfl rfl sharedIds (hprojects ▸ List.mem_singleton_self _)
  have hlooks : (Session.plain.jobOf sharedHost none [⟨"/ROOT/app"⟩] sharedProject).LooksFor
      issue := ⟨by decide +kernel, by decide +kernel⟩
  have hlayout : (sharedHost.document? ⟨"/ROOT/app/res/layout/main.xml"⟩).map (fun d =>
      ((repeated (given d)).map (·.1.1.name), (repeated (given d)).map (·.2.1.name)))
      = some (["c"], ["a"]) := by decide +kernel
  have hmenu : (sharedHost.document? ⟨"/ROOT/app/res/menu/main.xml"⟩).map (fun d =>
      (repeated (given d)).isEmpty) = some true := by decide +kernel
  obtain ⟨layout, hlayout, hnames⟩ := Option.map_eq_some_iff.mp hlayout
  obtain ⟨menu, hmenu, hnone⟩ := Option.map_eq_some_iff.mp hmenu
  obtain ⟨-, hfiles⟩ := remarks_repeatedIds hchecks hlooks
  refine ⟨layout, menu, hlayout, hmenu, hfiles hwell _ .layout (by decide +kernel) (Or.inl rfl) _
    hlayout, hfiles hwell _ .menu (by decide +kernel) (Or.inr rfl) _ hmenu,
    (Prod.mk.inj hnames).1, (Prod.mk.inj hnames).2, List.isEmpty_iff.mp hnone⟩

end ResourceLint.DuplicateIds
