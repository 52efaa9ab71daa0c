/-
Unused resources: what is declared in some file of a project and mentioned in
none.

After some files the detector remembers the first declaration of each key and
all mentions (`Keeps`, a step at a time), so at the end of the project it finds
the declarations without a mention, each key once (`findings_toldAll`,
`mem_keys_unused`, `lookup_of_mem_enterAll`).  Which keys these are follows from
what all files together declare and mention, so it is the same in whatever
order the files and their elements come (`perm_keys_unused`).

A file whose name has nothing before its first dot declares nothing
(`not_remarks_nameless`).
-/
import ResourceLint.Proofs.Declaring
import ResourceLint.Proofs.Keys
import ResourceLint.Proofs.Meeting
import ResourceLint.Proofs.PartialViews
import ResourceLint.Proofs.Remarks

namespace ResourceLint

open Xml (Document Element)

namespace Run.Job

variable (job : Job)

-- ================================================================ parsed files

/-- The manifest and the resource files of a project, each with the type of its
folder, in the order in which a check comes to them. -/
def visits : List (Path × Option FolderType) :=
  job.openedManifest.map (·, none)
    ++ (resourceFiles job.host.tree job.project).map fun (file, folder) => (file, some folder)

/-- Those of them that can be parsed. -/
def parsed : List Parsed :=
  job.visits.filterMap fun (file, folder) => (job.host.document? file).map (⟨file, folder, ·⟩)

/-- What a detector is told of a parsed file. -/
def toldParsed (d : Detector) (p : Parsed) : List (Context × Call) :=
  (d.told p.document).map (job.context p.file (job.host.read p.file) p.folder, ·)

/-- What a detector is told in the course of a project with these files. -/
def toldAll (d : Detector) (visited : List Parsed) : List (Context × Call) :=
  (job.projectContext, .beforeProject)
    :: (visited.flatMap (job.toldParsed d) ++ [(job.projectContext, .afterProject)])

variable {job}

/-- What is told of a markup file is told of its document, if it has one. -/
theorem markupTold_eq (d : Detector) (file : Path) (folder : Option FolderType) :
    job.markupTold d file folder
      = ((job.host.document? file).map (Parsed.mk file folder)).toList.flatMap
          (job.toldParsed d) := by
  cases hdoc : job.host.document? file with
  | none => exact markupTold_of_no_document? hdoc
  | some doc => exact (markupTold_of_document? hdoc).trans (List.append_nil _).symm

/-- A detector of the manifest and of all resource files that wants every folder
is told of all parsed files. -/
theorem told_eq_toldAll {scope : Scope} {d : Detector} (hsubset : scope.isSubset job.scope)
    (hmanifest : scope.manifest) (hall : scope.allResourceFiles)
    (hproguard : scope.proguard = false) (hfolders : ∀ folder, d.appliesToFolder folder) :
    job.told scope d = job.toldAll d job.parsed := by
  have hseen := Scope.isSubset_iff.mp hsubset
  have hjobManifest : job.scope.manifest := hseen .manifest hmanifest
  have hjobAll : job.scope.allResourceFiles := hseen .allResourceFiles hall
  have hfirst : job.manifestTold scope d
      = job.openedManifest.flatMap fun file => job.markupTold d file none := by
    unfold manifestTold openedManifest
    simp only [hmanifest, hjobManifest, Bool.and_true, Bool.true_and]
    split
    · exact (List.append_nil _).symm
    · rfl
  have hresources : job.resourcesTold scope d
      = (resourceFiles job.host.tree job.project).flatMap fun found =>
          job.markupTold d found.1 (some found.2) := by
    unfold resourcesTold
    rw [if_pos (by simp [hall])]
    refine List.flatMap_congr fun found _ => ?_
    unfold resourceFileTold
    exact if_pos (hfolders found.2)
  have hrules : job.proguardTold scope d = [] := by
    unfold proguardTold
    simp [hproguard]
  -- the manifest and the resource files are all that is parsed
  have hparsed : job.parsed.flatMap (job.toldParsed d)
      = job.manifestTold scope d ++ job.resourcesTold scope d := by
    unfold parsed visits
    rw [hfirst, hresources, List.filterMap_append, List.flatMap_append, List.filterMap_map,
      List.filterMap_map, List.filterMap_eq_flatMap_toList, List.filterMap_eq_flatMap_toList,
      List.flatMap_assoc, List.flatMap_assoc]
    congr 1
    · exact List.flatMap_congr fun file _ => (markupTold_eq d file none).symm
    · exact List.flatMap_congr fun found _ => (markupTold_eq d found.1 (some found.2)).symm
  unfold told toldAll
  rw [hparsed, if_pos hjobManifest, if_pos (by simp [hjobAll]), hrules, ite_self]
  simp

end Run.Job

namespace UnusedResources

variable {p : Parsed} {key : ResourceKey} {memory : Memory} {c : Context} {e : Element}

-- ==================================================== what the detector remembers

/-- Declarations entered one by one among others, the first for each key. -/
def enterAll (known declarations : List (ResourceKey × Place)) : List (ResourceKey × Place) :=
  declarations.foldl (fun all (key, place) => Assoc.insertNew order key place all) known

/-- Keys are entered one list after the other. -/
theorem enterAll_append (known some more : List (ResourceKey × Place)) :
    enterAll known (some ++ more) = enterAll (enterAll known some) more := List.foldl_append ..

/-- A mention adds its key. -/
theorem mem_mention {k : ResourceKey} :
    key ∈ (mention memory k).mentioned ↔ key = k ∨ key ∈ memory.mentioned := by
  unfold mention
  split
  · next hknown =>
      exact (or_iff_right_of_imp fun heq => heq ▸ List.contains_iff_mem.mp hknown).symm
  · exact List.mem_cons

/-- The keys mentioned in a text are the references it is searched for. -/
theorem mem_mentionAll {text : String} :
    key ∈ (mentionAll memory text).mentioned
      ↔ key ∈ references text.toList ∨ key ∈ memory.mentioned := by
  unfold mentionAll
  generalize references text.toList = keys
  induction keys generalizing memory with
  | nil => simp
  | cons k keys ih => rw [List.foldl_cons, ih, mem_mention, List.mem_cons, or_left_comm, or_assoc]

theorem mem_foldl_mentionAll {texts : List String} :
    key ∈ (texts.foldl mentionAll memory).mentioned
      ↔ key ∈ (texts.flatMap fun text => references text.toList) ∨ key ∈ memory.mentioned := by
  induction texts generalizing memory with
  | nil => simp
  | cons text texts ih =>
      rw [List.foldl_cons, ih, mem_mentionAll, List.flatMap_cons, List.mem_append, or_left_comm,
        or_assoc]

/-- A value declares one key at most. -/
theorem defined_declareValue :
    (declareValue c memory e).defined
      = enterAll memory.defined (declaration? c.file e).toList := by
  unfold declareValue declaration?
  cases e.attribute? "name" with
  | none => rfl
  | some name =>
      cases kindOf? e with
      | none => rfl
      | some kind =>
          dsimp only
          split
          · split
            · exact defined_mention _
            · rfl
          · rfl

/-- A style that is named after another mentions it. -/
theorem mem_mentioned_declareValue :
    key ∈ (declareValue c memory e).mentioned
      ↔ parentKey? e = some key ∨ key ∈ memory.mentioned := by
  have hdeclare : ∀ kind name place,
      (declare memory kind name place).mentioned = memory.mentioned := fun _ _ _ => rfl
  unfold declareValue parentKey?
  cases e.attribute? "name" with
  | none => simp
  | some name =>
      cases kindOf? e with
      | none => simp
      | some kind =>
          by_cases hstyle : kind = "style"
          · subst hstyle
            cases hparent : styleParent? e name with
            | none => simp [hparent, hdeclare]
            | some parent => simp [hparent, mem_mention, hdeclare, eq_comm]
          · simp [hstyle, hdeclare]

/-- A file of another kind than values declares itself. -/
theorem declareFile_of_ne_values {folder : FolderType} (hfolder : c.folder = some folder)
    (hvalues : folder ≠ .values) (doc : Document) :
    declareFile c memory doc
      = if stem c.file = "" then memory
        else declare memory folder.name (stem c.file) c.filePlace := by
  have hempty : stem c.file = ""
      ↔ ((c.file.fileName?.getD "").toList.takeWhile (· != '.')).isEmpty := by
    unfold stem
    rw [List.isEmpty_iff, ← String.ofList_nil, String.ofList_inj]
  unfold declareFile
  rw [hfolder]
  split
  · next heq => exact absurd (Option.some.inj heq) hvalues
  · next heq =>
      cases heq
      simp only [hempty]
      rfl
  · next heq => cases heq

/-- What a file declares is entered. -/
theorem defined_declareFile (doc : Document) :
    (declareFile c memory doc).defined
      = enterAll memory.defined (declared ⟨c.file, c.folder, doc⟩) := by
  cases hfolder : c.folder with
  | none =>
      unfold declareFile
      rw [hfolder]
      rfl
  | some folder =>
      by_cases hvalues : folder = .values
      · subst hvalues
        unfold declareFile declared
        rw [hfolder]
        dsimp only
        generalize doc.root.childElements = elements
        -- one declaration after the other, in the order of the file
        induction elements generalizing memory with
        | nil => rfl
        | cons e elements ih =>
            rw [List.foldl_cons, ih, defined_declareValue, ← enterAll_append]
            cases hdeclaration : declaration? c.file e with
            | none => rw [List.filterMap_cons_none hdeclaration]; rfl
            | some entry => rw [List.filterMap_cons_some hdeclaration]; rfl
      · rw [declareFile_of_ne_values hfolder hvalues, declared_of_ne_values rfl hvalues]
        split <;> rfl

/-- What its styles build on is remembered. -/
theorem mem_mentioned_declareFile (doc : Document) :
    key ∈ (declareFile c memory doc).mentioned
      ↔ key ∈ parents ⟨c.file, c.folder, doc⟩ ∨ key ∈ memory.mentioned := by
  cases hfolder : c.folder with
  | none =>
      unfold declareFile
      rw [hfolder]
      exact (or_iff_right List.not_mem_nil).symm
  | some folder =>
      -- only files of values have styles
      by_cases hvalues : folder = .values
      · subst hvalues
        unfold declareFile parents
        rw [hfolder]
        dsimp only
        generalize doc.root.childElements = elements
        induction elements generalizing memory with
        | nil => simp
        | cons e elements ih =>
            rw [List.foldl_cons, ih, mem_mentioned_declareValue]
            cases hparent : parentKey? e with
            | none => simp [List.filterMap_cons_none hparent]
            | some parent =>
                simp only [List.filterMap_cons_some hparent, List.mem_cons, Option.some.injEq,
                  eq_comm, or_left_comm, or_assoc]
      · have hparents : key ∉ parents ⟨c.file, some folder, doc⟩ := fun hmem => by
          obtain ⟨-, -, heq, -⟩ := mem_parents.mp hmem
          exact hvalues (Option.some.inj heq)
        rw [declareFile_of_ne_values hfolder hvalues, or_iff_right hparents]
        split <;> exact Iff.rfl

/-- What the detector remembers after some files. -/
structure Keeps (visited : List Parsed) (memory : Memory) : Prop where
  defined : memory.defined = enterAll [] (visited.flatMap declared)
  mentioned : ∀ key, key ∈ memory.mentioned ↔ ∃ p ∈ visited, Mentions p key

/-- One more file is kept. -/
theorem Keeps.visitDocument {visited : List Parsed} (h : Keeps visited memory) (p : Parsed)
    (hfile : c.file = p.file) (hfolder : c.folder = p.folder) :
    Keeps (visited ++ [p]) (visitDocument memory c p.document) where
  defined := by
    unfold UnusedResources.visitDocument
    rw [defined_foldl_mentionAll, defined_declareFile, h.defined, List.flatMap_append,
      enterAll_append, List.flatMap_singleton, hfile, hfolder]
  mentioned key := by
    have hp : key ∈ (UnusedResources.visitDocument memory c p.document).mentioned
        ↔ Mentions p key ∨ key ∈ memory.mentioned := by
      unfold UnusedResources.visitDocument
      rw [mem_foldl_mentionAll, mem_mentioned_declareFile, ← mem_mentions, hfile, hfolder]
      unfold mentions speech
      rw [List.mem_append, or_left_comm, or_assoc]
    rw [hp, h.mentioned]
    simp only [List.mem_append, List.mem_singleton, or_and_right, exists_or, exists_eq_left]
    exact or_comm

variable {job : Run.Job}

theorem isPlain : detector.IsPlain := ⟨trivial, trivial⟩

/-- The detector is shown the document as a whole. -/
theorem told_eq (doc : Document) :
    detector.told doc = [.beforeFile, .document doc, .afterFile] := by
  rw [Detector.told_eq_seen isPlain, Detector.seen_of_no_interest rfl rfl]

/-- What the files of a project declare and mention is kept. -/
theorem keeps_after (visited : List Parsed) :
    Keeps visited (detector.after .blank
      ((job.projectContext, .beforeProject) :: visited.flatMap (job.toldParsed detector))) := by
  induction visited using List.reverseRecOn with
  | nil => exact ⟨rfl, fun key => by simp [detector, Detector.after, react]⟩
  | append_singleton visited p ih =>
      have hone : ∀ memory, detector.after memory (job.toldParsed detector p)
          = visitDocument memory (job.context p.file (job.host.read p.file) p.folder)
              p.document := fun memory => by
        unfold Run.Job.toldParsed
        rw [told_eq]
        rfl
      rw [List.flatMap_append, List.flatMap_singleton, ← List.cons_append]
      unfold Detector.after at ih hone ⊢
      rw [List.foldl_append, hone]
      exact ih.visitDocument p rfl rfl

-- ============================================================== what is unused

/-- What is declared and not mentioned in some files, with the places of the
first declarations. -/
def unused (visited : List Parsed) : List (ResourceKey × Place) :=
  (enterAll [] (visited.flatMap declared)).filter fun entry =>
    visited.all fun p => !decide (Mentions p entry.1)

def unusedMessage (key : ResourceKey) : String :=
  "The resource R." ++ key.1 ++ "." ++ key.2 ++ " appears to be unused"

/-- The remark about an unused resource. -/
def unusedRemark (entry : ResourceKey × Place) : Remark := ⟨unusedMessage entry.1, [entry.2]⟩

/-- Nothing is found before the end of a project. -/
theorem findings_eq_nil {told : List (Context × Call)} (h : ∀ t ∈ told, t.2 ≠ .afterProject)
    (memory : Memory) : detector.findings issue.id memory told = [] := by
  induction told generalizing memory with
  | nil => rfl
  | cons t told ih =>
      obtain ⟨context, call⟩ := t
      rw [Detector.findings, ih fun t ht => h t (List.mem_cons_of_mem _ ht), List.append_nil]
      have hcall := h (context, call) List.mem_cons_self
      cases call with
      | afterProject => exact absurd rfl hcall
      | _ => rfl

theorem afterProject_not_mem_toldParsed {t : Context × Call} (h : t ∈ job.toldParsed detector p) :
    t.2 ≠ .afterProject := by
  unfold Run.Job.toldParsed at h
  rw [told_eq] at h
  obtain ⟨call, hcall, rfl⟩ := List.mem_map.mp h
  rintro rfl
  simp at hcall

/-- What is kept and not mentioned is reported. -/
theorem map_remark_heard (memory : Memory) :
    (detector.heard issue.id memory c .afterProject).map Finding.remark
      = (memory.defined.filter fun (key, _) => !memory.mentioned.contains key).map
          unusedRemark := by
  have hreported : ∀ entries : List (ResourceKey × Place),
      (Emission.under issue.id (entries.map fun entry =>
        .report (.at entry.2 issue.id (unusedMessage entry.1)))).map Finding.remark
        = entries.map unusedRemark := by
    intro entries
    unfold Emission.under
    rw [List.filterMap_map, List.filter_eq_self.mpr]
    · rw [List.map_filterMap]
      exact List.filterMap_eq_map_iff_forall_eq_some.mpr fun entry _ => rfl
    · intro f hf
      obtain ⟨entry, -, hfinding⟩ := List.mem_filterMap.mp hf
      cases hfinding
      exact beq_self_eq_true issue.id
  exact hreported _

/-- At the end of a project the detector finds what is unused. -/
theorem findings_toldAll (visited : List Parsed) :
    (detector.findings issue.id .blank (job.toldAll detector visited)).map Finding.remark
      = (unused visited).map unusedRemark := by
  have hbefore : ∀ t ∈ (job.projectContext, Call.beforeProject)
      :: visited.flatMap (job.toldParsed detector), t.2 ≠ .afterProject := by
    intro t ht
    rcases List.mem_cons.mp ht with rfl | ht
    · exact fun h => by cases h
    · obtain ⟨p, -, ht⟩ := List.mem_flatMap.mp ht
      exact afterProject_not_mem_toldParsed ht
  obtain ⟨hdefined, hmentioned⟩ := @keeps_after job visited
  unfold Run.Job.toldAll
  rw [← List.cons_append, Detector.findings_append, findings_eq_nil hbefore, List.nil_append,
    Detector.findings, Detector.findings, List.append_nil, map_remark_heard, hdefined]
  refine congrArg (List.map unusedRemark) (List.filter_congr fun entry _ => ?_)
  rw [Bool.eq_iff_iff, Bool.not_eq_true', ← Bool.not_eq_true, List.contains_iff_mem, hmentioned,
    List.all_eq_true]
  simp

-- ========================================================== each key once

theorem order_eq : order = compareLex (compareOn Prod.fst) (compareOn Prod.snd) := rfl

instance : Std.TransCmp order := by
  rw [order_eq]
  infer_instance

instance : Std.LawfulEqCmp order where
  compare_self {a} := by
    rw [order_eq]
    exact Std.ReflCmp.compare_self
  eq_of_compare {a b} h := by
    rw [order_eq, compareLex_eq_eq, compareOn, compareOn, Std.compare_eq_iff_eq,
      Std.compare_eq_iff_eq] at h
    exact Prod.ext h.1 h.2

/-- The keys are entered as a set. -/
theorem map_fst_enterAll (declarations : List (ResourceKey × Place)) :
    (enterAll [] declarations).map (·.1) = Assoc.keySet order (declarations.map (·.1)) :=
  Assoc.map_fst_foldl Assoc.map_fst_insertNew declarations

theorem increasing_enterAll (declarations : List (ResourceKey × Place)) :
    Assoc.Increasing order ((enterAll [] declarations).map (·.1)) := by
  rw [map_fst_enterAll]
  exact Assoc.increasing_keySet _

/-- What stands under a key is its first declaration. -/
theorem lookup_of_mem_enterAll {declarations : List (ResourceKey × Place)} {place : Place}
    (h : (key, place) ∈ enterAll [] declarations) : declarations.lookup key = some place :=
  (Assoc.lookup?_foldl_insertNew key declarations).symm.trans
    (Assoc.lookup?_of_mem (increasing_enterAll declarations) h)

variable {visited others : List Parsed}

/-- The keys of what is unused are those that are declared and not mentioned. -/
theorem mem_keys_unused :
    key ∈ (unused visited).map (·.1)
      ↔ (∃ p ∈ visited, Declares p key) ∧ ∀ p ∈ visited, ¬ Mentions p key := by
  have hkeys : key ∈ (enterAll [] (visited.flatMap declared)).map (·.1)
      ↔ ∃ p ∈ visited, Declares p key := by
    rw [map_fst_enterAll, Assoc.mem_keySet, List.map_flatMap, List.mem_flatMap]
    simp only [mem_keys_declared]
  rw [← hkeys, List.mem_map, List.mem_map]
  unfold unused
  constructor
  · rintro ⟨entry, hentry, rfl⟩
    obtain ⟨hentry, hnone⟩ := List.mem_filter.mp hentry
    exact ⟨⟨entry, hentry, rfl⟩, by simpa using hnone⟩
  · rintro ⟨⟨entry, hentry, rfl⟩, hnone⟩
    exact ⟨entry, List.mem_filter.mpr ⟨hentry, by simpa using hnone⟩, rfl⟩

/-- No key is reported twice. -/
theorem nodup_keys_unused (visited : List Parsed) : ((unused visited).map (·.1)).Nodup := by
  have hsublist : ((unused visited).map (·.1)).Sublist
      ((enterAll [] (visited.flatMap declared)).map (·.1)) := List.filter_sublist.map _
  exact hsublist.nodup (increasing_enterAll _).nodup

/-- In whatever order files and elements come, the same keys are unused. -/
theorem perm_keys_unused (h : Reordered visited others) :
    ((unused visited).map (·.1)).Perm ((unused others).map (·.1)) := by
  refine (List.perm_ext_iff_of_nodup (nodup_keys_unused _) (nodup_keys_unused _)).mpr fun key => ?_
  have hdeclares : (∃ p ∈ visited, Declares p key) ↔ ∃ p ∈ others, Declares p key :=
    h.exists_iff fun _ _ hpq hp => hp.reorders hpq
  have hmentions : (∃ p ∈ visited, Mentions p key) ↔ ∃ p ∈ others, Mentions p key :=
    h.exists_iff fun _ _ hpq hp => hp.reorders hpq
  rw [mem_keys_unused, mem_keys_unused, hdeclares]
  exact and_congr_right fun _ => by simpa using not_congr hmentions

-- ========================================================================= runs

variable {s : Session} {host : Host} {scope : Option Scope} {files : List Path}
  {project : Project}

theorem mem_registration :
    ⟨"UnusedResourceDetector", ["UnusedResources"], detector⟩ ∈ Registry.builtInRegistrations := by
  simp [Registry.builtInRegistrations]

/-- A run remarks on what is unused. -/
theorem perm_remarks_unused (h : s.Checks host scope files project)
    (hlooks : (s.jobOf host scope files project).LooksFor issue) :
    ((s.analyze host files scope).1.remarks project issue.id).Perm
      ((unused (s.jobOf host scope files project).parsed).map unusedRemark) := by
  have hissue : issue ∈ Registry.builtInIssues := by simp [Registry.builtInIssues]
  have hserving := Registry.serving?_builtIn mem_registration (List.mem_singleton_self issue.id)
  have hperm := h.perm_remarks hissue hserving hlooks
  rw [Run.Job.told_eq_toldAll hlooks.scope (by decide) (by decide) (by decide) fun _ => rfl,
    findings_toldAll] at hperm
  exact hperm

/-- Unused resources.  A run remarks, once each and at their first declarations,
on the resources that are declared in a file and mentioned in none; and which
ones the detector finds does not depend on the order in which it is told of
the files and of their elements. -/
theorem remarks_unused (h : s.Checks host scope files project)
    (hlooks : (s.jobOf host scope files project).LooksFor issue) :
    let parsed := (s.jobOf host scope files project).parsed
    ((s.analyze host files scope).1.remarks project issue.id).Perm
        ((unused parsed).map unusedRemark)
      ∧ ((unused parsed).map (·.1)).Nodup
      ∧ (∀ key, key ∈ (unused parsed).map (·.1)
          ↔ (∃ p ∈ parsed, Declares p key) ∧ ∀ p ∈ parsed, ¬ Mentions p key)
      ∧ (∀ key place, (key, place) ∈ unused parsed →
          (parsed.flatMap declared).lookup key = some place)
      ∧ ∀ visited, Reordered visited parsed →
          (detector.findings issue.id .blank
                ((s.jobOf host scope files project).toldAll detector visited)).map Finding.remark
              = (unused visited).map unusedRemark
            ∧ ((unused visited).map (·.1)).Perm ((unused parsed).map (·.1)) := by
  intro parsed
  refine ⟨perm_remarks_unused h hlooks, nodup_keys_unused parsed, fun key => mem_keys_unused,
    fun key place hunused => ?_, fun visited hreordered => ?_⟩
  · exact lookup_of_mem_enterAll (List.mem_filter.mp hunused).1
  · exact ⟨findings_toldAll visited, perm_keys_unused hreordered⟩

-- ============================================================ left over resources

/-- A project with a string and a layout that nothing mentions. -/
def leftovers : FileTree :=
  { here := ["ROOT"]
    entries :=
      [(["ROOT"], .directory),
        (["ROOT", "app"], .directory),
        (["ROOT", "app", "AndroidManifest.xml"],
          .file "<manifest theme='@style/App.Dark'/>".toUTF8),
        (["ROOT", "app", "res"], .directory),
        (["ROOT", "app", "res", "layout"], .directory),
        (["ROOT", "app", "res", "layout", "main.xml"], .file "<a b='@+id/first'/>".toUTF8),
        (["ROOT", "app", "res", "values"], .directory),
        (["ROOT", "app", "res", "values", "values.xml"],
          .file ("<resources><style name='App'/><style name='App.Dark'/>"
            ++ "<string name='old.title'/><string name='old_title'/></resources>").toUTF8)] }

def leftHost : Host := .ofTree leftovers fun _ => false

def leftProject : Project := .new ⟨"/ROOT/app"⟩ none

/-- The check of the project. -/
def leftJob : Run.Job := Session.unusedToo.jobOf leftHost none [⟨"/ROOT/app"⟩] leftProject

theorem keys_unused_leftovers :
    (unused leftJob.parsed).map (·.1) = [("layout", "main"), ("string", "old_title")] := by
  decide +kernel

theorem checks_leftovers :
    Session.unusedToo.Checks leftHost none [⟨"/ROOT/app"⟩] leftProject := by
  have hprojects : Session.projectsFor leftHost [⟨"/ROOT/app"⟩] = [leftProject] := by
    decide +kernel
  exact Session.checks_ofTree rfl rfl leftovers (hprojects ▸ List.mem_singleton_self _)

/-- The layout and one string are reported, the string where it comes first, and
they would be if the files came the other way round. -/
theorem remarks_unused_leftovers :
    ∃ layout string : ResourceKey × Place,
      ((Session.unusedToo.analyze leftHost [⟨"/ROOT/app"⟩] none).1.remarks leftProject
          issue.id).Perm [unusedRemark layout, unusedRemark string]
        ∧ layout.1 = ("layout", "main") ∧ string.1 = ("string", "old_title")
        ∧ (leftJob.parsed.flatMap declared).lookup string.1 = some string.2
        ∧ (∃ p ∈ leftJob.parsed, Declares p string.1)
        ∧ (∀ p ∈ leftJob.parsed, ¬ Mentions p string.1)
        ∧ (detector.findings issue.id .blank
              (leftJob.toldAll detector leftJob.parsed.reverse)).map Finding.remark
            = (unused leftJob.parsed.reverse).map unusedRemark
        ∧ ((unused leftJob.parsed.reverse).map (·.1)).Perm [layout.1, string.1] := by
  have hlooks : leftJob.LooksFor issue := ⟨by decide +kernel, by decide +kernel⟩
  obtain ⟨hperm, -, hkeys, hfirst, hreordered⟩ := remarks_unused checks_leftovers hlooks
  -- the files the other way round are a reordering
  have hreverse : Reordered leftJob.parsed.reverse leftJob.parsed :=
    ⟨_, List.reverse_perm _, List.forall₂_same.mpr fun p _ =>
      ⟨rfl, rfl, List.Perm.rfl, List.Perm.rfl, List.Perm.rfl⟩⟩
  obtain ⟨hreversed, hsame⟩ := hreordered _ hreverse
  obtain ⟨layout, rest, hunused, hlayout, hrest⟩ := List.map_eq_cons_iff.mp keys_unused_leftovers
  obtain ⟨string, hrest, hstring⟩ := List.map_eq_singleton_iff.mp hrest
  have hunused : unused leftJob.parsed = [layout, string] := by rw [hunused, hrest]
  have hmem : string ∈ unused leftJob.parsed := by simp [hunused]
  obtain ⟨hdeclares, hmentions⟩ := (hkeys string.1).mp (List.mem_map_of_mem hmem)
  rw [show (Session.unusedToo.jobOf leftHost none [⟨"/ROOT/app"⟩] leftProject).parsed
    = leftJob.parsed from rfl, hunused] at hperm hsame
  exact ⟨layout, string, hperm, hlayout, hstring, hfirst _ _ hmem, hdeclares, hmentions, hreversed,
    hsame⟩

-- ============================================================= a file without a name

/-- A project with a layout whose name begins with its dot. -/
def nameless : FileTree :=
  { here := ["ROOT"]
    entries :=
      [(["ROOT"], .directory),
        (["ROOT", "app"], .directory),
        (["ROOT", "app", "AndroidManifest.xml"], .file "<manifest/>".toUTF8),
        (["ROOT", "app", "res"], .directory),
        (["ROOT", "app", "res", "layout"], .directory),
        (["ROOT", "app", "res", "layout", ".xml"], .file "<a/>".toUTF8)] }

def namelessHost : Host := .ofTree nameless fun _ => false

/-- The check of the project. -/
def namelessJob : Run.Job := Session.unusedToo.jobOf namelessHost none [⟨"/ROOT/app"⟩] leftProject

theorem checks_nameless :
    Session.unusedToo.Checks namelessHost none [⟨"/ROOT/app"⟩] leftProject := by
  have hprojects : Session.projectsFor namelessHost [⟨"/ROOT/app"⟩] = [leftProject] := by
    decide +kernel
  exact Session.checks_ofTree rfl rfl nameless (hprojects ▸ List.mem_singleton_self _)

/-- The layout is mentioned nowhere, and yet it is not reported: so not every
file outside the values folders declares what is before the first dot of its
name. -/
theorem not_remarks_nameless :
    ¬ ∀ p ∈ namelessJob.parsed, ∀ folder, p.folder = some folder → folder ≠ .values →
      (∀ q ∈ namelessJob.parsed, ¬ Mentions q (keyOf folder.name (stem p.file))) →
        ∃ place, unusedRemark (keyOf folder.name (stem p.file), place)
          ∈ (Session.unusedToo.analyze namelessHost [⟨"/ROOT/app"⟩] none).1.remarks leftProject
              issue.id := by
  intro hall
  have hlooks : namelessJob.LooksFor issue := ⟨by decide +kernel, by decide +kernel⟩
  have hnone : unused namelessJob.parsed = [] := by decide +kernel
  have hparsed : ∃ p ∈ namelessJob.parsed, p.folder = some .layout
      ∧ ∀ q ∈ namelessJob.parsed, mentions q = [] := by decide +kernel
  obtain ⟨p, hp, hfolder, hsilent⟩ := hparsed
  have hmentions : ∀ q ∈ namelessJob.parsed,
      ¬ Mentions q (keyOf FolderType.layout.name (stem p.file)) := fun q hq hmention => by
    have hmem := mem_mentions.mpr hmention
    rw [hsilent q hq] at hmem
    cases hmem
  obtain ⟨place, hremark⟩ := hall p hp .layout hfolder (by decide) hmentions
  have hperm := perm_remarks_unused checks_nameless hlooks
  rw [show (Session.unusedToo.jobOf namelessHost none [⟨"/ROOT/app"⟩] leftProject).parsed
    = namelessJob.parsed from rfl, hnone] at hperm
  rw [hperm.eq_nil] at hremark
  cases hremark

end UnusedResources

end ResourceLint
