/-
Findings by project.

The projects that were checked are entered under their directories, and each
finding is added to what is entered under its own.  So what stands under a
directory is known at any time from the projects and the findings so far: the
project, or one named in the first finding, and the findings of the directory
in the order they came (`filed_foldl`).

Where the projects have different directories, this divides the findings among
them (`partitions_byProject`): each project comes once, with findings or
without, each finding is filed once, and the counts add up.
-/
import Mathlib.Algebra.BigOperators.Group.List.Basic
import Mathlib.Algebra.Ring.Nat
import Mathlib.Data.List.Pairwise
import ResourceLint.Proofs.Keys
import ResourceLint.Proofs.Paths
import ResourceLint.Proofs.Sorting
import ResourceLint.Report.Pages

namespace ResourceLint

open Std (LawfulEqCmp TransCmp)

-- ==================================================== the order of directories

namespace Path

theorem Component.compare_eq :
    Component.compare = compareLex (compareOn Component.rank) (compareOn Component.text) := by
  funext a b
  cases a <;> cases b <;> rfl

instance : TransCmp Component.compare := by
  rw [Component.compare_eq]
  infer_instance

instance : LawfulEqCmp Component.compare where
  compare_self {a} := by
    rw [Component.compare_eq]
    exact Std.ReflCmp.compare_self
  eq_of_compare {a b} h := by
    rw [Component.compare_eq, compareLex_eq_eq, compareOn, compareOn, Std.compare_eq_iff_eq,
      Std.compare_eq_iff_eq] at h
    obtain ⟨hrank, htext⟩ := h
    cases a <;> cases b <;> simp [Component.rank, Component.text] at hrank htext ⊢
    exact htext

/-- The order of paths is that of their components. -/
abbrev componentsOrder : List Component → List Component → Ordering :=
  List.compareLex Component.compare

end Path

namespace Report

open ResourceLint.Path (Component componentsOrder)

-- ============================================================== what is filed

/-- What the directory of a finding denotes. -/
def stepsOf (w : Warning) : List Component := (directoryOf w).components

/-- The findings of a directory. -/
def filedUnder (steps : List Component) (found : List Warning) : List Warning :=
  found.filter (stepsOf · = steps)

/-- The project with a directory: the last that was entered, or one that the
first finding of the directory tells of. -/
def owner? (projects : List CheckedProject) (found : List Warning) (steps : List Component) :
    Option CheckedProject :=
  (projects.reverse.find? (·.directory.components = steps)).or
    ((found.find? (stepsOf · = steps)).map fun w => ⟨w.project, directoryOf w⟩)

variable {projects : List CheckedProject} {found : List Warning}
  {all : List (Path × ProjectFindings)} {steps : List Component}

/-- Entries under what their keys denote. -/
def underSteps (all : List (Path × ProjectFindings)) : List (List Component × ProjectFindings) :=
  all.map (Prod.map Path.components id)

/-- What has been filed of some findings. -/
structure Filed (projects : List CheckedProject) (found : List Warning)
    (all : List (Path × ProjectFindings)) : Prop where
  increasing : Assoc.Increasing componentsOrder ((underSteps all).map (·.1))
  lookup : ∀ steps, Assoc.lookup? componentsOrder steps (underSteps all)
    = (owner? projects found steps).map fun project => ⟨project, filedUnder steps found⟩

/-- Filing keeps the projects in order, compared by the steps of their paths. -/
theorem increasing_underSteps_insert (p : Path) (value : ProjectFindings)
    (h : Assoc.Increasing componentsOrder ((underSteps all).map (·.1))) :
    Assoc.Increasing componentsOrder
      ((underSteps (Assoc.insert Path.compare p value all)).map (·.1)) := by
  have hinsert : underSteps (Assoc.insert Path.compare p value all)
      = Assoc.insert componentsOrder p.components value (underSteps all) :=
    Assoc.map_insert_comap Path.components p value all
  rw [hinsert, Assoc.map_fst_insert]
  exact Assoc.increasing_insertKey h

/-- What is filed is found under its steps, and everything else where it was. -/
theorem lookup?_underSteps_insert (p : Path) (value : ProjectFindings) (steps : List Component) :
    Assoc.lookup? componentsOrder steps (underSteps (Assoc.insert Path.compare p value all))
      = if steps = p.components then some value
        else Assoc.lookup? componentsOrder steps (underSteps all) := by
  have hinsert : underSteps (Assoc.insert Path.compare p value all)
      = Assoc.insert componentsOrder p.components value (underSteps all) :=
    Assoc.map_insert_comap Path.components p value all
  rw [hinsert, Assoc.lookup?_insert]

/-- The projects, before anything is filed. -/
theorem filed_start (projects : List CheckedProject) :
    Filed projects []
      (projects.foldl (fun all p => Assoc.insert Path.compare p.directory ⟨p, []⟩ all) []) := by
  induction projects using List.reverseRecOn with
  | nil => exact ⟨Assoc.increasing_nil, fun _ => rfl⟩
  | append_singleton projects p ih =>
      rw [List.foldl_concat]
      refine ⟨increasing_underSteps_insert _ _ ih.increasing, fun steps => ?_⟩
      rw [lookup?_underSteps_insert, ih.lookup, owner?, owner?, List.reverse_append,
        List.reverse_singleton, List.singleton_append]
      by_cases hsteps : steps = p.directory.components
      · rw [if_pos hsteps, List.find?_cons_of_pos (by simpa using hsteps.symm)]
        rfl
      · rw [if_neg hsteps, List.find?_cons_of_neg (by simpa using Ne.symm hsteps)]

/-- The first finding in a directory names its project. -/
theorem owner?_concat (w : Warning) (steps : List Component) :
    owner? projects (found ++ [w]) steps
      = (owner? projects found steps).or
        (if stepsOf w = steps then some ⟨w.project, directoryOf w⟩ else none) := by
  unfold owner?
  rw [List.find?_append, Option.map_or, Option.or_assoc]
  by_cases hsteps : stepsOf w = steps
  · rw [if_pos hsteps, List.find?_cons_of_pos (by simpa using hsteps)]
    rfl
  · rw [if_neg hsteps, List.find?_cons_of_neg (by simpa using hsteps)]
    rfl

/-- One finding more. -/
theorem Filed.file (h : Filed projects found all) (w : Warning) :
    Filed projects (found ++ [w]) (file all w) := by
  have hknown : Assoc.lookup? Path.compare (directoryOf w) all
      = (owner? projects found (stepsOf w)).map fun project =>
        ⟨project, filedUnder (stepsOf w) found⟩ := by
    rw [← h.lookup]
    exact Assoc.lookup?_comap Path.components (directoryOf w) all
  refine ⟨increasing_underSteps_insert _ _ h.increasing, fun steps => ?_⟩
  unfold Report.file
  simp only
  rw [lookup?_underSteps_insert, hknown, h.lookup, owner?_concat]
  change (if steps = stepsOf w then _ else _) = _
  by_cases hsteps : steps = stepsOf w
  · subst hsteps
    have hfiled : filedUnder (stepsOf w) (found ++ [w]) = filedUnder (stepsOf w) found ++ [w] := by
      simp [filedUnder]
    rw [if_pos rfl, if_pos rfl, hfiled]
    cases howner : owner? projects found (stepsOf w) with
    | some project => rfl
    | none =>
        -- nothing was filed in a directory that nobody has
        have hnone : filedUnder (stepsOf w) found = [] := by
          rw [owner?, Option.or_eq_none_iff, Option.map_eq_none_iff] at howner
          exact List.filter_eq_nil_iff.mpr (List.find?_eq_none.mp howner.2)
        rw [hnone]
        rfl
  · have hfiled : filedUnder steps (found ++ [w]) = filedUnder steps found := by
      simp [filedUnder, Ne.symm hsteps]
    rw [if_neg hsteps, if_neg (Ne.symm hsteps), Option.or_none, hfiled]

/-- What stands under a directory, once all findings are filed. -/
theorem filed_foldl (projects : List CheckedProject) (found : List Warning) :
    Filed projects found (found.foldl file
      (projects.foldl (fun all p => Assoc.insert Path.compare p.directory ⟨p, []⟩ all) [])) := by
  induction found using List.reverseRecOn with
  | nil => exact filed_start projects
  | append_singleton found w ih =>
      rw [List.foldl_concat]
      exact ih.file w

-- ================================================================ the division

/-- A division of findings among projects. -/
structure Partitions (projects : List CheckedProject) (found : List Warning)
    (findings : List ProjectFindings) : Prop where
  /-- the projects come by directory, no directory twice -/
  increasing : findings.Pairwise fun a b =>
    Path.compare a.project.directory b.project.directory = .lt
  /-- each has the findings of its directory, in the order they came -/
  warnings : ∀ f ∈ findings,
    f.warnings = found.filter fun w => (directoryOf w).same f.project.directory
  listed : ∀ p ∈ projects, ∃ f ∈ findings, f.project = p
  complete : ∀ w ∈ found, ∃ f ∈ findings, (directoryOf w).same f.project.directory
  /-- there are no projects but those listed and those that findings tell of -/
  sound : ∀ f ∈ findings, f.project ∈ projects
    ∨ ∃ w ∈ found, f.project = ⟨w.project, directoryOf w⟩
  total : (findings.map (·.warnings.length)).sum = found.length

/-- An owner is filed under its own directory. -/
theorem directory_of_owner? {project : CheckedProject}
    (h : owner? projects found steps = some project) : project.directory.components = steps := by
  unfold owner? at h
  rcases Option.or_eq_some_iff.mp h with hlisted | ⟨-, hfirst⟩
  · simpa using List.find?_some hlisted
  · obtain ⟨w, hfind, rfl⟩ := Option.map_eq_some_iff.mp hfirst
    have hsteps := List.find?_some hfind
    exact of_decide_eq_true hsteps

/-- Of distinct keys one alone is the given one. -/
theorem sum_indicator {κ : Type} [DecidableEq κ] {k : κ} {keys : List κ} (hnodup : keys.Nodup)
    (hmem : k ∈ keys) : (keys.map fun other => if k = other then 1 else 0).sum = 1 := by
  induction keys with
  | nil => cases hmem
  | cons first keys ih =>
      obtain ⟨hfirst, hkeys⟩ := List.nodup_cons.mp hnodup
      rw [List.map_cons, List.sum_cons]
      by_cases hk : k = first
      · have hrest : (keys.map fun other => if k = other then 1 else 0) = keys.map fun _ => 0 :=
          List.map_congr_left fun other hother => if_neg fun heq =>
            hfirst ((hk.symm.trans heq) ▸ hother)
        rw [if_pos hk, hrest]
        simp
      · rw [if_neg hk, ih hkeys ((List.mem_cons.mp hmem).resolve_left hk)]

/-- Each item is counted under its own key. -/
theorem sum_length_filter {α κ : Type} [DecidableEq κ] (key : α → κ) {keys : List κ} (items : List α)
    (hnodup : keys.Nodup) (hall : ∀ a ∈ items, key a ∈ keys) :
    (keys.map fun k => (items.filter (key · = k)).length).sum = items.length := by
  induction items with
  | nil => simp
  | cons a items ih =>
      rw [List.forall_mem_cons] at hall
      have hcons : ∀ k, ((a :: items).filter (key · = k)).length
          = (if key a = k then 1 else 0) + (items.filter (key · = k)).length := by
        intro k
        by_cases hk : key a = k
        · rw [List.filter_cons_of_pos (by simpa using hk), if_pos hk, List.length_cons, Nat.add_comm]
        · rw [List.filter_cons_of_neg (by simpa using hk), if_neg hk, Nat.zero_add]
      simp only [hcons]
      rw [List.sum_map_add, sum_indicator hnodup hall.1, ih hall.2, List.length_cons, Nat.add_comm]

/-- The findings by project are what all findings were filed to. -/
theorem mem_byProject_iff {f : ProjectFindings} : f ∈ byProject projects found
    ↔ ∃ steps, (steps, f) ∈ underSteps (found.foldl file
      (projects.foldl (fun all p => Assoc.insert Path.compare p.directory ⟨p, []⟩ all) [])) := by
  unfold byProject underSteps
  simp [List.mem_map]

/-- What is filed for a directory is what its owner has. -/
theorem mem_byProject {f : ProjectFindings} : f ∈ byProject projects found
    ↔ ∃ project, owner? projects found project.directory.components = some project
      ∧ f = ⟨project, filedUnder project.directory.components found⟩ := by
  have hfiled := filed_foldl projects found
  rw [mem_byProject_iff]
  constructor
  · rintro ⟨steps, hmem⟩
    have hlookup := Assoc.lookup?_of_mem hfiled.increasing hmem
    rw [hfiled.lookup, Option.map_eq_some_iff] at hlookup
    obtain ⟨project, howner, rfl⟩ := hlookup
    obtain rfl := directory_of_owner? howner
    exact ⟨project, howner, rfl⟩
  · rintro ⟨project, howner, rfl⟩
    have hlookup := hfiled.lookup project.directory.components
    rw [howner] at hlookup
    exact ⟨project.directory.components, Assoc.mem_of_lookup? hlookup⟩

/-- The projects come by directory. -/
theorem increasing_byProject (projects : List CheckedProject) (found : List Warning) :
    (byProject projects found).Pairwise fun a b =>
      Path.compare a.project.directory b.project.directory = .lt := by
  have hfiled := filed_foldl projects found
  have hkeys := hfiled.increasing
  unfold byProject
  rw [List.pairwise_map]
  unfold Assoc.Increasing underSteps at hkeys
  rw [List.pairwise_map, List.pairwise_map] at hkeys
  refine hkeys.imp_of_mem fun {a b} ha hb hlt => ?_
  -- the key of an entry denotes the directory of its project
  have hkey : ∀ entry ∈ found.foldl file
      (projects.foldl (fun all p => Assoc.insert Path.compare p.directory ⟨p, []⟩ all) []),
      entry.2.project.directory.components = entry.1.components := by
    intro entry hentry
    have hmem : (entry.1.components, entry.2) ∈ underSteps (found.foldl file
        (projects.foldl (fun all p => Assoc.insert Path.compare p.directory ⟨p, []⟩ all) [])) :=
      List.mem_map_of_mem hentry
    have hlookup := Assoc.lookup?_of_mem hfiled.increasing hmem
    rw [hfiled.lookup, Option.map_eq_some_iff] at hlookup
    obtain ⟨project, howner, heq⟩ := hlookup
    rw [← heq]
    exact directory_of_owner? howner
  unfold Path.compare
  rw [hkey a ha, hkey b hb]
  exact hlt

/-- No other project has the directory of one. -/
theorem find?_reverse_of_distinct
    (hdistinct : projects.Pairwise fun p q => ¬ p.directory.same q.directory) {p : CheckedProject}
    (hp : p ∈ projects) :
    projects.reverse.find? (·.directory.components = p.directory.components) = some p := by
  cases hfind : projects.reverse.find? (·.directory.components = p.directory.components) with
  | none => simpa using List.find?_eq_none.mp hfind p (List.mem_reverse.mpr hp)
  | some q =>
      have hq : q ∈ projects := List.mem_reverse.mp (List.mem_of_find?_eq_some hfind)
      have hsame : q.directory.same p.directory := by
        have hsteps := List.find?_some hfind
        exact beq_iff_eq.mpr (of_decide_eq_true hsteps)
      have hsymm : Std.Symm fun p q : CheckedProject => ¬ p.directory.same q.directory :=
        ⟨fun a b hab hba => hab (by rwa [Path.same_comm])⟩
      by_contra hne
      exact hdistinct.forall hq hp (fun heq => hne (by rw [heq])) hsame

/-- A project has the findings filed under its directory, in order. -/
theorem warnings_of_mem_byProject {f : ProjectFindings} (h : f ∈ byProject projects found) :
    f.warnings = filedUnder f.project.directory.components found := by
  obtain ⟨project, -, rfl⟩ := mem_byProject.mp h
  rfl

/-- Every finding belongs to a project. -/
theorem exists_mem_byProject {w : Warning} (h : w ∈ found) :
    ∃ f ∈ byProject projects found, f.project.directory.components = stepsOf w := by
  have hsome : (owner? projects found (stepsOf w)).isSome := by
    have hfirst : (found.find? (stepsOf · = stepsOf w)).isSome :=
      List.find?_isSome.mpr ⟨w, h, decide_eq_true rfl⟩
    rw [owner?, Option.isSome_or, Option.isSome_map, hfirst, Bool.or_true]
  obtain ⟨project, howner⟩ := Option.isSome_iff_exists.mp hsome
  have hdirectory := directory_of_owner? howner
  exact ⟨_, mem_byProject.mpr ⟨project, hdirectory ▸ howner, rfl⟩, hdirectory⟩

/-- A project is one of the listed ones, or it is one that a finding tells of. -/
theorem project_of_mem_byProject {f : ProjectFindings} (h : f ∈ byProject projects found) :
    f.project ∈ projects ∨ ∃ w ∈ found, f.project = ⟨w.project, directoryOf w⟩ := by
  obtain ⟨project, howner, rfl⟩ := mem_byProject.mp h
  unfold owner? at howner
  rcases Option.or_eq_some_iff.mp howner with hlisted | ⟨-, hfirst⟩
  · exact .inl (List.mem_reverse.mp (List.mem_of_find?_eq_some hlisted))
  · obtain ⟨w, hfind, hproject⟩ := Option.map_eq_some_iff.mp hfirst
    exact .inr ⟨w, List.mem_of_find?_eq_some hfind, hproject.symm⟩

/-- No project is there twice. -/
theorem nodup_byProject (projects : List CheckedProject) (found : List Warning) :
    ((byProject projects found).map (·.project.directory.components)).Nodup := by
  rw [List.nodup_iff_pairwise_ne, List.pairwise_map]
  refine (increasing_byProject projects found).imp fun hlt heq => ?_
  have hself : Path.compare _ _ = .eq := (congrArg (componentsOrder · _) heq).trans
    Std.ReflCmp.compare_self
  rw [hself] at hlt
  cases hlt

/-- No finding is lost, and none is filed twice. -/
theorem total_byProject (projects : List CheckedProject) (found : List Warning) :
    ((byProject projects found).map (·.warnings.length)).sum = found.length := by
  have hall : ∀ w ∈ found,
      stepsOf w ∈ (byProject projects found).map (·.project.directory.components) := by
    intro w hw
    obtain ⟨f, hf, hdirectory⟩ := @exists_mem_byProject projects found w hw
    exact hdirectory ▸ List.mem_map_of_mem hf
  rw [← sum_length_filter stepsOf found (nodup_byProject projects found) hall, List.map_map]
  exact congrArg List.sum (List.map_congr_left fun f hf =>
    congrArg List.length (warnings_of_mem_byProject hf))

/-- Findings are divided among the projects. -/
theorem partitions_byProject
    (hdistinct : projects.Pairwise fun p q => ¬ p.directory.same q.directory) :
    Partitions projects found (byProject projects found) where
  increasing := increasing_byProject projects found
  warnings f hf := by
    rw [warnings_of_mem_byProject hf, filedUnder]
    refine List.filter_congr fun w _ => ?_
    rw [Bool.eq_iff_iff, decide_eq_true_iff, Path.same, beq_iff_eq, stepsOf]
  listed p hp := by
    refine ⟨_, mem_byProject.mpr ⟨p, ?_, rfl⟩, rfl⟩
    rw [owner?, find?_reverse_of_distinct hdistinct hp, Option.some_or]
  complete w hw := by
    obtain ⟨f, hf, hdirectory⟩ := @exists_mem_byProject projects found w hw
    exact ⟨f, hf, beq_iff_eq.mpr hdirectory.symm⟩
  sound f hf := project_of_mem_byProject hf
  total := total_byProject projects found

end Report
end ResourceLint
