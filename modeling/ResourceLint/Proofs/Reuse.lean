/-
What a session keeps from run to run, and that it makes no difference.

A session keeps two things: the configurations it has read, by directory,
and a wish to end that came after the last run was over.  As long as the
tree stays as it is, a configuration that was read before is the one that
would be read now, however the directory was written then
(`Configuration.ofDirectory_congr`).  So a session that was used over a tree
is `Alike` to the one it began as (`Reached.alike`), and unless it is to end
at once, it gives the same results (`Alike.analyze_eq`).
-/
import ResourceLint.Proofs.Sessions

namespace ResourceLint

-- ============================================ settings of a directory

namespace Settings

open ResourceLint.Path (IsName)

variable {p q : Path}

theorem isName_of_mem_projectNames : ∀ name ∈ projectNames, IsName name := by decide

/-- A file of a directory is loaded alike however the directory is written. -/
theorem load_child_congr (t : FileTree) (h : p.same q) {name : String} (hname : IsName name) :
    load t (p.child name) = load t (q.child name) := by
  have htext : t.readText (p.child name) = t.readText (q.child name) := by
    unfold FileTree.readText FileTree.readBytes
    rw [t.find_child_congr h hname]
  have hextension : (p.child name).extension? = (q.child name).extension? := by
    unfold Path.extension?
    rw [Path.fileName?_child p hname, Path.fileName?_child q hname]
  unfold load
  rw [htext, hextension]

/-- The settings of a directory are the same however it is written. -/
theorem load_findIn?_congr (t : FileTree) (h : p.same q) :
    (findIn? t p).map (load t) = (findIn? t q).map (load t) := by
  have hfile : ∀ name ∈ projectNames, t.isFile (p.child name) = t.isFile (q.child name) := by
    intro name hname
    unfold FileTree.isFile
    rw [t.find_child_congr h (isName_of_mem_projectNames name hname)]
  have hfind : projectNames.find? (t.isFile ∘ p.child)
      = projectNames.find? (t.isFile ∘ q.child) := by
    rw [← List.head?_filter, ← List.head?_filter]
    exact congrArg _ (List.filter_congr hfile)
  unfold findIn?
  rw [List.find?_map, List.find?_map, hfind, Option.map_map, Option.map_map]
  cases hfound : projectNames.find? (t.isFile ∘ q.child) with
  | none => rfl
  | some name =>
      have hname := isName_of_mem_projectNames name (List.mem_of_find?_eq_some hfound)
      exact congrArg some (load_child_congr t h hname)

end Settings

/-- The configuration of a directory is the same however it is written. -/
theorem Configuration.ofDirectory_congr (t : FileTree) (user : Option Settings)
    (selection : Selection) {p q : Path} (h : p.same q) :
    ofDirectory t user selection p = ofDirectory t user selection q := by
  unfold ofDirectory
  rw [Settings.load_findIn?_congr t h]

namespace Session

-- ======================================================= sessions alike

/-- A session like a given one, except that it may remember configurations,
which are those that the tree gives, and that it may be to end. -/
structure Alike (t : FileTree) (fresh s : Session) : Prop where
  registry : s.registry = fresh.registry
  user : s.user = fresh.user
  selection : s.selection = fresh.selection
  options : s.options = fresh.options
  configurations : ∀ entry ∈ s.configurations,
    entry.2 = .ofDirectory t fresh.user fresh.selection entry.1

variable {t : FileTree} {fresh s : Session} {host : Host} {scope : Option Scope}

/-- A session that remembers nothing is like itself. -/
theorem alike_of_nil (t : FileTree) (h : s.configurations = []) : Alike t s s :=
  ⟨rfl, rfl, rfl, rfl, fun entry hentry => by rw [h] at hentry; cases hentry⟩

namespace Alike

/-- What is remembered is what would be read. -/
theorem configuration (h : Alike t fresh s) (directory : Path) :
    (s.configuration t directory).1 = .ofDirectory t fresh.user fresh.selection directory
      ∧ Alike t fresh (s.configuration t directory).2 := by
  cases hfind : known? s.configurations directory with
  | some entry =>
      have hsame := same_of_known? hfind
      rw [configuration_of_some hfind]
      refine ⟨?_, h⟩
      change entry.2 = _
      rw [h.configurations entry (List.mem_of_find?_eq_some hfind)]
      exact Configuration.ofDirectory_congr t _ _ hsame
  | none =>
      rw [configuration_of_none hfind]
      refine ⟨by rw [h.user, h.selection], h.registry, h.user, h.selection, h.options, ?_⟩
      intro entry hentry
      rcases List.mem_cons.mp hentry with rfl | hentry
      · change Configuration.ofDirectory t s.user s.selection directory = _
        rw [h.user, h.selection]
      · exact h.configurations entry hentry

theorem checkProject {g : Going} (h : Alike t fresh g.session) (htree : host.tree = t)
    (paths : PathDisplay) (project : Project) :
    Alike t fresh (checkProject host scope paths g project).session := by
  unfold Session.checkProject
  split
  · exact h
  · rw [htree]
    exact (h.configuration project.directory).2

/-- A run leaves a session that is like the one before. -/
theorem analyze (h : Alike t fresh s) (htree : host.tree = t) (files : List Path)
    (scope : Option Scope) : Alike t fresh (s.analyze host files scope).2 := by
  have hfold : ∀ (projects : List Project) (g : Going), Alike t fresh g.session →
      Alike t fresh
        (projects.foldl (Session.checkProject host scope (s.pathsFor host files)) g).session := by
    intro projects
    induction projects with
    | nil => exact fun _ hg => hg
    | cons project projects ih => exact fun g hg => ih _ (hg.checkProject htree _ project)
  obtain ⟨hregistry, huser, hselection, hoptions, hconfigurations⟩ :=
    hfold (projectsFor host files) { session := s, progress := s.started host, projects := [] } h
  exact ⟨hregistry, huser, hselection, hoptions, hconfigurations⟩

/-- The jobs of a run are those of the session it is like. -/
theorem jobFor_eq (h : Alike t fresh s) (hfresh : Alike t fresh fresh) (htree : host.tree = t)
    (scope : Option Scope) (paths : PathDisplay) (project : Project) :
    s.jobFor host scope paths project = fresh.jobFor host scope paths project := by
  unfold jobFor
  rw [htree, (h.configuration project.directory).1, (hfresh.configuration project.directory).1,
    h.registry, h.options]

/-- A session gives the results of the one it is like, when both are to begin
or to end at once. -/
theorem analyze_eq (h : Alike t fresh s) (hfresh : Alike t fresh fresh) (htree : host.tree = t)
    (hcanceled : s.canceled = fresh.canceled) (files : List Path) (scope : Option Scope) :
    (s.analyze host files scope).1 = (fresh.analyze host files scope).1 := by
  have hpaths : s.pathsFor host files = fresh.pathsFor host files := by
    unfold pathsFor
    rw [h.options]
  have hstarted : s.started host = fresh.started host := by
    unfold started
    rw [hcanceled]
  have hadvance : s.advance host scope (s.pathsFor host files)
      = fresh.advance host scope (fresh.pathsFor host files) := by
    funext r project
    unfold advance
    rw [hpaths, h.jobFor_eq hfresh htree]
  have hcourse : ((s.course host files scope).progress, (s.course host files scope).projects)
      = ((fresh.course host files scope).progress, (fresh.course host files scope).projects) := by
    rw [course_eq_foldl_advance, course_eq_foldl_advance, hadvance, hstarted]
  obtain ⟨hprogress, hprojects⟩ := Prod.mk.inj hcourse
  rw [Session.analyze_eq, Session.analyze_eq]
  dsimp only
  rw [hprogress, hprojects, hpaths]

end Alike

-- ======================================================= sessions reached

/-- The sessions that a session becomes by being used over a tree: by runs,
whatever they are asked for and whenever they are ended, and by wishes to
end that come between them. -/
inductive Reached (t : FileTree) (fresh : Session) : Session → Prop
  | fresh : Reached t fresh fresh
  | run {s : Session} (h : Reached t fresh s) (host : Host) (htree : host.tree = t)
    (files : List Path) (scope : Option Scope) : Reached t fresh (s.analyze host files scope).2
  | ask {s : Session} (h : Reached t fresh s) : Reached t fresh { s with canceled := true }

/-- Use leaves a session that is like the one it began as. -/
theorem Reached.alike (h : Reached t fresh s) (hfresh : Alike t fresh fresh) :
    Alike t fresh s := by
  induction h with
  | fresh => exact hfresh
  | run _ host htree files scope ih => exact ih.analyze htree files scope
  | ask _ ih => exact ⟨ih.registry, ih.user, ih.selection, ih.options, ih.configurations⟩

end Session

end ResourceLint
