/-
What a wish to end a run does, whenever it comes.

The run as it would be if nobody ever asked is `Session.patient`: the
listener stays silent, and the detectors answer as they do, without the
wish.  Its scripts are the same, so a run that is ended performs a beginning
of what the patient run performs (`shadows_foldl_perform`), and its warnings
are among those of the patient run.

The whole protocol is `Session.HonorsWishes`; who asks is known from
`Wishes`.
-/
import ResourceLint.Proofs.Wishes

namespace ResourceLint

-- ======================================================= nobody asks

/-- Whether a detector asks for the end of the run. -/
def Emission.isWish : Emission → Bool
  | .cancel => true
  | .report _ | .note _ => false

/-- The detector that answers the same, without asking for the end. -/
def Detector.patient (d : Detector) : Detector :=
  { d with
    react := fun memory context call =>
      let (memory, emissions) := d.react memory context call
      (memory, emissions.filter (!·.isWish)) }

def Registry.patient (r : Registry) : Registry :=
  { r with registrations := r.registrations.map fun reg =>
      { reg with detector := reg.detector.patient } }

/-- The same place with a listener that never asks for the end. -/
def Host.patient (host : Host) : Host := { host with cancels := fun _ => false }

def ActiveDetector.patient (a : ActiveDetector) : ActiveDetector :=
  { a with detector := a.detector.patient }

def Run.Job.patient (job : Run.Job) : Run.Job :=
  { job with host := job.host.patient, registry := job.registry.patient }

/-- The session as it is when nobody asks for the end of a run. -/
def Session.patient (s : Session) : Session :=
  { s with registry := s.registry.patient, canceled := false }

/-- A patient detector never asks for the end. -/
theorem Detector.stays_patient (d : Detector) : d.patient.Stays := by
  intro memory context call h
  cases (List.mem_filter.mp h).2

/-- Patience changes nothing that a detector declares. -/
theorem ActiveDetector.declares_patient : Declares patient :=
  ⟨fun _ => rfl, fun _ => rfl, fun _ => rfl, fun _ => rfl, fun _ => rfl, fun _ => rfl⟩

namespace Registry

variable {isEnabled : Issue → Bool} {scope : Scope}

/-- A patient detector is activated when the detector is. -/
theorem activate?_patient (r : Registry) (reg : Registration) :
    r.patient.activate? isEnabled scope { reg with detector := reg.detector.patient }
      = (r.activate? isEnabled scope reg).map ActiveDetector.patient := by
  have hissues :
      r.patient.activeIssues isEnabled scope { reg with detector := reg.detector.patient }
        = r.activeIssues isEnabled scope reg := rfl
  unfold activate?
  rw [hissues]
  cases r.activeIssues isEnabled scope reg <;> rfl

/-- The same detectors run. -/
theorem activate_patient (r : Registry) :
    r.patient.activate isEnabled scope
      = (r.activate isEnabled scope).map ActiveDetector.patient := by
  unfold activate
  rw [List.map_filterMap]
  change (r.registrations.map _).filterMap _ = _
  rw [List.filterMap_map]
  exact List.filterMap_congr fun reg _ => activate?_patient r reg

end Registry

namespace Run

variable {job : Job} {p q : Progress}

/-- A run and the patient run after the same steps. -/
structure Shadows (p q : Progress) : Prop where
  warnings : q.warnings = p.warnings
  sources : q.sources = p.sources
  active : q.active = p.active.map ActiveDetector.patient

namespace Job

/-- The script of a check does not ask how patient the detectors are. -/
theorem script_patient (job : Job) (cast : List ActiveDetector) :
    job.patient.script (cast.map ActiveDetector.patient) = job.script cast :=
  script_map ActiveDetector.declares_patient cast

/-- Patient detectors find the same. -/
theorem findingsOf_patient (active : List ActiveDetector) (step : Step) :
    findingsOf (active.map ActiveDetector.patient) step = findingsOf active step := by
  have hspoken : ∀ es : List Emission,
      (es.filter (!·.isWish)).filterMap Emission.finding? = es.filterMap Emission.finding? := by
    intro es
    rw [List.filterMap_filter]
    refine List.filterMap_congr fun e _ => ?_
    cases e <;> rfl
  cases step with
  | opened => rfl
  | fault => rfl
  | call context who made =>
      simp only [findingsOf, List.getElem?_map]
      cases active[who]? with
      | none => rfl
      | some a => exact hspoken _

/-- Patient detectors remember the same. -/
theorem remembering_patient (active : List ActiveDetector) (step : Step) :
    remembering (active.map ActiveDetector.patient) step
      = (remembering active step).map ActiveDetector.patient := by
  cases step with
  | opened => rfl
  | fault => rfl
  | call context who made =>
      simp only [remembering, List.getElem?_map]
      cases active[who]? with
      | none => rfl
      | some a =>
          change _ = (active.set who _).map ActiveDetector.patient
          rw [List.map_set]
          rfl

/-- The same step leads from a run and the patient run to a run and the
patient run. -/
theorem shadows_perform (h : Shadows p q) (step : Step) :
    Shadows (job.perform p step) (job.patient.perform q step) where
  warnings := by
    rw [warnings_perform, warnings_perform, h.active, findingsOf_patient, h.warnings, h.sources]
    rfl
  sources := by rw [sources_perform, sources_perform, h.sources]
  active := by rw [active_perform, active_perform, h.active, remembering_patient]

/-- A run is shadowed over any steps. -/
theorem shadows_foldl_perform (h : Shadows p q) (steps : List Step) :
    Shadows (steps.foldl job.perform p) (steps.foldl job.patient.perform q) := by
  induction steps generalizing p q with
  | nil => exact h
  | cons step steps ih => exact ih (shadows_perform h step)

/-- A step takes back no warning. -/
theorem prefix_perform (step : Step) : p.warnings <+: (job.perform p step).warnings := by
  rw [warnings_perform]
  exact List.prefix_append ..

/-- Warnings are only added. -/
theorem prefix_foldl_perform (steps : List Step) :
    p.warnings <+: (steps.foldl job.perform p).warnings := by
  induction steps generalizing p with
  | nil => exact List.prefix_rfl
  | cons step steps ih => exact (prefix_perform step).trans ih

/-- A check finds a beginning of what the patient check finds, and all of it
when it is not ended. -/
theorem prefix_check_patient (h : Shadows p q)
    (hgoes : (job.patient.check q).canceled = false) :
    (job.check p).warnings <+: (job.patient.check q).warnings
      ∧ ((job.check p).canceled = false →
        (job.patient.check q).warnings = (job.check p).warnings) := by
  have hscript : job.patient.script (q.active.map ActiveDetector.rested)
      = job.script (p.active.map ActiveDetector.rested) := by
    rw [script_map ActiveDetector.declares_rested, script_map ActiveDetector.declares_rested,
      h.active, script_patient]
  -- the check did a beginning of its script, and the patient check goes on from there
  obtain ⟨done, ⟨rest, hrest⟩, hcheck, -, hwhole⟩ := @exists_check_eq_foldl job p
  have hpatient : job.patient.check q
      = rest.foldl job.patient.perform (done.foldl job.patient.perform q) := by
    rw [check_eq_foldl_script hgoes, hscript, ← hrest, List.foldl_append]
  have hshadows : (done.foldl job.patient.perform q).warnings
      = (done.foldl job.perform p).warnings := (shadows_foldl_perform h done).warnings
  constructor
  · rw [hcheck, hpatient, ← hshadows]
    exact prefix_foldl_perform rest
  · intro hend
    have hnil : rest = [] := by
      rw [hwhole hend] at hrest
      exact List.append_right_eq_self.mp hrest
    rw [hcheck, hpatient, hnil]
    exact hshadows

end Job

end Run

namespace Session

variable {s : Session} {host : Host} {files : List Path} {scope : Option Scope}
  {paths : PathDisplay}

/-- The configurations of a session do not ask who cancels. -/
theorem configuration_patient (s : Session) (tree : FileTree) (directory : Path) :
    (s.patient.configuration tree directory).1 = (s.configuration tree directory).1 := by
  have hsame : known? s.patient.configurations directory
      = known? s.configurations directory := rfl
  cases hknown : known? s.configurations directory with
  | some entry => rw [configuration_of_some hknown, configuration_of_some (hsame.trans hknown)]
  | none =>
      rw [configuration_of_none hknown, configuration_of_none (hsame.trans hknown)]
      rfl

/-- A job of a patient session is the patient job. -/
theorem jobFor_patient (s : Session) (host : Host) (scope : Option Scope) (paths : PathDisplay)
    (project : Project) :
    s.patient.jobFor host.patient scope paths project
      = (s.jobFor host scope paths project).patient := by
  have hconfiguration := s.configuration_patient host.tree project.directory
  unfold jobFor Run.Job.patient
  rw [← hconfiguration]
  rfl

/-- A run and the patient run after the same projects. -/
structure Behind (r r' : Run.Progress × List CheckedProject) : Prop where
  goes : r'.1.canceled = false
  warnings : r.1.warnings <+: r'.1.warnings
  even : r.1.canceled = false → r'.1.warnings = r.1.warnings

/-- The patient check of a project goes on to its end. -/
theorem canceled_check_patient (job : Run.Job) {p : Run.Progress} (hp : p.canceled = false) :
    (job.patient.check (begun job.patient p)).canceled = false := by
  refine Run.Job.canceled_check_eq_false (fun _ => rfl) (fun b hb => ?_) ?_
  · have hactive : (begun job.patient p).active
        = (job.registry.activate job.configuration.isEnabled job.scope).map
          ActiveDetector.patient := Registry.activate_patient job.registry
    rw [hactive] at hb
    obtain ⟨a, -, rfl⟩ := List.mem_map.mp hb
    exact a.detector.stays_patient
  · change (p.canceled || false) = false
    rw [hp]
    rfl

/-- One more project keeps a run behind the patient run. -/
theorem behind_advance {r r' : Run.Progress × List CheckedProject} (h : Behind r r')
    (project : Project) :
    Behind (s.advance host scope paths r project)
      (s.patient.advance host.patient scope paths r' project) := by
  have hgoes := canceled_check_patient (s.jobFor host scope paths project) h.goes
  have hpatient : s.patient.advance host.patient scope paths r' project
      = ((s.jobFor host scope paths project).patient.check
          (begun (s.jobFor host scope paths project).patient r'.1),
        r'.2 ++ [⟨project.name, project.directory⟩]) := by
    unfold advance
    rw [if_neg (by simp [h.goes]), jobFor_patient]
  rw [hpatient]
  cases hended : r.1.canceled with
  | true =>
      -- the run is over and the patient one finds more
      rw [advance_of_canceled hended]
      refine ⟨hgoes, h.warnings.trans ?_, fun hend => ?_⟩
      · dsimp only
        rw [Run.Job.check_eq_foldl_script hgoes]
        change (begun (s.jobFor host scope paths project).patient r'.1).warnings <+: _
        exact Run.Job.prefix_foldl_perform _
      · rw [hended] at hend
        cases hend
  | false =>
      -- both are even so far, and the patient one goes through to the end
      have hshadows : Run.Shadows (begun (s.jobFor host scope paths project) r.1)
          (begun (s.jobFor host scope paths project).patient r'.1) :=
        ⟨h.even hended, rfl, Registry.activate_patient _⟩
      have hcheck : s.advance host scope paths r project
          = ((s.jobFor host scope paths project).check
              (begun (s.jobFor host scope paths project) r.1),
            r.2 ++ [⟨project.name, project.directory⟩]) := by
        unfold advance
        rw [if_neg (by simp [hended])]
      obtain ⟨hbefore, heven⟩ := Run.Job.prefix_check_patient hshadows hgoes
      rw [hcheck]
      exact ⟨hgoes, hbefore, heven⟩

/-- Whenever a run is ended, its warnings are among those of the patient
run, which goes on to its end. -/
theorem subperm_warnings_patient (s : Session) (host : Host) (files : List Path)
    (scope : Option Scope) :
    (s.patient.analyze host.patient files scope).1.canceled = false
      ∧ (s.analyze host files scope).1.warnings.Subperm
        (s.patient.analyze host.patient files scope).1.warnings := by
  -- project by project, the run stays behind the patient one
  have hfold : ∀ (projects : List Project) (r r' : Run.Progress × List CheckedProject),
      Behind r r' →
      Behind (projects.foldl (s.advance host scope (s.pathsFor host files)) r)
        (projects.foldl
          (s.patient.advance host.patient scope (s.pathsFor host files)) r') := by
    intro projects
    induction projects with
    | nil => exact fun _ _ h => h
    | cons project projects ih => exact fun r r' h => ih _ _ (behind_advance h project)
  have hbehind := hfold (projectsFor host files) (s.started host, [])
    (s.patient.started host.patient, []) ⟨rfl, List.prefix_rfl, fun _ => rfl⟩
  have hcourse := s.course_eq_foldl_advance host files scope
  have hcourse' : ((s.patient.course host.patient files scope).progress,
      (s.patient.course host.patient files scope).projects)
    = (projectsFor host files).foldl
        (s.patient.advance host.patient scope (s.pathsFor host files))
        (s.patient.started host.patient, []) :=
    s.patient.course_eq_foldl_advance host.patient files scope
  rw [← hcourse, ← hcourse'] at hbehind
  refine ⟨hbehind.goes, ?_⟩
  have hperm : ∀ warnings, (Warning.sort warnings).Perm warnings := fun _ => List.mergeSort_perm _ _
  have hsubperm := hbehind.warnings.sublist.subperm
  exact ((hperm _).subperm_right.mpr ((hperm _).subperm_left.mpr hsubperm))

-- ==================================================== the whole protocol

/-- How a run deals with wishes to end, whenever they come. -/
structure HonorsWishes (s : Session) (host : Host) (files : List Path) (scope : Option Scope)
    (r : RunResult) (after : Session) : Prop where
  /-- the start, what is scanned, and one end -/
  events : ∃ scanning, r.events
      = .starting :: scanning ++ [if r.canceled then .canceled else .completed]
    ∧ ∀ e ∈ scanning, e.isScanning
  canceled : r.canceled ↔ r.asked ≠ []
  /-- the listener is heard until the end is told -/
  heard : ∀ n < r.events.length, host.wishes s.canceled (r.events.take n) → n ∈ r.asked
  /-- and so is every detector: when one answers with a wish to end, the run has
  been asked by then -/
  answered : ∀ n answer, (n, answer) ∈ s.answers host files scope → .cancel ∈ answer →
    ∃ m ∈ r.asked, m ≤ n
  /-- nobody else asks -/
  asked : ∀ n ∈ r.asked, host.wishes s.canceled (r.events.take n)
    ∨ ∃ answer, (n, answer) ∈ s.answers host files scope ∧ .cancel ∈ answer
  /-- nothing is announced after somebody has asked -/
  quiet : ∀ n ∈ r.asked, ∀ e ∈ r.events.drop n, e.isAnnouncement = false
  counted : r.filesChecked = r.events.countP (·.isFile)
  /-- what is found is among what is found when nobody asks -/
  patient : (s.patient.analyze host.patient files scope).1.canceled = false
  warnings : r.warnings.Subperm (s.patient.analyze host.patient files scope).1.warnings
  /-- no wish is left but one that came in answer to the end -/
  cleared : after.canceled = host.cancels r.events
  /-- without one, the session is as good as new while the tree stays -/
  renewed : host.cancels r.events = false → ∀ registry user selection options,
    Reached host.tree (new registry user selection options) s →
    ∀ (host' : Host) (files' : List Path) (scope' : Option Scope), host'.tree = host.tree →
      (after.analyze host' files' scope').1
        = ((new registry user selection options).analyze host' files' scope').1

/-- Whoever asks for the end of a run, and whenever, it is dealt with in
order. -/
theorem honorsWishes_analyze (s : Session) (host : Host) (files : List Path)
    (scope : Option Scope) :
    s.HonorsWishes host files scope (s.analyze host files scope).1
      (s.analyze host files scope).2 := by
  have htidy := s.tidy_course host files scope
  have hheeds := s.heeds_course host files scope
  obtain ⟨hpatient, hsubperm⟩ := s.subperm_warnings_patient host files scope
  have hevents : (s.analyze host files scope).1.events
      = (s.course host files scope).progress.events
        ++ [if (s.course host files scope).progress.canceled then .canceled else .completed] := rfl
  have hcleared : (s.analyze host files scope).2.canceled
      = host.cancels (s.analyze host files scope).1.events := Bool.false_or _
  refine
    { events := ?_, canceled := htidy.canceled, heard := ?_, answered := hheeds.answered
      asked := ?_, quiet := ?_, counted := ?_, patient := hpatient, warnings := hsubperm
      cleared := hcleared, renewed := ?_ }
  · -- the last event is the only one that is not of the course
    obtain ⟨scanning, hscanning, hall⟩ := htidy.events
    refine ⟨scanning, ?_, hall⟩
    rw [hevents, hscanning]
    rfl
  · intro n hn hwish
    rw [hevents, List.length_append, List.length_singleton] at hn
    have hle : n ≤ (s.course host files scope).progress.events.length := by omega
    rw [hevents, List.take_append_of_le_length hle] at hwish
    exact htidy.heard n hle hwish
  · intro n hn
    rw [hevents, List.take_append_of_le_length (hheeds.bounded n hn)]
    exact hheeds.asked n hn
  · intro n hn e he
    rw [hevents, List.drop_append] at he
    rcases List.mem_append.mp he with he | he
    · exact htidy.quiet n hn e he
    · rw [List.mem_singleton.mp (List.mem_of_mem_drop he)]
      split <;> rfl
  · rw [hevents, List.countP_append]
    have hend : List.countP (·.isFile)
        [if (s.course host files scope).progress.canceled then Event.canceled
          else Event.completed] = 0 := by split <;> rfl
    rw [hend]
    exact htidy.files
  · -- a session that nobody ended is one that has seen nothing but its tree
    intro hsilent registry user selection options hreached host' files' scope' htree
    have hnew : Alike host.tree (new registry user selection options)
        (new registry user selection options) := alike_of_nil _ rfl
    have halike := (hreached.alike hnew).analyze rfl files scope
    exact halike.analyze_eq hnew htree (hcleared.trans hsilent) files' scope'

/-- A listener that asks for the end when a file is announced is told of the
end next. -/
example :
    let tree : FileTree :=
      { here := []
        entries := [(["a"], .directory), (["a", "AndroidManifest.xml"], .file "<m/>".toUTF8)] }
    let run := (new ⟨[], []⟩ none ⟨[], [], none⟩ default).analyze
      (.ofTree tree fun events => events.length == 3) [⟨"/a"⟩] none
    run.1.events = [.starting, .project "a", .file ⟨"/a/AndroidManifest.xml"⟩, .canceled]
      ∧ run.1.asked = [3] ∧ run.2.canceled = false := by decide +kernel

end Session

end ResourceLint
