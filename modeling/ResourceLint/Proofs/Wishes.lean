/-
Who asks for the end of a run, and when.

The listener may ask after every event and a detector with every answer;
`RunResult.asked` tells how many events there had been each time.  A
progress is `Tidy` when its events begin with the start and go on with
announcements, when it is canceled exactly if somebody asked, and when
nothing was announced after that.  Steps that are timely keep it so, and
scripts are.

# The answers of detectors

What detectors answer with is told by what they are called for and what they
remember, so it can be told of whole scripts, as if nobody ever asked
(`Session.answers`), each answer with the number of events before it.  A
progress that `Heeds` these answers was asked to end whenever one of them is
a wish to, or before that, and by nobody else but the listener.  Steps that
are carried out are heard one by one; a script is left off only when the
run was asked to end, which was before the answers that are not given then.
-/
import ResourceLint.Proofs.Reuse

namespace ResourceLint

-- ============================================================= events

/-- Whether an event tells what is being scanned. -/
def Event.isScanning : Event → Bool
  | .project _ | .file _ | .clear _ _ => true
  | .starting | .canceled | .completed => false

/-- Whether an event announces a project or a file. -/
def Event.isAnnouncement : Event → Bool
  | .project _ | .file _ => true
  | .starting | .clear _ _ | .canceled | .completed => false

/-- Whether an event announces a file. -/
def Event.isFile : Event → Bool
  | .file _ => true
  | .starting | .project _ | .clear _ _ | .canceled | .completed => false

/-- Whether the listener asks for the end of a run after these events; before
the first of them, the wish may be there already. -/
def Host.wishes (host : Host) (already : Bool) : List Event → Bool
  | [] => already
  | event :: more => host.cancels (event :: more)

/-- After an event it is the listener alone who wishes. -/
theorem Host.wishes_concat (host : Host) (already : Bool) (events : List Event) (event : Event) :
    host.wishes already (events ++ [event]) = host.cancels (events ++ [event]) := by
  cases events <;> rfl

namespace Run

variable {host : Host} {already : Bool} {p : Progress}

/-- A run so far, as it is to be: it has started and scanned, it is to end
if somebody asked for it, and nothing was announced after that. -/
structure Tidy (host : Host) (already : Bool) (p : Progress) : Prop where
  events : ∃ scanning, p.events = .starting :: scanning ∧ ∀ e ∈ scanning, e.isScanning
  canceled : p.canceled ↔ p.asked ≠ []
  /-- whenever the listener asks, it is heard -/
  heard : ∀ n ≤ p.events.length, host.wishes already (p.events.take n) → n ∈ p.asked
  quiet : ∀ n ∈ p.asked, ∀ e ∈ p.events.drop n, e.isAnnouncement = false
  files : p.filesChecked = p.events.countP (·.isFile)

/-- Tidiness is about events and wishes only. -/
theorem Tidy.of_eq {q : Progress} (h : Tidy host already p) (hevents : q.events = p.events)
    (hcanceled : q.canceled = p.canceled) (hasked : q.asked = p.asked)
    (hfiles : q.filesChecked = p.filesChecked) : Tidy host already q := by
  obtain ⟨events, canceled, heard, quiet, files⟩ := h
  rw [← hevents, ← hasked] at heard quiet
  exact ⟨hevents ▸ events, hcanceled ▸ hasked ▸ canceled, heard, quiet, hfiles ▸ hevents ▸ files⟩

/-- A detector may ask at any time. -/
theorem Tidy.ask (h : Tidy host already p) : Tidy host already p.ask where
  events := h.events
  canceled := ⟨fun _ => List.append_ne_nil_of_right_ne_nil _ (List.cons_ne_nil _ _), fun _ => rfl⟩
  heard := fun n hn hwish => List.mem_append_left _ (h.heard n hn hwish)
  quiet := by
    intro n hn e he
    rcases List.mem_append.mp hn with hn | hn
    · exact h.quiet n hn e he
    · rw [List.mem_singleton.mp hn] at he
      simp [Progress.ask] at he
  files := h.files

/-- Who asks in answer to an event asks after it. -/
theorem mem_asked_fire {event : Event} {n : Nat} :
    n ∈ (p.fire host event).asked
      ↔ n ∈ p.asked ∨ (n = p.events.length + 1 ∧ host.cancels (p.events ++ [event])) := by
  unfold Progress.fire
  simp only
  split
  · next hwish => simp [hwish]
  · next hwish => simp [hwish]

/-- What is told while scanning may be told when it announces nothing, or
when nobody has asked; a file is counted as it is announced. -/
theorem Tidy.fire (h : Tidy host already p) {event : Event} (hscanning : event.isScanning)
    (hquiet : event.isAnnouncement → p.canceled = false) :
    Tidy host already { p.fire host event with
      filesChecked := p.filesChecked + if event.isFile then 1 else 0 } where
  events := by
    obtain ⟨scanning, hevents, hall⟩ := h.events
    refine ⟨scanning ++ [event], ?_, fun e he => ?_⟩
    · change p.events ++ [event] = _
      rw [hevents]
      rfl
    · rcases List.mem_append.mp he with he | he
      · exact hall e he
      · rwa [List.mem_singleton.mp he]
  canceled := by
    change (p.canceled || host.cancels (p.events ++ [event])) ↔ (if _ then _ else _) ≠ []
    -- the wish is kept where it is told, whatever was wished before
    cases hwish : host.cancels (p.events ++ [event]) with
    | false => simpa using h.canceled
    | true => simp
  heard := by
    intro n hn hwish
    change n ≤ (p.events ++ [event]).length at hn
    change host.wishes already ((p.events ++ [event]).take n) at hwish
    rw [List.length_append, List.length_singleton] at hn
    refine mem_asked_fire.mpr ?_
    -- a wish after this event, or after an earlier one
    rcases Nat.lt_or_ge p.events.length n with hlate | hearly
    · have hlast : n = p.events.length + 1 := by omega
      rw [List.take_of_length_le (by simp; omega), Host.wishes_concat] at hwish
      exact Or.inr ⟨hlast, hwish⟩
    · rw [List.take_append_of_le_length hearly] at hwish
      exact Or.inl (h.heard n hearly hwish)
  quiet := by
    intro n hn e he
    change e ∈ (p.events ++ [event]).drop n at he
    rcases mem_asked_fire.mp hn with hn | ⟨rfl, -⟩
    · rw [List.drop_append] at he
      rcases List.mem_append.mp he with he | he
      · exact h.quiet n hn e he
      · rw [List.mem_singleton.mp (List.mem_of_mem_drop he)]
        -- an announcement comes only where nobody has asked yet
        cases hannounces : event.isAnnouncement with
        | false => rfl
        | true =>
            have hcanceled := h.canceled.mpr (List.ne_nil_of_mem hn)
            rw [hquiet hannounces] at hcanceled
            cases hcanceled
    · rw [List.drop_of_length_le (by simp)] at he
      cases he
  files := by
    change p.filesChecked + _ = (p.events ++ [event]).countP (·.isFile)
    rw [List.countP_append, h.files, List.countP_singleton]

namespace Job

variable {job : Job}

/-- What a detector emits keeps a run tidy: a wish of it is taken down. -/
theorem tidy_emit (h : Tidy host already p) (e : Emission) : Tidy host already (job.emit p e) := by
  cases e with
  | report f => exact h.of_eq rfl rfl rfl rfl
  | note text => exact h.of_eq rfl rfl rfl rfl
  | cancel => exact h.ask

theorem tidy_foldl_emit (h : Tidy host already p) (es : List Emission) :
    Tidy host already (es.foldl job.emit p) := by
  induction es generalizing p with
  | nil => exact h
  | cons e es ih => exact ih (tidy_emit h e)

/-- One step keeps a run tidy, when it opens no file after the wish to end
has come. -/
theorem tidy_perform (h : Tidy job.host already p) {step : Step}
    (htimely : step.opens → p.canceled = false) : Tidy job.host already (job.perform p step) := by
  rcases step with ⟨file, text, _ | ids⟩ | ⟨file, e⟩ | ⟨context, who, made⟩
  · exact (h.fire rfl fun _ => htimely rfl).of_eq rfl rfl rfl rfl
  · have hopened : Tidy job.host already (job.openFile file text p) :=
      (h.fire rfl fun _ => htimely rfl).of_eq rfl rfl rfl rfl
    have hcleared := @Tidy.fire _ _ _ hopened (.clear file ids) rfl fun h => by cases h
    exact hcleared.of_eq rfl rfl rfl rfl
  · rw [perform, reportFault_eq]
    exact h.of_eq rfl rfl rfl rfl
  · change Tidy job.host already (job.call context p who made)
    cases ha : p.active[who]? with
    | none => rwa [call_of_none ha]
    | some a =>
        rw [call_of_some ha]
        refine tidy_foldl_emit ?_ _
        exact h.of_eq rfl rfl rfl rfl

/-- Timely steps keep a run tidy. -/
theorem tidy_foldl_perform (h : Tidy job.host already p) {steps : List Step}
    (htimely : Timely job p steps) : Tidy job.host already (steps.foldl job.perform p) := by
  induction steps generalizing p with
  | nil => exact h
  | cons step steps ih => exact ih (tidy_perform h htimely.1) htimely.2

/-- A check keeps a run tidy, whenever it is ended. -/
theorem tidy_check (h : Tidy job.host already p) : Tidy job.host already (job.check p) := by
  obtain ⟨done, -, hcheck, htimely, -⟩ := @exists_check_eq_foldl job p
  rw [hcheck]
  exact tidy_foldl_perform h htimely

end Job

end Run

namespace Session

variable {s : Session} {host : Host} {files : List Path} {scope : Option Scope}

/-- A run begins tidy. -/
theorem tidy_started (s : Session) (host : Host) : Run.Tidy host s.canceled (s.started host) where
  events := ⟨[], rfl, fun _ h => by cases h⟩
  canceled := by
    change (s.canceled || host.cancels [.starting]) ↔ (if _ then _ else _) ≠ []
    cases s.canceled <;> cases hwish : host.cancels [.starting] <;> simp [hwish]
  heard := by
    intro n hn hwish
    change n ≤ 1 at hn
    refine Run.mem_asked_fire.mpr ?_
    rcases Nat.le_one_iff_eq_zero_or_eq_one.mp hn with rfl | rfl
    · have hcanceled : s.canceled := hwish
      exact Or.inl (by simp [hcanceled])
    · exact Or.inr ⟨rfl, hwish⟩
  quiet := by
    intro n _ e he
    rw [List.mem_singleton.mp (List.mem_of_mem_drop he)]
    rfl
  files := rfl

/-- A project may begin unless the run is to end. -/
theorem tidy_begun {job : Run.Job} {already : Bool} {p : Run.Progress}
    (h : Run.Tidy job.host already p) (hp : p.canceled = false) :
    Run.Tidy job.host already (begun job p) :=
  (h.fire rfl fun _ => hp).of_eq rfl rfl rfl rfl

/-- The course of a run is tidy. -/
theorem tidy_course (s : Session) (host : Host) (files : List Path) (scope : Option Scope) :
    Run.Tidy host s.canceled (s.course host files scope).progress := by
  refine course_induction (P := fun p _ => Run.Tidy host s.canceled p)
    (fun project _ p _ hp h => ?_) (tidy_started s host)
  exact @Run.Job.tidy_check s.canceled _ (s.jobFor host scope (s.pathsFor host files) project)
    (tidy_begun h hp)

end Session

-- ============================================================== answers

namespace Run.Job

/-- What the detector that a step calls answers with. -/
def answerOf (active : List ActiveDetector) : Step → List Emission
  | .opened .. => []
  | .fault .. => []
  | .call context who made =>
    match active[who]? with
    | none => []
    | some a => (a.detector.react a.memory context made).2

/-- The answers to steps, each with the number of events before it. -/
def answersTo (n : Nat) (active : List ActiveDetector) : List Step → List (Nat × List Emission)
  | [] => []
  | step :: more =>
    (n, answerOf active step)
      :: answersTo (n + (eventsOf step).length) (remembering active step) more

/-- The answers to steps are told one after the other, the events of the first
ones counted. -/
theorem answersTo_append (n : Nat) (active : List ActiveDetector) (steps more : List Step) :
    answersTo n active (steps ++ more)
      = answersTo n active steps
        ++ answersTo (n + (steps.flatMap eventsOf).length) (steps.foldl remembering active) more := by
  induction steps generalizing n active with
  | nil => rfl
  | cons step steps ih =>
      rw [List.cons_append, answersTo, ih, answersTo, List.flatMap_cons, List.length_append,
        Nat.add_assoc]
      rfl

/-- No answer is given before the first step. -/
theorem le_of_mem_answersTo {n k : Nat} {active : List ActiveDetector} {steps : List Step}
    {answer : List Emission} (h : (k, answer) ∈ answersTo n active steps) : n ≤ k := by
  induction steps generalizing n active with
  | nil => cases h
  | cons step steps ih =>
      rcases List.mem_cons.mp h with h | h
      · cases h
        exact Nat.le_refl _
      · have hlater := ih h
        omega

end Run.Job

namespace Run

variable {host : Host} {already : Bool} {p : Progress} {answers more : List (Nat × List Emission)}

/-- A run so far, as it has heard these answers: whoever asked for its end is
among those who have asked, and nobody else is. -/
structure Heeds (host : Host) (already : Bool) (answers : List (Nat × List Emission))
    (p : Progress) : Prop where
  bounded : ∀ n ∈ p.asked, n ≤ p.events.length
  /-- by the time of an answer with a wish, the run has been asked -/
  answered : ∀ n answer, (n, answer) ∈ answers → .cancel ∈ answer → ∃ m ∈ p.asked, m ≤ n
  asked : ∀ n ∈ p.asked, host.wishes already (p.events.take n)
    ∨ ∃ answer, (n, answer) ∈ answers ∧ .cancel ∈ answer

/-- What is heeded goes by the events and the wishes alone. -/
theorem Heeds.of_eq {q : Progress} (h : Heeds host already answers p)
    (hevents : q.events = p.events) (hasked : q.asked = p.asked) : Heeds host already answers q := by
  obtain ⟨bounded, answered, asked⟩ := h
  rw [← hevents, ← hasked] at bounded asked
  exact ⟨bounded, hasked ▸ answered, asked⟩

/-- Answers need not be heard where the run had been asked before. -/
theorem Heeds.append (h : Heeds host already answers p)
    (hmore : ∀ n answer, (n, answer) ∈ more → .cancel ∈ answer → ∃ m ∈ p.asked, m ≤ n) :
    Heeds host already (answers ++ more) p where
  bounded := h.bounded
  answered := fun n answer hmem hwish =>
    (List.mem_append.mp hmem).elim (h.answered n answer · hwish) (hmore n answer · hwish)
  asked := fun n hn => (h.asked n hn).imp_right fun ⟨answer, hmem, hwish⟩ =>
    ⟨answer, List.mem_append_left _ hmem, hwish⟩

/-- An event is told, and the listener may ask after it. -/
theorem Heeds.fire (h : Heeds host already answers p) (event : Event) :
    Heeds host already answers (p.fire host event) where
  bounded := by
    intro n hn
    change n ≤ (p.events ++ [event]).length
    rw [List.length_append, List.length_singleton]
    rcases mem_asked_fire.mp hn with hn | ⟨rfl, -⟩
    · exact Nat.le_succ_of_le (h.bounded n hn)
    · exact Nat.le_refl _
  answered := by
    intro n answer hmem hwish
    obtain ⟨m, hm, hle⟩ := h.answered n answer hmem hwish
    exact ⟨m, mem_asked_fire.mpr (Or.inl hm), hle⟩
  asked := by
    intro n hn
    change host.wishes already ((p.events ++ [event]).take n) ∨ _
    rcases mem_asked_fire.mp hn with hn | ⟨rfl, hwish⟩
    · rw [List.take_append_of_le_length (h.bounded n hn)]
      exact h.asked n hn
    · rw [List.take_of_length_le (by simp), Host.wishes_concat]
      exact Or.inl hwish

namespace Job

variable {job : Job}

/-- Of what a detector emits, only a wish is one. -/
theorem mem_asked_foldl_emit {es : List Emission} {n : Nat} :
    n ∈ (es.foldl job.emit p).asked ↔ n ∈ p.asked ∨ (n = p.events.length ∧ .cancel ∈ es) := by
  induction es generalizing p with
  | nil => simp
  | cons e es ih =>
      rw [List.foldl_cons, ih]
      cases e with
      | report f => simp [emit]
      | note text => simp [emit]
      | cancel =>
          simp only [emit, Progress.ask, List.mem_append, List.mem_cons,
            true_or, and_true]
          tauto

/-- What a detector emits is heard at once. -/
theorem heeds_foldl_emit (h : Heeds host already answers p) (es : List Emission) :
    Heeds host already (answers ++ [(p.events.length, es)]) (es.foldl job.emit p) where
  bounded := by
    intro n hn
    rw [foldl_emit_events]
    rcases mem_asked_foldl_emit.mp hn with hn | ⟨rfl, -⟩
    · exact h.bounded n hn
    · exact Nat.le_refl _
  answered := by
    intro n answer hmem hwish
    rcases List.mem_append.mp hmem with hmem | hmem
    · obtain ⟨m, hm, hle⟩ := h.answered n answer hmem hwish
      exact ⟨m, mem_asked_foldl_emit.mpr (Or.inl hm), hle⟩
    · cases List.mem_singleton.mp hmem
      exact ⟨_, mem_asked_foldl_emit.mpr (Or.inr ⟨rfl, hwish⟩), Nat.le_refl _⟩
  asked := by
    intro n hn
    rw [foldl_emit_events]
    rcases mem_asked_foldl_emit.mp hn with hn | ⟨rfl, hwish⟩
    · exact (h.asked n hn).imp_right fun ⟨answer, hmem, hwish⟩ =>
        ⟨answer, List.mem_append_left _ hmem, hwish⟩
    · exact Or.inr ⟨es, List.mem_append_right _ (List.mem_singleton_self _), hwish⟩

/-- One step hears its answer. -/
theorem heeds_perform (h : Heeds job.host already answers p) (step : Step) :
    Heeds job.host already (answers ++ [(p.events.length, answerOf p.active step)])
      (job.perform p step) := by
  -- a step that calls no detector has no answer
  have hsilent : ∀ q, Heeds job.host already answers q →
      Heeds job.host already (answers ++ [(p.events.length, [])]) q := fun q hq =>
    hq.append fun n answer hmem hwish => by
      cases List.mem_singleton.mp hmem
      cases hwish
  rcases step with ⟨file, text, _ | ids⟩ | ⟨file, e⟩ | ⟨context, who, made⟩
  · exact hsilent _ ((h.fire (.file file)).of_eq rfl rfl)
  · have hopened : Heeds job.host already answers (job.openFile file text p) :=
      (h.fire (.file file)).of_eq rfl rfl
    exact hsilent _ (hopened.fire (.clear file ids))
  · rw [perform, reportFault_eq]
    exact hsilent _ (h.of_eq rfl rfl)
  · change Heeds job.host already _ (job.call context p who made)
    cases ha : p.active[who]? with
    | none =>
        rw [call_of_none ha, answerOf, ha]
        exact hsilent _ h
    | some a =>
        have hcalled : Heeds job.host already answers
            { p with
              active :=
                p.active.set who ({ a with memory := (a.detector.react a.memory context made).1 }) } :=
          h.of_eq rfl rfl
        -- the answer is what was emitted, and the fold hears all of it
        rw [call_of_some ha, answerOf, ha]
        exact heeds_foldl_emit hcalled _

/-- Steps that are carried out have all their answers heeded. -/
theorem heeds_foldl_perform (h : Heeds job.host already answers p) (steps : List Step) :
    Heeds job.host already (answers ++ answersTo p.events.length p.active steps)
      (steps.foldl job.perform p) := by
  induction steps generalizing p answers with
  | nil => rwa [answersTo, List.append_nil]
  | cons step steps ih =>
      have hrest := ih (heeds_perform h step)
      rwa [events_perform, active_perform, List.length_append, List.append_assoc,
        List.singleton_append] at hrest

/-- Detectors remember by the calls made to them, whatever else there was. -/
theorem active_foldl_perform (steps : List Step) :
    (steps.foldl job.perform p).active = steps.foldl remembering p.active := by
  induction steps generalizing p with
  | nil => rfl
  | cons step steps ih => rw [List.foldl_cons, ih, active_perform, List.foldl_cons]

/-- Whenever it is ended, a check has heard all answers to its script, and told
no more events than the script has. -/
theorem heeds_check (h : Heeds job.host already answers p) (htidy : Tidy job.host already p)
    (hactive : p.active = job.detectors) :
    Heeds job.host already
        (answers ++ answersTo p.events.length job.detectors (job.script job.detectors)) (job.check p)
      ∧ (job.check p).events.length
        ≤ p.events.length + ((job.script job.detectors).flatMap eventsOf).length
      ∧ ((job.check p).canceled = false → (job.check p).events.length
        = p.events.length + ((job.script job.detectors).flatMap eventsOf).length) := by
  obtain ⟨done, ⟨rest, hrest⟩, hcheck, -, hwhole⟩ := @exists_check_eq_foldl job p
  rw [hactive, map_rested_detectors] at hrest hwhole
  have hevents : (job.check p).events.length
      = p.events.length + (done.flatMap eventsOf).length := by
    rw [hcheck, events_foldl_perform, List.length_append]
  have hheard : Heeds job.host already
      (answers ++ answersTo p.events.length job.detectors done) (job.check p) := by
    rw [hcheck, ← hactive]
    exact heeds_foldl_perform h done
  refine ⟨?_, ?_, fun hend => by rw [hevents, hwhole hend]⟩
  · rw [← hrest, answersTo_append, ← List.append_assoc]
    refine hheard.append fun n answer hmem _ => ?_
    cases hend : (job.check p).canceled with
    | false =>
        -- nothing was left off
        have hnil : rest = [] := by
          rw [hwhole hend] at hrest
          exact List.append_right_eq_self.mp hrest
        rw [hnil] at hmem
        cases hmem
    | true =>
        obtain ⟨m, hm⟩ := List.exists_mem_of_ne_nil _ ((tidy_check htidy).canceled.mp hend)
        have hbounded := hheard.bounded m hm
        have hlater := le_of_mem_answersTo hmem
        exact ⟨m, hm, by omega⟩
  · rw [hevents, ← hrest, List.flatMap_append, List.length_append]
    omega

end Job

end Run

namespace Session

variable {s : Session} {host : Host} {scope : Option Scope} {paths : PathDisplay}

/-- The answers of detectors in some projects, one after the other. -/
def answersIn (s : Session) (host : Host) (scope : Option Scope) (paths : PathDisplay) (n : Nat) :
    List Project → List (Nat × List Emission)
  | [] => []
  | project :: more =>
    let job := s.jobFor host scope paths project
    let script := job.script job.detectors
    Run.Job.answersTo (n + 1) job.detectors script
      ++ s.answersIn host scope paths (n + 1 + (script.flatMap Run.Job.eventsOf).length) more

/-- The answers of detectors in a run, as if nobody ever asked for its end,
each with the number of events before it. -/
def answers (s : Session) (host : Host) (files : List Path) (scope : Option Scope) :
    List (Nat × List Emission) :=
  s.answersIn host scope (s.pathsFor host files) 1 (projectsFor host files)

/-- No answer in a project is given before the project begins. -/
theorem le_of_mem_answersIn {n k : Nat} {answer : List Emission} {projects : List Project}
    (h : (k, answer) ∈ s.answersIn host scope paths n projects) : n ≤ k := by
  induction projects generalizing n with
  | nil => cases h
  | cons project projects ih =>
      rcases List.mem_append.mp h with h | h
      · have hlater := Run.Job.le_of_mem_answersTo h
        omega
      · have hlater := ih h
        omega

/-- Whenever a run is ended, it has heard the answers in all its projects. -/
theorem heeds_foldl_advance (projects : List Project) {n : Nat}
    {heard : List (Nat × List Emission)} {r : Run.Progress × List CheckedProject}
    (h : Run.Heeds host s.canceled heard r.1) (htidy : Run.Tidy host s.canceled r.1)
    (hle : r.1.events.length ≤ n) (heven : r.1.canceled = false → r.1.events.length = n) :
    Run.Heeds host s.canceled (heard ++ s.answersIn host scope paths n projects)
      (projects.foldl (s.advance host scope paths) r).1 := by
  induction projects generalizing n heard r with
  | nil => rwa [answersIn, List.append_nil]
  | cons project projects ih =>
      cases hended : r.1.canceled with
      | true =>
          -- the wish came before all that would follow
          rw [foldl_advance_of_canceled hended]
          refine h.append fun k answer hmem _ => ?_
          obtain ⟨m, hm⟩ := List.exists_mem_of_ne_nil _ (htidy.canceled.mp hended)
          have hbounded := h.bounded m hm
          have hlater := le_of_mem_answersIn hmem
          exact ⟨m, hm, by omega⟩
      | false =>
          have hlength : (begun (s.jobFor host scope paths project) r.1).events.length = n + 1 := by
            rw [← heven hended]
            exact List.length_append
          have hbegun : Run.Heeds host s.canceled heard
              (begun (s.jobFor host scope paths project) r.1) :=
            (h.fire (.project project.name)).of_eq rfl rfl
          have htidy' := @tidy_begun (s.jobFor host scope paths project) _ _ htidy hended
          obtain ⟨hheard, hless, hequal⟩ := Run.Job.heeds_check hbegun htidy' rfl
          rw [hlength] at hheard hless hequal
          have hadvance : s.advance host scope paths r project
              = ((s.jobFor host scope paths project).check
                  (begun (s.jobFor host scope paths project) r.1),
                r.2 ++ [⟨project.name, project.directory⟩]) := if_neg (by simp [hended])
          rw [List.foldl_cons, hadvance, answersIn, ← List.append_assoc]
          exact ih hheard (Run.Job.tidy_check htidy') hless hequal

/-- The course of a run hears all answers. -/
theorem heeds_course (s : Session) (host : Host) (files : List Path) (scope : Option Scope) :
    Run.Heeds host s.canceled (s.answers host files scope)
      (s.course host files scope).progress := by
  have hstarted : Run.Heeds host s.canceled [] (s.started host) := by
    -- the wish may be there before the run begins
    refine Run.Heeds.fire ⟨fun n hn => ?_, fun _ _ h => (by cases h), fun n hn => ?_⟩ .starting
    · cases hcanceled : s.canceled <;> simp_all
    · cases hcanceled : s.canceled <;> simp_all [Host.wishes]
  have hcourse := @heeds_foldl_advance s host scope (s.pathsFor host files) (projectsFor host files)
    1 [] (s.started host, []) hstarted (tidy_started s host) (Nat.le_refl _) fun _ => rfl
  rwa [← course_eq_foldl_advance] at hcourse

end Session

end ResourceLint
