/-
What a run does in a project, as a list of steps.

A check is a program with early ends: a wish to end the run may come after
any event.  A check that was not ended did everything it set out to do, and
what that is can be told beforehand: `Job.script` lists the files that are
opened, the parse errors that are found and the calls that are made, each
from the project and the declarations of the detectors alone.
`check_eq_foldl_script` says that an uncanceled check performs its script,
so that what holds of a whole check is an induction over a list.  A check
that was ended performs a beginning of its script, and opens no file after
the wish to end has come (`exists_check_eq_foldl`).

# Rested detectors

The script must not depend on what detectors remember, which changes with
every step.  `ActiveDetector.rested` forgets the memory; steps keep the
rested detectors of a run (`map_rested_perform`), and the script is that of
the rested ones, as it is of any that declare the same (`script_map`).
-/
import ResourceLint.Proofs.Dispatch
import ResourceLint.Run

namespace ResourceLint

/-- A detector that has seen nothing yet. -/
def ActiveDetector.rested (a : ActiveDetector) : ActiveDetector := { a with memory := .blank }

/-- A change of detectors that leaves everything they declare. -/
structure ActiveDetector.Declares (change : ActiveDetector → ActiveDetector) : Prop where
  scope : ∀ a, (change a).scope = a.scope
  issues : ∀ a, (change a).issues = a.issues
  appliesToFolder : ∀ a, (change a).detector.appliesToFolder = a.detector.appliesToFolder
  appliesToFile : ∀ a, (change a).detector.appliesToFile = a.detector.appliesToFile
  elements : ∀ a, (change a).detector.elements = a.detector.elements
  attributes : ∀ a, (change a).detector.attributes = a.detector.attributes

/-- Resting a detector leaves all that it declares as it is. -/
theorem ActiveDetector.declares_rested : Declares rested :=
  ⟨fun _ => rfl, fun _ => rfl, fun _ => rfl, fun _ => rfl, fun _ => rfl, fun _ => rfl⟩

namespace Run

/-- One thing that a run does. -/
inductive Step
  /-- a file is announced and its text is kept; what is known of some issues
  in it may be cleared -/
  | opened (file : Path) (text : String) (cleared : Option (List String))
  /-- a file cannot be parsed -/
  | fault (file : Path) (e : Xml.ParseError)
  /-- a call is made to the detector at a place -/
  | call (context : Context) (who : Nat) (made : Call)

/-- Whether a step opens a file. -/
def Step.opens : Step → Bool
  | .opened .. => true
  | .fault .. => false
  | .call .. => false

namespace Job

variable (job : Job)

-- ========================================================== the script

/-- Carries out one step. -/
def perform (p : Progress) : Step → Progress
  | .opened file text none => job.openFile file text p
  | .opened file text (some ids) => (job.openFile file text p).fire job.host (.clear file ids)
  | .fault file e => job.reportFault file e p
  | .call context who made => job.call context p who made

/-- The steps of calls. -/
def callSteps (context : Context) (made : List (Nat × Call)) : List Step :=
  made.map fun (who, call) => .call context who call

/-- The steps that make the same call to everyone. -/
def roundSteps (active : List ActiveDetector) (made : Call) : List Step :=
  callSteps job.projectContext ((List.range active.length).map (·, made))

/-- The steps for a file of markup. -/
def markupSteps (active : List ActiveDetector) (file : Path) (folder : Option FolderType)
    (visitor : Visitor) : List Step :=
  match job.host.read file with
  | none => []
  | some text =>
    .opened file text
        (if job.project.subset.isSome then some (visitor.issueIds active) else none)
      :: match Xml.Document.parse text with
        | .error e => [.fault file e]
        | .ok document => callSteps (job.context file (some text) folder) (visitor.calls document)

/-- The steps for the manifest. -/
def manifestSteps (active : List ActiveDetector) : List Step :=
  let file := job.project.manifest
  if job.project.includes file && job.host.tree.isFile file then
    job.markupSteps active file none (Visitor.new (candidates active (·.manifest)) none)
  else []

/-- The detectors that look at resource files. -/
def resourceCandidates (active : List ActiveDetector) : List (ActiveDetector × Nat) :=
  candidates active fun s => s.resourceFile || s.allResourceFiles

/-- The steps for one resource file. -/
def resourceFileSteps (active : List ActiveDetector) (found : Path × FolderType) : List Step :=
  let visitor := Visitor.new (resourceCandidates active) (some found.2)
  if visitor.isEmpty then [] else job.markupSteps active found.1 (some found.2) visitor

/-- The steps for the resource files. -/
def resourceSteps (active : List ActiveDetector) : List Step :=
  if (resourceCandidates active).isEmpty then []
  else (resourceFiles job.host.tree job.project).flatMap (job.resourceFileSteps active)

/-- The detectors that look at the file of shrinking rules. -/
def proguardCandidates (active : List ActiveDetector) : List (ActiveDetector × Nat) :=
  (candidates active (·.proguard)).filter fun (a, _) =>
    a.detector.appliesToFile job.project.proguardFile

/-- The steps for the file of shrinking rules. -/
def proguardSteps (active : List ActiveDetector) : List Step :=
  let file := job.project.proguardFile
  if !job.project.includes file || !job.host.tree.isFile file
      || (job.proguardCandidates active).isEmpty then []
  else
    match job.host.read file with
    | none => []
    | some text =>
      .opened file text none
        :: callSteps (job.context file (some text) none)
          ((job.proguardCandidates active).map fun (_, who) => (who, .plainFile))

/-- All that a check does. -/
def script (active : List ActiveDetector) : List Step :=
  job.roundSteps active .beforeProject
    ++ (if job.scope.manifest then job.manifestSteps active else [])
    ++ (if job.scope.resourceFile || job.scope.allResourceFiles then job.resourceSteps active
        else [])
    ++ (if job.scope.proguard then job.proguardSteps active else [])
    ++ job.roundSteps active .afterProject

-- ======================================================= what is reported

variable {job : Job} {p : Progress}

/-- A finding leads to a warning when its issue is enabled. -/
theorem isSome_warningOf? (sources : List (Path × String)) (f : Finding) :
    (job.warningOf? sources f).isSome = job.isEnabled f.issue := by
  unfold warningOf? isEnabled
  cases job.registry.issue? f.issue with
  | none => rfl
  | some issue =>
      -- what is ignored is what is not enabled
      by_cases h : job.configuration.severity issue = .ignore <;>
        simp [Configuration.isEnabled, h]

/-- A finding under an issue that is not enabled leads to no warning. -/
theorem warningOf?_eq_none {sources : List (Path × String)} {f : Finding}
    (h : job.isEnabled f.issue = false) : job.warningOf? sources f = none := by
  rw [← Option.not_isSome_iff_eq_none, isSome_warningOf?, h]
  decide

/-- A parse error leads to its warning, if to any, and is never refused. -/
theorem reportFault_eq (file : Path) (e : Xml.ParseError) :
    job.reportFault file e p
      = { p with
          warnings := p.warnings ++ (job.warningOf? p.sources (parseFinding file e)).toList } := by
  unfold reportFault
  split
  · next h =>
      have hsome : (job.warningOf? p.sources (parseFinding file e)).isSome :=
        (isSome_warningOf? _ _).trans h
      simp [emit, Option.isNone_eq_false_iff.mpr hsome]
  · next h =>
      have hnone : job.warningOf? p.sources (parseFinding file e) = none :=
        warningOf?_eq_none (eq_false_of_ne_true h)
      simp [hnone]

-- ===================================================== what a step keeps

/-- What is emitted leaves the detectors and their memories alone. -/
theorem emit_active (e : Emission) : (job.emit p e).active = p.active := by
  cases e <;> rfl

/-- What is emitted is no event for the listener. -/
theorem foldl_emit_events (es : List Emission) : (es.foldl job.emit p).events = p.events := by
  induction es generalizing p with
  | nil => rfl
  | cons e es ih =>
      rw [List.foldl_cons, ih]
      cases e <;> rfl

theorem foldl_emit_active (es : List Emission) :
    (es.foldl job.emit p).active = p.active := by
  induction es generalizing p with
  | nil => rfl
  | cons e es ih => rw [List.foldl_cons, ih, emit_active]

/-- A wish to end the run stays. -/
theorem canceled_emit (e : Emission) (h : p.canceled) : (job.emit p e).canceled := by
  cases e
  · exact h
  · exact h
  · rfl

/-- A canceled run stays canceled whatever is emitted. -/
theorem canceled_foldl_emit (es : List Emission) (h : p.canceled) :
    (es.foldl job.emit p).canceled := by
  induction es generalizing p with
  | nil => exact h
  | cons e es ih => exact ih (canceled_emit e h)

theorem canceled_fire (host : Host) (event : Event) (h : p.canceled) :
    (p.fire host event).canceled := by
  unfold Progress.fire
  simp [h]

/-- A call to nobody does nothing. -/
theorem call_of_none {context : Context} {who : Nat} {made : Call} (h : p.active[who]? = none) :
    job.call context p who made = p := by
  unfold call
  rw [h]

/-- A call has its detector remember something, and takes in its answer. -/
theorem call_of_some {context : Context} {who : Nat} {made : Call} {a : ActiveDetector}
    (h : p.active[who]? = some a) :
    job.call context p who made
      = (a.detector.react a.memory context made).2.foldl job.emit
          { p with
            active := p.active.set who
              ({ a with memory := (a.detector.react a.memory context made).1 }) } := by
  unfold call
  rw [h]

/-- A canceled run stays canceled: it makes no call at all. -/
theorem canceled_call (context : Context) (who : Nat) (made : Call) (h : p.canceled) :
    (job.call context p who made).canceled := by
  unfold call
  split
  · exact h
  · exact canceled_foldl_emit _ h

/-- A call changes no more of the detectors than what one remembers. -/
theorem map_rested_call (context : Context) (who : Nat) (made : Call) :
    (job.call context p who made).active.map ActiveDetector.rested
      = p.active.map ActiveDetector.rested := by
  unfold call
  split
  · rfl
  · next a ha =>
      rw [foldl_emit_active, List.map_set]
      obtain ⟨hlt, rfl⟩ := List.getElem?_eq_some_iff.mp ha
      -- place by place: the one that is set differs in its memory, which is forgotten
      refine List.ext_getElem (List.length_set ..) fun n h₁ h₂ => ?_
      rw [List.getElem_set]
      split
      · next hn => subst hn; rw [List.getElem_map]; rfl
      · rfl

/-- No step takes a wish to end back. -/
theorem canceled_perform (step : Step) (h : p.canceled) : (job.perform p step).canceled := by
  rcases step with ⟨file, text, _ | ids⟩ | ⟨file, e⟩ | ⟨context, who, made⟩
  · exact canceled_fire _ _ h
  · exact canceled_fire _ _ (canceled_fire _ _ h)
  · rw [perform, reportFault_eq]
    exact h
  · exact canceled_call _ _ _ h

/-- A run that is canceled stays canceled over any steps. -/
theorem canceled_foldl_perform (steps : List Step) (h : p.canceled) :
    (steps.foldl job.perform p).canceled := by
  induction steps generalizing p with
  | nil => exact h
  | cons step steps ih => exact ih (canceled_perform step h)

/-- A step changes at most what the detectors remember. -/
theorem map_rested_perform (step : Step) :
    (job.perform p step).active.map ActiveDetector.rested
      = p.active.map ActiveDetector.rested := by
  rcases step with ⟨file, text, _ | ids⟩ | ⟨file, e⟩ | ⟨context, who, made⟩
  · rfl
  · rfl
  · rw [perform, reportFault_eq]
  · exact map_rested_call _ _ _

/-- The detectors of a run are the same all along, but for their memories. -/
theorem map_rested_foldl_perform (steps : List Step) :
    (steps.foldl job.perform p).active.map ActiveDetector.rested
      = p.active.map ActiveDetector.rested := by
  induction steps generalizing p with
  | nil => rfl
  | cons step steps ih => rw [List.foldl_cons, ih, map_rested_perform]

/-- What a step tells the listener. -/
def eventsOf : Step → List Event
  | .opened file _ none => [.file file]
  | .opened file _ (some ids) => [.file file, .clear file ids]
  | .fault .. => []
  | .call .. => []

/-- The listener is told of a step by the events of that step, at the end of all
events. -/
theorem events_perform (step : Step) :
    (job.perform p step).events = p.events ++ eventsOf step := by
  rcases step with ⟨file, text, _ | ids⟩ | ⟨file, e⟩ | ⟨context, who, made⟩
  · rfl
  · exact List.append_assoc p.events [.file file] [.clear file ids]
  · rw [perform, reportFault_eq]
    exact (List.append_nil _).symm
  · show (job.call context p who made).events = p.events ++ []
    rw [List.append_nil]
    cases ha : p.active[who]? with
    | none => rw [call_of_none ha]
    | some a => rw [call_of_some ha, foldl_emit_events]

/-- The events of steps are those of one after the other. -/
theorem events_foldl_perform (steps : List Step) :
    (steps.foldl job.perform p).events = p.events ++ steps.flatMap eventsOf := by
  induction steps generalizing p with
  | nil => exact (List.append_nil _).symm
  | cons step steps ih =>
      rw [List.foldl_cons, ih, events_perform, List.flatMap_cons, List.append_assoc]

-- ========================================================= timely steps

/-- Files are opened only while nobody has asked the run to end. -/
def Timely (job : Job) : Progress → List Step → Prop
  | _, [] => True
  | p, step :: more => (step.opens → p.canceled = false) ∧ Timely job (job.perform p step) more

variable {steps : List Step}

/-- Steps that open no file are timely at any time. -/
theorem timely_of_forall_not_opens (h : ∀ step ∈ steps, step.opens = false) :
    Timely job p steps := by
  induction steps generalizing p with
  | nil => trivial
  | cons step steps ih =>
      refine ⟨fun hopens => ?_, ih fun step hstep => h step (List.mem_cons_of_mem _ hstep)⟩
      rw [h step List.mem_cons_self] at hopens
      cases hopens

/-- It is enough to look once where only the first step opens a file. -/
theorem timely_of_tail (hp : p.canceled = false) (h : ∀ step ∈ steps.tail, step.opens = false) :
    Timely job p steps := by
  cases steps with
  | nil => trivial
  | cons step steps => exact ⟨fun _ => hp, timely_of_forall_not_opens h⟩

/-- Timely steps may follow each other. -/
theorem Timely.append {s t : List Step} (hs : Timely job p s)
    (ht : Timely job (s.foldl job.perform p) t) : Timely job p (s ++ t) := by
  induction s generalizing p with
  | nil => exact ht
  | cons step s ih => exact ⟨hs.1, ih hs.2 ht⟩

/-- Calls open no file. -/
theorem opens_of_mem_callSteps {context : Context} {made : List (Nat × Call)} {step : Step}
    (h : step ∈ callSteps context made) : step.opens = false := by
  obtain ⟨_, -, rfl⟩ := List.mem_map.mp h
  rfl

-- ==================================================== following a script

/-- A part of a check performs these steps, or a beginning of them where the
run is to end before they are over; and it takes back no wish to end. -/
structure Follows (job : Job) (cast : List ActiveDetector) (part : Progress → Progress)
    (steps : List Step) : Prop where
  keeps : ∀ p, p.canceled → (part p).canceled
  performs : ∀ p, p.active.map ActiveDetector.rested = cast → p.canceled = false →
    ∃ done, done <+: steps ∧ part p = done.foldl job.perform p ∧ Timely job p done
      ∧ ((part p).canceled = false → done = steps)

/-- A part of a check does nothing when the run is to end. -/
def Yields (part : Progress → Progress) : Prop := ∀ p, p.canceled → part p = p

/-- What is done only unless canceled yields. -/
theorem yields_unlessCanceled (f : Progress → Progress) :
    Yields fun p => p.unlessCanceled f := fun _ h => if_pos h

theorem Yields.ite {f : Progress → Progress} (hf : Yields f) (c : Prop) [Decidable c] :
    Yields fun p => if c then f p else p := by
  intro p h
  dsimp only
  split
  · exact hf p h
  · rfl

/-- A loop yields when its body does. -/
theorem Yields.foldl {α : Type} {part : Progress → α → Progress}
    (h : ∀ item, Yields (part · item)) (items : List α) :
    Yields fun p => items.foldl part p := by
  intro p hp
  induction items with
  | nil => rfl
  | cons item items ih =>
      have hitem : part p item = p := h item p hp
      change items.foldl part (part p item) = p
      rw [hitem]
      exact ih

namespace Follows

variable {cast : List ActiveDetector} {f g : Progress → Progress} {s t : List Step}

/-- Doing nothing follows the empty script. -/
theorem nil : Follows job cast (fun p => p) [] :=
  { keeps := fun _ h => h
    performs := fun _ _ _ => ⟨[], List.prefix_rfl, rfl, trivial, fun _ => rfl⟩ }

/-- Performing steps that go by the rested detectors, of which the first
alone may open a file, follows them. -/
theorem ofSteps (steps : List ActiveDetector → List Step)
    (hrested : ∀ active, steps (active.map ActiveDetector.rested) = steps active)
    (hopens : ∀ step ∈ (steps cast).tail, step.opens = false) :
    Follows job cast (fun p => (steps p.active).foldl job.perform p) (steps cast) :=
  { keeps := fun p h => canceled_foldl_perform _ h
    performs := fun p hcast hp =>
      ⟨steps cast, List.prefix_rfl, by rw [← hcast, hrested], timely_of_tail hp hopens,
        fun _ => rfl⟩ }

/-- A part may go by the detectors it meets, as long as it goes by what they
declare. -/
theorem ofCast (steps : List ActiveDetector → List Step)
    (part : List ActiveDetector → Progress → Progress)
    (hcast : ∀ p, f p = part (p.active.map ActiveDetector.rested) p)
    (h : ∀ cast, Follows job cast (part cast) (steps cast)) : Follows job cast f (steps cast) :=
  { keeps := fun p hp => by
      rw [hcast]
      exact (h _).keeps p hp
    performs := fun p hp hbegin => by
      rw [hcast, hp]
      exact (h cast).performs p hp hbegin }

/-- One part after the other, where the second looks whether the run is to
end. -/
theorem append (hf : Follows job cast f s) (hg : Follows job cast g t) (hyields : Yields g) :
    Follows job cast (fun p => g (f p)) (s ++ t) :=
  { keeps := fun p h => hg.keeps _ (hf.keeps p h)
    performs := fun p hcast hp => by
      obtain ⟨done, hdone, hfp, htimely, hwhole⟩ := hf.performs p hcast hp
      cases hmid : (f p).canceled with
      | true =>
          refine ⟨done, hdone.trans (List.prefix_append s t), ?_, htimely, fun hend => ?_⟩
          · rw [hyields _ hmid, hfp]
          · rw [hyields _ hmid, hmid] at hend
            cases hend
      | false =>
          obtain rfl := hwhole hmid
          have hcast' : (f p).active.map ActiveDetector.rested = cast := by
            rw [hfp, map_rested_foldl_perform, hcast]
          obtain ⟨more, hmore, hgp, htimely', hwhole'⟩ := hg.performs _ hcast' hmid
          refine ⟨done ++ more, (List.prefix_append_right_inj done).mpr hmore, ?_,
            htimely.append (hfp ▸ htimely'), fun hend => by rw [hwhole' hend]⟩
          rw [hgp, hfp, List.foldl_append] }

/-- Asking for the wish before a part changes nothing about its script: it is
left off earlier at most. -/
theorem unlessCanceled (hf : Follows job cast f s) :
    Follows job cast (fun p => p.unlessCanceled f) s :=
  { keeps := fun p h => by
      have hsame : p.unlessCanceled f = p := if_pos h
      rwa [hsame]
    performs := fun p hcast hp => by
      have hgoes : p.unlessCanceled f = f p := if_neg (by simp [hp])
      rw [hgoes]
      exact hf.performs p hcast hp }

/-- A part under a condition follows its script or none. -/
theorem ite (c : Prop) [Decidable c] (hf : c → Follows job cast f s) :
    Follows job cast (fun p => if c then f p else p) (if c then s else []) := by
  by_cases h : c
  · simp only [if_pos h]
    exact hf h
  · simp only [if_neg h]
    exact nil

/-- A part for every item of a list. -/
theorem foldl {α : Type} {part : Progress → α → Progress} {steps : α → List Step}
    (items : List α) (h : ∀ item, Follows job cast (part · item) (steps item))
    (hyields : ∀ item, Yields (part · item)) :
    Follows job cast (fun p => items.foldl part p) (items.flatMap steps) := by
  induction items with
  | nil => exact nil
  | cons item items ih => exact (h item).append ih (Yields.foldl hyields items)

/-- Where a part is not ended, or its steps would not be, it performs all of
them. -/
theorem eq_foldl (hf : Follows job cast f s) {p : Progress}
    (hcast : p.active.map ActiveDetector.rested = cast)
    (hend : (f p).canceled = false ∨ (s.foldl job.perform p).canceled = false) :
    f p = s.foldl job.perform p := by
  have hbegin : p.canceled = false := by
    cases hp : p.canceled with
    | false => rfl
    | true => simp [hf.keeps p hp, canceled_foldl_perform s hp] at hend
  obtain ⟨done, ⟨rest, rfl⟩, hfp, -, hwhole⟩ := hf.performs p hcast hbegin
  have hdone : (f p).canceled = false := by
    refine hend.elim id fun hend => ?_
    cases h : (f p).canceled with
    | false => rfl
    | true =>
        rw [hfp] at h
        rw [List.foldl_append, canceled_foldl_perform rest h] at hend
        cases hend
  rw [← hwhole hdone, hfp]

end Follows

-- ========================================= scripts of changed detectors

section Declares

/-- A round goes by the number of the detectors only. -/
theorem roundSteps_map (change : ActiveDetector → ActiveDetector) (active : List ActiveDetector)
    (made : Call) : job.roundSteps (active.map change) made = job.roundSteps active made := by
  unfold roundSteps
  rw [List.length_map]

variable {change : ActiveDetector → ActiveDetector} (h : ActiveDetector.Declares change)

include h

/-- Candidates go by what detectors declare. -/
theorem candidates_map (active : List ActiveDetector) (test : Scope → Bool) :
    candidates (active.map change) test
      = (candidates active test).map fun (a, who) => (change a, who) := by
  unfold candidates
  rw [List.zipIdx_map, List.filter_map]
  refine congrArg _ (List.filter_congr fun candidate _ => ?_)
  exact congrArg test (h.scope candidate.1)

/-- A visitor takes from its candidates what they declare, which the change
keeps. -/
theorem new_map (candidates : List (ActiveDetector × Nat)) (folder : Option FolderType) :
    Visitor.new (candidates.map fun (a, who) => (change a, who)) folder
      = Visitor.new candidates folder := by
  -- a visitor reads the wishes for elements and attributes and nothing else
  have hadd : ∀ (v : Visitor) (candidate : ActiveDetector × Nat),
      v.add candidate.2 (change candidate.1).detector
        = v.add candidate.2 candidate.1.detector := by
    intro v candidate
    unfold Visitor.add
    rw [h.elements, h.attributes]
  have hwants : ∀ candidate : ActiveDetector × Nat,
      Visitor.wants folder (change candidate.1).detector
        = Visitor.wants folder candidate.1.detector := by
    intro candidate
    unfold Visitor.wants
    rw [h.appliesToFolder]
  unfold Visitor.new
  rw [List.filter_map, List.foldl_map]
  simp only [hadd]
  refine congrArg _ (List.filter_congr fun candidate _ => ?_)
  exact hwants candidate

/-- The issues of a visitor are those its detectors declare. -/
theorem issueIds_map (v : Visitor) (active : List ActiveDetector) :
    v.issueIds (active.map change) = v.issueIds active := by
  unfold Visitor.issueIds
  congr 1
  funext who
  rw [List.getElem?_map]
  cases active[who]? with
  | none => rfl
  | some a => exact h.issues a

/-- The script for a markup file does not depend on what the detectors
remember. -/
theorem markupSteps_map (active : List ActiveDetector) (file : Path)
    (folder : Option FolderType) (visitor : Visitor) :
    job.markupSteps (active.map change) file folder visitor
      = job.markupSteps active file folder visitor := by
  unfold markupSteps
  rw [issueIds_map h]

theorem resourceCandidates_map (active : List ActiveDetector) :
    resourceCandidates (active.map change)
      = (resourceCandidates active).map fun (a, who) => (change a, who) :=
  candidates_map h active _

theorem proguardCandidates_map (active : List ActiveDetector) :
    job.proguardCandidates (active.map change)
      = (job.proguardCandidates active).map fun (a, who) => (change a, who) := by
  unfold proguardCandidates
  rw [candidates_map h, List.filter_map]
  refine congrArg _ (List.filter_congr fun candidate _ => ?_)
  exact congrFun (h.appliesToFile candidate.1) job.project.proguardFile

theorem manifestSteps_map (active : List ActiveDetector) :
    job.manifestSteps (active.map change) = job.manifestSteps active := by
  unfold manifestSteps
  simp only [candidates_map h, new_map h, markupSteps_map h]

/-- The script for one resource file does not depend on what the detectors
remember. -/
theorem resourceFileSteps_map (active : List ActiveDetector) :
    job.resourceFileSteps (active.map change) = job.resourceFileSteps active := by
  funext found
  unfold resourceFileSteps
  simp only [resourceCandidates_map h, new_map h, markupSteps_map h]

/-- The script for the resource files does not depend on what the detectors
remember. -/
theorem resourceSteps_map (active : List ActiveDetector) :
    job.resourceSteps (active.map change) = job.resourceSteps active := by
  unfold resourceSteps
  rw [resourceCandidates_map h, resourceFileSteps_map h, List.isEmpty_map]

/-- The script for the shrinking rules does not depend on what the detectors
remember. -/
theorem proguardSteps_map (active : List ActiveDetector) :
    job.proguardSteps (active.map change) = job.proguardSteps active := by
  unfold proguardSteps
  rw [proguardCandidates_map h, List.isEmpty_map, List.map_map]
  rfl

/-- A script goes by what the detectors declare. -/
theorem script_map (active : List ActiveDetector) :
    job.script (active.map change) = job.script active := by
  unfold script
  rw [roundSteps_map, manifestSteps_map h, resourceSteps_map h, proguardSteps_map h,
    roundSteps_map]

end Declares

-- ================================================ the parts of a check

variable {active cast : List ActiveDetector}

/-- Calls made one after the other are the steps of their script. -/
theorem calls_eq_foldl_perform (context : Context) (p : Progress) (made : List (Nat × Call)) :
    job.calls context p made = (callSteps context made).foldl job.perform p := by
  unfold calls callSteps
  rw [List.foldl_map]
  rfl

/-- A round over all detectors follows its script. -/
theorem follows_callAll (made : Call) :
    Follows job cast (job.callAll made) (job.roundSteps cast made) := by
  have hround : job.callAll made
      = fun p => (job.roundSteps p.active made).foldl job.perform p :=
    funext fun p => calls_eq_foldl_perform ..
  rw [hround]
  exact Follows.ofSteps (job.roundSteps · made)
    (fun active => roundSteps_map _ active made)
    fun step hstep => opens_of_mem_callSteps (List.mem_of_mem_tail hstep)

/-- What is done to a file of markup, when the run goes on. -/
theorem checkXml_eq (file : Path) (folder : Option FolderType) (visitor : Visitor) :
    job.checkXml file folder visitor
      = fun p => p.unlessCanceled fun p =>
          (job.markupSteps p.active file folder visitor).foldl job.perform p := by
  funext p
  unfold checkXml markupSteps
  congr 1
  funext p
  cases job.host.read file with
  | none => rfl
  | some text =>
      simp only [List.foldl_cons]
      cases Xml.Document.parse text with
      | error e => by_cases h : job.project.subset.isSome <;> simp only [h] <;> rfl
      | ok document =>
          simp only [calls_eq_foldl_perform]
          by_cases h : job.project.subset.isSome <;> simp only [h] <;> rfl

/-- A file of markup is opened before anything is done about it. -/
theorem opens_of_mem_tail_markupSteps {file : Path} {folder : Option FolderType}
    {visitor : Visitor} {step : Step}
    (h : step ∈ (job.markupSteps active file folder visitor).tail) : step.opens = false := by
  unfold markupSteps at h
  split at h
  · cases h
  · rw [List.tail_cons] at h
    split at h
    · rw [List.mem_singleton.mp h]
      rfl
    · exact opens_of_mem_callSteps h

/-- Checking a markup file follows its script. -/
theorem follows_checkXml (file : Path) (folder : Option FolderType) (visitor : Visitor) :
    Follows job cast (job.checkXml file folder visitor)
      (job.markupSteps cast file folder visitor) := by
  rw [checkXml_eq]
  exact (Follows.ofSteps (job.markupSteps · file folder visitor)
    (fun active => markupSteps_map ActiveDetector.declares_rested active file folder visitor)
    fun _ hstep => opens_of_mem_tail_markupSteps hstep).unlessCanceled

theorem yields_checkXml (file : Path) (folder : Option FolderType) (visitor : Visitor) :
    Yields (job.checkXml file folder visitor) := by
  rw [checkXml_eq]
  exact yields_unlessCanceled _

/-- Checking the manifest follows its script. -/
theorem follows_checkManifest : Follows job cast job.checkManifest (job.manifestSteps cast) := by
  refine Follows.ofCast job.manifestSteps (fun cast p =>
    if job.project.includes job.project.manifest && job.host.tree.isFile job.project.manifest then
      job.checkXml job.project.manifest none (Visitor.new (candidates cast (·.manifest)) none) p
    else p) (fun p => ?_) fun cast => ?_
  · rw [candidates_map ActiveDetector.declares_rested, new_map ActiveDetector.declares_rested]
    rfl
  · exact Follows.ite _ fun _ => follows_checkXml ..

/-- Checking the resource files follows their script, folder by folder. -/
theorem follows_checkResources : Follows job cast job.checkResources (job.resourceSteps cast) := by
  refine Follows.ofCast job.resourceSteps (fun cast p =>
    if (resourceCandidates cast).isEmpty then p
    else (resourceFiles job.host.tree job.project).foldl
      (fun p found =>
        let visitor := Visitor.new (resourceCandidates cast) (some found.2)
        if visitor.isEmpty then p else job.checkXml found.1 (some found.2) visitor p) p)
    (fun p => ?_) fun cast => ?_
  · -- the candidates are counted once, before the first file; resting changes none of them
    rw [resourceCandidates_map ActiveDetector.declares_rested]
    simp only [List.isEmpty_map, new_map ActiveDetector.declares_rested]
    rfl
  · unfold resourceSteps
    split
    · exact Follows.nil
    · -- a file nobody wants is passed over in both
      refine Follows.foldl _ (fun found => ?_) fun found => ?_
      · unfold resourceFileSteps
        simp only
        split
        · exact Follows.nil
        · exact follows_checkXml ..
      · simp only
        split
        · exact fun _ _ => rfl
        · exact yields_checkXml _ _ _

/-- The detectors are called for a file that is not markup one by one. -/
def callPlainFile (job : Job) (context : Context) (p : Progress)
    (candidate : ActiveDetector × Nat) : Progress :=
  p.unlessCanceled fun p => job.call context p candidate.2 .plainFile

/-- Calling the detectors of a plain file follows the script of these calls. -/
theorem follows_plainFile (context : Context) (candidates : List (ActiveDetector × Nat)) :
    Follows job cast (fun p => candidates.foldl (job.callPlainFile context) p)
      (callSteps context (candidates.map fun (_, who) => (who, .plainFile))) := by
  -- one step a candidate, as the loop makes them
  have hsteps : callSteps context (candidates.map fun (_, who) => (who, .plainFile))
      = candidates.flatMap fun (_, who) => [.call context who .plainFile] := by
    unfold callSteps
    rw [List.map_map, List.flatMap_def]
    induction candidates with
    | nil => rfl
    | cons candidate candidates ih =>
        rw [List.map_cons, List.map_cons, List.flatten_cons, ih]
        rfl
  rw [hsteps]
  exact Follows.foldl _
    (fun candidate => (Follows.ofSteps (fun _ => [.call context candidate.2 .plainFile])
      (fun _ => rfl) fun _ h => by cases h).unlessCanceled)
    fun _ => yields_unlessCanceled _

/-- Checking the shrinking rules follows their script. -/
theorem follows_checkProguard : Follows job cast job.checkProguard (job.proguardSteps cast) := by
  refine Follows.ofCast job.proguardSteps (fun cast p =>
    if !job.project.includes job.project.proguardFile
        || !job.host.tree.isFile job.project.proguardFile
        || (job.proguardCandidates cast).isEmpty then p
    else
      match job.host.read job.project.proguardFile with
      | none => p
      | some text =>
        (job.proguardCandidates cast).foldl
          (job.callPlainFile (job.context job.project.proguardFile (some text) none))
          (job.openFile job.project.proguardFile text p)) (fun p => ?_) fun cast => ?_
  · rw [proguardCandidates_map ActiveDetector.declares_rested]
    simp only [List.isEmpty_map, List.foldl_map]
    rfl
  · unfold proguardSteps
    simp only
    split
    · exact Follows.nil
    · cases job.host.read job.project.proguardFile with
      | none => exact Follows.nil
      | some text =>
          -- the file is opened unasked, and only the calls yield
          have hopen : Follows job cast (job.openFile job.project.proguardFile text)
              [.opened job.project.proguardFile text none] :=
            Follows.ofSteps (fun _ => [.opened job.project.proguardFile text none])
              (fun _ => rfl) fun _ h => by cases h
          exact hopen.append (follows_plainFile ..)
            (Yields.foldl (fun _ => yields_unlessCanceled _) _)

/-- A check follows its script. -/
theorem follows_check : Follows job cast job.check (job.script cast) := by
  have hmanifest : Follows job cast
      (fun p => if job.scope.manifest then p.unlessCanceled job.checkManifest else p)
      (if job.scope.manifest then job.manifestSteps cast else []) :=
    Follows.ite _ fun _ => follows_checkManifest.unlessCanceled
  have hresources : Follows job cast
      (fun p => if job.scope.resourceFile || job.scope.allResourceFiles then
        p.unlessCanceled job.checkResources else p)
      (if job.scope.resourceFile || job.scope.allResourceFiles then job.resourceSteps cast
        else []) :=
    Follows.ite _ fun _ => follows_checkResources.unlessCanceled
  have hproguard : Follows job cast
      (fun p => if job.scope.proguard then p.unlessCanceled job.checkProguard else p)
      (if job.scope.proguard then job.proguardSteps cast else []) :=
    Follows.ite _ fun _ => follows_checkProguard.unlessCanceled
  -- every part but the first asks before it begins
  have hyields : ∀ (f : Progress → Progress) (c : Prop) [Decidable c],
      Yields fun p => if c then p.unlessCanceled f else p :=
    fun f c _ => (yields_unlessCanceled f).ite c
  exact ((((follows_callAll .beforeProject).append hmanifest (hyields _ _)).append hresources
    (hyields _ _)).append hproguard (hyields _ _)).append
      (follows_callAll .afterProject).unlessCanceled (yields_unlessCanceled _)

/-- A check that was not ended performs its script. -/
theorem check_eq_foldl_script {p : Progress} (hend : (job.check p).canceled = false) :
    job.check p
      = (job.script (p.active.map ActiveDetector.rested)).foldl job.perform p :=
  follows_check.eq_foldl rfl (Or.inl hend)

/-- A check whose script does not end the run performs it. -/
theorem check_eq_of_canceled_foldl_script {p : Progress}
    (hend : ((job.script (p.active.map ActiveDetector.rested)).foldl job.perform p).canceled
      = false) :
    job.check p
      = (job.script (p.active.map ActiveDetector.rested)).foldl job.perform p :=
  follows_check.eq_foldl rfl (Or.inr hend)

/-- Where the run is to end already, the detectors still hear that the
project begins. -/
theorem check_eq_of_canceled {p : Progress} (h : p.canceled) :
    job.check p = (job.roundSteps p.active .beforeProject).foldl job.perform p := by
  have hfollows : Follows job [] (job.callAll .beforeProject) (job.roundSteps [] .beforeProject) :=
    follows_callAll .beforeProject
  have hround : (job.callAll .beforeProject p).canceled := hfollows.keeps p h
  have hfirst : job.check p = job.callAll .beforeProject p := by
    unfold check
    simp [Progress.unlessCanceled, hround]
  rw [hfirst]
  exact calls_eq_foldl_perform ..

/-- Whenever it is ended, a check performs a beginning of its script, opens
no file once the run is to end, and does everything where it is not. -/
theorem exists_check_eq_foldl (p : Progress) :
    ∃ done, done <+: job.script (p.active.map ActiveDetector.rested)
      ∧ job.check p = done.foldl job.perform p ∧ Timely job p done
      ∧ ((job.check p).canceled = false
        → done = job.script (p.active.map ActiveDetector.rested)) := by
  cases hp : p.canceled with
  | false => exact follows_check.performs p rfl hp
  | true =>
      -- ended before it began, it still tells the detectors of the project
      refine ⟨job.roundSteps p.active .beforeProject, ?_, check_eq_of_canceled hp,
        timely_of_forall_not_opens fun _ => opens_of_mem_callSteps, fun hend => ?_⟩
      · unfold script
        rw [roundSteps_map, List.append_assoc, List.append_assoc, List.append_assoc]
        exact List.prefix_append ..
      · -- and a run that is to end is not said to have done everything
        have hfollows : Follows job [] job.check (job.script []) := follows_check
        rw [hfollows.keeps p hp] at hend
        cases hend

end Job

end Run

end ResourceLint
