/-
Where warnings say that they are.

A warning says a line, a column and an offset, and it holds the text of its
file.  In the middle of a run every built-in detector remembers places that
denote bytes of texts as the host has them (`Pointed`); a step keeps this, and
what it finds points at such a byte, or at the shrinking rule by the count of
its check (`Pointed.perform`, `Pointed.points`).  So does every warning of a
check, and of a run, whenever it is ended (`sites_of_mem_check`,
`sited_of_mem_analyze`).

# The line that is shown

The snippet and the page cut the text into lines and show the one with the
number that the warning says.  Where that number is the line of the offset,
they show the line that the offset lies on (`Sited.shows`).  It is so for
every warning, except for those about a shrinking rule with a lone carriage
return before it, or a letter of several bytes before it on its line
(`denotes_analyze_iff`).
-/
import ResourceLint.Proofs.LeadingText
import ResourceLint.Proofs.Origins
import ResourceLint.Proofs.Pointing
import ResourceLint.Proofs.ShownLines

namespace ResourceLint

open Position (ofOffset)

-- ========================================================= what a warning says

namespace Warning

variable {w : Warning} {text : String} {p : Position} {showLines : Bool} {n : Nat}

/-- A warning says that it is at a place: of a byte of its text, or of the
shrinking rule by the count of its check.  Its snippet is for that place. -/
structure Sited (showLines : Bool) (w : Warning) (text : String) (p : Position) : Prop where
  line : w.line = some p.line
  column : w.column = p.column
  offset : w.offset = some p.offset
  snippet : w.snippet = if showLines then Snippet.ofText? text p.line p.column else none
  rule : w.issue.id = ShrinkingRules.issue.id → ∃ before after,
    Text.cut? ShrinkingRules.obsoleteRule.toList text.toList = some (before, after)
      ∧ p = ShrinkingRules.placeAfter before
  denotes : w.issue.id ≠ ShrinkingRules.issue.id → ∃ n, p = ofOffset text.toList n

/-- The line and the column of a warning are those of a byte of its text. -/
structure Denotes (w : Warning) (text : String) (n : Nat) : Prop where
  line : w.line = some (ofOffset text.toList n).line
  column : w.column = (ofOffset text.toList n).column

end Warning

-- ========================================================= findings of a run

namespace Run.Job

variable {job : Job} {cast : List ActiveDetector} {p : Progress} {step : Step}
  {steps : List Step}

/-- What a step calls for is in the document of the text that comes with the
call. -/
def Documented (step : Step) : Prop :=
  ∀ context who made, step = .call context who made → ∀ d e, made.About d e →
    ∃ text, context.contents = some text ∧ Xml.Document.parse text = .ok d ∧ e ∈ d.elements

/-- A script calls for what is in the documents of its files. -/
theorem documented_script (cast : List ActiveDetector) :
    ∀ step ∈ job.script cast, Documented step := by
  rintro step hstep context who made rfl d e habout
  rcases mem_script hstep with ⟨_, _, heq⟩ | ⟨file, folder, test, -, hmarkup, -⟩ | hrules
  · -- a call without a text is about the project as a whole
    have hsound : Sound job.host [] (job.script cast) := sound_script
    have hwide := apt_of_mem_sound hsound hstep
    cases heq
    cases habout <;> cases hwide rfl
  · obtain ⟨text, cleared, -, -, heq | ⟨_, heq⟩ | ⟨document, _, _, hparse, hmade, heq⟩⟩ :=
      mem_markupSteps hmarkup
    · cases heq
    · cases heq
    · cases heq
      obtain ⟨rfl, he⟩ := Visitor.about_of_mem_calls hmade habout
      exact ⟨text, rfl, hparse, he⟩
  · obtain ⟨text, heq | ⟨_, heq⟩⟩ := mem_proguardSteps hrules
    · cases heq
    · cases heq
      cases habout

/-- In the middle of a run the built-in detectors remember places that denote,
and the texts that were read are those of the host. -/
structure Pointed (job : Job) (p : Progress) : Prop where
  remembered : ∀ a ∈ p.active, ∃ reg ∈ Registry.builtIn.registrations,
    a.detector = reg.detector ∧ ∀ entry ∈ a.memory.defined, entry.2.Denotes job.host.read
  genuine : Genuine job.host p.sources

namespace Pointed

variable {context : Context} {who : Nat} {made : Call} {a : ActiveDetector}

/-- How a detector answers in the middle of a run. -/
theorem react (h : Pointed job p)
    (hsound : Sound job.host p.sources (.call context who made :: steps))
    (hstep : Documented (.call context who made)) (ha : a ∈ p.active) :
    (∃ reg ∈ Registry.builtIn.registrations, a.detector = reg.detector
        ∧ ∀ entry ∈ (a.detector.react a.memory context made).1.defined,
          entry.2.Denotes job.host.read)
      ∧ ∀ f, .report f ∈ (a.detector.react a.memory context made).2 →
          f.Points job.host.read := by
  have hcall : Call.Faithful job.host.read context made :=
    { contents := fun text htext => (h.genuine _ _ (hsound.1.2 text htext)).1
      document := hstep context who made rfl }
  obtain ⟨reg, hreg, hdetector, hmemory⟩ := h.remembered a ha
  obtain ⟨hdefined, hreports⟩ := Registry.points_react hreg hcall hmemory
  rw [hdetector]
  exact ⟨⟨reg, hreg, rfl, hdefined⟩, hreports⟩

/-- What a step finds points. -/
theorem points (h : Pointed job p) (hsound : Sound job.host p.sources (step :: steps))
    (hstep : Documented step) {f : Finding} (hf : f ∈ findingsOf p.active step) :
    f.Points job.host.read := by
  cases step with
  | opened => cases hf
  | fault file e =>
      obtain ⟨text, hmem, hparse⟩ := hsound.1
      rw [List.mem_singleton.mp hf]
      have hid : Registry.parserErrorId ≠ ShrinkingRules.issue.id := by decide
      refine ⟨fun h => absurd h hid, fun _ start hstart => ?_⟩
      obtain ⟨n, hposition⟩ := Xml.Document.exists_position_of_parse hparse
      cases hstart
      exact ⟨text, n, (h.genuine _ _ hmem).1, hposition⟩
  | call context who made =>
      obtain ⟨a, ha, hreport⟩ := report_of_mem_findingsOf hf
      exact (h.react hsound hstep (List.mem_of_getElem? ha)).2 f hreport

/-- Detectors remember places that denote after another step. -/
theorem perform (h : Pointed job p) (hsound : Sound job.host p.sources (step :: steps))
    (hstep : Documented step) : Pointed job (job.perform p step) := by
  refine ⟨?_, genuine_perform h.genuine hsound⟩
  rw [active_perform]
  cases step with
  | opened => exact h.remembered
  | fault => exact h.remembered
  | call context who made =>
      cases ha : p.active[who]? with
      | none =>
          rw [remembering, ha]
          exact h.remembered
      | some a =>
          rw [remembering, ha]
          intro b hb
          rcases List.mem_or_eq_of_mem_set hb with hb | rfl
          · exact h.remembered b hb
          · exact (h.react hsound hstep (List.mem_of_getElem? ha)).1

end Pointed

-- ======================================================== warnings of a run

/-- A warning with a place and a text says that it is at some place of it. -/
def Sites (job : Job) (w : Warning) : Prop :=
  ∀ text n, w.contents = some text → w.offset = some n →
    ∃ p, w.Sited job.options.showLines text p

/-- A warning carries the text that is kept for its file. -/
theorem contents_of_warningOf? {sources : List (Path × String)} {f : Finding} {w : Warning}
    (h : job.warningOf? sources f = some w) :
    w.contents = sourceOf? sources f.place.file := by
  unfold warningOf? at h
  simp only [Option.bind_eq_bind, Option.bind_eq_some_iff] at h
  obtain ⟨issue, -, h⟩ := h
  split at h
  · cases h
  · cases h
    rfl

/-- Its snippet is that of its text. -/
theorem snippet_of_warningOf? {sources : List (Path × String)} {f : Finding} {w : Warning}
    (h : job.warningOf? sources f = some w) {text : String} (hcontents : w.contents = some text)
    {start : Position} (hstart : f.place.start = some start) :
    w.snippet
      = if job.options.showLines then Snippet.ofText? text start.line start.column else none := by
  rw [contents_of_warningOf? h] at hcontents
  unfold warningOf? at h
  simp only [Option.bind_eq_bind, Option.bind_eq_some_iff] at h
  obtain ⟨issue, -, h⟩ := h
  split at h
  · cases h
  · cases h
    simp [hcontents, hstart]

/-- The warning for a finding that points says where it is. -/
theorem sites_of_warningOf? (hcoherent : Coherent job.host) {sources : List (Path × String)}
    (hsources : Genuine job.host sources) {f : Finding} (hf : f.Points job.host.read)
    {w : Warning} (h : job.warningOf? sources f = some w) : job.Sites w := by
  intro text n hcontents hoffset
  have htells := tells_of_warningOf? h
  have hissue := issue_of_warningOf? h
  obtain ⟨p, hstart, rfl⟩ := Option.map_eq_some_iff.mp (htells.offset.symm.trans hoffset)
  have hread : ∀ other, job.host.read f.place.file = some other → other = text :=
    fun other => hsources.eq_of_sourceOf? hcoherent (contents_of_warningOf? h ▸ hcontents)
  exact ⟨p,
    { line := htells.line.trans (by rw [hstart]; rfl)
      column := htells.column.trans (by rw [hstart]; rfl)
      offset := hoffset
      snippet := snippet_of_warningOf? h hcontents hstart
      rule := fun hid => by
        obtain ⟨other, before, after, hother, hcut, hplace⟩ := hf.rule (hissue ▸ hid)
        rw [hread other hother] at hcut
        exact ⟨before, after, hcut, Option.some.inj (hstart.symm.trans hplace)⟩
      denotes := fun hid => by
        obtain ⟨other, n, hother, hplace⟩ := hf.denotes (hissue ▸ hid) p hstart
        rw [hread other hother] at hplace
        exact ⟨n, hplace⟩ }⟩

/-- Steps that are sound and documented report where they point. -/
theorem sites_of_mem_foldl_perform (hcoherent : Coherent job.host) (steps : List Step)
    (hsteps : ∀ step ∈ steps, Documented step) (hsound : Sound job.host p.sources steps)
    (h : Pointed job p) {w : Warning} (hw : w ∈ (steps.foldl job.perform p).warnings) :
    w ∈ p.warnings ∨ job.Sites w := by
  induction steps generalizing p with
  | nil => exact Or.inl hw
  | cons step steps ih =>
      have hstep := hsteps step List.mem_cons_self
      rcases ih (fun step hstep => hsteps step (List.mem_cons_of_mem _ hstep)) hsound.perform
        (h.perform hsound hstep) hw with hw | hw
      · rw [warnings_perform] at hw
        refine (List.mem_append.mp hw).imp_right fun hw => ?_
        obtain ⟨f, hf, hmade⟩ := List.mem_filterMap.mp hw
        exact sites_of_warningOf? hcoherent h.genuine (h.points hsound hstep hf) hmade
      · exact Or.inr hw

/-- What is left out at the end of a sound script leaves it sound. -/
theorem Sound.of_prefix {host : Host} {sources : List (Path × String)} {done : List Step}
    (h : Sound host sources steps) (hdone : done <+: steps) : Sound host sources done := by
  obtain ⟨rest, rfl⟩ := hdone
  induction done generalizing sources with
  | nil => trivial
  | cons step done ih =>
      cases step with
      | opened => exact ⟨h.1, ih h.2⟩
      | fault => exact ⟨h.1, ih h.2⟩
      | call => exact ⟨h.1, ih h.2⟩

/-- The warnings of a check of the built-in detectors say where they are,
whenever it is ended. -/
theorem sites_of_mem_check (hregistry : job.registry = .builtIn) (hcoherent : Coherent job.host)
    (hactive : p.active = job.detectors) (hsources : p.sources = []) {w : Warning}
    (hw : w ∈ (job.check p).warnings) : w ∈ p.warnings ∨ job.Sites w := by
  obtain ⟨done, hdone, hcheck, -, -⟩ := @exists_check_eq_foldl job p
  rw [hcheck] at hw
  have hsound : Sound job.host p.sources (job.script (p.active.map ActiveDetector.rested)) :=
    sound_script
  refine sites_of_mem_foldl_perform hcoherent done (fun step hstep => ?_)
    (hsound.of_prefix hdone) ⟨fun a ha => ?_, ?_⟩ hw
  · exact documented_script _ step (hdone.subset hstep)
  · rw [hactive] at ha
    obtain ⟨reg, hreg, hdetector, hmemory⟩ := Registry.mem_activate ha
    refine ⟨reg, hregistry ▸ hreg, hdetector, fun entry hentry => ?_⟩
    rw [hmemory] at hentry
    cases hentry
  · rw [hsources]
    exact genuine_nil

end Run.Job

-- ====================================================== the line that is shown

namespace Warning

variable {w : Warning} {text : String} {p : Position} {showLines : Bool} {n : Nat}

/-- The snippet and the page mark the line that a byte of the text lies on.
They show nothing for a line that is not there, behind the end of the last. -/
def Shows (w : Warning) (showLines : Bool) (text : String) (n : Nat) : Prop :=
  ∃ line here back, w.line = some line ∧ OnLine text.toList n line here back
    ∧ match Text.linesFrom [] (here ++ back) with
      | [] => w.snippet = none ∧ Report.codeBlock text line = []
      | own :: _ =>
        (showLines → ∃ snippet, w.snippet = some snippet ∧ Snippet.Marks snippet own w.column)
          ∧ Report.CodeMarks (Report.codeBlock text line) line own

namespace Sited

/-- A warning is at a byte of its text. -/
theorem offset_le (h : w.Sited showLines text p) : p.offset ≤ Text.byteSize text.toList := by
  by_cases hid : w.issue.id = ShrinkingRules.issue.id
  · obtain ⟨before, after, hcut, rfl⟩ := h.rule hid
    have hbytes := congrArg Text.byteSize (Text.eq_append_of_cut? hcut)
    rw [Text.byteSize_append, Text.byteSize_append] at hbytes
    show Text.byteSize before ≤ _
    omega
  · obtain ⟨n, rfl⟩ := h.denotes hid
    exact Position.offset_ofOffset_le _ n

/-- The line and the column of a warning are those of its offset when its
place is. -/
theorem denotes_iff_eq (h : w.Sited showLines text p) :
    w.Denotes text p.offset ↔ p = ofOffset text.toList p.offset := by
  constructor
  · rintro ⟨hline, hcolumn⟩
    have hsame := Position.offset_ofOffset_of_le h.offset_le
    rw [h.line] at hline
    rw [h.column] at hcolumn
    cases hplace : ofOffset text.toList p.offset with
    | mk line column offset =>
        rw [hplace] at hline hcolumn hsame
        cases p
        simp_all
  · intro heq
    refine ⟨?_, ?_⟩
    · rw [h.line, ← heq]
    · rw [h.column, ← heq]

/-- It is, except for the count of bytes and line feeds. -/
theorem denotes_iff (h : w.Sited showLines text p) :
    w.Denotes text p.offset ↔ (w.issue.id = ShrinkingRules.issue.id →
      ∃ before back, text.toList = before ++ back ∧ Text.byteSize before = p.offset
        ∧ ShrinkingRules.ReturnsPaired before
        ∧ ∀ c ∈ ShrinkingRules.lastLine before, c.utf8Size = 1) := by
  rw [h.denotes_iff_eq]
  by_cases hid : w.issue.id = ShrinkingRules.issue.id
  · obtain ⟨before, after, hcut, rfl⟩ := h.rule hid
    have htext := Text.eq_append_of_cut? hcut
    rw [List.append_assoc] at htext
    have hback : (ShrinkingRules.obsoleteRule.toList ++ after).head? ≠ some '\n' := by
      have hfirst : ShrinkingRules.obsoleteRule.toList.head? = some '-' := by decide
      rw [List.head?_append, hfirst]
      exact fun h => absurd (Option.some.inj h) (by decide)
    have hoffset : (ShrinkingRules.placeAfter before).offset = Text.byteSize before := rfl
    rw [hoffset, htext, ShrinkingRules.placeAfter_eq_iff hback]
    constructor
    · exact fun hplain _ => ⟨before, _, rfl, rfl, hplain⟩
    · intro hrule
      obtain ⟨before', back, hsplit, hbytes, hplain⟩ := hrule hid
      rwa [Text.eq_of_append_eq hsplit hbytes.symm]
  · obtain ⟨n, rfl⟩ := h.denotes hid
    exact iff_of_true (Position.ofOffset_offset _ n).symm fun hrule => absurd hrule hid

/-- Where the line of a warning is that of its offset, that line is shown. -/
theorem shows (h : w.Sited showLines text p) (hdenotes : w.Denotes text n) :
    w.Shows showLines text n := by
  obtain ⟨here, back, honLine⟩ := exists_onLine text.toList n
  obtain ⟨above, -, hcount, hlines, -⟩ := honLine.above
  have hline : p.line = (ofOffset text.toList n).line :=
    Option.some.inj (h.line.symm.trans hdenotes.line)
  have hsnippet := h.snippet
  rw [hline, ← hcount] at hsnippet
  refine ⟨_, here, back, hdenotes.line, honLine, ?_⟩
  rw [← hcount]
  cases hrest : Text.linesFrom [] (here ++ back) with
  | nil =>
      rw [hrest, List.append_nil] at hlines
      rw [Snippet.ofText?_eq_none hlines, ite_self] at hsnippet
      exact ⟨hsnippet, Report.codeBlock_eq_nil hlines⟩
  | cons own below =>
      rw [hrest] at hlines
      refine ⟨fun hshow => ?_, Report.codeMarks_codeBlock hlines⟩
      obtain ⟨snippet, hmade, hmarks⟩ := Snippet.marks_ofText? hlines p.column
      rw [if_pos hshow, hmade] at hsnippet
      rw [h.column]
      exact ⟨snippet, hsnippet, hmarks⟩

end Sited

end Warning

-- ============================================================== all of a run

namespace Session

variable {s : Session} {host : Host} {files : List Path} {scope : Option Scope}

/-- The warnings of a run of the built-in detectors say where they are,
whenever it is ended. -/
theorem sited_of_mem_analyze (hregistry : s.registry = .builtIn) (hcoherent : Run.Coherent host)
    {w : Warning} (hw : w ∈ (s.analyze host files scope).1.warnings) {text : String} {n : Nat}
    (hcontents : w.contents = some text) (hoffset : w.offset = some n) :
    ∃ p, w.Sited s.options.showLines text p := by
  have hcourse : ∀ w ∈ (s.course host files scope).progress.warnings, ∀ text n,
      w.contents = some text → w.offset = some n →
        ∃ p, w.Sited s.options.showLines text p := by
    refine course_induction (P := fun p _ => ∀ w ∈ p.warnings, ∀ text n,
      w.contents = some text → w.offset = some n → ∃ p, w.Sited s.options.showLines text p) ?_
      fun _ h => by cases h
    intro project _ p _ _ hwarnings w hw
    rcases Run.Job.sites_of_mem_check (by exact hregistry) hcoherent rfl rfl hw with hold | hnew
    · exact hwarnings w hold
    · exact hnew
  exact hcourse w ((List.mergeSort_perm _ _).mem_iff.mp hw) text n hcontents hoffset

/-- The places of a run of the built-in detectors.  A warning is at a byte of
its text, and its line and column are those of that byte, so that the snippet
and the page mark the line that the byte lies on; except for the warning about
a shrinking rule, whose line and column are those of its byte exactly where
every carriage return before it has its line feed, and all letters before it
on its line are of one byte. -/
theorem denotes_analyze_iff (hregistry : s.registry = .builtIn) (hcoherent : Run.Coherent host)
    {w : Warning} (hw : w ∈ (s.analyze host files scope).1.warnings) {text : String} {n : Nat}
    (hcontents : w.contents = some text) (hoffset : w.offset = some n) :
    n ≤ Text.byteSize text.toList
      ∧ (w.Denotes text n ↔ (w.issue.id = ShrinkingRules.issue.id →
        ∃ before back, text.toList = before ++ back ∧ Text.byteSize before = n
          ∧ ShrinkingRules.ReturnsPaired before
          ∧ ∀ c ∈ ShrinkingRules.lastLine before, c.utf8Size = 1))
      ∧ (w.Denotes text n → w.Shows s.options.showLines text n) := by
  obtain ⟨p, hsited⟩ := sited_of_mem_analyze hregistry hcoherent hw hcontents hoffset
  obtain rfl : p.offset = n := Option.some.inj (hsited.offset.symm.trans hoffset)
  exact ⟨hsited.offset_le, hsited.denotes_iff, hsited.shows⟩

/-- A project with nothing but a file of shrinking rules. -/
def onlyRules (rules : String) : FileTree :=
  { here := ["ROOT"]
    entries :=
      [(["ROOT"], .directory),
        (["ROOT", "app"], .directory),
        (["ROOT", "app", "AndroidManifest.xml"], .file "<manifest/>".toUTF8),
        (["ROOT", "app", "proguard.cfg"], .file rules.toUTF8)] }

/-- A session that adds snippets. -/
def withLines : Session := new .builtIn none ⟨[], [], none⟩ ⟨false, true, false⟩

/-- The run over the project. -/
def rulesResult (rules : String) : RunResult :=
  (withLines.analyze (.ofTree (onlyRules rules) fun _ => false) [⟨"/ROOT/app"⟩] none).1

/-- The job of the project. -/
def rulesJob (rules : String) : Run.Job :=
  withLines.jobOf (.ofTree (onlyRules rules) fun _ => false) none [⟨"/ROOT/app"⟩]
    (.new ⟨"/ROOT/app"⟩ none)

/-- A place in the file of rules. -/
def inRules (start : Position) : Place :=
  { file := ⟨"/ROOT/app/proguard.cfg"⟩, start := some start, stop := none, message := none }

/-- What is found in the rules is reported. -/
theorem reports_onlyRules {rules : String} {start : Position}
    (hprojects : projectsFor (.ofTree (onlyRules rules) fun _ => false) [⟨"/ROOT/app"⟩]
      = [.new ⟨"/ROOT/app"⟩ none])
    (hscope : ShrinkingRules.issue.scope.isSubset (rulesJob rules).scope)
    (henabled : (rulesJob rules).configuration.isEnabled ShrinkingRules.issue)
    (hfound : (ShrinkingRules.detector.findings "Proguard" .blank
      ((rulesJob rules).told ShrinkingRules.issue.scope ShrinkingRules.detector)).map (·.place)
        = [inRules start])
    (hread : Run.Job.sourcesTold
      ((rulesJob rules).told ShrinkingRules.issue.scope ShrinkingRules.detector)
        = [((inRules start).file, rules)]) :
    ∃ w ∈ (rulesResult rules).warnings, w.contents = some rules ∧ w.line = some start.line
      ∧ w.column = start.column ∧ w.offset = some start.offset := by
  have hserving : Registry.builtIn.serving? ShrinkingRules.issue.id
      = some ⟨"ProguardDetector", ["Proguard"], ShrinkingRules.detector⟩ := by
    unfold Registry.serving?
    rw [Registry.registrations_builtIn]
    rfl
  obtain ⟨f, hf, hplace⟩ := List.mem_map.mp (hfound ▸ List.mem_singleton_self (inRules start))
  obtain ⟨w, hw, -, hmade⟩ := exists_warning_of_mem_findings rfl
    (Run.coherent_ofTree (onlyRules rules) fun _ => false)
    (canceled_analyze_builtIn rfl (fun _ => rfl) rfl)
    (hprojects ▸ List.mem_singleton_self _) rfl
    (show ShrinkingRules.issue ∈ Registry.builtInIssues by simp [Registry.builtInIssues]) hserving
    hscope henabled hf
  -- the warning carries the place of the finding, and the text it was found in
  have htells := Run.Job.tells_of_warningOf? hmade
  have hcontents := Run.Job.contents_of_warningOf? hmade
  rw [hplace] at hcontents
  refine ⟨w, hw, hcontents.trans ?_, ?_, ?_, ?_⟩
  · refine (congrArg (Run.Job.sourceOf? · (inRules start).file) hread).trans ?_
    simp [Run.Job.sourceOf?, Path.same_refl]
  · rw [htells.line, hplace]
    rfl
  · rw [htells.column, hplace]
    rfl
  · rw [htells.offset, hplace]
    rfl

/-- The obsolete rule behind a comment and a line end of two characters. -/
def commentedRules : String :=
  "# old\r\n -keepclasseswithmembernames class * \x7b\n    public <init>(android.x"

theorem reports_commentedRules :
    ∃ w ∈ (rulesResult commentedRules).warnings, w.contents = some commentedRules
      ∧ w.line = some 1 ∧ w.column = some 1 ∧ w.offset = some 8 :=
  @reports_onlyRules commentedRules ⟨1, some 1, 8⟩ (by decide +kernel) (by decide +kernel)
    (by decide +kernel) (by decide +kernel) (by decide +kernel)

/-- The line end is counted as the text has it, so the warning is where it
says. -/
theorem denotes_commentedRules :
    ∃ w ∈ (rulesResult commentedRules).warnings, w.contents = some commentedRules
      ∧ w.offset = some 8 ∧ w.Denotes commentedRules 8 ∧ w.Shows true commentedRules 8 := by
  obtain ⟨w, hw, hcontents, -, -, hoffset⟩ := reports_commentedRules
  obtain ⟨-, hdenotes, hshows⟩ :=
    denotes_analyze_iff rfl (Run.coherent_ofTree _ _) hw hcontents hoffset
  have hplain : ∃ before back, commentedRules.toList = before ++ back ∧ Text.byteSize before = 8
      ∧ ShrinkingRules.ReturnsPaired before
      ∧ ∀ c ∈ ShrinkingRules.lastLine before, c.utf8Size = 1 := by
    have hbefore : commentedRules.toList.take 8 = ['#', ' ', 'o', 'l', 'd', '\r', '\n', ' '] := by
      decide +kernel
    have hlast : ShrinkingRules.lastLine (commentedRules.toList.take 8) = [' '] := by
      decide +kernel
    refine ⟨commentedRules.toList.take 8, commentedRules.toList.drop 8,
      (List.take_append_drop 8 _).symm, by decide +kernel, ?_, ?_⟩
    · rw [hbefore]
      simp [ShrinkingRules.returnsPaired_cons_iff, ShrinkingRules.returnsPaired_nil]
    · rw [hlast]
      exact List.forall_mem_singleton.mpr (by decide)
  have hhere := hdenotes.mpr fun _ => hplain
  exact ⟨w, hw, hcontents, hoffset, hhere, hshows hhere⟩

/-- The obsolete rule behind a letter of two bytes. -/
def accentedRules : String :=
  "é -keepclasseswithmembernames class * \x7b\n    public <init>(android.x"

theorem reports_accentedRules :
    ∃ w ∈ (rulesResult accentedRules).warnings, w.contents = some accentedRules
      ∧ w.line = some 0 ∧ w.column = some 3 ∧ w.offset = some 3 :=
  @reports_onlyRules accentedRules ⟨0, some 3, 3⟩ (by decide +kernel) (by decide +kernel)
    (by decide +kernel) (by decide +kernel) (by decide +kernel)

/-- The letter is counted as two, so the warning says a column that its offset
does not have. -/
theorem not_denotes_accentedRules :
    ¬ ∀ w ∈ (rulesResult accentedRules).warnings, ∀ text n, w.contents = some text →
        w.offset = some n → w.Denotes text n := by
  intro h
  obtain ⟨w, hw, hcontents, -, hcolumn, hoffset⟩ := reports_accentedRules
  have hdenotes := (h w hw accentedRules 3 hcontents hoffset).column
  rw [hcolumn] at hdenotes
  exact absurd hdenotes (by decide)

end Session

end ResourceLint
