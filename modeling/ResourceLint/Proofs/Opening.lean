/-
Which files a run opens, and what it knows of them.

A run opens the manifest, XML files in folders of resources and the file of
shrinking rules, and nothing else: `isOpenable` tells these by their names.
It keeps the texts of the files it opened, and a warning carries the text
of its file where that is kept.  A script is `Sound` when it opens files as
they stand with the host and speaks only of what it has opened before;
every script is (`sound_script`).

Texts are looked up by path, and a path can be written in many ways.  With
a host that is `Coherent`, as one that reads a tree of files is, it does
not matter under which of them a file was opened.
-/
import ResourceLint.Proofs.Script
import ResourceLint.Proofs.Trees

namespace ResourceLint

/-- Whether a call is about the project as a whole. -/
def Call.isWide : Call → Bool
  | .beforeProject | .afterProject => true
  | _ => false

namespace Run

-- ========================================================== files opened

/-- Whether a run may open a file, by its name. -/
def isOpenable (file : Path) : Bool :=
  file.fileName?.any fun name => hasExtension name "xml" || name == proguardName

/-- Whether a run opens a file goes by its name, which spellings of one path
share. -/
theorem isOpenable_congr {p q : Path} (h : p.same q) : isOpenable p = isOpenable q := by
  unfold isOpenable
  rw [Path.fileName?_congr h]

/-- What a host reads does not depend on how a path is written. -/
def Coherent (host : Host) : Prop :=
  ∀ p q a b, p.same q → host.read p = some a → host.read q = some b → a = b

/-- What is read in a tree of files does not depend on how a path is
written. -/
theorem coherent_ofTree (tree : FileTree) (cancels : List Event → Bool) :
    Coherent (.ofTree tree cancels) := by
  intro p q a b h hp hq
  have hok : ∀ {r : Path} {text : String}, (Host.ofTree tree cancels).read r = some text →
      tree.readText r = .ok text := by
    intro r text hread
    change (tree.readText r).toOption = some text at hread
    cases hr : tree.readText r with
    | error fault => rw [hr] at hread; cases hread
    | ok found => rw [hr] at hread; cases hread; rfl
  exact FileTree.readText_congr_same h (hok hp) (hok hq)

/-- The texts of files that were read, as they stand with the host. -/
def Genuine (host : Host) (sources : List (Path × String)) : Prop :=
  ∀ file text, (file, text) ∈ sources → host.read file = some text ∧ isOpenable file

/-- A file whose text was read. -/
def Known (sources : List (Path × String)) (file : Path) : Prop := ∃ text, (file, text) ∈ sources

variable {host : Host} {s t : List (Path × String)}

/-- Files stay known. -/
theorem Known.mono (h : ∀ entry ∈ s, entry ∈ t) {file : Path}
    (hs : Known s file) : Known t file := by
  obtain ⟨text, hmem⟩ := hs
  exact ⟨text, h _ hmem⟩

/-- A file that is read is kept as the host has it. -/
theorem Genuine.cons {file : Path} {text : String} (hs : Genuine host s)
    (hread : host.read file = some text) (hopen : isOpenable file) :
    Genuine host ((file, text) :: s) := by
  intro file' text' hmem
  rcases List.mem_cons.mp hmem with heq | hmem
  · cases heq
    exact ⟨hread, hopen⟩
  · exact hs file' text' hmem

/-- The text kept for a file that was read. -/
theorem Genuine.sourceOf?_of_known (hcoherent : Coherent host) (hs : Genuine host s)
    {file : Path} (h : Known s file) : Job.sourceOf? s file = host.read file := by
  obtain ⟨text, hmem⟩ := h
  have hread := (hs file text hmem).1
  unfold Job.sourceOf?
  generalize hfind : List.find? _ s = found
  cases found with
  | none =>
      rw [List.find?_eq_none] at hfind
      exact absurd (Path.same_refl file) (hfind (file, text) hmem)
  | some found =>
      obtain ⟨path, text'⟩ := found
      have hsame := List.find?_some hfind
      have hpath := (hs path text' (List.mem_of_find?_eq_some hfind)).1
      rw [hread, Option.map_some, hcoherent path file text' text hsame hpath hread]

/-- A text that is kept for a file is the one that the host reads. -/
theorem Genuine.eq_of_sourceOf? (hcoherent : Coherent host) (hs : Genuine host s) {file : Path}
    {text other : String} (h : Job.sourceOf? s file = some text)
    (hread : host.read file = some other) : other = text := by
  unfold Job.sourceOf? at h
  obtain ⟨⟨path, kept⟩, hfind, rfl⟩ := Option.map_eq_some_iff.mp h
  have hsame := List.find?_some hfind
  have hkept := (hs path kept (List.mem_of_find?_eq_some hfind)).1
  exact (hcoherent path file kept other hsame hkept hread).symm

/-- No text is kept for a file that is never opened. -/
theorem Genuine.sourceOf?_of_not_isOpenable (hs : Genuine host s) {file : Path}
    (h : isOpenable file = false) : Job.sourceOf? s file = none := by
  unfold Job.sourceOf?
  rw [Option.map_eq_none_iff, List.find?_eq_none]
  rintro ⟨path, text⟩ hmem hsame
  have hopen := (hs path text hmem).2
  rw [isOpenable_congr hsame, h] at hopen
  cases hopen

/-- The text of one file, as it stands with the host. -/
def textOf (host : Host) (file : Path) : List (Path × String) :=
  (host.read file).toList.map (file, ·)

/-- The text of one file is found under that file. -/
theorem sourceOf?_textOf (host : Host) (file : Path) :
    Job.sourceOf? (textOf host file) file = host.read file := by
  unfold Job.sourceOf? textOf
  cases host.read file <;> simp [Path.same_refl]

-- ============================================================== places

/-- What is told in a file comes with its text; without one, only the
beginning and the end of the project are told. -/
def Apt (told : Context × Call) : Prop := told.1.contents = none → told.2.isWide

namespace Job

variable {job : Job} {cast : List ActiveDetector} {p : Progress}

-- ====================================================== sound scripts

/-- Steps open files as they stand with the host, find parse errors in what
was opened, and make calls about what was opened. -/
def Sound (host : Host) : List (Path × String) → List Step → Prop
  | _, [] => True
  | sources, .opened file text _ :: more =>
    (host.read file = some text ∧ isOpenable file) ∧ Sound host ((file, text) :: sources) more
  | sources, .fault file e :: more =>
    (∃ text, (file, text) ∈ sources ∧ Xml.Document.parse text = .error e)
      ∧ Sound host sources more
  | sources, .call context _ made :: more =>
    (Apt (context, made) ∧ ∀ text, context.contents = some text → (context.file, text) ∈ sources)
      ∧ Sound host sources more

variable {sources : List (Path × String)}

/-- Sound steps may follow each other. -/
theorem Sound.append {s t : List Step} (hs : Sound host sources s)
    (ht : ∀ sources, Sound host sources t) : Sound host sources (s ++ t) := by
  induction s generalizing sources with
  | nil => exact ht sources
  | cons step s ih =>
      rcases step with ⟨file, text, cleared⟩ | ⟨file, e⟩ | ⟨context, who, made⟩
      · exact ⟨hs.1, ih hs.2⟩
      · exact ⟨hs.1, ih hs.2⟩
      · exact ⟨hs.1, ih hs.2⟩

/-- Sound steps for each item are sound together. -/
theorem sound_flatMap {α : Type} (items : List α) (steps : α → List Step)
    (h : ∀ item ∈ items, ∀ sources, Sound host sources (steps item)) :
    Sound host sources (items.flatMap steps) := by
  induction items generalizing sources with
  | nil => trivial
  | cons item items ih =>
      exact (h item List.mem_cons_self sources).append fun _ =>
        ih fun item hitem => h item (List.mem_cons_of_mem _ hitem)

/-- Calls about a file that was opened are sound. -/
theorem sound_callSteps {context : Context} {made : List (Nat × Call)}
    (hapt : ∀ call ∈ made, Apt (context, call.2))
    (htext : ∀ text, context.contents = some text → (context.file, text) ∈ sources) :
    Sound host sources (callSteps context made) := by
  induction made with
  | nil => trivial
  | cons call made ih =>
      exact ⟨⟨hapt call List.mem_cons_self, htext⟩,
        ih fun call hcall => hapt call (List.mem_cons_of_mem _ hcall)⟩

/-- Calls about the whole project are sound at any time. -/
theorem sound_roundSteps {made : Call} (h : made.isWide) :
    Sound host sources (job.roundSteps cast made) := by
  refine sound_callSteps (fun call hcall _ => ?_) fun text htext => by cases htext
  obtain ⟨_, -, rfl⟩ := List.mem_map.mp hcall
  exact h

/-- A markup file is opened first, and its parse error or its calls are about
that text. -/
theorem sound_markupSteps {file : Path} {folder : Option FolderType} {visitor : Visitor}
    (hopen : isOpenable file) :
    Sound job.host sources (job.markupSteps cast file folder visitor) := by
  unfold markupSteps
  cases hread : job.host.read file with
  | none => trivial
  | some text =>
      refine ⟨⟨hread, hopen⟩, ?_⟩
      cases hparse : Xml.Document.parse text with
      | error e => exact ⟨⟨text, List.mem_cons_self, hparse⟩, trivial⟩
      | ok document =>
          refine sound_callSteps (fun call _ hnone => by cases hnone) fun text' htext => ?_
          cases htext
          exact List.mem_cons_self

/-- Markup files are opened. -/
theorem isOpenable_of_hasExtension {file : Path}
    (h : hasExtension (file.fileName?.getD "") "xml") : isOpenable file := by
  unfold isOpenable
  cases hname : file.fileName? with
  | none =>
      rw [hname] at h
      exact absurd h (by decide)
  | some name =>
      rw [hname] at h
      simp only [Option.getD_some] at h
      simp [h]

theorem isOpenable_child {p : Path} {name : String} (hname : Path.IsName name)
    (h : hasExtension name "xml" || name == proguardName) : isOpenable (p.child name) := by
  unfold isOpenable
  rw [Path.fileName?_child p hname]
  exact h

/-- The resource files of a project are XML files. -/
theorem hasExtension_of_mem_resourceFiles {tree : FileTree} {project : Project}
    {found : Path × FolderType} (h : found ∈ resourceFiles tree project) :
    hasExtension (found.1.fileName?.getD "") "xml" := by
  unfold resourceFiles at h
  simp only at h
  obtain ⟨file, hfile, hfound⟩ := List.mem_filterMap.mp h
  obtain ⟨folder, -, rfl⟩ := Option.map_eq_some_iff.mp hfound
  split at hfile
  · rw [List.mem_mergeSort] at hfile
    have hresource := (List.mem_filter.mp hfile).2
    unfold isResourceFile at hresource
    simp only [Bool.and_eq_true] at hresource
    exact hresource.2
  · obtain ⟨⟨path, depth, entry⟩, hentry, rfl⟩ := List.mem_map.mp hfile
    have hkeep := (List.mem_filter.mp hentry).2
    simp only [Bool.and_eq_true] at hkeep
    exact hkeep.2

/-- The script for the manifest is sound. -/
theorem sound_manifestSteps : Sound job.host sources (job.manifestSteps cast) := by
  unfold manifestSteps
  simp only
  split
  · exact sound_markupSteps (isOpenable_child (by decide) (by decide))
  · trivial

/-- The script for the resource files is sound. -/
theorem sound_resourceSteps : Sound job.host sources (job.resourceSteps cast) := by
  unfold resourceSteps
  split
  · trivial
  · refine sound_flatMap _ _ fun found hfound sources => ?_
    unfold resourceFileSteps
    simp only
    split
    · trivial
    · exact sound_markupSteps
        (isOpenable_of_hasExtension (hasExtension_of_mem_resourceFiles hfound))

/-- The script for the shrinking rules is sound. -/
theorem sound_proguardSteps : Sound job.host sources (job.proguardSteps cast) := by
  unfold proguardSteps
  simp only
  split
  · trivial
  · cases hread : job.host.read job.project.proguardFile with
    | none => trivial
    | some text =>
        refine ⟨⟨hread, isOpenable_child (by decide) (by decide)⟩, ?_⟩
        refine sound_callSteps (fun call _ hnone => by cases hnone) fun text' htext => ?_
        cases htext
        exact List.mem_cons_self

/-- What may be left out of a script is sound when it is there. -/
theorem sound_ite {wanted : Bool} {steps : List Step}
    (h : ∀ sources, Sound job.host sources steps) (sources : List (Path × String)) :
    Sound job.host sources (if wanted then steps else []) := by
  split
  · exact h sources
  · trivial

/-- A script opens what it speaks of. -/
theorem sound_script : Sound job.host sources (job.script cast) :=
  ((((sound_roundSteps rfl).append (sound_ite fun _ => sound_manifestSteps)).append
    (sound_ite fun _ => sound_resourceSteps)).append
      (sound_ite fun _ => sound_proguardSteps)).append fun _ => sound_roundSteps rfl

-- ================================================== what a script holds

/-- What is done to a file of markup: it is opened, and then either it
cannot be parsed, or the visitor's calls for the document of its text are
made. -/
theorem mem_markupSteps {file : Path} {folder : Option FolderType} {visitor : Visitor}
    {step : Step} (h : step ∈ job.markupSteps cast file folder visitor) :
    ∃ text cleared, .opened file text cleared ∈ job.markupSteps cast file folder visitor
      ∧ cleared = (if job.project.subset.isSome then some (visitor.issueIds cast) else none)
      ∧ (step = .opened file text cleared ∨ (∃ e, step = .fault file e)
        ∨ ∃ document who made, Xml.Document.parse text = .ok document
          ∧ (who, made) ∈ visitor.calls document
          ∧ step = .call (job.context file (some text) folder) who made) := by
  unfold markupSteps at h ⊢
  cases hread : job.host.read file with
  | none =>
      rw [hread] at h
      cases h
  | some text =>
      rw [hread] at h
      refine ⟨text, _, List.mem_cons_self, rfl, (List.mem_cons.mp h).imp_right fun h => ?_⟩
      -- behind the opening there is a fault or there are calls, never both
      cases hparse : Xml.Document.parse text with
      | error e =>
          simp only [hparse] at h
          exact Or.inl ⟨e, List.mem_singleton.mp h⟩
      | ok document =>
          simp only [hparse] at h
          obtain ⟨⟨who, made⟩, hmade, rfl⟩ := List.mem_map.mp h
          exact Or.inr ⟨document, who, made, rfl, hmade, rfl⟩

/-- What is done to the file of shrinking rules. -/
theorem mem_proguardSteps {step : Step} (h : step ∈ job.proguardSteps cast) :
    ∃ text, step = .opened job.project.proguardFile text none
      ∨ ∃ who, step = .call (job.context job.project.proguardFile (some text) none) who
          .plainFile := by
  unfold proguardSteps at h
  simp only at h
  split at h
  · cases h
  · cases hread : job.host.read job.project.proguardFile with
    | none =>
        rw [hread] at h
        cases h
    | some text =>
        rw [hread] at h
        refine ⟨text, (List.mem_cons.mp h).imp_right fun h => ?_⟩
        obtain ⟨_, hmade, rfl⟩ := List.mem_map.mp h
        obtain ⟨⟨a, who⟩, -, rfl⟩ := List.mem_map.mp hmade
        exact ⟨who, rfl⟩

/-- A round makes calls with the context of the project. -/
theorem mem_roundSteps {step : Step} {made : Call} (h : step ∈ job.roundSteps cast made) :
    ∃ who made, step = .call job.projectContext who made := by
  obtain ⟨⟨who, made⟩, -, rfl⟩ := List.mem_map.mp h
  exact ⟨who, made, rfl⟩

/-- A step for a file of markup, all of whose steps are among the given ones. -/
def OfMarkup (job : Job) (cast : List ActiveDetector) (steps : List Step) (step : Step) : Prop :=
  ∃ file folder test, hasExtension (file.fileName?.getD "") "xml"
    ∧ step ∈ job.markupSteps cast file folder (Visitor.new (candidates cast test) folder)
    ∧ job.markupSteps cast file folder (Visitor.new (candidates cast test) folder) ⊆ steps

/-- A step for a markup file stays one in a longer script. -/
theorem OfMarkup.mono {steps more : List Step} {step : Step} (h : OfMarkup job cast steps step)
    (hmore : steps ⊆ more) : OfMarkup job cast more step := by
  obtain ⟨file, folder, test, hxml, hstep, hall⟩ := h
  exact ⟨file, folder, test, hxml, hstep, fun _ hother => hmore (hall hother)⟩

/-- The steps for the manifest are for a markup file. -/
theorem ofMarkup_of_mem_manifestSteps {step : Step} (h : step ∈ job.manifestSteps cast) :
    OfMarkup job cast (job.manifestSteps cast) step := by
  unfold manifestSteps at h ⊢
  simp only at h ⊢
  split at h
  · next hopens =>
      rw [if_pos hopens]
      refine ⟨_, _, _, ?_, h, fun _ hother => hother⟩
      rw [Project.manifest, Path.fileName?_child _ (by decide)]
      decide
  · cases h

theorem ofMarkup_of_mem_resourceFileSteps {found : Path × FolderType} {step : Step}
    (hfound : found ∈ resourceFiles job.host.tree job.project)
    (h : step ∈ job.resourceFileSteps cast found) :
    OfMarkup job cast (job.resourceFileSteps cast found) step := by
  unfold resourceFileSteps at h ⊢
  simp only at h ⊢
  split at h
  · cases h
  · next hvisits =>
      rw [if_neg hvisits]
      exact ⟨_, _, _, hasExtension_of_mem_resourceFiles hfound, h, fun _ hother => hother⟩

/-- The steps for the resource files are for markup files. -/
theorem ofMarkup_of_mem_resourceSteps {step : Step} (h : step ∈ job.resourceSteps cast) :
    OfMarkup job cast (job.resourceSteps cast) step := by
  unfold resourceSteps at h ⊢
  split at h
  · cases h
  · next hsome =>
      rw [if_neg hsome]
      obtain ⟨found, hfound, h⟩ := List.mem_flatMap.mp h
      exact (ofMarkup_of_mem_resourceFileSteps hfound h).mono fun _ hother =>
        List.mem_flatMap.mpr ⟨found, hfound, hother⟩

/-- A step of a script concerns the project as a whole, a file of markup, all
of whose steps are in the script, or the file of shrinking rules. -/
theorem mem_script {step : Step} (h : step ∈ job.script cast) :
    (∃ who made, step = .call job.projectContext who made)
      ∨ OfMarkup job cast (job.script cast) step ∨ step ∈ job.proguardSteps cast := by
  unfold script at h ⊢
  simp only [List.mem_append, List.mem_ite_nil_right] at h
  rcases h with (((h | ⟨hscope, h⟩) | ⟨hscope, h⟩) | ⟨-, h⟩) | h
  · exact Or.inl (mem_roundSteps h)
  · refine Or.inr (Or.inl ((ofMarkup_of_mem_manifestSteps h).mono fun other hother => ?_))
    simp [hscope, hother]
  · refine Or.inr (Or.inl ((ofMarkup_of_mem_resourceSteps h).mono fun other hother => ?_))
    simp [hscope, hother]
  · exact Or.inr (Or.inr h)
  · exact Or.inl (mem_roundSteps h)

/-- A script calls in contexts of its job. -/
theorem context_of_mem_script {context : Context} {who : Nat} {made : Call}
    (h : .call context who made ∈ job.script cast) :
    ∃ file contents folder, context = job.context file contents folder := by
  rcases mem_script h with ⟨_, _, heq⟩ | ⟨file, folder, test, -, h, -⟩ | h
  · cases heq
    exact ⟨_, _, _, rfl⟩
  · obtain ⟨text, cleared, -, -, heq | ⟨e, heq⟩ | ⟨_, _, _, -, -, heq⟩⟩ := mem_markupSteps h
    · cases heq
    · cases heq
    · cases heq
      exact ⟨_, _, _, rfl⟩
  · obtain ⟨text, heq | ⟨_, heq⟩⟩ := mem_proguardSteps h
    · cases heq
    · cases heq
      exact ⟨_, _, _, rfl⟩

-- ================================================ what steps leave known

/-- What is emitted changes no text that is kept. -/
theorem foldl_emit_sources (es : List Emission) : (es.foldl job.emit p).sources = p.sources := by
  induction es generalizing p with
  | nil => rfl
  | cons e es ih =>
      rw [List.foldl_cons, ih]
      cases e <;> rfl

/-- A call changes no text that is kept. -/
theorem sources_call (context : Context) (who : Nat) (made : Call) :
    (job.call context p who made).sources = p.sources := by
  unfold call
  split
  · rfl
  · exact foldl_emit_sources _

/-- A text is kept when its file is opened. -/
theorem sources_perform (step : Step) :
    (job.perform p step).sources
      = match step with
        | .opened file text _ => (file, text) :: p.sources
        | _ => p.sources := by
  rcases step with ⟨file, text, _ | ids⟩ | ⟨file, e⟩ | ⟨context, who, made⟩
  · rfl
  · rfl
  · rw [perform, reportFault_eq]
  · exact sources_call ..

/-- Texts that are kept stay. -/
theorem mem_sources_perform (step : Step) {entry : Path × String} (h : entry ∈ p.sources) :
    entry ∈ (job.perform p step).sources := by
  rw [sources_perform]
  split
  · exact List.mem_cons_of_mem _ h
  · exact h

/-- What is left of a sound script is sound. -/
theorem Sound.perform {step : Step} {steps : List Step}
    (h : Sound job.host p.sources (step :: steps)) :
    Sound job.host (job.perform p step).sources steps := by
  rw [sources_perform]
  cases step with
  | opened => exact h.2
  | fault => exact h.2
  | call => exact h.2

/-- A sound step keeps the texts as they stand with the host. -/
theorem genuine_perform (hgenuine : Genuine job.host p.sources) {step : Step} {steps : List Step}
    (h : Sound job.host p.sources (step :: steps)) :
    Genuine job.host (job.perform p step).sources := by
  rw [sources_perform]
  cases step with
  | opened => exact hgenuine.cons h.1.1 h.1.2
  | fault => exact hgenuine
  | call => exact hgenuine

theorem genuine_nil : Genuine host [] := fun _ _ h => by cases h

end Job

end Run

end ResourceLint
