/-
Values that are digits and a unit.

A value is cut behind its digits, and what follows is its unit
(`unit?_eq_some_iff`).  Every attribute is looked at, in document order and by
itself (`findings_told`): as a length in pixels, or else as the size of a text.

Two things are not looked at: the number that the digits write, of which only
the first is asked whether it is the digit 0, and the namespace of a size.
Pixels are reported as they are described exactly where the digits of a length
begin with 0 if they write zero, and only then, and sizes exactly where each
one reported is in the namespace of the platform (`remarks_dimensions`).
-/
import Mathlib.Data.Nat.Digits.Defs
import ResourceLint.Proofs.Meeting
import ResourceLint.Proofs.Remarks

namespace ResourceLint.Dimension

open Xml (Document Element Attribute)

variable {c : Context} {doc : Document} {a : Attribute} {value unit : String} {digits : List Char}

-- ===================================================================== values

/-- A value that is one or more digits followed by a unit. -/
structure Measures (value : String) (digits : List Char) (unit : String) : Prop where
  filled : digits ≠ []
  all : ∀ c ∈ digits, Text.isDigit c
  value : value.toList = digits ++ unit.toList

/-- The number that digits write. -/
def numberOf (digits : List Char) : Nat :=
  Nat.ofDigits 10 (digits.reverse.map fun c => (Text.digitValue? c).getD 0)

/-- The digits in front of a value. -/
def digitsOf (value : String) : List Char := value.toList.takeWhile Text.isDigit

/-- The digits of a value end where its unit begins. -/
theorem Measures.digits_eq (h : Measures value digits unit)
    (hunit : ∀ c ∈ unit.toList.head?, Text.isDigit c = false) : digits = digitsOf value := by
  have hrest : unit.toList.takeWhile Text.isDigit = [] := by
    cases hcs : unit.toList with
    | nil => rfl
    | cons c cs =>
        have hc := hunit c (by simp [hcs])
        rw [List.takeWhile_cons_of_neg (by simp [hc])]
  unfold digitsOf
  rw [h.value, List.takeWhile_append_of_pos h.all, hrest, List.append_nil]

/-- A unit is read exactly off digits and that unit. -/
theorem unit?_eq_some_iff :
    unit? value = some unit ↔ Measures value (digitsOf value) unit := by
  have hsplit : digitsOf value ++ value.toList.dropWhile Text.isDigit = value.toList :=
    List.takeWhile_append_dropWhile
  have hall : ∀ c ∈ digitsOf value, Text.isDigit c := fun c hc => List.mem_takeWhile_imp hc
  unfold unit?
  by_cases hempty : digitsOf value = []
  · have hnone : (value.toList.takeWhile Text.isDigit).isEmpty := List.isEmpty_iff.mpr hempty
    simp only [hnone, if_true, reduceCtorEq, false_iff]
    intro h
    exact h.filled hempty
  · have hsome : (value.toList.takeWhile Text.isDigit).isEmpty = false :=
      List.isEmpty_eq_false_iff.mpr hempty
    simp only [hsome, Bool.false_eq_true, if_false, Option.some.injEq]
    constructor
    · intro heq
      refine ⟨hempty, hall, ?_⟩
      rw [← heq, String.toList_ofList, hsplit]
    · intro h
      have hrest : value.toList.dropWhile Text.isDigit = unit.toList :=
        List.append_cancel_left (hsplit.trans h.value)
      rw [hrest, String.ofList_toList]

/-- No unit begins with a digit. -/
theorem isDigit_head : ∀ unit ∈ ["px", "dp", "dip"], ∀ c ∈ unit.toList.head?,
    Text.isDigit c = false := by
  have hall : ["px", "dp", "dip"].all fun unit => unit.toList.head?.all (!Text.isDigit ·) := by
    decide +kernel
  intro unit hunit c hc
  have hone := List.all_eq_true.mp hall unit hunit
  rw [Option.mem_def.mp hc, Option.all_some, Bool.not_eq_true'] at hone
  exact hone

/-- A value is in pixels when it is digits and `px`. -/
theorem isPixels_iff : isPixels value ↔ ∃ digits, Measures value digits "px" := by
  have hunit := isDigit_head "px" (by simp)
  unfold isPixels
  rw [beq_iff_eq, unit?_eq_some_iff]
  constructor
  · intro h
    exact ⟨_, h⟩
  · intro ⟨digits, h⟩
    exact h.digits_eq hunit ▸ h

/-- A value is independent of the density when it is digits and `dp` or
`dip`. -/
theorem isDensityIndependent_iff :
    isDensityIndependent value
      ↔ ∃ digits, Measures value digits "dp" ∨ Measures value digits "dip" := by
  have hdp := isDigit_head "dp" (by simp)
  have hdip := isDigit_head "dip" (by simp)
  unfold isDensityIndependent
  rw [Bool.or_eq_true, beq_iff_eq, beq_iff_eq, unit?_eq_some_iff, unit?_eq_some_iff]
  constructor
  · intro h
    exact ⟨_, h⟩
  · intro ⟨digits, h⟩
    rcases h with h | h
    · exact Or.inl (h.digits_eq hdp ▸ h)
    · exact Or.inr (h.digits_eq hdip ▸ h)

/-- A value has one unit. -/
theorem not_isPixels_of_isDensityIndependent (h : isDensityIndependent value) :
    isPixels value = false := by
  unfold isDensityIndependent at h
  unfold isPixels
  rw [Bool.or_eq_true, beq_iff_eq, beq_iff_eq] at h
  rcases h with h | h <;> rw [h] <;> decide

-- ================================================================= attributes

/-- The attributes of a document, each with its element, in document order. -/
def attributesOf (doc : Document) : List (Element × Attribute) :=
  doc.elements.flatMap fun e => e.attributes.map (e, ·)

/-- Whether an attribute is reported for its pixels. -/
def flagsPixels (a : Attribute) : Bool :=
  isPixels a.value && a.value.toList.head? != some '0'

/-- Whether an attribute is reported for the size of its text. -/
def flagsSize (a : Attribute) : Bool :=
  a.localName == "textSize" && isDensityIndependent a.value

/-- An attribute that gives a length in pixels, other than zero. -/
def GivesPixels (a : Attribute) : Prop :=
  ∃ digits, Measures a.value digits "px" ∧ numberOf digits ≠ 0

/-- An attribute that gives the size of a text in a unit that does not follow the
size chosen by the user. -/
structure GivesSize (a : Attribute) : Prop where
  name : a.localName = "textSize"
  uri : a.uri = some androidUri
  value : ∃ digits, Measures a.value digits "dp" ∨ Measures a.value digits "dip"

/-- Lengths that are to be reported measure pixels, and not none of them. -/
theorem givesPixels_iff :
    GivesPixels a ↔ isPixels a.value && numberOf (digitsOf a.value) != 0 := by
  have hunit := isDigit_head "px" (by simp)
  rw [Bool.and_eq_true, bne_iff_ne, isPixels_iff]
  constructor
  · intro ⟨digits, h, hnumber⟩
    exact ⟨⟨digits, h⟩, h.digits_eq hunit ▸ hnumber⟩
  · intro ⟨⟨digits, h⟩, hnumber⟩
    exact ⟨digits, h, h.digits_eq hunit ▸ hnumber⟩

/-- Text sizes that are to be reported are the flagged ones of the platform. -/
theorem givesSize_iff : GivesSize a ↔ flagsSize a && a.uri == some androidUri := by
  unfold flagsSize
  rw [Bool.and_eq_true, Bool.and_eq_true, beq_iff_eq, beq_iff_eq, isDensityIndependent_iff]
  constructor
  · intro h
    exact ⟨⟨h.name, h.value⟩, h.uri⟩
  · intro ⟨⟨hname, hvalue⟩, huri⟩
    exact ⟨hname, huri, hvalue⟩

instance : DecidablePred GivesPixels := fun _ => decidable_of_iff' _ givesPixels_iff

instance : DecidablePred GivesSize := fun _ => decidable_of_iff' _ givesSize_iff

/-- A length in pixels is reported as it is described where its digits begin
with 0 exactly if they write zero. -/
theorem flagsPixels_iff_givesPixels :
    (flagsPixels a ↔ GivesPixels a)
      ↔ ∀ digits, Measures a.value digits "px" → (digits.head? = some '0' ↔ numberOf digits = 0) := by
  have hunit := isDigit_head "px" (by simp)
  have hhead : ∀ digits, Measures a.value digits "px" → a.value.toList.head? = digits.head? := by
    intro digits h
    rw [h.value, List.head?_append_of_ne_nil _ h.filled]
  unfold flagsPixels
  rw [givesPixels_iff, Bool.and_eq_true, Bool.and_eq_true, bne_iff_ne, bne_iff_ne, and_congr_right_iff,
    isPixels_iff]
  constructor
  · intro hiff digits h
    have hthis := hiff ⟨digits, h⟩
    rw [hhead digits h, ← h.digits_eq hunit] at hthis
    exact not_iff_not.mp hthis
  · intro hiff ⟨digits, h⟩
    rw [hhead digits h, ← h.digits_eq hunit]
    exact not_congr (hiff digits h)

-- ================================================================== documents

/-- What is found at a call where attributes of a kind are reported. -/
def foundAt (c : Context) (issue : Issue) (message : String) (test : Attribute → Bool) :
    Call → List Finding
  | .attribute doc e a =>
    if test a then [.at (c.attributePlace doc e a) issue.id message] else []
  | _ => []

def pixelsMessage : String := "Avoid using \"px\" as units; use \"dp\" instead"

def sizeMessage : String := "Should use \"sp\" instead of \"dp\" for text sizes"

/-- Under the issue of pixels a call finds the flagged attributes. -/
theorem heard_pixels (henabled : c.isEnabled pxIssue.id) (memory : Memory) (call : Call) :
    detector.heard pxIssue.id memory c call = foundAt c pxIssue pixelsMessage flagsPixels call := by
  cases call with
  | «attribute» doc e a =>
      have hother : spIssue.id ≠ pxIssue.id := by decide
      unfold Detector.heard
      rw [react_attribute, henabled, Bool.true_and, Emission.under_append,
        @Emission.under_report_if pxIssue.id (.at (c.attributePlace doc e a) pxIssue.id _) rfl,
        Emission.under_report_if_of_ne (f := .at (c.attributePlace doc e a) spIssue.id _) hother,
        List.append_nil]
      rfl
  | _ => rfl

/-- Under the issue of text sizes a call finds the flagged attributes. -/
theorem heard_size (henabled : c.isEnabled spIssue.id) (memory : Memory) (call : Call) :
    detector.heard spIssue.id memory c call = foundAt c spIssue sizeMessage flagsSize call := by
  cases call with
  | «attribute» doc e a =>
      have htest : (!isPixels a.value && a.localName == "textSize" && isDensityIndependent a.value)
          = flagsSize a := by
        unfold flagsSize
        cases hvalue : isDensityIndependent a.value with
        | false => simp
        | true => simp [not_isPixels_of_isDensityIndependent hvalue]
      have hother : pxIssue.id ≠ spIssue.id := by decide
      unfold Detector.heard
      rw [react_attribute, henabled, Bool.true_and, Emission.under_append, htest,
        Emission.under_report_if_of_ne (f := .at (c.attributePlace doc e a) pxIssue.id _) hother,
        @Emission.under_report_if spIssue.id (.at (c.attributePlace doc e a) spIssue.id _) rfl,
        List.nil_append]
      rfl
  | _ => rfl

theorem isPlain : detector.IsPlain := ⟨trivial, trivial⟩

/-- Every attribute of the kind is found, in document order. -/
theorem findings_told {issue : Issue} {message : String} {test : Attribute → Bool}
    (hheard : ∀ memory call,
      detector.heard issue.id memory c call = foundAt c issue message test call)
    (doc : Document) :
    detector.findings issue.id .blank ((detector.told doc).map (c, ·))
      = ((attributesOf doc).filter (test ·.2)).map fun found =>
          .at (c.attributePlace doc found.1 found.2) issue.id message := by
  have hmet : ∀ e ∈ doc.elements, (detector.met doc e).flatMap (foundAt c issue message test)
      = (e.attributes.map (e, ·)).flatMap fun found =>
          if test found.2 then [.at (c.attributePlace doc found.1 found.2) issue.id message]
          else [] := by
    intro e _
    -- the detector sees every attribute
    have hall : detector.seenAttributes doc e = e.attributes.map (.attribute doc e) := by
      have hevery : (e.attributes.filter fun a => detector.attributes.declares a.localName)
          = e.attributes := List.filter_eq_self.mpr fun _ _ => rfl
      unfold Detector.seenAttributes
      rw [hevery]
    rw [Detector.met_of_no_elements rfl, hall, List.flatMap_map, List.flatMap_map]
    rfl
  rw [Detector.told_eq_seen isPlain,
    Detector.findings_seen (fun _ _ call _ memory => hheard memory call)
      (fun _ _ _ _ => ⟨rfl, rfl⟩) (fun _ => rfl) (fun _ => rfl) (by decide),
    List.flatMap_congr hmet, ← List.flatMap_assoc, Run.Job.flatMap_ite, ← List.map_eq_flatMap]
  rfl

-- ========================================================================= runs

/-- The attributes of a document that are reported for their pixels. -/
def pixels (doc : Document) : List (Element × Attribute) :=
  (attributesOf doc).filter (flagsPixels ·.2)

/-- The attributes of a document that are reported for the size of a text. -/
def sizes (doc : Document) : List (Element × Attribute) :=
  (attributesOf doc).filter (flagsSize ·.2)

/-- A remark about an attribute. -/
def attributeRemark (message : String) (file : Path) (doc : Document)
    (found : Element × Attribute) : Remark :=
  ⟨message, [doc.attributePlace file found.1 found.2.name]⟩

/-- What is remarked on the pixels in a document. -/
def pixelsRemarks (file : Path) (doc : Document) : List Remark :=
  (pixels doc).map (attributeRemark pixelsMessage file doc)

/-- What is remarked on the sizes of texts in a document. -/
def sizeRemarks (file : Path) (doc : Document) : List Remark :=
  (sizes doc).map (attributeRemark sizeMessage file doc)

/-- The lengths in pixels of a document. -/
def givenPixels (doc : Document) : List (Element × Attribute) :=
  (attributesOf doc).filter (GivesPixels ·.2)

/-- The sizes of texts of a document that do not follow the user's. -/
def givenSizes (doc : Document) : List (Element × Attribute) :=
  (attributesOf doc).filter (GivesSize ·.2)

/-- The reports are the right ones exactly where a leading zero means zero. -/
theorem pixels_eq_givenPixels_iff :
    pixels doc = givenPixels doc
      ↔ ∀ found ∈ attributesOf doc, ∀ digits, Measures found.2.value digits "px" →
        (digits.head? = some '0' ↔ numberOf digits = 0) := by
  have hmem : ∀ found ∈ attributesOf doc, (found ∈ pixels doc ↔ flagsPixels found.2)
      ∧ (found ∈ givenPixels doc ↔ GivesPixels found.2) := by
    intro found hfound
    unfold pixels givenPixels
    rw [List.mem_filter, List.mem_filter, decide_eq_true_iff]
    exact ⟨and_iff_right hfound, and_iff_right hfound⟩
  constructor
  · intro heq found hfound
    obtain ⟨hpixels, hgiven⟩ := hmem found hfound
    exact flagsPixels_iff_givesPixels.mp (hpixels.symm.trans (heq ▸ hgiven))
  · intro hzero
    refine List.filter_congr fun found hfound => Bool.eq_iff_iff.mpr ?_
    rw [decide_eq_true_iff]
    exact flagsPixels_iff_givesPixels.mpr (hzero found hfound)

/-- The reports on text sizes are the right ones exactly where every one of them
is an attribute of the platform. -/
theorem sizes_eq_givenSizes_iff :
    sizes doc = givenSizes doc ↔ ∀ found ∈ sizes doc, found.2.uri = some androidUri := by
  have hkept : givenSizes doc = (sizes doc).filter (·.2.uri == some androidUri) := by
    unfold givenSizes sizes
    rw [List.filter_filter]
    refine List.filter_congr fun found _ => ?_
    rw [Bool.eq_iff_iff, decide_eq_true_iff, givesSize_iff, Bool.and_comm]
  rw [hkept, eq_comm, List.filter_eq_self]
  simp only [beq_iff_eq]

theorem mem_registration :
    ⟨"PxUsageDetector", ["PxUsage", "SpUsage"], detector⟩ ∈ Registry.builtInRegistrations := by
  simp [Registry.builtInRegistrations]

theorem mem_builtInIssues_pixels : pxIssue ∈ Registry.builtInIssues := by
  simp [Registry.builtInIssues]

theorem mem_builtInIssues_size : spIssue ∈ Registry.builtInIssues := by
  simp [Registry.builtInIssues]

/-- Remarks at attributes are remarks in their file. -/
theorem isIn_of_mem_map {message : String} {file : Path} {found : List (Element × Attribute)}
    {r : Remark} (hr : r ∈ found.map (attributeRemark message file doc)) : r.isIn file := by
  obtain ⟨_, -, rfl⟩ := List.mem_map.mp hr
  exact beq_self_eq_true file

section Runs

variable {s : Session} {host : Host} {scope : Option Scope} {files : List Path}
  {project : Project} (h : s.Checks host scope files project)
  (hpixels : (s.jobOf host scope files project).LooksFor pxIssue)
  (hsize : (s.jobOf host scope files project).LooksFor spIssue)

/-- What the detector finds in a document that is opened in a run. -/
def findingsIn (s : Session) (host : Host) (scope : Option Scope) (files : List Path)
    (project : Project) (issue : Issue) (file : Path) (folder : Option FolderType)
    (doc : Document) : List Finding :=
  detector.findings issue.id .blank ((detector.told doc).map
    ((s.jobOf host scope files project).context file (host.read file) folder, ·))

include h

include hpixels in
/-- What a file is reported for are its lengths in pixels. -/
theorem map_remark_findingsIn_pixels (file : Path) (folder : Option FolderType) (doc : Document) :
    (findingsIn s host scope files project pxIssue file folder doc).map Finding.remark
      = pixelsRemarks file doc := by
  have henabled := hpixels.isEnabled h.registry mem_builtInIssues_pixels
  unfold findingsIn
  rw [findings_told (heard_pixels henabled), List.map_map]
  rfl

include hsize in
theorem map_remark_findingsIn_size (file : Path) (folder : Option FolderType) (doc : Document) :
    (findingsIn s host scope files project spIssue file folder doc).map Finding.remark
      = sizeRemarks file doc := by
  have henabled := hsize.isEnabled h.registry mem_builtInIssues_size
  unfold findingsIn
  rw [findings_told (heard_size henabled), List.map_map]
  rfl

include hpixels hsize

/-- Dimensions.  The detector reports under its two issues and nothing else.  What
a run remarks under each of them is what there is to remark in the resource
files of the project, in each of them by itself: it is found in document
order, one remark for each attribute that is flagged, and shown in the order
of the report.  The flagged attributes are the lengths in pixels other than
zero exactly where the digits of a length begin with 0 if they write zero, and
only then; and they are the sizes of texts exactly where all of them are in the
namespace of the platform. -/
theorem remarks_dimensions :
    detector.Reports [pxIssue.id, spIssue.id]
      ∧ ((s.analyze host files scope).1.remarks project pxIssue.id).Perm
          ((Run.Job.resourceFiles host.tree project).flatMap
            (host.remarksOf detector pixelsRemarks))
      ∧ ((s.analyze host files scope).1.remarks project spIssue.id).Perm
          ((Run.Job.resourceFiles host.tree project).flatMap
            (host.remarksOf detector sizeRemarks))
      ∧ (∀ file folder doc,
          (findingsIn s host scope files project pxIssue file folder doc).map Finding.remark
              = (pixels doc).map (attributeRemark pixelsMessage file doc)
            ∧ (findingsIn s host scope files project spIssue file folder doc).map Finding.remark
              = (sizes doc).map (attributeRemark sizeMessage file doc)
            ∧ (pixels doc = givenPixels doc
                ↔ ∀ found ∈ attributesOf doc, ∀ digits, Measures found.2.value digits "px" →
                  (digits.head? = some '0' ↔ numberOf digits = 0))
            ∧ (sizes doc = givenSizes doc
                ↔ ∀ found ∈ sizes doc, found.2.uri = some androidUri))
      ∧ (host.tree.WellFormed →
        ∀ file folder, (file, folder) ∈ Run.Job.resourceFiles host.tree project →
          ∀ doc, host.document? file = some doc →
            ((s.analyze host files scope).1.remarks project pxIssue.id).filter (·.isIn file)
                = ((pixels doc).map (attributeRemark pixelsMessage file doc)).mergeSort Remark.le
              ∧ ((s.analyze host files scope).1.remarks project spIssue.id).filter (·.isIn file)
                = ((sizes doc).map (attributeRemark sizeMessage file doc)).mergeSort
                  Remark.le) := by
  have hsaidPixels := map_remark_findingsIn_pixels h hpixels
  have hsaidSize := map_remark_findingsIn_size h hsize
  refine ⟨isLocal.reports,
    h.perm_remarks_resourceFiles mem_builtInIssues_pixels rfl mem_registration (by decide) isLocal
      hpixels fun file folder => hsaidPixels file folder,
    h.perm_remarks_resourceFiles mem_builtInIssues_size rfl mem_registration (by decide) isLocal
      hsize fun file folder => hsaidSize file folder,
    fun file folder doc => ⟨hsaidPixels file folder doc, hsaidSize file folder doc,
      pixels_eq_givenPixels_iff, sizes_eq_givenSizes_iff⟩,
    fun hwell file folder hfile doc hdoc => ?_⟩
  have hherePixels := h.filter_isIn_remarks mem_builtInIssues_pixels rfl mem_registration
    (by decide) isLocal hpixels (fun file folder => hsaidPixels file folder)
    (fun _ _ _ hr => isIn_of_mem_map hr) hwell hfile
  have hhereSize := h.filter_isIn_remarks mem_builtInIssues_size rfl mem_registration
    (by decide) isLocal hsize (fun file folder => hsaidSize file folder)
    (fun _ _ _ hr => isIn_of_mem_map hr) hwell hfile
  -- dimensions are looked for in every folder
  have happlies : detector.appliesToFolder folder := rfl
  rw [Host.remarksOf_of_document? happlies hdoc] at hherePixels hhereSize
  exact ⟨hherePixels, hhereSize⟩

end Runs

/-- A project with two layouts, each with a length in pixels and a size: in the
first as they are described, in the second with a zero in front and without
the namespace. -/
def measured : FileTree :=
  { here := ["ROOT"]
    entries :=
      [(["ROOT"], .directory),
        (["ROOT", "app"], .directory),
        (["ROOT", "app", "AndroidManifest.xml"], .file "<manifest/>".toUTF8),
        (["ROOT", "app", "res"], .directory),
        (["ROOT", "app", "res", "layout"], .directory),
        (["ROOT", "app", "res", "layout", "fine.xml"],
          .file ("<a xmlns:x='http://schemas.android.com/apk/res/android' x:w='10px' x:h='0px' "
            ++ "x:textSize='14dp'/>").toUTF8),
        (["ROOT", "app", "res", "layout", "odd.xml"], .file "<a w='010px' textSize='14dip'/>".toUTF8)] }

def measuredHost : Host := .ofTree measured fun _ => false

def measuredProject : Project := .new ⟨"/ROOT/app"⟩ none

/-- One of the layouts. -/
def measuredFile (name : String) : Path := ⟨"/ROOT/app/res/layout/" ++ name⟩

def measuredRemarks (issue : Issue) : List Remark :=
  (Session.plain.analyze measuredHost [⟨"/ROOT/app"⟩] none).1.remarks measuredProject issue.id

theorem wellFormed_measured : measured.WellFormed where
  isName := by decide +kernel
  nodup := by decide +kernel
  parents := by decide +kernel
  here := rfl

theorem checks_measured :
    Session.plain.Checks measuredHost none [⟨"/ROOT/app"⟩] measuredProject := by
  have hprojects : Session.projectsFor measuredHost [⟨"/ROOT/app"⟩] = [measuredProject] := by
    decide +kernel
  exact Session.checks_ofTree rfl rfl measured (hprojects ▸ List.mem_singleton_self _)

theorem looksFor_measured : ∀ issue ∈ [pxIssue, spIssue],
    (Session.plain.jobOf measuredHost none [⟨"/ROOT/app"⟩] measuredProject).LooksFor issue := by
  intro issue hissue
  simp only [List.mem_cons, List.not_mem_nil, or_false] at hissue
  rcases hissue with rfl | rfl <;> exact ⟨by decide +kernel, by decide +kernel⟩

theorem mem_resourceFiles_measured :
    ∀ name ∈ ["fine.xml", "odd.xml"],
      (measuredFile name, .layout) ∈ Run.Job.resourceFiles measured measuredProject := by
  decide +kernel

/-- What is flagged in the two layouts, and what is given. -/
theorem flagged_measured :
    ∃ fine odd,
      measuredHost.document? (measuredFile "fine.xml") = some fine
      ∧ measuredHost.document? (measuredFile "odd.xml") = some odd
      ∧ (pixels fine).map (·.2.name) = ["x:w"] ∧ (givenPixels fine).map (·.2.name) = ["x:w"]
      ∧ (sizes fine).map (·.2.name) = ["x:textSize"]
      ∧ (givenSizes fine).map (·.2.name) = ["x:textSize"]
      ∧ pixels odd = [] ∧ (givenPixels odd).map (·.2.name) = ["w"]
      ∧ (sizes odd).map (·.2.name) = ["textSize"] ∧ givenSizes odd = [] := by
  have hfine : (measuredHost.document? (measuredFile "fine.xml")).map (fun doc =>
      ((pixels doc).map (·.2.name), (givenPixels doc).map (·.2.name),
        (sizes doc).map (·.2.name), (givenSizes doc).map (·.2.name)))
      = some (["x:w"], ["x:w"], ["x:textSize"], ["x:textSize"]) := by decide +kernel
  have hodd : (measuredHost.document? (measuredFile "odd.xml")).map (fun doc =>
      ((pixels doc).isEmpty, (givenPixels doc).map (·.2.name),
        (sizes doc).map (·.2.name), (givenSizes doc).isEmpty))
      = some (true, ["w"], ["textSize"], true) := by decide +kernel
  simp only [Option.map_eq_some_iff, Prod.mk.injEq, List.isEmpty_iff] at hfine hodd
  obtain ⟨fine, hfine, hflagged, hgiven, hsizes, hgivenSizes⟩ := hfine
  obtain ⟨odd, hodd, hflaggedOdd, hgivenOdd, hsizesOdd, hgivenSizesOdd⟩ := hodd
  exact ⟨fine, odd, hfine, hodd, hflagged, hgiven, hsizes, hgivenSizes, hflaggedOdd, hgivenOdd,
    hsizesOdd, hgivenSizesOdd⟩

/-- In the first layout one length is reported, and in the second one size. -/
theorem remarks_dimensions_measured :
    ∃ fine odd,
      measuredHost.document? (measuredFile "fine.xml") = some fine
      ∧ measuredHost.document? (measuredFile "odd.xml") = some odd
      ∧ (measuredRemarks pxIssue).filter (·.isIn (measuredFile "fine.xml"))
          = ((pixels fine).map (attributeRemark pixelsMessage (measuredFile "fine.xml")
            fine)).mergeSort Remark.le
      ∧ (pixels fine).map (·.2.name) = ["x:w"]
      ∧ (measuredRemarks spIssue).filter (·.isIn (measuredFile "odd.xml"))
          = ((sizes odd).map (attributeRemark sizeMessage (measuredFile "odd.xml")
            odd)).mergeSort Remark.le
      ∧ (sizes odd).map (·.2.name) = ["textSize"] := by
  obtain ⟨fine, odd, hfine, hodd, hflagged, -, -, -, -, -, hsizes, -⟩ := flagged_measured
  obtain ⟨-, -, -, -, hfiles⟩ := remarks_dimensions checks_measured
    (looksFor_measured pxIssue (by simp)) (looksFor_measured spIssue (by simp))
  obtain ⟨hpixels, -⟩ := hfiles wellFormed_measured _ _
    (mem_resourceFiles_measured "fine.xml" (by simp)) fine hfine
  obtain ⟨-, hsize⟩ := hfiles wellFormed_measured _ _
    (mem_resourceFiles_measured "odd.xml" (by simp)) odd hodd
  exact ⟨fine, odd, hfine, hodd, hpixels, hflagged, hsize, hsizes⟩

/-- So a length other than zero is not always reported: in the second layout
there is one that begins with 0. -/
theorem not_remarks_givenPixels :
    ¬ ∀ file folder, (file, folder) ∈ Run.Job.resourceFiles measuredHost.tree measuredProject →
      ∀ doc, measuredHost.document? file = some doc →
        ((measuredRemarks pxIssue).filter (·.isIn file)).Perm
          ((givenPixels doc).map (attributeRemark pixelsMessage file doc)) := by
  intro hdescribed
  obtain ⟨-, odd, -, hodd, -, -, -, -, hnone, hgiven, -, -⟩ := flagged_measured
  have hfile := mem_resourceFiles_measured "odd.xml" (by simp)
  have hpixels := looksFor_measured pxIssue (by simp)
  have hreported := checks_measured.filter_isIn_remarks mem_builtInIssues_pixels rfl
    mem_registration (by decide) isLocal hpixels
    (fun file folder => map_remark_findingsIn_pixels checks_measured hpixels file folder)
    (fun _ _ _ hr => isIn_of_mem_map hr) wellFormed_measured hfile
  have happlies : detector.appliesToFolder .layout := rfl
  rw [Host.remarksOf_of_document? happlies hodd] at hreported
  have hone : (givenPixels odd).length = 1 := by
    rw [← List.length_map (·.2.name), hgiven]
    rfl
  have hlength := (hdescribed _ _ hfile odd hodd).length_eq
  rw [measuredRemarks, hreported, List.length_mergeSort, pixelsRemarks, hnone, List.length_map,
    List.length_map, hone] at hlength
  cases hlength

end ResourceLint.Dimension
