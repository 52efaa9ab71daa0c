/-
The order of a manifest.

Whatever is to come before the application is reported where it comes right
behind one, and the second `uses-sdk` right inside the root is not looked at
at all: the mark that the application has passed says whether the element
before was one (`step_order`, `findings_order`).

So a manifest with several applications gets several reports, and one whose
only late element is the second `uses-sdk` gets none.  In all other cases
there is one report, at the first element behind an application
(`remarks_order`).
-/
import ResourceLint.Proofs.ManifestStructure

namespace ResourceLint.Manifest

open Xml (Document Element)

variable {memory : Memory} {c : Context} {doc : Document} {e : Element}

-- ==================================================================== the order

/-- The elements, other than an application, that come right behind one. -/
def latecomers (elements : List Element) : List Element :=
  ((elements.zip elements.tail).filter fun (before, e) =>
    isApplication before && !isApplication e).map (·.2)

/-- The first of some elements that comes behind an application and is none. -/
def firstLate? (elements : List Element) : Option Element :=
  (elements.dropWhile (!isApplication ·)).find? (!isApplication ·)

/-- The second `uses-sdk` right inside the root. -/
def second? (doc : Document) : Option Element := (usesSdk doc)[1]?

/-- Whether an element is not at the span of another one that there may be. -/
def isApart (other : Option Element) (e : Element) : Bool := !other.any (·.span == e.span)

/-- The elements whose order is looked at: the second `uses-sdk` is not one of
them. -/
def ordered (doc : Document) : List Element := (tops doc).filter (isApart (second? doc))

/-- Those of some elements that come late when an application has just passed
or has not. -/
def lateFrom (passed : Bool) (elements : List Element) : List Element :=
  (if passed then elements.head?.filter (!isApplication ·) else none).toList ++ latecomers elements

/-- An element is late when an application has just been passed. -/
theorem lateFrom_cons (passed : Bool) (e : Element) (elements : List Element) :
    lateFrom passed (e :: elements)
      = (if passed && !isApplication e then [e] else [])
        ++ lateFrom (isApplication e) elements := by
  have hlate : latecomers (e :: elements) = lateFrom (isApplication e) elements := by
    unfold lateFrom latecomers
    cases elements with
    | nil => cases isApplication e <;> rfl
    | cons next more =>
        rw [List.tail_cons, List.zip_cons_cons, List.filter_cons, List.tail_cons, List.head?_cons]
        cases happ : isApplication e <;> cases hnext : isApplication next <;>
          simp [happ, hnext, Option.filter]
  have hself : lateFrom passed (e :: elements)
      = (if passed then (some e).filter (!isApplication ·) else none).toList
        ++ latecomers (e :: elements) := rfl
  rw [hself, hlate]
  cases passed <;> cases happ : isApplication e <;> simp [happ, Option.filter]

/-- The second `uses-sdk` from the point of view of elements before which some
have come by. -/
def secondFrom (count : Nat) (elements : List Element) : Option Element :=
  if count ≤ 1 then (elements.filter isUsesSdk)[1 - count]? else none

/-- The second of something is one of the elements. -/
theorem mem_of_secondFrom {count : Nat} {elements : List Element} {second : Element}
    (h : secondFrom count elements = some second) : second ∈ elements := by
  unfold secondFrom at h
  split at h
  · exact (List.mem_filter.mp (List.mem_of_getElem? h)).1
  · cases h

theorem secondFrom_one_cons {elements : List Element} (h : isUsesSdk e) :
    secondFrom 1 (e :: elements) = some e := by
  unfold secondFrom
  rw [List.filter_cons_of_pos h]
  rfl

/-- An element that is not the second leaves that to the others. -/
theorem secondFrom_cons {count : Nat} {elements : List Element}
    (h : (isUsesSdk e && count == 1) = false) :
    secondFrom count (e :: elements)
      = secondFrom (count + if isUsesSdk e then 1 else 0) elements := by
  unfold secondFrom
  cases huses : isUsesSdk e with
  | false => rw [List.filter_cons_of_neg (by simp [huses])]; rfl
  | true =>
      have hne : count ≠ 1 := by simpa [huses] using h
      rw [List.filter_cons_of_pos huses, if_pos rfl]
      rcases Nat.lt_or_ge count 1 with hzero | hmany
      · obtain rfl : count = 0 := by omega
        rfl
      · rw [if_neg (by omega), if_neg (by omega)]

/-- An element is told from others by its span. -/
theorem isApart_of_forall_ne {elements : List Element} (h : ∀ other ∈ elements, e.span ≠ other.span)
    {other : Option Element} (hother : ∀ found, other = some found → found ∈ elements) :
    isApart other e := by
  unfold isApart
  cases other with
  | none => rfl
  | some found =>
      have hne := h found (hother found rfl)
      simpa using fun heq => hne heq.symm

/-- Leaving out the first leaves the others. -/
theorem filter_isApart_some_cons {elements : List Element}
    (h : ∀ other ∈ elements, e.span ≠ other.span) :
    (e :: elements).filter (isApart (some e)) = elements := by
  rw [List.filter_cons_of_neg (by simp [isApart])]
  refine List.filter_eq_self.mpr fun other hother => ?_
  simpa [isApart] using h other hother

/-- An element with the number two is not looked at, and every other one is late
where the application was before it. -/
theorem step_order (henabled : c.isEnabled orderIssue.id) (hroot : rootChildren.contains e.name)
    (htop : e.isTop) :
    (visitElement memory c doc e).1.passed
        = (if isUsesSdk e && memory.count == 1 then memory.passed else isApplication e)
      ∧ detector.heard orderIssue.id memory c (.element doc e)
        = if memory.passed && !isApplication e && !(isUsesSdk e && memory.count == 1) then
            [.at (c.elementPlace e) orderIssue.id
              ("<" ++ e.name ++ "> tag appears after <application> tag")]
          else [] := by
  have hsdk := @under_visitUsesSdk_of_ne c doc e orderIssue.id (by decide) (by decide)
  have hreport := @under_reportElement_self c e orderIssue henabled
    ("<" ++ e.name ++ "> tag appears after <application> tag")
  -- the order goes by the flag alone, whatever was counted
  have hinOrder : ∀ m : Memory, m.passed = memory.passed →
      Emission.under orderIssue.id (visitInOrder m c e).2
        = if memory.passed && !isApplication e then
            [.at (c.elementPlace e) orderIssue.id
              ("<" ++ e.name ++ "> tag appears after <application> tag")]
          else [] := fun m hm => by
    rw [visitInOrder_eq, hm]
    dsimp only
    split
    · exact hreport
    · rfl
  show _ ∧ Emission.under orderIssue.id (visitElement memory c doc e).2 = _
  rw [visitElement_of_top hroot htop]
  cases huses : isUsesSdk e with
  | false =>
      rw [if_neg Bool.false_ne_true, Bool.false_and, Bool.not_false, Bool.and_true, hinOrder _ rfl,
        visitInOrder_eq]
      exact ⟨rfl, rfl⟩
  | true =>
      rw [if_pos rfl, Bool.true_and]
      dsimp only
      -- the second one is reported as such and not looked at again
      by_cases hcount : memory.count = 1
      · rw [if_pos (by omega), hcount]
        exact ⟨rfl, by simpa using hsdk _⟩
      · have hbeq : (memory.count == 1) = false := by simpa using hcount
        rw [if_neg (by omega), hbeq, Bool.not_false, Bool.and_true]
        refine ⟨congrArg (·.1.passed) visitInOrder_eq, ?_⟩
        rw [Emission.under_append, hsdk, List.nil_append]
        exact hinOrder _ rfl

/-- The mark follows the elements whose order is looked at. -/
theorem findings_order_from (henabled : c.isEnabled orderIssue.id) {elements : List Element}
    (htops : AllTop elements) (hspans : elements.Pairwise fun a b => a.span ≠ b.span)
    (memory : Memory) :
    detector.findings orderIssue.id memory (elements.map fun e => (c, .element doc e))
      = (lateFrom memory.passed
          (elements.filter (isApart (secondFrom memory.count elements)))).map fun e =>
            .at (c.elementPlace e) orderIssue.id
              ("<" ++ e.name ++ "> tag appears after <application> tag") := by
  induction elements generalizing memory with
  | nil => cases memory.passed <;> rfl
  | cons e elements ih =>
      obtain ⟨hroot, htop⟩ := htops e List.mem_cons_self
      obtain ⟨hfirst, hrest⟩ := List.pairwise_cons.mp hspans
      obtain ⟨hpassed, hheard⟩ := @step_order memory c doc e henabled hroot htop
      have hcount := @count_visitElement memory c doc e hroot htop
      have hstep : detector.findings orderIssue.id memory
            ((e :: elements).map fun e => (c, .element doc e))
          = detector.heard orderIssue.id memory c (.element doc e)
            ++ detector.findings orderIssue.id (visitElement memory c doc e).1
              (elements.map fun e => (c, .element doc e)) := rfl
      rw [hstep, hheard, ih (fun other hother => htops other (List.mem_cons_of_mem _ hother)) hrest,
        hpassed, hcount]
      cases hsecond : isUsesSdk e && memory.count == 1 with
      | true =>
          -- it is the second, so the mark stays and all others are apart from it
          obtain ⟨huses, hone⟩ : isUsesSdk e = true ∧ memory.count = 1 := by simpa using hsecond
          have hnone : secondFrom (1 + 1) elements = none := rfl
          have hall : elements.filter (isApart none) = elements :=
            List.filter_eq_self.mpr fun _ _ => rfl
          rw [if_pos rfl, Bool.not_true, Bool.and_false, if_neg Bool.false_ne_true, huses,
            if_pos rfl, hone, hnone, hall, secondFrom_one_cons huses,
            filter_isApart_some_cons hfirst]
          rfl
      | false =>
          have hsame := @secondFrom_cons e memory.count elements hsecond
          have hapart : isApart (secondFrom memory.count (e :: elements)) e :=
            isApart_of_forall_ne hfirst fun found hfound => mem_of_secondFrom (hsame ▸ hfound)
          rw [if_neg Bool.false_ne_true, Bool.not_false, Bool.and_true,
            List.filter_cons_of_pos hapart, lateFrom_cons, List.map_append, hsame]
          congr 1
          split <;> rfl

/-- What comes right behind an application is found to come late. -/
theorem findings_order (henabled : c.isEnabled orderIssue.id)
    (hspans : doc.elements.Pairwise fun a b => a.span ≠ b.span) :
    detector.findings orderIssue.id .blank ((detector.told doc).map (c, ·))
      = (latecomers (ordered doc)).map fun e =>
          .at (c.elementPlace e) orderIssue.id
            ("<" ++ e.name ++ "> tag appears after <application> tag") := by
  have htops : (tops doc).Pairwise fun a b => a.span ≠ b.span :=
    (hspans.sublist doc.childElements_sublist).filter _
  have hsecond : secondFrom 0 (tops doc) = second? doc :=
    congrArg (·[1]?) (filter_tops_isUsesSdk doc)
  rw [findings_told (by decide), Detector.findings_append,
    findings_order_from henabled (allTop_tops doc) htops]
  have hend : ∀ m, detector.findings orderIssue.id m [(c, .afterFile)] = [] := fun m => by
    rw [Detector.findings, heard_afterFile_of_ne (by decide)]
    rfl
  rw [hend, List.append_nil]
  show List.map _ (lateFrom false ((tops doc).filter (isApart (secondFrom 0 (tops doc))))) = _
  rw [hsecond]
  rfl

theorem mem_of_mem_latecomers {elements : List Element} (h : e ∈ latecomers elements) :
    e ∈ elements := by
  obtain ⟨⟨before, found⟩, hpair, rfl⟩ := List.mem_map.mp h
  exact List.mem_of_mem_tail (List.of_mem_zip (List.mem_filter.mp hpair).1).2

/-- The first late element is the first one behind an application that is
none. -/
theorem firstLate?_cons (e : Element) (elements : List Element) :
    firstLate? (e :: elements)
      = if isApplication e then elements.find? (!isApplication ·) else firstLate? elements := by
  unfold firstLate?
  cases happ : isApplication e <;> simp [happ]

/-- The first of the latecomers is the first late element. -/
theorem head?_latecomers (elements : List Element) :
    (latecomers elements).head? = firstLate? elements := by
  have hfrom : ∀ passed, (lateFrom passed elements).head?
      = if passed then elements.find? (!isApplication ·) else firstLate? elements := by
    induction elements with
    | nil => intro passed; cases passed <;> rfl
    | cons e elements ih =>
        intro passed
        rw [lateFrom_cons, firstLate?_cons, List.head?_append, ih, List.find?_cons]
        cases passed <;> cases isApplication e <;> rfl
  exact hfrom false

/-- What is found first stays the first one when only others are left out. -/
theorem find?_filter_of_keep {keep which : Element → Bool} {elements : List Element}
    (hkeep : ∀ e, elements.find? which = some e → keep e) :
    (elements.filter keep).find? which = elements.find? which := by
  cases hfound : elements.find? which with
  | none =>
      exact List.find?_eq_none.mpr fun e he =>
        List.find?_eq_none.mp hfound e (List.mem_filter.mp he).1
  | some e =>
      obtain ⟨hwhich, before, after, rfl, hbefore⟩ := List.find?_eq_some_iff_append.mp hfound
      refine List.find?_eq_some_iff_append.mpr
        ⟨hwhich, before.filter keep, after.filter keep, ?_, ?_⟩
      · rw [List.filter_append, List.filter_cons_of_pos (hkeep e hfound)]
      · exact fun other hother => hbefore other (List.mem_filter.mp hother).1

/-- So does the first element behind an application, where the applications
stay. -/
theorem firstLate?_filter {keep : Element → Bool} {elements : List Element}
    (happs : ∀ e ∈ elements, isApplication e → keep e)
    (hkeep : ∀ e, firstLate? elements = some e → keep e) :
    firstLate? (elements.filter keep) = firstLate? elements := by
  induction elements with
  | nil => rfl
  | cons first elements ih =>
      rw [firstLate?_cons] at hkeep ⊢
      cases happ : isApplication first with
      | true =>
          rw [happ, if_pos rfl] at hkeep
          rw [if_pos rfl, List.filter_cons_of_pos (happs first List.mem_cons_self happ),
            firstLate?_cons, if_pos happ]
          exact find?_filter_of_keep hkeep
      | false =>
          rw [happ, if_neg Bool.false_ne_true] at hkeep
          have hrest := ih (fun e he => happs e (List.mem_cons_of_mem _ he)) hkeep
          rw [if_neg Bool.false_ne_true, List.filter_cons]
          split
          · rw [firstLate?_cons, if_neg (by simp [happ])]
            exact hrest
          · exact hrest

theorem mem_of_firstLate? {elements : List Element} (h : firstLate? elements = some e) :
    e ∈ elements :=
  (List.dropWhile_sublist _).mem (List.mem_of_find?_eq_some h)

/-- The second `uses-sdk` is a child of the root. -/
theorem mem_tops_of_second? (h : second? doc = some e) : e ∈ tops doc ∧ isUsesSdk e := by
  have hmem : e ∈ (tops doc).filter isUsesSdk := by
    rw [filter_tops_isUsesSdk]
    exact List.mem_of_getElem? h
  exact List.mem_filter.mp hmem

theorem not_isApplication_second? (h : second? doc = some e) : ¬ isApplication e := by
  have huses : e.name = "uses-sdk" := beq_iff_eq.mp (mem_tops_of_second? h).2
  unfold isApplication
  rw [huses]
  decide

/-- The children of the root are elements of the document. -/
theorem mem_elements_of_mem_tops (h : e ∈ tops doc) : e ∈ doc.elements :=
  doc.childElements_sublist.mem (List.mem_filter.mp h).1

/-- Where elements are known by their spans, to be apart is to be another. -/
theorem isApart_second?_iff {text : String} (hparse : Document.parse text = .ok doc)
    (he : e ∈ tops doc) : isApart (second? doc) e ↔ second? doc ≠ some e := by
  unfold isApart
  cases hsecond : second? doc with
  | none => simp
  | some other =>
      have hother := mem_elements_of_mem_tops (mem_tops_of_second? hsecond).1
      have hspan : other.span = e.span ↔ other = e :=
        ⟨Document.eq_of_span_eq hparse hother (mem_elements_of_mem_tops he),
          fun heq => heq ▸ rfl⟩
      simp [hspan]

/-- Of no more than one late element, with the second `uses-sdk` left aside, it is
known which: the first one behind an application. -/
theorem latecomers_ordered {text : String} (hparse : Document.parse text = .ok doc)
    (hone : (latecomers (ordered doc)).length ≤ 1)
    (hfirst : ∀ e, firstLate? (tops doc) = some e → second? doc ≠ some e) :
    latecomers (ordered doc) = (firstLate? (tops doc)).toList := by
  have happs : ∀ e ∈ tops doc, isApplication e → isApart (second? doc) e := fun e he happ =>
    (isApart_second?_iff hparse he).mpr fun hsecond => not_isApplication_second? hsecond happ
  have hkeep : ∀ e, firstLate? (tops doc) = some e → isApart (second? doc) e := fun e hlate =>
    (isApart_second?_iff hparse (mem_of_firstLate? hlate)).mpr (hfirst e hlate)
  have hhead : (latecomers (ordered doc)).head? = firstLate? (tops doc) :=
    (head?_latecomers _).trans (firstLate?_filter happs hkeep)
  rw [← hhead]
  cases hlate : latecomers (ordered doc) with
  | nil => rfl
  | cons e more =>
      have hnil : more = [] := by
        rw [hlate, List.length_cons] at hone
        exact List.length_eq_zero_iff.mp (by omega)
      rw [hnil]
      rfl

-- =================================================================== the report

section Runs

variable {s : Session} {host : Host} {scope : Option Scope} {files : List Path}
  {project : Project}

/-- The remark about an element that comes late. -/
def lateRemark (file : Path) (e : Element) : Remark :=
  .about file e ("<" ++ e.name ++ "> tag appears after <application> tag")

variable (h : s.Checks host scope files project)
  (hmanifest : project.manifest ∈ (s.jobOf host scope files project).openedManifest)
  (hdoc : host.document? project.manifest = some doc)

include h hmanifest hdoc

/-- A run remarks on every element that comes right behind an application, among
those whose order is looked at. -/
theorem perm_remarks_latecomers
    (hlooks : (s.jobOf host scope files project).LooksFor orderIssue) :
    ((s.analyze host files scope).1.remarks project orderIssue.id).Perm
      ((latecomers (ordered doc)).map (lateRemark project.manifest)) := by
  obtain ⟨text, -, hparse⟩ := Host.exists_parse_of_document? hdoc
  have hissue : orderIssue ∈ Registry.builtInIssues := by simp [Registry.builtInIssues]
  have hperm := perm_remarks_told h hmanifest hdoc hissue rfl (by decide) hlooks
  rw [findings_order (hlooks.isEnabled h.registry hissue) (Document.pairwise_span_ne hparse),
    List.map_map] at hperm
  exact hperm

/-- The order of a manifest: a run remarks on every element that comes right
behind an application, the second `uses-sdk` left aside.  That is one remark on
the first element behind an application exactly where there are no more such
elements and this first one is not the second `uses-sdk`. -/
theorem remarks_order
    (hlooks : (s.jobOf host scope files project).LooksFor orderIssue) :
    ((s.analyze host files scope).1.remarks project orderIssue.id).Perm
        ((latecomers (ordered doc)).map (lateRemark project.manifest))
      ∧ ((s.analyze host files scope).1.remarks project orderIssue.id
            = (firstLate? (tops doc)).toList.map (lateRemark project.manifest)
          ↔ (latecomers (ordered doc)).length ≤ 1
            ∧ ∀ e, firstLate? (tops doc) = some e → second? doc ≠ some e) := by
  obtain ⟨text, -, hparse⟩ := Host.exists_parse_of_document? hdoc
  have hperm := perm_remarks_latecomers h hmanifest hdoc hlooks
  refine ⟨hperm, fun heq => ?_, fun ⟨hone, hfirst⟩ => ?_⟩
  · rw [heq] at hperm
    refine ⟨?_, fun e he hsecond => ?_⟩
    · have hlength := hperm.length_eq
      rw [List.length_map, List.length_map] at hlength
      rw [← hlength]
      cases firstLate? (tops doc) <;> simp
    · rw [he] at hperm
      obtain ⟨x, hlate, hx⟩ := List.map_eq_singleton_iff.mp (List.perm_singleton.mp hperm.symm)
      have hmem : x ∈ ordered doc := mem_of_mem_latecomers (hlate ▸ List.mem_singleton_self x)
      -- the second `uses-sdk` is left aside, so the one remark is not about it
      have hapart := (List.mem_filter.mp hmem).2
      rw [hsecond] at hapart
      simp [isApart, Remark.span_eq_of_about hx] at hapart
  · rw [latecomers_ordered hparse hone hfirst] at hperm
    cases hlate : firstLate? (tops doc) with
    | none =>
        rw [hlate] at hperm
        exact hperm.eq_nil
    | some e =>
        rw [hlate] at hperm
        exact List.perm_singleton.mp hperm

end Runs

/-- In the untidy manifest there is an element right behind each of the two
applications. -/
theorem latecomers_untidy :
    ∃ doc, untidyHost.document? untidyProject.manifest = some doc
      ∧ (latecomers (ordered doc)).map (·.name) = ["uses-sdk", "uses-feature"] := by
  have hnames : (untidyHost.document? untidyProject.manifest).map (fun d =>
      (latecomers (ordered d)).map (·.name)) = some ["uses-sdk", "uses-feature"] := by
    decide +kernel
  exact Option.map_eq_some_iff.mp hnames

/-- Both of them are reported, and the second `uses-sdk` is not. -/
theorem remarks_order_untidy :
    ∃ doc, untidyHost.document? untidyProject.manifest = some doc
      ∧ ((untidyRemarks orderIssue).Perm
          ((latecomers (ordered doc)).map (lateRemark untidyProject.manifest))
        ∧ (untidyRemarks orderIssue
              = (firstLate? (tops doc)).toList.map (lateRemark untidyProject.manifest)
            ↔ (latecomers (ordered doc)).length ≤ 1
              ∧ ∀ e, firstLate? (tops doc) = some e → second? doc ≠ some e))
      ∧ (latecomers (ordered doc)).map (·.name) = ["uses-sdk", "uses-feature"] := by
  obtain ⟨doc, hdoc, hnames⟩ := latecomers_untidy
  exact ⟨doc, hdoc, remarks_order checks_untidy mem_openedManifest_untidy hdoc
    (looksFor_untidy _ (by simp)), hnames⟩

/-- So a manifest may be reported for its order more than once. -/
theorem not_remarks_order_once :
    ¬ ∀ doc, untidyHost.document? untidyProject.manifest = some doc →
      untidyRemarks orderIssue
        = (firstLate? (tops doc)).toList.map (lateRemark untidyProject.manifest) := by
  intro honce
  obtain ⟨doc, hdoc, hnames⟩ := latecomers_untidy
  have hperm := perm_remarks_latecomers checks_untidy mem_openedManifest_untidy hdoc
    (looksFor_untidy _ (by simp))
  have htwo : (latecomers (ordered doc)).length = 2 := by
    rw [← List.length_map (·.name), hnames]
    rfl
  have hlength : (untidyRemarks orderIssue).length = 2 :=
    hperm.length_eq.trans ((List.length_map _).trans htwo)
  rw [honce doc hdoc, List.length_map] at hlength
  cases hlate : firstLate? (tops doc) with
  | none => simp [hlate] at hlength
  | some e => simp [hlate] at hlength

end ResourceLint.Manifest
