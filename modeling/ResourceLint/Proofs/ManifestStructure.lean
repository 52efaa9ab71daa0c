/-
What the issues about the structure of a manifest say.

One detector serves four issues and is called for the elements of the
manifest one after the other.  It counts the `uses-sdk` elements right inside
the root and remembers whether the application has passed.  Here each issue
is told from the tree alone.

An element in the wrong place is told from itself and its parent and leaves
the memory as it is (`visitElement_of_elsewhere`), so only the elements
right inside the root can matter to each other (`tops`).  Along these the
count runs as the numbers of the `uses-sdk` elements do (`findings_count`),
and the mark that the application has passed says that the element before was
one (`findings_order`).
-/
import ResourceLint.Proofs.Meeting
import ResourceLint.Proofs.Remarks

namespace ResourceLint.Manifest

open Xml (Document Element)

variable {memory : Memory} {c : Context} {doc : Document} {e : Element} {id : String}

-- ================================================================ the tree

def isApplication (e : Element) : Bool := e.name == "application"

def isUsesSdk (e : Element) : Bool := e.name == "uses-sdk"

/-- The `uses-sdk` elements right inside the root, in document order. -/
def usesSdk (doc : Document) : List Element := doc.root.childElements.filter isUsesSdk

/-- The elements right inside the root that belong there, in document order. -/
def tops (doc : Document) : List Element :=
  doc.root.childElements.filter (rootChildren.contains ·.name)

/-- Whether an element belongs right inside the application or the root, and is
not. -/
def isMisplaced (e : Element) : Bool :=
  if applicationChildren.contains e.name then !e.parent?.any isApplication
  else rootChildren.contains e.name && !e.parent?.any (·.isRoot)

/-- What is said of an element in the wrong place. -/
def misplacedMessage (e : Element) : String :=
  if applicationChildren.contains e.name then
    "The <" ++ e.name ++ "> element must be a direct child of the <application> element"
  else "The <" ++ e.name ++ "> element must be a direct child of the <manifest> root element"

/-- No element belongs both into the root and into the application. -/
theorem not_mem_applicationChildren {name : String} (h : rootChildren.contains name) :
    applicationChildren.contains name = false := by
  have hall : ∀ name ∈ rootChildren, applicationChildren.contains name = false := by decide
  exact hall name (List.contains_iff_mem.mp h)

/-- The `uses-sdk` elements that are counted are those among the children of the
root. -/
theorem filter_tops_isUsesSdk (doc : Document) : (tops doc).filter isUsesSdk = usesSdk doc := by
  unfold tops usesSdk
  rw [List.filter_filter]
  refine List.filter_congr fun e _ => ?_
  cases h : isUsesSdk e with
  | false => rfl
  | true =>
      have hname : e.name = "uses-sdk" := beq_iff_eq.mp h
      rw [hname]
      decide

-- ====================================================== one element after another

/-- An element that is not a child of the root is answered by its place
alone. -/
theorem visitElement_of_elsewhere (h : (!applicationChildren.contains e.name && e.isTop) = false) :
    visitElement memory c doc e
      = (memory,
          if applicationChildren.contains e.name && e.parent?.any isApplication then []
          else reportElement c e wrongParentIssue (misplacedMessage e)) := by
  unfold visitElement misplacedMessage
  cases happ : applicationChildren.contains e.name with
  | true =>
      rw [if_pos rfl, if_pos rfl, Bool.true_and]
      have hparent : e.parent?.any (·.name == "application") = e.parent?.any isApplication := rfl
      rw [hparent]
      split <;> rfl
  | false =>
      rw [happ, Bool.not_false, Bool.true_and] at h
      have htop : (!e.parent?.any (·.isRoot)) = true := congrArg (!·) h
      rw [htop]
      rfl

/-- Right inside the root, `uses-sdk` elements are counted, and the second of
them is not looked at for the order. -/
theorem visitElement_of_top (hroot : rootChildren.contains e.name) (htop : e.isTop) :
    visitElement memory c doc e
      = if isUsesSdk e then
          let counted := { memory with count := memory.count + 1 }
          if memory.count + 1 = 2 then (counted, visitUsesSdk c doc e (memory.count + 1))
          else ((visitInOrder counted c e).1,
            visitUsesSdk c doc e (memory.count + 1) ++ (visitInOrder counted c e).2)
        else visitInOrder memory c e := by
  have hparent : (!e.parent?.any (·.isRoot)) = false := by simpa [Element.isTop] using htop
  unfold visitElement
  rw [not_mem_applicationChildren hroot, hparent]
  rfl

/-- The mark says that the element before was the application. -/
theorem visitInOrder_eq :
    visitInOrder memory c e
      = ({ memory with passed := isApplication e },
          if memory.passed && !isApplication e then
            reportElement c e orderIssue ("<" ++ e.name ++ "> tag appears after <application> tag")
          else []) := by
  unfold visitInOrder
  have hname : (e.name == "application") = isApplication e := rfl
  obtain ⟨defined, mentioned, count, passed⟩ := memory
  rw [hname]
  cases isApplication e <;> cases passed <;> rfl

-- ======================================================== what is said under an issue

/-- What is reported under its own enabled issue is one finding at the
element. -/
theorem under_reportElement_self {issue : Issue} (henabled : c.isEnabled issue.id)
    (message : String) :
    Emission.under issue.id (reportElement c e issue message)
      = [.at (c.elementPlace e) issue.id message] := by
  unfold reportElement
  rw [if_pos henabled]
  simp [Emission.under, Emission.finding?, Finding.at]

/-- A report on an element is not heard under another issue. -/
theorem under_reportElement_of_ne {issue : Issue} (hid : issue.id ≠ id) (message : String) :
    Emission.under id (reportElement c e issue message) = [] := by
  refine Emission.under_eq_nil (fun emission h => ?_) hid
  unfold reportElement at h
  exact ⟨_, Emission.exists_of_mem_gate h, rfl⟩

/-- A second `uses-sdk` is told under its issue alone. -/
theorem under_reportSecond_of_ne (hid : multipleUsesSdkIssue.id ≠ id) :
    Emission.under id (reportSecond c doc e) = [] := by
  refine Emission.under_eq_nil (fun emission h => ?_) hid
  unfold reportSecond at h
  exact ⟨_, Emission.exists_of_mem_gate h, rfl⟩

/-- A `uses-sdk` is of no matter to the other issues. -/
theorem under_visitUsesSdk_of_ne (hsecond : multipleUsesSdkIssue.id ≠ id)
    (hmin : minSdkIssue.id ≠ id) (count : Nat) :
    Emission.under id (visitUsesSdk c doc e count) = [] := by
  unfold visitUsesSdk
  split
  · exact under_reportSecond_of_ne hsecond
  · split
    · rfl
    · exact under_reportElement_of_ne hmin _

/-- The order is of no matter to the other issues. -/
theorem under_visitInOrder_of_ne (hid : orderIssue.id ≠ id) :
    Emission.under id (visitInOrder memory c e).2 = [] := by
  rw [visitInOrder_eq]
  dsimp only
  split
  · exact under_reportElement_of_ne hid _
  · rfl

-- ================================================================== the calls

/-- Whether a call can lead to more than the report of an element in the wrong
place. -/
def isCounted : Call → Bool
  | .element _ e => !applicationChildren.contains e.name && e.isTop
  | .beforeFile | .afterFile => true
  | _ => false

/-- But for misplaced elements, only the children of the root and the end of the
file count. -/
theorem ignores_of_not_isCounted (hid : wrongParentIssue.id ≠ id) (call : Call)
    (h : isCounted call = false) : detector.Ignores id call := by
  intro memory c
  cases call with
  | element doc e =>
      show (visitElement memory c doc e).1 = memory
        ∧ Emission.under id (visitElement memory c doc e).2 = []
      rw [visitElement_of_elsewhere h]
      refine ⟨rfl, ?_⟩
      dsimp only
      split
      · rfl
      · exact under_reportElement_of_ne hid _
  | beforeFile | afterFile => cases h
  | _ => exact ⟨rfl, rfl⟩

theorem isPlain : detector.IsPlain :=
  ⟨(by decide : (rootChildren ++ applicationChildren).Nodup), trivial⟩

/-- The calls that count are those for the elements right inside the root that
belong there. -/
theorem filter_isCounted_seen (doc : Document) :
    (detector.seen doc).filter isCounted
      = .beforeFile :: ((tops doc).map (.element doc) ++ [.afterFile]) := by
  have hmet : ∀ e ∈ doc.elements, (detector.met doc e).filter isCounted
      = if rootChildren.contains e.name && e.isTop then [.element doc e] else [] := fun e _ => by
    -- a name of the root is none of the application, so the test for the latter drops out
    have hname : ((rootChildren ++ applicationChildren).contains e.name
        && !applicationChildren.contains e.name) = rootChildren.contains e.name := by
      cases hroot : rootChildren.contains e.name with
      | true =>
          have hmem : e.name ∈ rootChildren := List.contains_iff_mem.mp hroot
          rw [not_mem_applicationChildren hroot]
          simp [hmem]
      | false =>
          have hmem : e.name ∉ rootChildren := by simpa using hroot
          simp [hmem]
    have hdeclared : detector.elements.declares e.name
        = (rootChildren ++ applicationChildren).contains e.name := rfl
    rw [Detector.met_of_no_attributes rfl, hdeclared, ← hname]
    cases (rootChildren ++ applicationChildren).contains e.name with
    | false => rfl
    | true =>
        rw [if_pos rfl, List.filter_cons, List.filter_nil, Bool.true_and]
        rfl
  have htops : doc.elements.filter (fun e => rootChildren.contains e.name && e.isTop)
      = tops doc := by
    unfold tops
    rw [← doc.filter_isTop, List.filter_filter]
  rw [Detector.filter_seen (fun _ _ => rfl) rfl rfl (by decide), List.flatMap_congr hmet,
    Run.Job.flatMap_ite, htops, ← List.map_eq_flatMap]

/-- Any issue but the one of misplaced elements is decided on the children of
the root and the end of the file. -/
theorem findings_told (hid : wrongParentIssue.id ≠ id) (doc : Document) :
    detector.findings id .blank ((detector.told doc).map (c, ·))
      = detector.findings id .blank
        ((tops doc).map (fun e => (c, .element doc e)) ++ [(c, .afterFile)]) := by
  rw [Detector.told_eq_seen isPlain, Detector.findings_filter (ignores_of_not_isCounted hid),
    filter_isCounted_seen, List.map_cons, List.map_append, List.map_map]
  rfl

-- =================================================================== the count

/-- What belongs right inside the root and is there. -/
def AllTop (elements : List Element) : Prop :=
  ∀ e ∈ elements, rootChildren.contains e.name ∧ e.isTop

theorem allTop_tops (doc : Document) : AllTop (tops doc) := by
  intro e he
  obtain ⟨hchild, hname⟩ := List.mem_filter.mp he
  rw [← doc.filter_isTop] at hchild
  exact ⟨hname, (List.mem_filter.mp hchild).2⟩

/-- Along the elements the count goes up with each `uses-sdk`. -/
theorem count_visitElement (hroot : rootChildren.contains e.name) (htop : e.isTop) :
    (visitElement memory c doc e).1.count = memory.count + if isUsesSdk e then 1 else 0 := by
  simp only [visitElement_of_top hroot htop, visitInOrder_eq]
  cases isUsesSdk e with
  | false => rfl
  | true =>
      rw [if_pos rfl]
      split <;> rfl

/-- Under the two issues about `uses-sdk` elements, what they lead to goes by
their numbers. -/
theorem heard_usesSdk (hid : orderIssue.id ≠ id) (hroot : rootChildren.contains e.name)
    (htop : e.isTop) :
    detector.heard id memory c (.element doc e)
      = if isUsesSdk e then Emission.under id (visitUsesSdk c doc e (memory.count + 1))
        else [] := by
  show Emission.under id (visitElement memory c doc e).2 = _
  rw [visitElement_of_top hroot htop]
  cases isUsesSdk e with
  | false => exact under_visitInOrder_of_ne hid
  | true =>
      rw [if_pos rfl, if_pos rfl]
      dsimp only
      split
      · rfl
      · rw [Emission.under_append, under_visitInOrder_of_ne hid, List.append_nil]

/-- The count is the number of the `uses-sdk` at hand. -/
theorem findings_count (hid : orderIssue.id ≠ id) {elements : List Element}
    (htops : AllTop elements) (memory : Memory) :
    detector.findings id memory (elements.map fun e => (c, .element doc e))
        = ((elements.filter isUsesSdk).zipIdx memory.count).flatMap (fun (e, i) =>
            Emission.under id (visitUsesSdk c doc e (i + 1)))
      ∧ (detector.after memory (elements.map fun e => (c, .element doc e))).count
        = memory.count + (elements.filter isUsesSdk).length := by
  -- along the elements, of which each `uses-sdk` moves the count on
  induction elements generalizing memory with
  | nil => exact ⟨rfl, rfl⟩
  | cons e elements ih =>
      obtain ⟨hroot, htop⟩ := htops e List.mem_cons_self
      have hheard := @heard_usesSdk memory c doc e id hid hroot htop
      have hcount := @count_visitElement memory c doc e hroot htop
      obtain ⟨hfindings, hafter⟩ := ih
        (fun other hother => htops other (List.mem_cons_of_mem _ hother))
        (visitElement memory c doc e).1
      have hstep : detector.findings id memory ((e :: elements).map fun e => (c, .element doc e))
          = detector.heard id memory c (.element doc e)
            ++ detector.findings id (visitElement memory c doc e).1
              (elements.map fun e => (c, .element doc e)) := rfl
      have hrest : detector.after memory ((e :: elements).map fun e => (c, .element doc e))
          = detector.after (visitElement memory c doc e).1
              (elements.map fun e => (c, .element doc e)) := rfl
      rw [hstep, hrest, hheard, hfindings, hafter, hcount, List.filter_cons]
      cases isUsesSdk e with
      | false => exact ⟨rfl, rfl⟩
      | true =>
          rw [if_pos rfl, if_pos rfl, if_pos rfl, List.zipIdx_cons, List.flatMap_cons,
            List.length_cons]
          exact ⟨rfl, by omega⟩

/-- What is found under the two issues in a manifest. -/
theorem findings_usesSdk (hid : orderIssue.id ≠ id) (hid' : wrongParentIssue.id ≠ id)
    (doc : Document) :
    detector.findings id .blank ((detector.told doc).map (c, ·))
      = ((usesSdk doc).zipIdx.flatMap fun (e, i) =>
          Emission.under id (visitUsesSdk c doc e (i + 1)))
        ++ detector.heard id { Memory.blank with count := (usesSdk doc).length } c .afterFile := by
  obtain ⟨hfindings, hafter⟩ := @findings_count c doc id hid _ (allTop_tops doc) .blank
  rw [filter_tops_isUsesSdk] at hfindings hafter
  have hend : ∀ m n : Memory, m.count = n.count →
      detector.heard id m c .afterFile = detector.heard id n c .afterFile := fun m n h => by
    show Emission.under id (react m c .afterFile).2 = Emission.under id (react n c .afterFile).2
    unfold react
    rw [h]
    dsimp only
    split <;> rfl
  rw [findings_told hid', Detector.findings_append, hfindings]
  refine congrArg (_ ++ ·) ?_
  rw [Detector.findings, Detector.findings, List.append_nil]
  exact hend _ _ (hafter.trans (Nat.zero_add _))

-- ===================================================== the numbers of uses-sdk

section Numbers

variable {α β : Type}

/-- Visits that count up tell of the one element at the given count. -/
theorem flatMap_zipIdx_getElem? (k : Nat) (g : α → List β) (l : List α) (n : Nat) :
    (l.zipIdx n).flatMap (fun entry => if entry.2 = n + k then g entry.1 else [])
      = (l[k]?).toList.flatMap g := by
  induction l generalizing k n with
  | nil => rfl
  | cons a l ih =>
      rw [List.zipIdx_cons, List.flatMap_cons]
      dsimp only
      cases k with
      | zero =>
          have hlater : ∀ entry ∈ l.zipIdx (n + 1),
              (if entry.2 = n + 0 then g entry.1 else []) = [] := fun entry hentry => by
            have hle := List.le_snd_of_mem_zipIdx hentry
            rw [if_neg (by omega)]
          rw [if_pos (Nat.add_zero n).symm, List.flatMap_eq_nil_iff.mpr hlater,
            List.getElem?_cons_zero, Option.toList_some, List.flatMap_singleton, List.append_nil]
      | succ k =>
          have hshift : n + (k + 1) = n + 1 + k := by omega
          rw [if_neg (by omega), List.nil_append, List.getElem?_cons_succ, hshift, ih]

/-- Visits that leave one count out tell of all elements but the one there. -/
theorem flatMap_zipIdx_eraseIdx (k : Nat) (g : α → List β) (l : List α) (n : Nat) :
    (l.zipIdx n).flatMap (fun entry => if entry.2 = n + k then [] else g entry.1)
      = (l.eraseIdx k).flatMap g := by
  induction l generalizing k n with
  | nil => rfl
  | cons a l ih =>
      rw [List.zipIdx_cons, List.flatMap_cons]
      dsimp only
      cases k with
      | zero =>
          have hlater : ∀ entry ∈ l.zipIdx (n + 1),
              (if entry.2 = n + 0 then [] else g entry.1) = g entry.1 := fun entry hentry => by
            have hle := List.le_snd_of_mem_zipIdx hentry
            rw [if_neg (by omega)]
          rw [if_pos (Nat.add_zero n).symm, List.nil_append, List.flatMap_congr hlater,
            List.eraseIdx_cons_zero, ← List.flatMap_map, List.zipIdx_map_fst]
      | succ k =>
          have hshift : n + (k + 1) = n + 1 + k := by omega
          rw [if_neg (by omega), List.eraseIdx_cons_succ, List.flatMap_cons, hshift, ih]

end Numbers

def lacksMinSdk (e : Element) : Bool := !e.hasAttributeIn androidUri "minSdkVersion"

/-- What is said of a `uses-sdk` without a least version. -/
def minSdkMessage : String :=
  "<uses-sdk> tag should specify a minimum API level with android:minSdkVersion=\"?\""

/-- What is said of a manifest without any `uses-sdk`. -/
def noUsesSdkMessage : String :=
  "Manifest should specify a minimum API level with <uses-sdk android:minSdkVersion=\"?\" "
    ++ "/>; if it really supports all versions of Android set it to 1."

/-- What is said of a second `uses-sdk`. -/
def secondMessage : String :=
  "There should only be a single <uses-sdk> element in the manifest: merge these together"

/-- All but the second are to name the least version, and there is to be one. -/
theorem findings_minSdk (henabled : c.isEnabled minSdkIssue.id) (doc : Document) :
    detector.findings minSdkIssue.id .blank ((detector.told doc).map (c, ·))
      = if (usesSdk doc).isEmpty then [.at c.filePlace minSdkIssue.id noUsesSdkMessage]
        else (((usesSdk doc).eraseIdx 1).filter lacksMinSdk).map fun e =>
          .at (c.elementPlace e) minSdkIssue.id minSdkMessage := by
  have hone : ∀ entry ∈ (usesSdk doc).zipIdx,
      Emission.under minSdkIssue.id (visitUsesSdk c doc entry.1 (entry.2 + 1))
        = if entry.2 = 0 + 1 then []
          else if lacksMinSdk entry.1 then
            [.at (c.elementPlace entry.1) minSdkIssue.id minSdkMessage]
          else [] := fun entry _ => by
    unfold visitUsesSdk lacksMinSdk
    -- the second one is told under another issue
    by_cases hsecond : entry.2 = 0 + 1
    · rw [if_pos hsecond, if_pos (by omega)]
      exact under_reportSecond_of_ne (by decide)
    · rw [if_neg hsecond, if_neg (by omega)]
      cases entry.1.hasAttributeIn androidUri "minSdkVersion" with
      | false => exact under_reportElement_self henabled _
      | true => rfl
  have hend : ∀ n, detector.heard minSdkIssue.id { Memory.blank with count := n } c .afterFile
      = if n = 0 then [.at c.filePlace minSdkIssue.id noUsesSdkMessage] else [] := fun n => by
    show Emission.under _ (react _ c .afterFile).2 = _
    unfold react
    rw [henabled]
    cases n with
    | zero => rfl
    | succ n => rfl
  rw [findings_usesSdk (by decide) (by decide), hend, List.flatMap_congr hone,
    flatMap_zipIdx_eraseIdx 1 (fun e => if lacksMinSdk e then
      [Finding.at (c.elementPlace e) minSdkIssue.id minSdkMessage] else []) _ 0,
      Run.Job.flatMap_ite, ← List.map_eq_flatMap]
  cases usesSdk doc with
  | nil => rfl
  | cons first more => exact List.append_nil _

/-- The report of a second `uses-sdk`, with all other ones. -/
def secondFinding (c : Context) (doc : Document) (second : Element) : Finding :=
  { Finding.at (c.elementPlace second) multipleUsesSdkIssue.id secondMessage with
    further := ((doc.elementsNamed "uses-sdk").filter (·.span != second.span)).map fun other =>
      { c.elementPlace other with message := some "Also appears here" } }

/-- The end of the file matters to the missing `uses-sdk` alone. -/
theorem heard_afterFile_of_ne (hid : minSdkIssue.id ≠ id) :
    detector.heard id memory c .afterFile = [] := by
  refine Emission.under_eq_nil (fun emission h => ?_) hid
  change emission ∈ (react memory c .afterFile).2 at h
  unfold react at h
  dsimp only at h
  split at h
  · exact ⟨_, List.mem_singleton.mp h, rfl⟩
  · cases h

/-- There is one report where there is a second `uses-sdk`, and otherwise none. -/
theorem findings_second (henabled : c.isEnabled multipleUsesSdkIssue.id) (doc : Document) :
    detector.findings multipleUsesSdkIssue.id .blank ((detector.told doc).map (c, ·))
      = (usesSdk doc)[1]?.toList.map (secondFinding c doc) := by
  have hone : ∀ entry ∈ (usesSdk doc).zipIdx,
      Emission.under multipleUsesSdkIssue.id (visitUsesSdk c doc entry.1 (entry.2 + 1))
        = if entry.2 = 0 + 1 then [secondFinding c doc entry.1] else [] := fun entry _ => by
    unfold visitUsesSdk
    by_cases hsecond : entry.2 = 0 + 1
    · rw [if_pos hsecond, if_pos (by omega)]
      unfold reportSecond
      rw [if_pos henabled]
      rfl
    · rw [if_neg hsecond, if_neg (by omega)]
      split
      · rfl
      · exact under_reportElement_of_ne (by decide) _
  rw [findings_usesSdk (by decide) (by decide), heard_afterFile_of_ne (by decide), List.append_nil,
    List.flatMap_congr hone, flatMap_zipIdx_getElem? 1 (fun e => [secondFinding c doc e]) _ 0,
    ← List.map_eq_flatMap]

-- ========================================================= in the wrong place

/-- An element is told as misplaced by its name and the element around it. -/
theorem heard_wrongParent (henabled : c.isEnabled wrongParentIssue.id)
    (hdeclared : (rootChildren ++ applicationChildren).contains e.name) (memory : Memory) :
    detector.heard wrongParentIssue.id memory c (.element doc e)
      = if isMisplaced e then
          [.at (c.elementPlace e) wrongParentIssue.id (misplacedMessage e)]
        else [] := by
  -- what is declared and not of the application is of the root
  have hroot : applicationChildren.contains e.name = false → rootChildren.contains e.name :=
    fun happ => by
      have hnot : e.name ∉ applicationChildren := by simpa using happ
      have hmem : e.name ∈ rootChildren ++ applicationChildren := List.contains_iff_mem.mp hdeclared
      rcases List.mem_append.mp hmem with hmem | hmem
      · exact List.contains_iff_mem.mpr hmem
      · exact absurd hmem hnot
  show Emission.under wrongParentIssue.id (visitElement memory c doc e).2 = _
  unfold isMisplaced
  cases happ : applicationChildren.contains e.name with
  | true =>
      rw [visitElement_of_elsewhere (by rw [happ]; rfl), happ, if_pos rfl, Bool.true_and]
      cases e.parent?.any isApplication with
      | true => rfl
      | false => exact under_reportElement_self henabled _
  | false =>
      rw [if_neg Bool.false_ne_true, hroot happ, Bool.true_and]
      cases htop : e.isTop with
      | false =>
          have hparent : (!e.parent?.any (·.isRoot)) = true := congrArg (!·) htop
          rw [visitElement_of_elsewhere (by rw [htop, Bool.and_false]), happ, hparent]
          exact under_reportElement_self henabled _
      | true =>
          have hparent : (!e.parent?.any (·.isRoot)) = false := congrArg (!·) htop
          have hsdk := @under_visitUsesSdk_of_ne c doc e wrongParentIssue.id (by decide) (by decide)
          rw [visitElement_of_top (hroot happ) htop, hparent]
          dsimp only
          split
          · split
            · exact hsdk _
            · rw [Emission.under_append, hsdk, under_visitInOrder_of_ne (by decide)]
              rfl
          · exact under_visitInOrder_of_ne (by decide)

/-- What is found at a call when the wrong place is looked for. -/
def misplacedAt (c : Context) : Call → List Finding
  | .element _ e =>
    if isMisplaced e then [.at (c.elementPlace e) wrongParentIssue.id (misplacedMessage e)] else []
  | _ => []

/-- Every element in the wrong place is found, and no other one. -/
theorem findings_misplaced (henabled : c.isEnabled wrongParentIssue.id) (doc : Document) :
    detector.findings wrongParentIssue.id .blank ((detector.told doc).map (c, ·))
      = (doc.elements.filter isMisplaced).map fun e =>
          .at (c.elementPlace e) wrongParentIssue.id (misplacedMessage e) := by
  have hheard : ∀ e ∈ doc.elements, ∀ call ∈ detector.met doc e, ∀ memory,
      detector.heard wrongParentIssue.id memory c call = misplacedAt c call := by
    intro e _ call hcall memory
    rw [Detector.met_of_no_attributes rfl] at hcall
    split at hcall
    · next hdeclared =>
        rw [List.mem_singleton.mp hcall]
        exact heard_wrongParent henabled hdeclared memory
    · cases hcall
  -- an element that is not declared is never called for, and never misplaced
  have hmet : ∀ e ∈ doc.elements, (detector.met doc e).flatMap (misplacedAt c)
      = if isMisplaced e then [.at (c.elementPlace e) wrongParentIssue.id (misplacedMessage e)]
        else [] := fun e _ => by
    rw [Detector.met_of_no_attributes rfl]
    split
    · exact List.append_nil _
    · next hdeclared =>
        have hmem : e.name ∉ rootChildren ++ applicationChildren := fun hmem =>
          hdeclared (List.contains_iff_mem.mpr hmem)
        rw [List.mem_append, not_or] at hmem
        unfold isMisplaced
        simp [hmem.1, hmem.2]
  rw [Detector.told_eq_seen isPlain,
    Detector.findings_seen hheard (fun _ _ _ _ => ⟨rfl, rfl⟩) (fun _ => rfl)
      (fun _ => heard_afterFile_of_ne (by decide)) (by decide),
    List.flatMap_congr hmet, Run.Job.flatMap_ite, ← List.map_eq_flatMap]

-- =================================================================== the report

section Runs

variable {s : Session} {host : Host} {scope : Option Scope} {files : List Path}
  {project : Project}

/-- The detector as it is registered. -/
def registration : Registration :=
  ⟨"ManifestOrderDetector",
    ["ManifestOrder", "UsesMinSdkAttributes", "MultipleUsesSdk", "WrongManifestParent"], detector⟩

theorem mem_registration : registration ∈ Registry.builtInRegistrations := by
  simp [Registry.builtInRegistrations, registration]

/-- The remark about an element in the wrong place. -/
def misplacedRemark (file : Path) (e : Element) : Remark := .about file e (misplacedMessage e)

/-- The remark about a second `uses-sdk`, which points to the others. -/
def secondRemark (file : Path) (second : Element) (others : List Element) : Remark :=
  ⟨secondMessage, .ofSpan file second.span :: others.map fun other =>
    { Place.ofSpan file other.span with message := some "Also appears here" }⟩

variable (h : s.Checks host scope files project)
  (hmanifest : project.manifest ∈ (s.jobOf host scope files project).openedManifest)
  (hdoc : host.document? project.manifest = some doc)

include h hmanifest hdoc

/-- What a run remarks on the structure of a manifest is what the detector finds
in its document. -/
theorem perm_remarks_told {issue : Issue} (hissue : issue ∈ Registry.builtInIssues)
    (hscope : issue.scope = .manifestOnly) (hid : issue.id ∈ registration.issues)
    (hlooks : (s.jobOf host scope files project).LooksFor issue) :
    ((s.analyze host files scope).1.remarks project issue.id).Perm
      ((detector.findings issue.id .blank
        ((detector.told doc).map ((s.jobOf host scope files project).context project.manifest
          (host.read project.manifest) none, ·))).map Finding.remark) :=
  h.perm_remarks_manifest hissue hscope mem_registration hid isLocal hlooks hmanifest hdoc

/-- One remark tells of the second `uses-sdk`, and it points to all others. -/
theorem remarks_second (hlooks : (s.jobOf host scope files project).LooksFor multipleUsesSdkIssue) :
    ((usesSdk doc).length < 2 →
      (s.analyze host files scope).1.remarks project multipleUsesSdkIssue.id = [])
    ∧ ∀ second, (usesSdk doc)[1]? = some second →
      ∃ before after, doc.elementsNamed "uses-sdk" = before ++ second :: after
        ∧ (s.analyze host files scope).1.remarks project multipleUsesSdkIssue.id
          = [secondRemark project.manifest second (before ++ after)] := by
  have hissue : multipleUsesSdkIssue ∈ Registry.builtInIssues := by simp [Registry.builtInIssues]
  have hperm := perm_remarks_told h hmanifest hdoc hissue rfl (by decide) hlooks
  rw [findings_second (hlooks.isEnabled h.registry hissue)] at hperm
  refine ⟨fun hfew => ?_, fun second hsecond => ?_⟩
  · have hnone : (usesSdk doc)[1]? = none := List.getElem?_eq_none_iff.mpr (by omega)
    rw [hnone] at hperm
    exact hperm.eq_nil
  · obtain ⟨text, -, hparse⟩ := Host.exists_parse_of_document? hdoc
    have hmem : second ∈ doc.elementsNamed "uses-sdk" := by
      obtain ⟨hchild, huses⟩ := List.mem_filter.mp (List.mem_of_getElem? hsecond)
      exact List.mem_filter.mpr ⟨doc.childElements_sublist.mem hchild, huses⟩
    obtain ⟨before, after, hsplit⟩ := List.append_of_mem hmem
    refine ⟨before, after, hsplit, ?_⟩
    -- elements are told apart by their spans, so the others are those before and behind
    have hspans : (doc.elementsNamed "uses-sdk").Pairwise fun a b => a.span ≠ b.span :=
      (Document.pairwise_span_ne hparse).filter _
    have hothers := Xml.filter_span_ne (hsplit ▸ hspans)
    rw [hsecond, Option.toList_some, List.map_singleton, List.map_singleton, secondFinding,
      hsplit, hothers] at hperm
    exact List.perm_singleton.mp hperm

/-- What a run reports of the minimal level: the file when there is no
`uses-sdk`, and else each of them that lacks it, but for the second. -/
theorem perm_remarks_minSdk (hlooks : (s.jobOf host scope files project).LooksFor minSdkIssue) :
    ((s.analyze host files scope).1.remarks project minSdkIssue.id).Perm
      (if (usesSdk doc).isEmpty then [⟨noUsesSdkMessage, [.ofFile project.manifest]⟩]
      else (((usesSdk doc).eraseIdx 1).filter lacksMinSdk).map
        (.about project.manifest · minSdkMessage)) := by
  have hissue : minSdkIssue ∈ Registry.builtInIssues := by simp [Registry.builtInIssues]
  have hperm := perm_remarks_told h hmanifest hdoc hissue rfl (by decide) hlooks
  rw [findings_minSdk (hlooks.isEnabled h.registry hissue), apply_ite (List.map Finding.remark),
    List.map_map] at hperm
  exact hperm

/-- What a run reports of misplaced elements are all of them, each once. -/
theorem perm_remarks_wrongParent
    (hlooks : (s.jobOf host scope files project).LooksFor wrongParentIssue) :
    ((s.analyze host files scope).1.remarks project wrongParentIssue.id).Perm
      ((doc.elements.filter isMisplaced).map (misplacedRemark project.manifest)) := by
  have hissue : wrongParentIssue ∈ Registry.builtInIssues := by simp [Registry.builtInIssues]
  have hperm := perm_remarks_told h hmanifest hdoc hissue rfl (by decide) hlooks
  rw [findings_misplaced (hlooks.isEnabled h.registry hissue), List.map_map] at hperm
  exact hperm

/-- The structure of a manifest.  A run remarks on a second `uses-sdk` right
inside the root, once, and points to all other ones of the manifest; it misses
the least version in each of those inside the root but the second, or in the
manifest where there is none; and it remarks on every element in the wrong
place. -/
theorem remarks_structure :
    ((s.jobOf host scope files project).LooksFor multipleUsesSdkIssue →
        ((usesSdk doc).length < 2 →
          (s.analyze host files scope).1.remarks project multipleUsesSdkIssue.id = [])
        ∧ ∀ second, (usesSdk doc)[1]? = some second →
          ∃ before after, doc.elementsNamed "uses-sdk" = before ++ second :: after
            ∧ (s.analyze host files scope).1.remarks project multipleUsesSdkIssue.id
              = [secondRemark project.manifest second (before ++ after)])
      ∧ ((s.jobOf host scope files project).LooksFor minSdkIssue →
        ((s.analyze host files scope).1.remarks project minSdkIssue.id).Perm
          (if (usesSdk doc).isEmpty then [⟨noUsesSdkMessage, [.ofFile project.manifest]⟩]
          else (((usesSdk doc).eraseIdx 1).filter lacksMinSdk).map
            (.about project.manifest · minSdkMessage)))
      ∧ ((s.jobOf host scope files project).LooksFor wrongParentIssue →
        ((s.analyze host files scope).1.remarks project wrongParentIssue.id).Perm
          ((doc.elements.filter isMisplaced).map (misplacedRemark project.manifest))) :=
  ⟨remarks_second h hmanifest hdoc, perm_remarks_minSdk h hmanifest hdoc,
    perm_remarks_wrongParent h hmanifest hdoc⟩

end Runs

-- ========================================================== an untidy manifest

/-- A project with nothing but a manifest, in which a `uses-sdk` and an activity
are in the wrong place, and elements come behind two applications. -/
def untidy : FileTree :=
  { here := ["ROOT"]
    entries :=
      [(["ROOT"], .directory),
        (["ROOT", "app"], .directory),
        (["ROOT", "app", "AndroidManifest.xml"],
          .file ("<manifest><application><uses-sdk/></application><uses-sdk/><application/>"
            ++ "<uses-feature/><activity/><uses-sdk/></manifest>").toUTF8)] }

def untidyHost : Host := .ofTree untidy fun _ => false

def untidyProject : Project := .new ⟨"/ROOT/app"⟩ none

/-- What is remarked on it under an issue. -/
def untidyRemarks (issue : Issue) : List Remark :=
  (Session.plain.analyze untidyHost [⟨"/ROOT/app"⟩] none).1.remarks untidyProject issue.id

theorem checks_untidy : Session.plain.Checks untidyHost none [⟨"/ROOT/app"⟩] untidyProject := by
  have hprojects : Session.projectsFor untidyHost [⟨"/ROOT/app"⟩] = [untidyProject] := by
    decide +kernel
  exact Session.checks_ofTree rfl rfl untidy (hprojects ▸ List.mem_singleton_self _)

theorem mem_openedManifest_untidy :
    untidyProject.manifest
      ∈ (Session.plain.jobOf untidyHost none [⟨"/ROOT/app"⟩] untidyProject).openedManifest := by
  decide +kernel

theorem looksFor_untidy :
    ∀ issue ∈ [orderIssue, minSdkIssue, multipleUsesSdkIssue, wrongParentIssue],
      (Session.plain.jobOf untidyHost none [⟨"/ROOT/app"⟩] untidyProject).LooksFor issue := by
  have hscope : ∀ issue ∈ [orderIssue, minSdkIssue, multipleUsesSdkIssue, wrongParentIssue],
      issue.scope.isSubset (Session.plain.jobOf untidyHost none [⟨"/ROOT/app"⟩]
        untidyProject).scope := by decide +kernel
  have henabled : ∀ issue ∈ [orderIssue, minSdkIssue, multipleUsesSdkIssue, wrongParentIssue],
      (Session.plain.jobOf untidyHost none [⟨"/ROOT/app"⟩]
        untidyProject).configuration.isEnabled issue := by decide +kernel
  exact fun issue hissue => ⟨hscope issue hissue, henabled issue hissue⟩

/-- The second of its two `uses-sdk` elements right inside the root is reported
with the two others of the manifest, the first for its version, and two
elements for their place. -/
theorem remarks_structure_untidy :
    ∃ doc second before after, untidyHost.document? untidyProject.manifest = some doc
      ∧ (usesSdk doc)[1]? = some second
      ∧ doc.elementsNamed "uses-sdk" = before ++ second :: after
      ∧ untidyRemarks multipleUsesSdkIssue
        = [secondRemark untidyProject.manifest second (before ++ after)]
      ∧ (untidyRemarks minSdkIssue).Perm
        ((((usesSdk doc).eraseIdx 1).filter lacksMinSdk).map
          (.about untidyProject.manifest · minSdkMessage))
      ∧ (untidyRemarks wrongParentIssue).Perm
        ((doc.elements.filter isMisplaced).map (misplacedRemark untidyProject.manifest))
      ∧ (before ++ after).length = 2
      ∧ (((usesSdk doc).eraseIdx 1).filter lacksMinSdk).length = 1
      ∧ (doc.elements.filter isMisplaced).map (·.name) = ["uses-sdk", "activity"] := by
  have hshape : (untidyHost.document? untidyProject.manifest).map (fun d =>
      ((usesSdk d).length, (d.elementsNamed "uses-sdk").length,
        (((usesSdk d).eraseIdx 1).filter lacksMinSdk).length,
        (d.elements.filter isMisplaced).map (·.name)))
      = some (2, 3, 1, ["uses-sdk", "activity"]) := by decide +kernel
  obtain ⟨doc, hdoc, hshape⟩ := Option.map_eq_some_iff.mp hshape
  simp only [Prod.mk.injEq] at hshape
  obtain ⟨htwo, hthree, hone, hmisplaced⟩ := hshape
  obtain ⟨hsecond, hmin, hwrong⟩ :=
    remarks_structure checks_untidy mem_openedManifest_untidy hdoc
  have hget : (usesSdk doc)[1]? = some (usesSdk doc)[1] := List.getElem?_eq_getElem (by omega)
  obtain ⟨before, after, hsplit, hremarks⟩ :=
    (hsecond (looksFor_untidy _ (by simp))).2 _ hget
  have hmin := hmin (looksFor_untidy _ (by simp))
  rw [if_neg (by rw [List.isEmpty_iff_length_eq_zero]; omega)] at hmin
  refine ⟨doc, _, before, after, hdoc, hget, hsplit, hremarks, hmin,
    hwrong (looksFor_untidy _ (by simp)), ?_, hone, hmisplaced⟩
  rw [hsplit, List.length_append, List.length_cons] at hthree
  rw [List.length_append]
  omega

end ResourceLint.Manifest
