/-
What the index of the pages says.

After the row of headings there is one row for each page, and what a row says
is what is known of the page: its file, its project, and how many errors and
warnings are on it (`exists_indexLines`).  The rows come with the most errors
first, then the most warnings, then by name (`pairwise_byRank`).
-/
import ResourceLint.Proofs.PageAccounts
import ResourceLint.Report.Pages

namespace ResourceLint

namespace Html

/-- The value of an attribute of a node, with entities replaced. -/
def Node.value? (name : String) : Node → Option String
  | .char _ => none
  | .element _ attributes _ =>
    (attributes.lookup name).map fun value => String.ofList (unescape value.toList)

end Html

namespace Report

open Html
open Std (OrientedCmp TransCmp)

-- ==================================================================== the order

namespace ProjectSummary

instance : TransCmp ProjectSummary.compare := by
  have heq : ProjectSummary.compare
      = compareLex (fun a b => Ord.compare b.errors a.errors)
          (compareLex (fun a b => Ord.compare b.warnings a.warnings)
            (compareLex (compareOn fun s : ProjectSummary => s.name)
              (compareOn fun s : ProjectSummary => s.file))) := rfl
  have := transCmp_comap (fun m n : Nat => Ord.compare n m) ProjectSummary.errors
  have := transCmp_comap (fun m n : Nat => Ord.compare n m) ProjectSummary.warnings
  rw [heq]
  infer_instance

/-- Whether the row of a page may come before that of another. -/
def Before (a b : ProjectSummary) : Prop :=
  b.errors < a.errors ∨ a.errors = b.errors ∧
    (b.warnings < a.warnings ∨ a.warnings = b.warnings ∧
      (a.name < b.name ∨ a.name = b.name ∧ a.file ≤ b.file))

/-- The comparison of texts is their order. -/
theorem lt_of_compare {s t : String} (h : Ord.compare s t = .lt) : s < t :=
  compareOfLessAndEq_eq_lt.mp h

theorem le_of_compare {s t : String} (h : Ord.compare s t ≠ .gt) : s ≤ t := by
  rw [← String.not_lt]
  intro hlt
  have hgt : Ord.compare t s = .lt := compareOfLessAndEq_eq_lt.mpr hlt
  exact h (OrientedCmp.gt_of_lt hgt)

/-- What is not compared as greater stands before. -/
theorem before_of_compare {a b : ProjectSummary} (h : compare a b ≠ .gt) : Before a b := by
  unfold compare at h
  -- key by key: a difference decides, a tie goes on to the next
  cases herrors : Ord.compare b.errors a.errors with
  | lt => exact .inl (Nat.compare_eq_lt.mp herrors)
  | gt =>
      rw [herrors] at h
      exact absurd rfl h
  | eq =>
      refine .inr ⟨(Nat.compare_eq_eq.mp herrors).symm, ?_⟩
      rw [herrors] at h
      cases hwarnings : Ord.compare b.warnings a.warnings with
      | lt => exact .inl (Nat.compare_eq_lt.mp hwarnings)
      | gt =>
          rw [hwarnings] at h
          exact absurd rfl h
      | eq =>
          refine .inr ⟨(Nat.compare_eq_eq.mp hwarnings).symm, ?_⟩
          rw [hwarnings] at h
          cases hname : Ord.compare a.name b.name with
          | lt => exact .inl (lt_of_compare hname)
          | gt =>
              rw [hname] at h
              exact absurd rfl h
          | eq =>
              rw [hname] at h
              exact .inr ⟨Std.LawfulEqCmp.eq_of_compare hname, le_of_compare h⟩

/-- The rows of the index, in order. -/
def byRank (summaries : List ProjectSummary) : List ProjectSummary :=
  summaries.mergeSort fun a b => compare a b != .gt

/-- The projects of the index are in order. -/
theorem pairwise_byRank (summaries : List ProjectSummary) :
    (byRank summaries).Pairwise Before := by
  have hle : ∀ a b : ProjectSummary, (compare a b != .gt) = (compare a b).isLE := by
    intro a b
    cases compare a b <;> rfl
  have htrans : ∀ a b c : ProjectSummary, compare a b != .gt → compare b c != .gt →
      compare a c != .gt := by
    intro a b c hab hbc
    rw [hle] at *
    exact TransCmp.isLE_trans hab hbc
  have htotal : ∀ a b : ProjectSummary, (compare a b != .gt) || (compare b a != .gt) := by
    intro a b
    have hswap : compare b a = (compare a b).swap := OrientedCmp.eq_swap
    rw [hswap]
    cases compare a b <;> rfl
  exact (List.pairwise_mergeSort htrans htotal summaries).imp fun h => before_of_compare (bne_iff_ne.mp h)

/-- The index has all projects, each once. -/
theorem perm_byRank (summaries : List ProjectSummary) : (byRank summaries).Perm summaries :=
  List.mergeSort_perm _ _

end ProjectSummary

-- ===================================================================== the rows

/-- What a row of the index says. -/
structure IndexLine where
  page : String
  directory : String
  name : String
  errors : String
  warnings : String
deriving DecidableEq

namespace IndexLine

/-- The line that a row is. -/
def ofNode? (node : Node) : Option IndexLine :=
  match node.select projectTag, node.select countTag with
  | [link], [errors, warnings] =>
    (link.value? "href").bind fun page => (link.value? "title").map fun directory =>
      ⟨page, directory, link.text, errors.text, warnings.text⟩
  | _, _ => none

/-- A row with a link and two counts is read back. -/
theorem ofNode?_eq {node link errors warnings : Node} {page directory : String}
    (hlink : node.select projectTag = [link]) (hcount : node.select countTag = [errors, warnings])
    (hpage : link.value? "href" = some page) (hdirectory : link.value? "title" = some directory) :
    ofNode? node = some ⟨page, directory, link.text, errors.text, warnings.text⟩ := by
  rw [ofNode?, hlink, hcount]
  simp only
  rw [hpage, hdirectory]
  rfl

/-- The line for a page. -/
def of (s : ProjectSummary) : IndexLine :=
  ⟨s.file, s.directory.text, s.name, toString s.errors, toString s.warnings⟩

end IndexLine

/-- The lines of the index, after its headings. -/
def indexLines? (nodes : List Node) : Option (List IndexLine) :=
  (select rowTag nodes).tail.mapM IndexLine.ofNode?

theorem unescape_attr (name value : String) :
    String.ofList (unescape (rawValue (attr name value)).toList) = value := by
  have hraw : rawValue (attr name value) = escape value := by
    unfold rawValue attr
    rw [String.empty_append, String.append_empty]
  rw [hraw, unescape_escape, String.ofList_toList]

/-- A row is a line for its page. -/
theorem exists_indexRow (s : ProjectSummary) : ∃ node, nodesOfAll (indexRow s) = [node, .char '\n']
    ∧ node.select rowTag = [node] ∧ IndexLine.ofNode? node = some (.of s) := by
  refine ⟨_, rfl, ?_, ?_⟩
  · rw [Node.select, select_element rfl, select_element rfl, select_text, classed,
      select_element rfl, select_text, classed, select_element rfl, select_text]
    rfl
  · -- the first cell has the link, the other two the counts
    have hlink : select projectTag (nodesOfAll [element "td" []
          [element "a" [attr "href" s.file, attr "title" s.directory.text] [text s.name]],
        classed "td" "count" (toString s.errors), classed "td" "count" (toString s.warnings)])
        = [.element "a" ([attr "href" s.file, attr "title" s.directory.text].map written)
          (nodesOfAll [text s.name])] := by
      rw [select_element rfl, select_element_self rfl, select_text, classed, select_element rfl,
        select_text, classed, select_element rfl, select_text]
      rfl
    have hcount : select countTag (nodesOfAll [element "td" []
          [element "a" [attr "href" s.file, attr "title" s.directory.text] [text s.name]],
        classed "td" "count" (toString s.errors), classed "td" "count" (toString s.warnings)])
        = [.element "td" ([attr "class" "count"].map written) (nodesOfAll [text (toString s.errors)]),
          .element "td" ([attr "class" "count"].map written)
            (nodesOfAll [text (toString s.warnings)])] := by
      rw [select_element rfl, select_element rfl, select_text, classed, select_element_self rfl,
        select_text, classed, select_element_self rfl, select_text]
      rfl
    have hpage : Node.value? "href" (.element "a"
        ([attr "href" s.file, attr "title" s.directory.text].map written)
          (nodesOfAll [text s.name])) = some s.file := congrArg some (unescape_attr "href" s.file)
    have hdirectory : Node.value? "title" (.element "a"
        ([attr "href" s.file, attr "title" s.directory.text].map written)
          (nodesOfAll [text s.name])) = some s.directory.text :=
      congrArg some (unescape_attr "title" s.directory.text)
    rw [IndexLine.ofNode?_eq (by rw [Node.select, hlink]; rfl) (by rw [Node.select, hcount]; rfl)
      hpage hdirectory, text_element, text_element, text_element]
    rfl

/-- The rows of the index are the projects, in order. -/
theorem lines_indexRows (summaries : List ProjectSummary) :
    (select rowTag (nodesOfAll (summaries.flatMap indexRow))).mapM IndexLine.ofNode?
      = some (summaries.map IndexLine.of) := by
  induction summaries with
  | nil => rfl
  | cons s summaries ih =>
      obtain ⟨row, hrow, hself, hline⟩ := exists_indexRow s
      have hselect : select rowTag [row, .char '\n'] = [row] := by
        rw [select, hself]
        rfl
      rw [List.flatMap_cons, nodesOfAll_append, hrow, select_append, hselect, List.singleton_append,
        List.mapM_cons, hline, ih]
      rfl

-- ===================================================================== the page

theorem notMem_indexStyleLines : ∀ line ∈ indexStyleLines, '<' ∉ line.toList := by
  unfold indexStyleLines
  repeat' rw [List.forall_mem_cons]
  repeat' apply And.intro
  all_goals first | exact notMem_of_eq rfl rfl | exact nofun

theorem uses_indexRow (s : ProjectSummary) : allUse projectTags (indexRow s) := rfl

/-- What the index says of itself. -/
def indexHead : Html :=
  element "head" []
    [fixed "\n    ", void "meta" [attr "charset" "UTF-8"] ">", fixed "\n    ",
      Html.simple "title" "Lint Report", fixed "\n    ",
      element "style" [] [fixed (joinLines indexStyleLines ++ "    ")], lineEnd]

theorem uses_indexHead : uses headTags indexHead := by
  have hstyle : uses headTags (fixed (joinLines indexStyleLines ++ "    ")) := by
    rw [uses, Bool.not_eq_true', List.contains_eq_mem, decide_eq_false_iff_not,
      String.toList_append, List.mem_append, not_or]
    exact ⟨notMem_joinLines notMem_indexStyleLines, by decide⟩
  exact uses_element (t := .bare "head") (by decide) rfl rfl
    (allUse_cons rfl (allUse_cons rfl (allUse_cons rfl (allUse_cons rfl (allUse_cons rfl
      (allUse_cons (uses_element (t := .bare "style") (by decide) rfl rfl
        (allUse_cons hstyle rfl)) rfl))))))

/-- The columns of the index. -/
def indexColumns : List Html :=
  [Html.simple "th" "Project", Html.simple "th" "Errors", Html.simple "th" "Warnings"]

/-- The headings of the index. -/
def indexHeadings : Html := element "tr" [] indexColumns

/-- The pieces inside the index. -/
def indexChildren (time : String) (summaries : List ProjectSummary) : List Html :=
  [indexHead, lineEnd,
    element "body" []
      [fixed "\n    ", Html.simple "h1" "Lint Report", fixed "\n    ", timestamp time,
        fixed "\n    ",
        element "table" []
          ([fixed "\n        ", indexHeadings, lineEnd]
            ++ (ProjectSummary.byRank summaries).flatMap indexRow ++ [fixed "    "]),
        lineEnd],
    lineEnd]

/-- The index is a document of its pieces. -/
theorem index_eq (time : String) (summaries : List ProjectSummary) :
    index time summaries = document (indexChildren time summaries) := rfl

theorem allUse_indexChildren (time : String) (summaries : List ProjectSummary) :
    allUse indexTags (documentPieces (indexChildren time summaries)) := by
  have hhead : uses indexTags indexHead := uses_mono (by decide) _ uses_indexHead
  have hrows : allUse indexTags ((ProjectSummary.byRank summaries).flatMap indexRow) :=
    allUse_mono (by decide) _ (allUse_flatMap fun s _ => uses_indexRow s)
  have htable : uses indexTags (element "table" [] ([fixed "\n        ", indexHeadings, lineEnd]
      ++ (ProjectSummary.byRank summaries).flatMap indexRow ++ [fixed "    "])) :=
    uses_element (t := tableTag) (by decide) rfl rfl (allUse_append (allUse_append rfl hrows) rfl)
  exact allUse_cons (uses_element (t := htmlTag) (by decide) rfl rfl
    (allUse_cons rfl (allUse_cons hhead (allUse_cons rfl (allUse_cons
      (uses_element (t := bodyTag) (by decide) rfl rfl (allUse_cons rfl (allUse_cons rfl
        (allUse_cons rfl (allUse_cons rfl (allUse_cons rfl (allUse_cons htable rfl))))))) rfl))))) rfl

/-- The index can be read, and has a line for each page. -/
theorem exists_indexLines (time : String) (summaries : List ProjectSummary) :
    ∃ nodes, readPage? (index time summaries) = some nodes
      ∧ indexLines? nodes = some ((ProjectSummary.byRank summaries).map .of) := by
  have hread : readPage? (index time summaries)
      = some (nodesOfAll (documentPieces (indexChildren time summaries))) := by
    rw [index_eq, readPage?_document (allUse_indexChildren time summaries)]
  have hhead : ∀ more, select rowTag (nodesOfAll (indexHead :: more))
      = select rowTag (nodesOfAll more) := by
    intro more
    rw [nodesOfAll, select_append, select_nodes (by decide) _ uses_indexHead, List.nil_append]
  have hcolumns : select rowTag (nodesOfAll indexColumns) = [] := by
    have hapart : [columnTag].all rowTag.isApart := by decide
    exact select_eq_nil hapart _ rfl
  -- the headings are a row of their own, in front of the others
  have htable : select rowTag (nodesOfAll ([fixed "\n        ", indexHeadings, lineEnd]
      ++ (ProjectSummary.byRank summaries).flatMap indexRow ++ [fixed "    "]))
      = .element "tr" [] (nodesOfAll indexColumns)
        :: select rowTag (nodesOfAll ((ProjectSummary.byRank summaries).flatMap indexRow)) := by
    have hself : rowTag.fits "tr" (([] : List HtmlAttribute).map written) := rfl
    rw [nodesOfAll_append, select_append, select_fixed, select_nil, List.append_nil, List.cons_append,
      select_fixed, List.cons_append, indexHeadings, select_element_self hself, hcolumns,
      List.nil_append, List.cons_append, lineEnd, select_fixed, List.nil_append]
    rfl
  have hrows : select rowTag (nodesOfAll (documentPieces (indexChildren time summaries)))
      = .element "tr" [] (nodesOfAll indexColumns)
        :: select rowTag (nodesOfAll ((ProjectSummary.byRank summaries).flatMap indexRow)) := by
    rw [documentPieces, select_element rfl, lineEnd, select_fixed, indexChildren, hhead, lineEnd,
      select_fixed, select_element rfl, select_fixed, Html.simple, select_element rfl, select_text,
      select_fixed, timestamp, classed, select_element rfl, select_text, select_fixed,
      select_element rfl, ← lineEnd, htable, lineEnd, select_fixed, select_nil]
    simp only [List.nil_append, List.append_nil]
  exact ⟨_, hread, by rw [indexLines?, hrows, List.tail_cons, lines_indexRows]⟩

end Report
end ResourceLint
