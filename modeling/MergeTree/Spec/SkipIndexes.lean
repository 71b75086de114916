import MergeTree.Spec.KeyCondition
import MergeTree.Spec.MarkRanges

/-!
# Skip indexes and disjunctions

`filterMarksUsingIndex` and `mergePartialResultsForDisjunctions` of
`MergeTreeDataSelectExecutor`, where skip indexes are used for disjunctions: every index
writes what it learns about the atoms of the condition into one table of bits, with
`MAX_BITS_FOR_PARTIAL_DISJUNCTION_RESULT` bits a mark, and the condition is evaluated on the
table once all indexes are done. Bulk filtering is off in this mode, and a vector
similarity index writes nothing.
-/

namespace MergeTree

def maxBitsForPartialDisjunctionResult : ℕ := 32

/-- `PartialDisjunctionResult`, a set of bits. -/
abbrev PartialDisjunctionResult : Type := List Bool

/-- The granularity of a part. -/
structure PartMarks where
  getMarksCountWithoutFinal : ℕ
  getMarkStartingRow : ℕ → ℕ
  marks_lt : getMarksCountWithoutFinal < 2 ^ 64

/-- The arguments of `UpdatePartialDisjunctionResultFn`. -/
structure AtomReport where
  position : ℕ
  elementResult : Bool
  isUnknown : Bool
deriving DecidableEq, Repr

/-- `RowsRange`, with both ends. -/
structure RowsRange where
  beginRow : ℕ
  endRow : ℕ
deriving DecidableEq, Repr

/-- What `filterMarksUsingIndex` asks of an index: a text index is read once and asked about the rows
of a mark (`setCurrentRange`), any other index is read granule by granule. `mayBeTrueOnGranule`
answers and reports on atoms. -/
inductive IndexAccess
  | text (mayBeTrueOnGranule : RowsRange → List AtomReport × Bool)
  | granules (Granule : Type) (read : ℕ → Granule) (mayBeTrueOnGranule : Granule → List AtomReport × Bool)

/-- A skip index and its condition. -/
structure SkipIndex where
  fileExists : Bool
  granularity : ℕ
  access : IndexAccess

/-! ## Recording -/

/-- An access out of a `boost::dynamic_bitset`, which has no defined behaviour. -/
def bitOutOfRange (bit size : ℕ) : String :=
  "bit " ++ toString bit ++ " of a set of " ++ toString size ++ " bits"

/-- The bit of an atom at a mark. -/
def partialResultBit (mark position : ℕ) : ℕ := mark * maxBitsForPartialDisjunctionResult + position

namespace PartialDisjunctionResult

/-- The callback of `create_update_partial_disjunction_result_fn`. -/
def update (rangeBegin : ℕ) (partialResult : PartialDisjunctionResult) (report : AtomReport) :
    Except String PartialDisjunctionResult :=
  if report.isUnknown then .ok partialResult
  else
    let bit := partialResultBit rangeBegin report.position
    if bit < partialResult.length then .ok (partialResult.set bit report.elementResult)
    else .error (bitOutOfRange bit partialResult.length)

/-- The bit of an atom at a mark. -/
def get (partialResult : PartialDisjunctionResult) (mark position : ℕ) : Except String Bool :=
  match partialResult[partialResultBit mark position]? with
  | some bit => .ok bit
  | none => .error (bitOutOfRange (partialResultBit mark position) partialResult.length)

end PartialDisjunctionResult

/-- The table before the first index: all bits are true. -/
def PartMarks.initialPartialResult (part : PartMarks) : PartialDisjunctionResult :=
  List.replicate (part.getMarksCountWithoutFinal * maxBitsForPartialDisjunctionResult) true

/-! ## `filterMarksUsingIndex` -/

/-- The ranges found and the table. -/
structure FilterState where
  res : MarkRanges := []
  partialResult : PartialDisjunctionResult

namespace FilterState

/-- What happens with the answer of `mayBeTrueOnGranule`. -/
def answer (minMarksForSeek rangeBegin : ℕ) (dataRange : MarkRange) (reported : List AtomReport × Bool)
    (st : FilterState) : Except String FilterState := do
  let partialResult ← reported.1.foldlM (PartialDisjunctionResult.update rangeBegin) st.partialResult
  return ⟨if reported.2 then MarkRanges.pushRange minMarksForSeek st.res dataRange else st.res, partialResult⟩

end FilterState

section TextIndex

variable (part : PartMarks) (minMarksForSeek : ℕ) (mayBeTrueOnGranule : RowsRange → List AtomReport × Bool)

/-- One mark of a range. -/
def textMark (st : FilterState) (mark : ℕ) : Except String FilterState :=
  let rowBegin := part.getMarkStartingRow mark
  let rowEnd := part.getMarkStartingRow (mark + 1)
  if rowBegin = rowEnd then .ok st
  else st.answer minMarksForSeek mark ⟨mark, mark + 1⟩ (mayBeTrueOnGranule ⟨rowBegin, rowEnd - 1⟩)

/-- All marks of a range. -/
def textRange (st : FilterState) (range : MarkRange) : Except String FilterState :=
  (List.range' range.beginMark (range.endMark - range.beginMark)).foldlM
    (textMark part minMarksForSeek mayBeTrueOnGranule) st

end TextIndex

/-- `range.begin / g` and `(range.end + g - 1) / g`. -/
def MarkRange.indexRange (range : MarkRange) (skipIndexGranularity : ℕ) : MarkRange :=
  ⟨range.beginMark / skipIndexGranularity,
    subSize (addSize range.endMark skipIndexGranularity) 1 / skipIndexGranularity⟩

/-- The state between ranges: `granule` is the last one read and `last_index_mark` the last index mark of
the range before. -/
structure GranuleState (Granule : Type) where
  granule : Option Granule := none
  lastIndexMark : ℕ := 0
  filter : FilterState

section GranuleIndex

variable {Granule : Type} (minMarksForSeek skipIndexGranularity : ℕ) (read : ℕ → Granule)
  (mayBeTrueOnGranule : Granule → List AtomReport × Bool)

/-- The granule of an index mark, which is not read again when it ended the range before. -/
def GranuleState.granuleAt (st : GranuleState Granule) (indexRange : MarkRange) (indexMark : ℕ) : Granule :=
  match st.granule with
  | some granule =>
    if indexMark ≠ indexRange.beginMark ∨ st.lastIndexMark ≠ indexRange.beginMark then read indexMark else granule
  | none => read indexMark

/-- One index mark of a range. -/
def granuleMark (range : MarkRange) (st : GranuleState Granule) (indexMark : ℕ) :
    Except String (GranuleState Granule) := do
  let granule := st.granuleAt read (range.indexRange skipIndexGranularity) indexMark
  let rangeBegin := max range.beginMark (mulSize indexMark skipIndexGranularity)
  let rangeEnd := min range.endMark (mulSize (addSize indexMark 1) skipIndexGranularity)
  let filter ← st.filter.answer minMarksForSeek rangeBegin ⟨rangeBegin, rangeEnd⟩ (mayBeTrueOnGranule granule)
  return { st with granule := some granule, filter }

/-- All index marks of a range. -/
def granuleRange (st : GranuleState Granule) (range : MarkRange) : Except String (GranuleState Granule) := do
  let indexRange := range.indexRange skipIndexGranularity
  let st ← (List.range' indexRange.beginMark (indexRange.endMark - indexRange.beginMark)).foldlM
    (granuleMark minMarksForSeek skipIndexGranularity read mayBeTrueOnGranule range) st
  return { st with lastIndexMark := subSize indexRange.endMark 1 }

end GranuleIndex

/-- `filterMarksUsingIndex`: the ranges left by one index, and the table. -/
def filterMarksUsingIndex (part : PartMarks) (minMarksForSeek : ℕ) (index : SkipIndex) (ranges : MarkRanges)
    (partialResult : PartialDisjunctionResult) : Except String (MarkRanges × PartialDisjunctionResult) :=
  if !index.fileExists then .ok (ranges, partialResult)
  else
    match index.access with
    | .text mayBeTrueOnGranule => do
      let st ← ranges.foldlM (textRange part minMarksForSeek mayBeTrueOnGranule) { partialResult }
      return (st.res, st.partialResult)
    | .granules _ read mayBeTrueOnGranule => do
      let st ← ranges.foldlM (granuleRange minMarksForSeek index.granularity read mayBeTrueOnGranule)
        { filter := { partialResult } }
      return (st.filter.res, st.filter.partialResult)

/-- All indexes on the same ranges. -/
def filterMarksUsingIndexes (part : PartMarks) (minMarksForSeek : ℕ) (ranges : MarkRanges) (indexes : List SkipIndex) :
    Except String PartialDisjunctionResult :=
  indexes.foldlM
    (fun partialResult index => (filterMarksUsingIndex part minMarksForSeek index ranges partialResult).map Prod.snd)
    part.initialPartialResult

/-! ## `mergePartialResultsForDisjunctions` -/

/-- `back` of an empty vector, which has no defined behaviour. -/
def emptyStack : String := "back of an empty stack"

/-- The exception on an element that no template has. -/
def unexpectedFunction (function : RPNFunction) (rpnText : String) : String :=
  "Unexpected function type " ++ function.name ++ " in mergePartialResultsForDisjunctions(), RPN = " ++ rpnText

/-- The exception on a template that does not leave one value. -/
def unexpectedStackSize (size : ℕ) (rpnText : String) : String :=
  "Unexpected stack size " ++ toString size ++ " in mergePartialResultsForDisjunctions(), RPN = " ++ rpnText

section Merge

variable (rpnText : String) (partialEvalResults : PartialDisjunctionResult)

/-- One element of the template at a mark, over the stack with its top first. `NOT` pushes `true`: the
results of an index are one-sided. -/
def evalElement (mark position : ℕ) (function : RPNFunction) (rpnStack : List Bool) : Except String (List Bool) :=
  match function with
  | .functionUnknown => do return (← partialEvalResults.get mark position) :: rpnStack
  | .functionNot =>
    match rpnStack with
    | _ :: rest => .ok (true :: rest)
    | [] => .error emptyStack
  | .functionOr =>
    match rpnStack with
    | arg1 :: arg2 :: rest => .ok ((arg1 || arg2) :: rest)
    | _ => .error emptyStack
  | .functionAnd =>
    match rpnStack with
    | arg1 :: arg2 :: rest => .ok ((arg1 && arg2) :: rest)
    | _ => .error emptyStack
  | .alwaysTrue => .ok (true :: rpnStack)
  | .alwaysFalse => .ok (false :: rpnStack)
  | _ => .error (unexpectedFunction function rpnText)

/-- The elements from a position on. -/
def evalElements (mark : ℕ) : ℕ → List RPNFunction → List Bool → Except String (List Bool)
  | _, [], rpnStack => .ok rpnStack
  | position, function :: rpn, rpnStack => do
    let rpnStack ← evalElement rpnText partialEvalResults mark position function rpnStack
    evalElements mark (position + 1) rpn rpnStack

/-- The value of the template at a mark. -/
def evalTemplate (rpn : List RPNFunction) (mark : ℕ) : Except String Bool := do
  match ← evalElements rpnText partialEvalResults mark 0 rpn [] with
  | [value] => return value
  | rpnStack => throw (unexpectedStackSize rpnStack.length rpnText)

/-- One mark. -/
def mergeMark (minMarksForSeek : ℕ) (rpn : List RPNFunction) (res : MarkRanges) (mark : ℕ) : Except String MarkRanges := do
  let value ← evalTemplate rpnText partialEvalResults rpn mark
  return if value then MarkRanges.pushRange minMarksForSeek res ⟨mark, mark + 1⟩ else res

def mergePartialResultsForDisjunctions (minMarksForSeek : ℕ) (rpn : List RPNFunction) (ranges : MarkRanges) :
    Except String MarkRanges :=
  ranges.foldlM
    (fun res range => (List.range' range.beginMark (range.endMark - range.beginMark)).foldlM
      (mergeMark rpnText partialEvalResults minMarksForSeek rpn) res) []

end Merge

/-! ## What the template stands for -/

/-- An operand of a template: the atom at a position, or a constant. -/
inductive TemplateOperand
  | atom (position : ℕ)
  | const (value : Bool)

/-- A template as a postfix program. -/
abbrev TemplateToken : Type := Postfix.Token TemplateOperand Unit RPNOperator

/-- The token of an element; an element that no template has is none. -/
def templateToken (position : ℕ) : RPNFunction → Option TemplateToken
  | .functionUnknown => some (.operand (.atom position))
  | .functionNot => some (.unary ())
  | .functionOr => some (.binary .or)
  | .functionAnd => some (.binary .and)
  | .alwaysTrue => some (.operand (.const true))
  | .alwaysFalse => some (.operand (.const false))
  | _ => none

/-- The tokens of the elements from a position on. -/
def templateTokens : ℕ → List RPNFunction → Option (List TemplateToken)
  | _, [] => some []
  | position, function :: rpn =>
    match templateToken position function, templateTokens (position + 1) rpn with
    | some token, some tokens => some (token :: tokens)
    | _, _ => none

/-- The elements are unknown atoms, constants and logical operators, and leave one value. -/
def IsTemplate (rpn : List RPNFunction) : Prop := ∃ tokens, templateTokens 0 rpn = some tokens ∧ Postfix.WellFormed tokens

/-- The logical meaning of a template, for atoms that hold or not. -/
def templateMeaning (holds : ℕ → Prop) : Postfix.Algebra TemplateOperand Unit RPNOperator Prop where
  operand
    | .atom position => holds position
    | .const value => value = true
  unary _ p := ¬ p
  binary
    | .and, p, q => p ∧ q
    | .or, p, q => p ∨ q

/-- The formula of the template is true for these atoms. -/
def Satisfies (rpn : List RPNFunction) (holds : ℕ → Prop) : Prop :=
  ∃ tokens, templateTokens 0 rpn = some tokens ∧ ∃ p, (templateMeaning holds).eval tokens = some p ∧ p

/-! ## What an index promises -/

namespace PartMarks

variable (part : PartMarks)

/-- The range begins at a mark of the part and does not go past its end. -/
def Contains (range : MarkRange) : Prop :=
  range.beginMark < part.getMarksCountWithoutFinal ∧ range.endMark ≤ part.getMarksCountWithoutFinal

/-- The row is in the mark. -/
def RowOfMark (mark row : ℕ) : Prop := part.getMarkStartingRow mark ≤ row ∧ row < part.getMarkStartingRow (mark + 1)

/-- The row is in one of the marks of the index granule. -/
def RowOfGranule (skipIndexGranularity indexMark row : ℕ) : Prop :=
  ∃ mark, mark / skipIndexGranularity = indexMark ∧ part.RowOfMark mark row

end PartMarks

/-- What is reported, unless it is unknown, is at a position of the template; an atom is reported to be
false only if it holds on none of the rows. -/
def ReportsSound (rpn : List RPNFunction) (holds : ℕ → ℕ → Prop) (rows : ℕ → Prop) (reports : List AtomReport) : Prop :=
  ∀ report ∈ reports, report.isUnknown = false →
    report.position < rpn.length ∧
      (rpn[report.position]? = some .functionUnknown → report.elementResult = false →
        ∀ row, rows row → ¬ holds report.position row)

/-- The reports of an index are sound for the rows it is asked about. -/
def IndexAccess.Sound (part : PartMarks) (skipIndexGranularity : ℕ) (rpn : List RPNFunction) (holds : ℕ → ℕ → Prop) :
    IndexAccess → Prop
  | .text mayBeTrueOnGranule =>
    ∀ rows, ReportsSound rpn holds (fun row => rows.beginRow ≤ row ∧ row ≤ rows.endRow) (mayBeTrueOnGranule rows).1
  | .granules _ read mayBeTrueOnGranule =>
    ∀ indexMark, ReportsSound rpn holds (part.RowOfGranule skipIndexGranularity indexMark)
      (mayBeTrueOnGranule (read indexMark)).1

/-- An index with a granularity, whose reports are sound. -/
structure SkipIndex.Sound (part : PartMarks) (rpn : List RPNFunction) (holds : ℕ → ℕ → Prop) (index : SkipIndex) : Prop where
  granularity_pos : 1 ≤ index.granularity
  access : index.access.Sound part index.granularity rpn holds

end MergeTree
