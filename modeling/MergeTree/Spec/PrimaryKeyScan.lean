import MergeTree.Spec.BinarySearch
import MergeTree.Spec.ExclusionSearch

/-!
# Selecting marks by the primary key

`MergeTreeDataSelectExecutor::markRangesFromPKRange`, without conditions on the offsets of
rows. A range of marks is tested with the fields of the index at its ends, and the exclusion
search or the binary search collects the marks to read.
-/

namespace MergeTree

/-- What `markRangesFromPKRange` reads of a part, the condition and the settings. A condition that is
`alwaysUnknownOrTrue` is `none`. The columns of the primary key that are in memory come first, each a field
for every mark, with `NULL` as the positive infinity. -/
structure PrimaryKeyScan (F D : Type) where
  env : KeyEnvironment F D
  markRows : List ℕ
  index : List (ℕ → F)
  reverseFlags : List Bool := []
  usedKeySize : ℕ
  keyTypes : ℕ → D
  keyCondition : Option (KeyCondition F D)
  isRelaxed : Bool := false
  matchesExactContinuousRange : Bool := false
  coarseIndexGranularity : ℕ := 8
  minMarksForSeek : ℕ := 0

namespace PrimaryKeyScan

variable {F D : Type} [LinearOrder F] [BoundedOrder F] (scan : PrimaryKeyScan F D)

/-- `getMarksCount`. -/
def marksCount : ℕ := scan.markRows.length

/-- `index_left` and `index_right` of a column, exchanged if its order is reversed. -/
def indexBounds (range : MarkRange) (column : ℕ) : F × F :=
  match scan.index[column]? with
  | none => (⊥, ⊤)
  | some fields =>
    let left := fields range.beginMark
    let right := if range.endMark = scan.marksCount then ⊤ else fields range.endMark
    if scan.reverseFlags.getD column false then (right, left) else (left, right)

def checkKeyCondition (condition : KeyCondition F D) (range : MarkRange) (initialMask : BoolMask) : Except String BoolMask :=
  condition.checkInRange scan.env scan.usedKeySize (fun column => (scan.indexBounds range column).1)
    (fun column => (scan.indexBounds range column).2) scan.keyTypes initialMask

def checkInRange (range : MarkRange) (initialMask : BoolMask) : Except String BoolMask :=
  match scan.keyCondition with
  | none => .ok ⟨true, false⟩
  | some condition => (scan.checkKeyCondition condition range initialMask).map (BoolMask.and ⟨true, false⟩)

/-- The tests have these answers; none throws. -/
def Answers (test : MarkRange → BoolMask → BoolMask) : Prop :=
  ∀ range initialMask, scan.checkInRange range initialMask = .ok (test range initialMask)

/-- `markRangesFromPKRange`, in a release build and with these answers of `check_in_range`: the ranges to
read, and what `exact_ranges` is filled with if it is not null. The exclusion search has so many steps for
each range. -/
def markRangesFromPKRange (test : MarkRange → BoolMask → BoolMask) (steps : ℕ) (ranges : MarkRanges) (findExactRanges : Bool) :
    Except String (Option (MarkRanges × Option MarkRanges)) :=
  if scan.marksCount = 0 then .ok (some ([], none))
  else if scan.keyCondition.isNone then .ok (some (ranges, none))
  else if scan.matchesExactContinuousRange then
    (BinarySearch.markRanges test false (findExactRanges && !scan.isRelaxed) ranges).map some
  else
    ExclusionSearch.markRanges scan.coarseIndexGranularity scan.minMarksForSeek test steps ranges (findExactRanges && !scan.isRelaxed)

/-! ## The rows of a part -/

/-- `getMarkStartingRow`. -/
def markStartingRow (mark : ℕ) : ℕ := (scan.markRows.take mark).sum

/-- The row is in the mark. -/
def InMark (mark row : ℕ) : Prop := scan.markStartingRow mark ≤ row ∧ row < scan.markStartingRow (mark + 1)

/-- The row whose key the index has at a mark: the first of the mark, at the final mark the last of the part. -/
def indexRow (mark : ℕ) : ℕ := min (scan.markStartingRow mark) (scan.markRows.sum - 1)

/-- What the elements of the condition mean. -/
def meaning (inSet : SetIndex F D → (ℕ → F) → Prop) : KeyMeaning F D := ⟨scan.env, scan.keyTypes, inSet⟩

/-- **The part and its index**: the rows are ordered by the key, all columns in one direction, a descending
key has a final mark that no range contains, and the index has keys of rows. -/
structure Indexed (inSet : SetIndex F D → (ℕ → F) → Prop) (rows : ℕ → ℕ → F) (ranges : MarkRanges) : Prop where
  rows_pos : 0 < scan.markRows.sum
  index : ∀ (i : ℕ) (fields : ℕ → F), scan.index[i]? = some fields → ∀ mark < scan.marksCount,
    fields mark = rows (scan.indexRow mark) i
  ordered : ((∀ i < scan.index.length, scan.reverseFlags.getD i false = false) ∧
      ∀ r r', r ≤ r' → r' < scan.markRows.sum → LexLe 0 scan.usedKeySize (rows r) (rows r')) ∨
    ((∀ i < scan.index.length, scan.reverseFlags.getD i false = true) ∧ (∀ range ∈ ranges, range.endMark < scan.marksCount) ∧
      ∀ r r', r ≤ r' → r' < scan.markRows.sum → LexLe 0 scan.usedKeySize (rows r') (rows r))
  inPart : ∀ range ∈ ranges, range.endMark ≤ scan.marksCount
  sound : (scan.meaning inSet).Sound
  keys : ∀ row < scan.markRows.sum, (scan.meaning inSet).IsKey scan.usedKeySize (rows row)
  condition : ∀ condition ∈ scan.keyCondition, condition.WellFormed (scan.meaning inSet) scan.usedKeySize ∧
    condition.singlePoint = false ∧
    ∀ row < scan.markRows.sum, ∀ element ∈ condition.rpn, element.NotNaN (scan.meaning inSet) (rows row)

end PrimaryKeyScan

end MergeTree
