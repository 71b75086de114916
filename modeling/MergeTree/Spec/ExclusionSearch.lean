import MergeTree.Spec.KeyCondition
import MergeTree.Spec.MarkRanges

/-!
# The exclusion search

The branch of `MergeTreeDataSelectExecutor::markRangesFromPKRange` for conditions that do not
define one continuous range of keys. Ranges of marks are tested, split into
`merge_tree_coarse_index_granularity` pieces and tested again, down to single marks.

The test of a range, `check_in_range`, is a parameter; its second argument is the initial
mask. Marks are `size_t`; only the distance of two ranges is a difference that could wrap.
-/

namespace MergeTree

/-- The exception on a setting that would not split a range. -/
def coarseIndexGranularityTooSmall : String :=
  "Setting merge_tree_coarse_index_granularity should be greater than 1"

/-- The state of the search; `ranges_stack` has its top first, `exact_ranges` may be null. -/
structure ExclusionSearch where
  rangesStack : List MarkRange
  res : MarkRanges
  exactRanges : Option MarkRanges
deriving DecidableEq, Repr

/-- The segment is put on the stack in pieces, from right to left; `step` is never zero. -/
def pushPieces (beginMark step endMark : ℕ) (stack : List MarkRange) : List MarkRange :=
  if _h : 0 < step ∧ beginMark + step < endMark then
    pushPieces beginMark step (endMark - step) (⟨endMark - step, endMark⟩ :: stack)
  else ⟨beginMark, endMark⟩ :: stack
termination_by endMark
decreasing_by omega

namespace ExclusionSearch

section

variable (coarseIndexGranularity minMarksForSeek : ℕ) (checkInRange : MarkRange → BoolMask → BoolMask)

/-- The mask the test starts with: only single marks are tested in full, and only for exact ranges. -/
def initialMask (findExactRanges : Bool) (range : MarkRange) : BoolMask :=
  if findExactRanges ∧ range.endMark = range.beginMark + 1 then {} else .considerOnlyCanBeTrue

/-- The test of a range. -/
def testRange (findExactRanges : Bool) (range : MarkRange) : BoolMask :=
  checkInRange range (initialMask findExactRanges range)

/-- The pieces of a range on top of the stack. -/
def splitRange (range : MarkRange) (stack : List MarkRange) : List MarkRange :=
  pushPieces range.beginMark ((range.endMark - range.beginMark - 1) / coarseIndexGranularity + 1) range.endMark stack

/-- One step: the left segment is taken off the stack. -/
def step (search : ExclusionSearch) : ExclusionSearch :=
  match search.rangesStack with
  | [] => search
  | range :: stack =>
    let result := testRange checkInRange search.exactRanges.isSome range
    if ¬ result.canBeTrue then { search with rangesStack := stack }
    else if range.endMark = range.beginMark + 1 then
      { rangesStack := stack
        res := search.res.pushRange minMarksForSeek range
        exactRanges := search.exactRanges.map fun exactRanges =>
          if result.canBeFalse then exactRanges else MarkRanges.pushRange minMarksForSeek exactRanges range }
    else { search with rangesStack := splitRange coarseIndexGranularity range stack }

/-- The loop over the stack, for at most so many steps. -/
def run : ℕ → ExclusionSearch → Option ExclusionSearch
  | 0, search => if search.rangesStack.isEmpty then some search else none
  | steps + 1, search =>
    if search.rangesStack.isEmpty then some search
    else run steps (search.step coarseIndexGranularity minMarksForSeek checkInRange)

/-- The loop over the ranges of the part, with at most so many steps for each. -/
def runAll (steps : ℕ) (ranges : MarkRanges) (findExactRanges : Bool) : Option ExclusionSearch :=
  ranges.foldlM (fun search range =>
    run coarseIndexGranularity minMarksForSeek checkInRange steps { search with rangesStack := [range] })
    ⟨[], [], if findExactRanges then some [] else none⟩

/-- The exclusion-search branch: the ranges to read and the exact ranges, unless the steps do not suffice. -/
def markRanges (steps : ℕ) (ranges : MarkRanges) (findExactRanges : Bool) :
    Except String (Option (MarkRanges × Option MarkRanges)) :=
  if coarseIndexGranularity ≤ 1 then .error coarseIndexGranularityTooSmall
  else .ok ((runAll coarseIndexGranularity minMarksForSeek checkInRange steps ranges findExactRanges).map fun search =>
    (search.res, search.exactRanges))

end

end ExclusionSearch

end MergeTree
