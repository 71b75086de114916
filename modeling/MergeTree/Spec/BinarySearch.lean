import MergeTree.Lib.Bisection
import MergeTree.Spec.KeyCondition
import MergeTree.Spec.MarkRanges

/-!
# The binary search

The branch of `MergeTreeDataSelectExecutor::markRangesFromPKRange` for conditions that define
one continuous range of keys. In every range of the part the left and then the right end of
the marks that may match is searched; for exact ranges the two marks at the ends are dropped
where they can be false.

The test of a range, `check_in_range`, is a parameter; its second argument is the initial
mask. Marks are numbers; the middle of two of them does not wrap around.
-/

namespace MergeTree

/-- The exception on an exact range that can be false. It is thrown in debug builds. -/
def inconsistentKeyCondition : String := "Inconsistent KeyCondition behavior"

namespace BinarySearch

section

variable (checkInRange : MarkRange → BoolMask → BoolMask)

/-- The search for the left end, from the begin of the part range to the sentinel after its end. -/
def searchLeft (partRange : MarkRange) : Bisection.Found :=
  Bisection.search (fun middle => (checkInRange ⟨0, middle⟩ .considerOnlyCanBeTrue).canBeTrue)
    partRange.beginMark (partRange.endMark + 1)

/-- The search for the right end, from the left end that was found. -/
def searchRight (partRange : MarkRange) (searchedLeft : ℕ) : Bisection.Found :=
  Bisection.search (fun middle => !(checkInRange ⟨middle, partRange.endMark⟩ .considerOnlyCanBeTrue).canBeTrue)
    searchedLeft partRange.endMark

def resultRange (partRange : MarkRange) : MarkRange :=
  let searchedLeft := (searchLeft checkInRange partRange).left
  ⟨searchedLeft, (searchRight checkInRange partRange searchedLeft).right⟩

/-- A range can be false. -/
def canBeFalse (range : MarkRange) : Bool := (checkInRange range .considerOnlyCanBeFalse).canBeFalse

/-- `result_exact_range` without the first mark, if that can be false. -/
def dropFirst (range : MarkRange) : MarkRange :=
  if range.beginMark < range.endMark ∧ canBeFalse checkInRange ⟨range.beginMark, range.beginMark + 1⟩ then
    ⟨range.beginMark + 1, range.endMark⟩
  else range

/-- `result_exact_range` without the last mark, if that can be false. -/
def dropLast (range : MarkRange) : MarkRange :=
  if range.beginMark < range.endMark ∧ canBeFalse checkInRange ⟨range.endMark - 1, range.endMark⟩ then
    ⟨range.beginMark, range.endMark - 1⟩
  else range

/-- `result_exact_range`, after both marks. -/
def exactRange (resultRange : MarkRange) : MarkRange := dropLast checkInRange (dropFirst checkInRange resultRange)

/-- The ranges that the two searches test. -/
def searchTests (partRange : MarkRange) : List MarkRange :=
  let left := searchLeft checkInRange partRange
  left.tested.map (fun middle => ⟨0, middle⟩) ++
    (searchRight checkInRange partRange left.left).tested.map fun middle => ⟨middle, partRange.endMark⟩

/-- The ranges that are tested for the exact range. -/
def exactTests (resultRange : MarkRange) : List MarkRange :=
  let dropped := dropFirst checkInRange resultRange
  let exact := exactRange checkInRange resultRange
  (if resultRange.beginMark < resultRange.endMark then [⟨resultRange.beginMark, resultRange.beginMark + 1⟩] else []) ++
    (if dropped.beginMark < dropped.endMark then [⟨dropped.endMark - 1, dropped.endMark⟩] else []) ++
    if exact.beginMark < exact.endMark then [exact] else []

/-- One range of the part; `debug` stands for a build without `NDEBUG`. -/
def searchPartRange (debug : Bool) (found : MarkRanges × Option MarkRanges) (partRange : MarkRange) :
    Except String (MarkRanges × Option MarkRanges) :=
  let result := resultRange checkInRange partRange
  if result.beginMark < result.endMark then
    match found.2 with
    | none => .ok (found.1 ++ [result], none)
    | some exactRanges =>
      let exact := exactRange checkInRange result
      if exact.beginMark < exact.endMark then
        if canBeFalse checkInRange exact then
          if debug then .error inconsistentKeyCondition else .ok (found.1 ++ [result], some exactRanges)
        else .ok (found.1 ++ [result], some (exactRanges ++ [exact]))
      else .ok (found.1 ++ [result], some exactRanges)
  else .ok found

/-- The binary-search branch: the ranges to read and the exact ranges. -/
def markRanges (debug findExactRanges : Bool) (ranges : MarkRanges) : Except String (MarkRanges × Option MarkRanges) :=
  ranges.foldlM (searchPartRange checkInRange debug) ([], if findExactRanges then some [] else none)

end

end BinarySearch

end MergeTree
