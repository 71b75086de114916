import MergeTree.Lib.Sorting
import MergeTree.Spec.MergeSelectors

/-!
# The trivial merge selector

`TrivialMergeSelector::select` looks for windows of a fixed number of parts, in the partitions with
the most parts first, and takes one of those it found (`TrivialMergeSelector.cpp`). One loop runs
over all partitions with two cursors.

An index out of range, and a difference that would be negative, is `none`; so is a loop that has
not ended after so many turns.
-/

namespace MergeTree

namespace TrivialMergeSelector

/-- `TrivialMergeSelector::Settings`, and the limits of the only constraint. -/
structure Settings where
  numPartsToMerge : ℕ
  numRangesToChoose : ℕ
  constraint : MergeConstraint
  rangeFilter : RangeFilter := none

variable (settings : Settings) (partsRanges : List (List SelectorPart)) (sortedPartitionIndices : List ℕ)

/-- `sorted_partition_indices`: the partitions with enough parts, the largest first. -/
def sortPartitions (std : StdSort) (numPartsToMerge : ℕ) : List ℕ :=
  std.sort (fun i j => decide ((partsRanges.getD j []).length < (partsRanges.getD i []).length))
    ((List.range partsRanges.length).filter fun i => numPartsToMerge ≤ (partsRanges.getD i []).length)

/-- The cursors of the loop. -/
structure Cursors where
  partitionIdx : ℕ := 0
  left : ℕ := 0
  right : ℕ := 0
deriving DecidableEq, Repr

/-- A difference of `size_t` that is not negative. -/
def checkedSub (a b : ℕ) : Option ℕ := if b ≤ a then some (a - b) else none

/-- The sizes and the rows of the parts of a window are within the limits, and the filter accepts it. -/
def accepts (parts : List SelectorPart) : Bool :=
  let total := parts.foldl (fun total part => (addSize total.1 part.size, addSize total.2 part.rows)) (0, 0)
  decide (total.1 ≤ settings.constraint.maxSizeBytes) && decide (total.2 ≤ settings.constraint.maxSizeRows) &&
    settings.rangeFilter.accepts parts

/-- The first block of the loop: a window that has enough parts is closed, and is a candidate if it
is accepted. -/
def closeWindow (i : ℕ) (partition : List SelectorPart) (cursors : Cursors) (candidates : List PartsSlice) :
    Option (List PartsSlice × Cursors) :=
  match checkedSub (1 + cursors.right) cursors.left with
  | none => none
  | some count =>
    if count = settings.numPartsToMerge then
      let right := cursors.right + 1
      if hlt : cursors.left < right ∧ right ≤ partition.length then
        let window : PartsSlice := { rangeIt := i, bounds := ⟨cursors.left, right, hlt.1⟩ }
        some (if accepts settings (partition.extract cursors.left right) then candidates ++ [window] else candidates,
          { cursors with left := right, right := right })
      else none
    else some (candidates, cursors)

/-- The second block: a partition with too few parts left is done. The inner option is `none` when
it was the last one. -/
def nextPartition (partition : List SelectorPart) (cursors : Cursors) : Option (Option Cursors) :=
  match checkedSub partition.length cursors.left with
  | none => none
  | some rest =>
    if rest < settings.numPartsToMerge then
      if cursors.partitionIdx + 1 = sortedPartitionIndices.length then some none
      else some (some { partitionIdx := cursors.partitionIdx + 1, left := 0, right := 0 })
    else some (some cursors)

/-- The last block: the window grows, or begins anew with a part of a lower level. The partition
is still the one from the beginning of the turn. -/
def moveRight (partition : List SelectorPart) (cursors : Cursors) : Option Cursors :=
  let right := cursors.right + 1
  if right < partition.length then
    match partition[right]?, partition[cursors.left]? with
    | some lower, some first =>
      some { cursors with left := if lower.info.level < first.info.level then right else cursors.left, right := right }
    | _, _ => none
  else some { cursors with right := right }

/-- The loop, for at most so many turns: the candidates. It is left when there are enough of them,
or after the last partition. -/
def collect : ℕ → Cursors → List PartsSlice → Option (List PartsSlice)
  | 0, _, _ => none
  | turns + 1, cursors, candidates =>
    if candidates.length < settings.numRangesToChoose then
      match sortedPartitionIndices[cursors.partitionIdx]? with
      | none => none
      | some i =>
        match partsRanges[i]? with
        | none => none
        | some partition =>
          match closeWindow settings i partition cursors candidates with
          | none => none
          | some (candidates, cursors) =>
            if candidates.length = settings.numRangesToChoose then some candidates
            else
              match nextPartition settings sortedPartitionIndices partition cursors with
              | none => none
              | some none => some candidates
              | some (some cursors) =>
                match moveRight partition cursors with
                | none => none
                | some cursors => collect turns cursors candidates
    else some candidates

/-- The candidates that `select` collects: without a partition the loop is not entered. -/
def collectCandidates (turns : ℕ) : Option (List PartsSlice) :=
  if sortedPartitionIndices = [] then some [] else collect settings partsRanges sortedPartitionIndices turns {} []

/-- `select`, where `random` is what the generator yields. -/
def select (std : StdSort) (random turns : ℕ) : Option (List PartsSlice) :=
  (collectCandidates settings partsRanges (sortPartitions partsRanges std settings.numPartsToMerge) turns).map fun candidates =>
    (candidates[random % candidates.length]?).toList

/-! ## Windows of one partition -/

/-- The part at `right` has a lower level than the one at `left`. -/
def lowerLevel (partition : List SelectorPart) (left right : ℕ) : Bool :=
  match partition[right]?, partition[left]? with
  | some lower, some first => lower.info.level < first.info.level
  | _, _ => false

/-- Where a window begins that has grown to `right`: anew at a part of a lower level. -/
def nextLeft (partition : List SelectorPart) (left right : ℕ) : ℕ := if lowerLevel partition left right then right else left

/-- The windows that a partition is cut into, from the cursors on. -/
def windows (n : ℕ) (partition : List SelectorPart) (left right : ℕ) : List (HalfOpen ℕ) :=
  if right < partition.length then
    if hfull : left ≤ right ∧ right + 1 = left + n then
      if partition.length < right + 1 + n then [⟨left, right + 1, Nat.lt_succ_of_le hfull.1⟩]
      else ⟨left, right + 1, Nat.lt_succ_of_le hfull.1⟩ :: windows n partition (nextLeft partition (right + 1) (right + 2)) (right + 2)
    else if partition.length < left + n then []
    else windows n partition (nextLeft partition left (right + 1)) (right + 1)
  else []
termination_by partition.length - right

/-- The second part of a partition has a lower level than the first one. -/
def beginsLower (partition : List SelectorPart) : Bool := lowerLevel partition 0 1

/-- The windows of a partition, from its second part on or not. -/
def windowsFrom (n : ℕ) (partition : List SelectorPart) (lower : Bool) : List (HalfOpen ℕ) :=
  windows n partition (if lower then 1 else 0) 1

/-- What is carried over from partition `i` to partition `j` makes no difference. -/
def SameWindows (n : ℕ) (partsRanges : List (List SelectorPart)) (i j : ℕ) : Prop :=
  windowsFrom n (partsRanges.getD j []) (beginsLower (partsRanges.getD i [])) =
    windowsFrom n (partsRanges.getD j []) (beginsLower (partsRanges.getD j []))

instance (n : ℕ) (partsRanges : List (List SelectorPart)) (i j : ℕ) : Decidable (SameWindows n partsRanges i j) :=
  inferInstanceAs (Decidable (_ = _))

/-- The scan of the partitions yields what the scan of each alone does, one after the other. -/
def Concatenates : Prop :=
  ∃ turns candidates, ∃ alone : ℕ → List PartsSlice,
    collectCandidates settings partsRanges sortedPartitionIndices turns = some candidates ∧
      (∀ i ∈ sortedPartitionIndices, ∃ turns, collectCandidates settings partsRanges [i] turns = some (alone i)) ∧
      candidates = (sortedPartitionIndices.flatMap alone).take settings.numRangesToChoose

/-- A candidate is a window of so many parts of one partition, within the limits and accepted by the filter. -/
structure LegalCandidate (candidate : PartsSlice) : Prop where
  mem : candidate.rangeIt ∈ sortedPartitionIndices
  count : candidate.bounds.right = candidate.bounds.left + settings.numPartsToMerge
  le_length : candidate.bounds.right ≤ (partsRanges.getD candidate.rangeIt []).length
  within : SelectorPart.WithinSizeT (candidate.parts partsRanges) settings.constraint
  accepts : settings.rangeFilter.accepts (candidate.parts partsRanges)

end TrivialMergeSelector

end MergeTree
