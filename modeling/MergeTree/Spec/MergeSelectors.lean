import MergeTree.Lib.Heaps
import MergeTree.Lib.Intervals
import MergeTree.Lib.SizeT
import MergeTree.Spec.MergePredicate

/-!
# Merge selectors

`SimpleMergeSelector::select` scores the slices of the ranges of parts that may be merged and
takes the best of them (`SimpleMergeSelector.cpp`); the TTL selectors grow a slice around the
part whose TTL expired first (`TTLMergeSelector.cpp`). Both keep what they take disjoint by a
`DisjointPartsRangesSet` and take at most one slice for each constraint.

What is computed with floating point or random numbers is a parameter: `Estimates`.
-/

namespace MergeTree

/-! ## Parts, constraints and slices -/

/-- `PartProperties::GeneralTTLInfo`. -/
structure GeneralTTLInfo where
  hasAnyNonFinishedTTLs : Bool
  partMinTTL : ℤ
  partMaxTTL : ℤ
deriving DecidableEq, Repr

/-- `PartProperties::RecompressTTLInfo`. -/
structure RecompressTTLInfo where
  willChangeCodec : Bool
  nextRecompressTTL : ℤ
deriving DecidableEq, Repr

/-- `PartProperties`, as the selectors read it. The age is the `size_t` it is converted to. -/
structure SelectorPart extends PartProperties where
  size : ℕ
  age : ℕ := 0
  rows : ℕ
  generalTTLInfo : Option GeneralTTLInfo := none
  recompressionTTLInfo : Option RecompressTTLInfo := none

/-- `MergeConstraint`. -/
structure MergeConstraint where
  maxSizeBytes : ℕ
  maxSizeRows : ℕ
deriving DecidableEq, Repr

/-- `IMergeSelector::RangeFilter`, a function that may be empty. -/
abbrev RangeFilter : Type := Option (List SelectorPart → Bool)

/-- `!range_filter || range_filter(parts)`. -/
def RangeFilter.accepts (rangeFilter : RangeFilter) (parts : List SelectorPart) : Bool := rangeFilter.all fun filter => filter parts

/-- `PartsRange`, as positions in the input: `RangesIterator` and two `PartsIterator`. -/
structure PartsSlice where
  rangeIt : ℕ
  bounds : HalfOpen ℕ
deriving DecidableEq

namespace PartsSlice

/-- The parts of a slice. -/
def parts (partsRanges : List (List SelectorPart)) (slice : PartsSlice) : List SelectorPart :=
  (partsRanges.getD slice.rangeIt []).extract slice.bounds.left slice.bounds.right

/-- The number of parts of a slice. -/
def count (slice : PartsSlice) : ℕ := slice.bounds.right - slice.bounds.left

/-- Slices with no part in common. -/
def Disjoint (a b : PartsSlice) : Prop := a.rangeIt = b.rangeIt → a.bounds.Disjoint b.bounds

end PartsSlice

/-! ## Disjoint ranges -/

/-- `DisjointPartsRangesSet`: the disjoint slices of each range. -/
abbrev DisjointPartsRangesSet : Type := ℕ → DisjointIntervals ℕ

namespace DisjointPartsRangesSet

def addRangeIfPossible (disjoint : DisjointPartsRangesSet) (slice : PartsSlice) : Option DisjointPartsRangesSet :=
  ((disjoint slice.rangeIt).addIfPossible slice.bounds).map (Function.update disjoint slice.rangeIt)

def isCovered (disjoint : DisjointPartsRangesSet) (rangeIt part : ℕ) : Bool := (disjoint rangeIt).covers part

end DisjointPartsRangesSet

/-! ## One slice for each constraint -/

section Select

variable {C : Type} (buildRange : C → MergeConstraint → DisjointPartsRangesSet → Option (PartsSlice × DisjointPartsRangesSet))

/-- The loop of `buildMergeRange` over the candidates in the order the heap yields them. -/
def buildMergeRange (constraint : MergeConstraint) :
    List C → DisjointPartsRangesSet → Option (PartsSlice × List C × DisjointPartsRangesSet)
  | [], _ => none
  | candidate :: candidates, disjoint =>
    match buildRange candidate constraint disjoint with
    | some (slice, disjoint) => some (slice, candidates, disjoint)
    | none => buildMergeRange constraint candidates disjoint

/-- The loop of `select` over the constraints. -/
def selectRanges : List MergeConstraint → List C → DisjointPartsRangesSet → List PartsSlice
  | [], _, _ => []
  | constraint :: constraints, candidates, disjoint =>
    match buildMergeRange buildRange constraint candidates disjoint with
    | some (slice, candidates, disjoint) => slice :: selectRanges constraints candidates disjoint
    | none => []

end Select

/-! ## The simple selector -/

namespace SimpleMergeSelector

/-- `SimpleMergeSelector::Settings`, less those that only the floating-point computations read. -/
structure Settings where
  maxPartsToMergeAtOnce : ℕ := 100
  minPartsToMergeAtOnce : ℕ := 0
  windowSize : ℕ := 1000
  enableStochasticSliding : Bool := false
  minAgeToForceMerge : ℕ := 0
  enableHeuristicToRemoveSmallPartsAtRight : Bool := true
  enableHeuristicToLowerMaxPartsToMergeAtOnce : Bool := false

/-- What is computed with floating point or random numbers: the first part considered under
stochastic sliding and the lowered maximal number of parts of a range, whether a slice is
balanced enough for the base, whether a part is small for a slice, and the score of a slice.
The address of a part breaks ties. -/
structure Estimates where
  calculateRangeWithStochasticSliding : ℕ → ℕ
  loweredMaxPartsToMergeAtOnce : ℕ → ℕ
  fitsBase : PartsSlice → Bool
  isSmall : ℕ → ℕ → Bool
  score : PartsSlice → ℚ
  address : ℕ → ℕ → ℕ

/-- `Estimator::ScoredRange`. -/
structure ScoredRange where
  slice : PartsSlice
  bytes : ℕ
  rows : ℕ
  score : ℚ

variable (settings : Settings) (estimates : Estimates)

/-- The loop of `Estimator::consider`: small parts at the right are removed while three are
left. Returns the end of the slice and the size and the rows that were removed. -/
def removeSmallParts (parts : List SelectorPart) (sumSize rangeBegin : ℕ) : ℕ → ℕ → ℕ → ℕ × ℕ × ℕ
  | 0, sizeDelta, rowsDelta => (0, sizeDelta, rowsDelta)
  | last + 1, sizeDelta, rowsDelta =>
    match parts[last]? with
    | some part =>
      if rangeBegin + 3 ≤ last + 1 ∧ estimates.isSmall part.size sumSize then
        removeSmallParts parts sumSize rangeBegin last (addSize sizeDelta part.size) (addSize rowsDelta part.rows)
      else (last + 1, sizeDelta, rowsDelta)
    | none => (last + 1, sizeDelta, rowsDelta)

/-- The end, the size and the rows of the slice that `Estimator::consider` scores. -/
def considered (parts : List SelectorPart) (rangeBegin rangeEnd sumSize sumRows : ℕ) : ℕ × ℕ × ℕ :=
  if settings.enableHeuristicToRemoveSmallPartsAtRight then
    match removeSmallParts estimates parts sumSize rangeBegin rangeEnd 0 0 with
    | (rangeEnd, sizeDelta, rowsDelta) => (rangeEnd, subSize sumSize sizeDelta, subSize sumRows rowsDelta)
  else (rangeEnd, sumSize, sumRows)

theorem le_removeSmallParts (parts : List SelectorPart) (sumSize rangeBegin : ℕ) : ∀ (rangeEnd sizeDelta rowsDelta : ℕ),
    rangeBegin + 2 ≤ rangeEnd → rangeBegin + 2 ≤ (removeSmallParts estimates parts sumSize rangeBegin rangeEnd sizeDelta rowsDelta).1 := by
  intro rangeEnd
  induction rangeEnd with
  | zero => exact fun _ _ h => h
  | succ last ih =>
    intro sizeDelta rowsDelta h
    rw [removeSmallParts]
    split
    · split
      · next hsmall =>
        refine ih _ _ ?_
        have hthree := hsmall.1
        omega
      · exact h
    · exact h

theorem le_considered {parts : List SelectorPart} {rangeBegin rangeEnd : ℕ} (sumSize sumRows : ℕ) (h : rangeBegin + 2 ≤ rangeEnd) :
    rangeBegin + 2 ≤ (considered settings estimates parts rangeBegin rangeEnd sumSize sumRows).1 := by
  unfold considered
  split
  · exact le_removeSmallParts estimates parts sumSize rangeBegin rangeEnd 0 0 h
  · exact h

/-- `Estimator::consider`. -/
def consider (rangeIt : ℕ) (parts : List SelectorPart) (rangeBegin rangeEnd sumSize sumRows : ℕ) (h : rangeBegin + 2 ≤ rangeEnd) :
    ScoredRange :=
  let trimmed := considered settings estimates parts rangeBegin rangeEnd sumSize sumRows
  let slice : PartsSlice :=
    { rangeIt := rangeIt
      bounds :=
        { left := rangeBegin
          right := trimmed.1
          left_lt_right := Nat.lt_of_lt_of_le (Nat.lt_add_of_pos_right Nat.two_pos)
            (le_considered settings estimates sumSize sumRows h) } }
  { slice := slice, bytes := trimmed.2.1, rows := trimmed.2.2, score := estimates.score slice }

def allow (rangeFilter : RangeFilter) (parts : List SelectorPart) (slice : PartsSlice) (minAge : ℕ) : Bool :=
  if !rangeFilter.accepts (parts.extract slice.bounds.left slice.bounds.right) then false
  else if settings.minAgeToForceMerge ≠ 0 ∧ settings.minAgeToForceMerge ≤ minAge then true
  else if settings.minPartsToMergeAtOnce ≠ 0 ∧ slice.count < settings.minPartsToMergeAtOnce then false
  else estimates.fitsBase slice

/-- The inner loop of `selectWithinPartsRange`: the slices from `rangeBegin` on. So far they
have `count + 1` parts, and the rest of the range is to come. -/
def growRange (constraint : MergeConstraint) (rangeFilter : RangeFilter) (maxParts rangeIt : ℕ) (parts : List SelectorPart)
    (rangeBegin : ℕ) : List SelectorPart → ℕ → ℕ → ℕ → ℕ → List ScoredRange
  | [], _, _, _, _ => []
  | part :: rest, count, sumSize, sumRows, minAge =>
    if maxParts ≠ 0 ∧ maxParts < count + 2 then []
    else
      let sumSize := addSize sumSize part.size
      let sumRows := addSize sumRows part.rows
      let minAge := min minAge part.age
      if constraint.maxSizeBytes < sumSize then []
      else if constraint.maxSizeRows < sumRows then []
      else
        let slice : PartsSlice := { rangeIt := rangeIt, bounds := ⟨rangeBegin, rangeBegin + count + 2, by omega⟩ }
        let longer := growRange constraint rangeFilter maxParts rangeIt parts rangeBegin rest (count + 1) sumSize sumRows minAge
        if allow settings estimates rangeFilter parts slice minAge then
          consider settings estimates rangeIt parts rangeBegin (rangeBegin + count + 2) sumSize sumRows (by omega) :: longer
        else longer

/-- The maximal number of parts of a slice of a range, zero if there is none. -/
def maxPartsToMergeAtOnce (rangeIt : ℕ) : ℕ :=
  if settings.enableHeuristicToLowerMaxPartsToMergeAtOnce then estimates.loweredMaxPartsToMergeAtOnce rangeIt
  else settings.maxPartsToMergeAtOnce

/-- The first position that `selectWithinPartsRange` considers. -/
def windowBegin (rangeIt partsCount : ℕ) : ℕ :=
  if settings.windowSize ≤ partsCount then
    if settings.enableStochasticSliding then estimates.calculateRangeWithStochasticSliding rangeIt
    else partsCount - settings.windowSize
  else 0

def selectWithinPartsRange (constraint : MergeConstraint) (rangeFilter : RangeFilter) (rangeIt : ℕ) (parts : List SelectorPart) :
    List ScoredRange :=
  if parts.length ≤ 1 then []
  else
    let first := windowBegin settings estimates rangeIt parts.length
    (List.range' first (parts.length - first)).flatMap fun rangeBegin =>
      match parts.drop rangeBegin with
      | [] => []
      | part :: rest =>
        growRange settings estimates constraint rangeFilter (maxPartsToMergeAtOnce settings estimates rangeIt) rangeIt parts
          rangeBegin rest 0 part.size part.rows part.age

/-- The slices that are considered, over all ranges. -/
def candidates (constraint : MergeConstraint) (rangeFilter : RangeFilter) (partsRanges : List (List SelectorPart)) : List ScoredRange :=
  partsRanges.zipIdx.flatMap fun (parts, rangeIt) =>
    selectWithinPartsRange settings estimates constraint rangeFilter rangeIt parts

/-- `range_compare`: the greatest element of the heap has the lowest score, and among those the
greatest address. -/
def rangeCompare (lhs rhs : ScoredRange) : Bool :=
  lhs.score > rhs.score ||
    (lhs.score == rhs.score &&
      estimates.address lhs.slice.rangeIt lhs.slice.bounds.left < estimates.address rhs.slice.rangeIt rhs.slice.bounds.left)

/-- One turn of the loop of `Estimator::buildMergeRange`. -/
def buildRange (candidate : ScoredRange) (constraint : MergeConstraint) (disjoint : DisjointPartsRangesSet) :
    Option (PartsSlice × DisjointPartsRangesSet) :=
  if candidate.bytes ≤ constraint.maxSizeBytes ∧ candidate.rows ≤ constraint.maxSizeRows then
    (disjoint.addRangeIfPossible candidate.slice).map fun disjoint => (candidate.slice, disjoint)
  else none

def select (heap : StdHeap) (partsRanges : List (List SelectorPart)) (constraint : MergeConstraint)
    (constraints : List MergeConstraint) (rangeFilter : RangeFilter) : List PartsSlice :=
  let ranges := candidates settings estimates constraint rangeFilter partsRanges
  selectRanges buildRange (constraint :: constraints) (heap.drain (rangeCompare estimates) ranges.length ranges) fun _ => .empty

end SimpleMergeSelector

/-! ## The TTL selectors -/

/-- `ITTLMergeSelector`: the two virtual functions are fields. -/
structure ITTLMergeSelector where
  currentTime : ℤ
  mergeDueTimes : Option (String → Option ℤ) := none
  maxPartsToMergeAtOnce : ℕ := 0
  getTTLForPart : SelectorPart → ℤ
  canConsiderPart : SelectorPart → Bool

def TTLPartDropMergeSelector (currentTime : ℤ) (maxPartsToDropAtOnce : ℕ) : ITTLMergeSelector where
  currentTime := currentTime
  maxPartsToMergeAtOnce := maxPartsToDropAtOnce
  -- `canConsiderPart` is asked first, so the TTL of a part without the information is not read
  getTTLForPart part := (part.generalTTLInfo.map GeneralTTLInfo.partMaxTTL).getD 0
  canConsiderPart part := part.generalTTLInfo.isSome

def TTLRowDeleteMergeSelector (mergeDueTimes : String → Option ℤ) (currentTime : ℤ) : ITTLMergeSelector where
  currentTime := currentTime
  mergeDueTimes := some mergeDueTimes
  getTTLForPart part := (part.generalTTLInfo.map GeneralTTLInfo.partMinTTL).getD 0
  canConsiderPart part := !part.isInVolumeWhereMergesAvoid && part.generalTTLInfo.any GeneralTTLInfo.hasAnyNonFinishedTTLs

def TTLRecompressMergeSelector (mergeDueTimes : String → Option ℤ) (currentTime : ℤ) : ITTLMergeSelector where
  currentTime := currentTime
  mergeDueTimes := some mergeDueTimes
  getTTLForPart part := (part.recompressionTTLInfo.map RecompressTTLInfo.nextRecompressTTL).getD 0
  canConsiderPart part := !part.isInVolumeWhereMergesAvoid && part.recompressionTTLInfo.any RecompressTTLInfo.willChangeCodec

namespace ITTLMergeSelector

variable (selector : ITTLMergeSelector)

def needToPostponePartition (partitionId : String) : Bool :=
  match selector.mergeDueTimes with
  | some mergeDueTimes => (mergeDueTimes partitionId).any fun due => due > selector.currentTime
  | none => false

/-- The partition of a range, that of its first part. -/
def partitionOf (parts : List SelectorPart) : String := (parts.head?.map fun part => part.info.partitionId).getD ""

/-- `CenterPosition`. -/
structure CenterPosition where
  rangeIt : ℕ
  center : ℕ
  ttl : ℤ

def findCenters (partsRanges : List (List SelectorPart)) : List CenterPosition :=
  partsRanges.zipIdx.flatMap fun (parts, rangeIt) =>
    if selector.needToPostponePartition (partitionOf parts) then []
    else
      parts.zipIdx.filterMap fun (part, center) =>
        if !selector.canConsiderPart part then none
        else
          let ttl := selector.getTTLForPart part
          if ttl = 0 ∨ selector.currentTime < ttl then none else some { rangeIt := rangeIt, center := center, ttl := ttl }

/-- What may still be added to a slice: `usable_memory`, `usable_rows` and `usable_parts`. -/
structure Usable where
  memory : ℕ
  rows : ℕ
  parts : ℕ

def canIncludeToRange (part : SelectorPart) (ttl : ℤ) (usable : Usable) : Bool :=
  (0 < ttl && ttl ≤ selector.currentTime) && part.size ≤ usable.memory && part.rows ≤ usable.rows

/-- One turn of the loops that look for a border, `none` when it is found. -/
def tryInclude (part : SelectorPart) (isCovered : Bool) (usable : Usable) : Option Usable :=
  if usable.parts = 0 then none
  else if !selector.canConsiderPart part then none
  else if isCovered then none
  else if !selector.canIncludeToRange part (selector.getTTLForPart part) usable then none
  else some { memory := usable.memory - part.size, rows := usable.rows - part.rows, parts := usable.parts - 1 }

/-- `findLeftRangeBorder` over the parts to the left, the nearest first: as many of them are
left as the position of the next one to check. -/
def findLeftRangeBorder (isCovered : ℕ → Bool) : List SelectorPart → Usable → ℕ × Usable
  | [], usable => (0, usable)
  | part :: rest, usable =>
    match selector.tryInclude part (isCovered rest.length) usable with
    | some usable => findLeftRangeBorder isCovered rest usable
    | none => (rest.length + 1, usable)

/-- `findRightRangeBorder` over the parts from `right` on. -/
def findRightRangeBorder (isCovered : ℕ → Bool) : List SelectorPart → ℕ → Usable → ℕ
  | [], right, _ => right
  | part :: rest, right, usable =>
    match selector.tryInclude part (isCovered right) usable with
    | some usable => findRightRangeBorder isCovered rest (right + 1) usable
    | none => right

theorem findLeftRangeBorder_le (isCovered : ℕ → Bool) : ∀ (parts : List SelectorPart) (usable : Usable),
    (selector.findLeftRangeBorder isCovered parts usable).1 ≤ parts.length := by
  intro parts
  induction parts with
  | nil => exact fun _ => le_rfl
  | cons part rest ih =>
    intro usable
    rw [findLeftRangeBorder]
    split
    · exact (ih _).trans (Nat.le_succ _)
    · exact le_rfl

theorem le_findRightRangeBorder (isCovered : ℕ → Bool) : ∀ (parts : List SelectorPart) (right : ℕ) (usable : Usable),
    right ≤ selector.findRightRangeBorder isCovered parts right usable := by
  intro parts
  induction parts with
  | nil => exact fun _ _ => le_rfl
  | cons part rest ih =>
    intro right usable
    rw [findRightRangeBorder]
    split
    · exact (Nat.le_succ _).trans (ih _ _)
    · exact le_rfl

/-- What may be added to a slice of one part. -/
def usableAround (part : SelectorPart) (constraint : MergeConstraint) : Usable where
  memory := constraint.maxSizeBytes - part.size
  rows := constraint.maxSizeRows - part.rows
  parts := if selector.maxPartsToMergeAtOnce ≠ 0 then selector.maxPartsToMergeAtOnce - 1 else 2 ^ 64 - 1

/-- The slice around a part, before it is filtered. -/
def rangeAround (parts : List SelectorPart) (position : CenterPosition) (part : SelectorPart) (constraint : MergeConstraint)
    (disjoint : DisjointPartsRangesSet) : PartsSlice :=
  let isCovered := disjoint.isCovered position.rangeIt
  let left := selector.findLeftRangeBorder isCovered (parts.take position.center).reverse (selector.usableAround part constraint)
  { rangeIt := position.rangeIt
    bounds :=
      { left := left.1
        right := selector.findRightRangeBorder isCovered (parts.drop (position.center + 1)) (position.center + 1) left.2
        left_lt_right := by
          have hleft := selector.findLeftRangeBorder_le isCovered (parts.take position.center).reverse
            (selector.usableAround part constraint)
          rw [List.length_reverse, List.length_take] at hleft
          have hcenter : left.1 < position.center + 1 := Nat.lt_succ_of_le (hleft.trans (min_le_left _ _))
          exact hcenter.trans_le (selector.le_findRightRangeBorder isCovered _ (position.center + 1) left.2) } }

/-- `MergeRangesConstructor::buildRange`. -/
def buildRange (partsRanges : List (List SelectorPart)) (rangeFilter : RangeFilter) (position : CenterPosition)
    (constraint : MergeConstraint) (disjoint : DisjointPartsRangesSet) : Option (PartsSlice × DisjointPartsRangesSet) :=
  match (partsRanges.getD position.rangeIt [])[position.center]? with
  | none => none
  | some part =>
    if constraint.maxSizeBytes < part.size then none
    else if constraint.maxSizeRows < part.rows then none
    else if disjoint.isCovered position.rangeIt position.center then none
    else
      let slice := selector.rangeAround (partsRanges.getD position.rangeIt []) position part constraint disjoint
      if !rangeFilter.accepts (slice.parts partsRanges) then none
      else (disjoint.addRangeIfPossible slice).map fun disjoint => (slice, disjoint)

/-- `range_compare`: the greatest element of the heap has the earliest TTL. -/
def rangeCompare (lhs rhs : CenterPosition) : Bool := lhs.ttl > rhs.ttl

def select (heap : StdHeap) (partsRanges : List (List SelectorPart)) (constraints : List MergeConstraint)
    (rangeFilter : RangeFilter) : List PartsSlice :=
  let centers := selector.findCenters partsRanges
  selectRanges (selector.buildRange partsRanges rangeFilter) constraints (heap.drain rangeCompare centers.length centers) fun _ => .empty

end ITTLMergeSelector

/-! ## What the selectors promise -/

/-- The total size of parts. -/
def SelectorPart.totalSize (parts : List SelectorPart) : ℕ := (parts.map SelectorPart.size).sum

/-- The total number of rows of parts. -/
def SelectorPart.totalRows (parts : List SelectorPart) : ℕ := (parts.map SelectorPart.rows).sum

/-- The parts are within the constraint. -/
def SelectorPart.Within (parts : List SelectorPart) (constraint : MergeConstraint) : Prop :=
  totalSize parts ≤ constraint.maxSizeBytes ∧ totalRows parts ≤ constraint.maxSizeRows

/-- The parts are within the constraint, as far as sums of `size_t` tell. -/
def SelectorPart.WithinSizeT (parts : List SelectorPart) (constraint : MergeConstraint) : Prop :=
  totalSize parts % 2 ^ 64 ≤ constraint.maxSizeBytes ∧ totalRows parts % 2 ^ 64 ≤ constraint.maxSizeRows

/-- The least age of parts. -/
def SelectorPart.minAge : List SelectorPart → ℕ
  | [] => 0
  | part :: rest => rest.foldl (fun age part => min age part.age) part.age

/-- The slice from `rangeBegin` to `rangeEnd`, with its sums of `size_t`, is within the constraint. -/
def SelectorPart.SliceWithin (constraint : MergeConstraint) (parts : List SelectorPart) (rangeBegin rangeEnd : ℕ) : Prop :=
  totalSize (parts.extract rangeBegin rangeEnd) % 2 ^ 64 ≤ constraint.maxSizeBytes ∧
    totalRows (parts.extract rangeBegin rangeEnd) % 2 ^ 64 ≤ constraint.maxSizeRows

namespace SimpleMergeSelector

/-- The slice without the small parts at its right: where `Estimator::consider` lets it end. -/
def trimmedEnd (settings : Settings) (estimates : Estimates) (parts : List SelectorPart) (rangeBegin rangeEnd : ℕ) : ℕ :=
  if settings.enableHeuristicToRemoveSmallPartsAtRight then
    (removeSmallParts estimates parts (SelectorPart.totalSize (parts.extract rangeBegin rangeEnd) % 2 ^ 64) rangeBegin rangeEnd 0 0).1
  else rangeEnd

/-- **A slice of a range is considered**: it lies in the window, has two parts or more and not too many,
stays within the constraint while it grows, and is allowed. -/
structure IsConsidered (settings : Settings) (estimates : Estimates) (constraint : MergeConstraint) (rangeFilter : RangeFilter)
    (rangeIt : ℕ) (parts : List SelectorPart) (slice : HalfOpen ℕ) : Prop where
  window : windowBegin settings estimates rangeIt parts.length ≤ slice.left
  two_le : slice.left + 2 ≤ slice.right
  le_length : slice.right ≤ parts.length
  few : maxPartsToMergeAtOnce settings estimates rangeIt ≠ 0 →
    slice.right - slice.left ≤ maxPartsToMergeAtOnce settings estimates rangeIt
  within : ∀ rangeEnd, slice.left + 2 ≤ rangeEnd → rangeEnd ≤ slice.right →
    SelectorPart.SliceWithin constraint parts slice.left rangeEnd
  allowed : allow settings estimates rangeFilter parts { rangeIt := rangeIt, bounds := slice }
    (SelectorPart.minAge (parts.extract slice.left slice.right))

/-- The filter accepts every slice that is considered also without its small parts at the right. -/
def AcceptsTrimmed (settings : Settings) (estimates : Estimates) (constraint : MergeConstraint) (rangeFilter : RangeFilter)
    (partsRanges : List (List SelectorPart)) : Prop :=
  ∀ rangeIt parts, partsRanges[rangeIt]? = some parts → ∀ slice, IsConsidered settings estimates constraint rangeFilter rangeIt parts slice →
    rangeFilter.accepts (parts.extract slice.left (trimmedEnd settings estimates parts slice.left slice.right))

end SimpleMergeSelector

/-- The part may be considered and has a TTL that expired. -/
structure ITTLMergeSelector.Expired (selector : ITTLMergeSelector) (part : SelectorPart) : Prop where
  canConsider : selector.canConsiderPart part
  ne_zero : selector.getTTLForPart part ≠ 0
  le_currentTime : selector.getTTLForPart part ≤ selector.currentTime

/-- **Legal merges**: slices of at least `minParts` consecutive parts of one range, with no part
in common, each within its own constraint and of at most `maxParts` parts if that is positive. -/
structure LegalMerges (partsRanges : List (List SelectorPart)) (constraints : List MergeConstraint) (minParts : ℕ)
    (maxParts : ℕ → ℕ) (within : List SelectorPart → MergeConstraint → Prop) (selected : List PartsSlice) : Prop where
  isSlice : ∀ slice ∈ selected, slice.bounds.left + minParts ≤ slice.bounds.right ∧
    slice.bounds.right ≤ (partsRanges.getD slice.rangeIt []).length
  disjoint : selected.Pairwise PartsSlice.Disjoint
  within : List.Forall₂ (fun slice constraint => within (slice.parts partsRanges) constraint) selected
    (constraints.take selected.length)
  few : ∀ slice ∈ selected, maxParts slice.rangeIt ≠ 0 → slice.count ≤ maxParts slice.rangeIt

end MergeTree
