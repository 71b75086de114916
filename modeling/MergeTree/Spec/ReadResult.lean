import MergeTree.Spec.Messages

/-!
# The result of a reading step

`MergeTreeRangeReader::ReadResult`: what the chain of readers has read so far. The rows come in
granules; for each granule the result keeps how many rows are read from its beginning and where
in the part it begins.

A column is the list of its values, and a missing one is `none`.
-/

namespace MergeTree

/-- `ReadResult::GranuleOffset`. -/
structure GranuleOffset where
  /-- Granule starting offset within the part. -/
  startingOffset : ℕ
  /-- Granule index within the part. -/
  granuleOffset : ℕ
deriving DecidableEq, Repr

/-- `ReadResult::RangeInfo`. -/
structure RangeInfo where
  numGranulesReadBeforeStart : ℕ
  range : MarkRange
deriving DecidableEq, Repr

/-- `Columns`. -/
abbrev Columns (V : Type) : Type := List (Option (List V))

/-- `ReadResult`. -/
structure ReadResult (V : Type) where
  columns : Columns V := []
  numRows : ℕ := 0
  /-- Columns that are not part of the result but might be needed for default values. -/
  additionalColumns : Columns V := []
  /-- Virtual columns of the original block that are needed for patches. -/
  columnsForPatches : Columns V := []
  /-- The data versions of each column that patches have updated. -/
  patchVersionsBlock : Columns V := []
  startedRanges : List RangeInfo := []
  rowsPerGranule : List ℕ := []
  granuleOffsets : List GranuleOffset := []
  totalRowsPerGranule : ℕ := 0
  numReadRows : ℕ := 0
  numRowsToSkipInLastGranule : ℕ := 0
  minPartOffset : Option ℕ := none
  maxPartOffset : Option ℕ := none
  /-- A filter of size `totalRowsPerGranule`, or none. -/
  finalFilter : Option (List UInt8) := none
  canReturnPrewhereColumnWithoutFiltering : Bool := true

namespace ReadResult

variable {V : Type} (result : ReadResult V)

def addGranule (numRows : ℕ) (granuleOffset : GranuleOffset) : ReadResult V :=
  { result with
    rowsPerGranule := result.rowsPerGranule ++ [numRows]
    granuleOffsets := result.granuleOffsets ++ [granuleOffset]
    totalRowsPerGranule := result.totalRowsPerGranule + numRows }

/-! ## Part offsets -/

/-- The values of the column of `createPartOffsetColumn`. -/
def partOffsets : List ℕ :=
  (result.rowsPerGranule.zip result.granuleOffsets).flatMap fun g => List.range' g.2.startingOffset g.1

/-- `createPartOffsetColumn`, as far as it sets the range of offsets. -/
def createPartOffsetColumn : ReadResult V :=
  match result.partOffsets with
  | [] => { result with minPartOffset := some 0, maxPartOffset := some 0 }
  | offset :: offsets =>
    { result with
      minPartOffset := some offset
      maxPartOffset := some ((offset :: offsets).getLast (List.cons_ne_nil _ _)) }

/-- The last granule with rows, from the end: `last` of `fillVirtualColumns`. -/
def lastOffset : List (ℕ × GranuleOffset) → ℕ
  | [] => 0
  | (rows, offset) :: rest => if rows = 0 then lastOffset rest else offset.startingOffset + rows - 1

/-- `fillVirtualColumns`, as far as it sets the range of offsets: `hasPartOffset` says whether the
column `_part_offset` is requested and not stored in the part. -/
def fillVirtualColumns (hasPartOffset : Bool) : ReadResult V :=
  let filled := if hasPartOffset then result.createPartOffsetColumn else result
  if filled.minPartOffset.isSome then filled
  else match filled.granuleOffsets with
    | [] => { filled with minPartOffset := some 0, maxPartOffset := some 0 }
    | first :: _ =>
      if filled.totalRowsPerGranule = 0 then { filled with minPartOffset := some 0, maxPartOffset := some 0 }
      else
        { filled with
          minPartOffset := some first.startingOffset
          maxPartOffset := some (lastOffset (filled.rowsPerGranule.zip filled.granuleOffsets).reverse) }

/-- The interval of part offsets of a block. -/
def interval : Option (ℕ × ℕ) :=
  match result.minPartOffset, result.maxPartOffset with
  | some lo, some hi => some (lo, hi)
  | _, _ => none

end ReadResult

end MergeTree
