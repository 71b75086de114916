import MergeTree.Spec.ReadResult

/-!
# Reading patch parts in the mode `Merge`

A patch part holds new values for rows of other parts. Its rows are sorted by the name of the
source part and the offset in it. `MergeTreePatchReaderMerge` (`PatchParts/MergeTreePatchReader.cpp`)
reads it range by range while the main reader goes through the source part, and
`MergeTreeReadersChain::readPatches` keeps the results that the current block may need.
-/

namespace MergeTree

/-- A row of a patch part: the columns `_part` and `_part_offset`. -/
structure PatchRow where
  part : String
  partOffset : ℕ
deriving DecidableEq, Repr

/-- A patch part: the rows of each of its granules. It is sorted by the names of the source parts. -/
structure PatchPart where
  granules : List (List PatchRow)
  sorted : granules.flatten.Pairwise fun a b => a.part ≤ b.part

/-- `PatchMergeReadResult`. -/
structure PatchMergeReadResult where
  block : List PatchRow
  minPartOffset : ℕ := 0
  maxPartOffset : ℕ := 0
deriving DecidableEq, Repr

/-- `getPartNameRange`: `std::ranges::equal_range` over the column `_part`. -/
def getPartNameRange (partNameColumn : List String) (partName : String) : ℕ × ℕ :=
  (partNameColumn.findIdx fun name => ¬ name < partName, partNameColumn.findIdx fun name => partName < name)

/-- `MergeTreePatchReaderMerge`, with the only source part of its patch. -/
structure MergeTreePatchReaderMerge where
  patchPart : PatchPart
  sourcePart : String

namespace MergeTreePatchReaderMerge

variable (reader : MergeTreePatchReaderMerge)

/-- `readPatchRanges`, of one range: all its rows. -/
def readPatchRange (range : MarkRange) : List PatchRow :=
  ((reader.patchPart.granules.drop range.beginMark).take (range.endMark - range.beginMark)).flatten

/-- `readPatch`, from the rows of the range. -/
def patchMergeReadResult (block : List PatchRow) : PatchMergeReadResult :=
  if block.length = 0 then { block }
  else
    let (patchBegin, patchEnd) := getPartNameRange (block.map PatchRow.part) reader.sourcePart
    if patchBegin ≠ block.length ∧ patchEnd ≠ 0 then
      { block
        minPartOffset := (block.map PatchRow.partOffset).getD patchBegin 0
        maxPartOffset := (block.map PatchRow.partOffset).getD (patchEnd - 1) 0 }
    else { block }

def readPatch (range : MarkRange) : PatchMergeReadResult :=
  reader.patchMergeReadResult (reader.readPatchRange range)

/-- The exception on a block without the range of its offsets. -/
def offsetsNotSet : String := "Min/max part offset must be set in RangeReader for reading patch parts"

variable {V : Type}

def needNewPatch (mainResult : ReadResult V) (oldPatch : PatchMergeReadResult) : Except String Bool :=
  match mainResult.maxPartOffset with
  | none => .error offsetsNotSet
  | some maxPartOffset => .ok (maxPartOffset > oldPatch.maxPartOffset)

def needOldPatch (mainResult : ReadResult V) (oldPatch : PatchMergeReadResult) : Except String Bool :=
  match mainResult.minPartOffset with
  | none => .error offsetsNotSet
  | some minPartOffset => .ok (minPartOffset ≤ oldPatch.maxPartOffset)

/-- The condition of the loop of `readPatches`: there is no last patch, or a new one is needed. -/
def needPatch (mainResult : ReadResult V) : Option PatchMergeReadResult → Except String Bool
  | none => .ok true
  | some lastReadPatch => needNewPatch mainResult lastReadPatch

/-- `readPatches` of the reader: the ranges that are left, and the new results. -/
def readPatches (mainResult : ReadResult V) :
    MarkRanges → Option PatchMergeReadResult → Except String (MarkRanges × List PatchMergeReadResult)
  | [], _ => .ok ([], [])
  | range :: ranges, lastReadPatch => do
    if ← needPatch mainResult lastReadPatch then
      let result := reader.readPatch range
      let (left, results) ← readPatches mainResult ranges (some result)
      return (left, result :: results)
    else return (range :: ranges, [])

end MergeTreePatchReaderMerge

/-- One patch of a chain of readers: its reader, the ranges that are left and the results that are
kept. -/
structure PatchReading where
  reader : MergeTreePatchReaderMerge
  ranges : MarkRanges
  results : List PatchMergeReadResult := []

namespace PatchReading

variable {V : Type}

/-- Remove the patches that the current block does not need anymore. -/
def popOld (mainResult : ReadResult V) : List PatchMergeReadResult → Except String (List PatchMergeReadResult)
  | [] => .ok []
  | result :: results => do
    if ← MergeTreePatchReaderMerge.needOldPatch mainResult result then return result :: results
    else popOld mainResult results

/-- The body of the loop of `MergeTreeReadersChain::readPatches`. -/
def readPatches (mainResult : ReadResult V) (p : PatchReading) : Except String PatchReading := do
  let kept ← popOld mainResult p.results
  let (ranges, newPatches) ← p.reader.readPatches mainResult p.ranges kept.getLast?
  return { p with ranges, results := kept ++ newPatches }

end PatchReading

def MergeTreeReadersChain.readPatches {V : Type} (patches : List PatchReading) (mainResult : ReadResult V) : Except String (List PatchReading) :=
  patches.mapM (PatchReading.readPatches mainResult)

end MergeTree
