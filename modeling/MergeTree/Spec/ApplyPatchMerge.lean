import MergeTree.Lib.SortedLists
import MergeTree.Lib.SizeT
import MergeTree.Spec.ApplyPatches
import MergeTree.Spec.PatchReader
import MergeTree.Spec.SourcePartsSet

/-!
# Rows of a patch in the mode `Merge`

`applyPatchMerge` (`PatchParts/applyPatches.cpp`) matches the rows of a block of the source part with the rows of a
patch by their offsets. The patch rows of the part within the offsets of the block are found by two binary
searches (`getPartNameOffsetRange` of `PatchParts/PatchPartsUtils.cpp`).
-/

namespace MergeTree

/-- `compare` of `getPartNameOffsetRange`: the bytes of the names and their sizes, then the offsets. -/
def compareNameAndOffset (row : PatchRow) (name : String) (resultIdx : ℕ) : ℤ :=
  if row.part < name then -1
  else if name < row.part then 1
  else if resultIdx < row.partOffset then 1
  else if row.partOffset < resultIdx then -1
  else 0

/-- `getPartNameOffsetRange`: `std::lower_bound` of the first offset and `std::upper_bound` of the last one. -/
def getPartNameOffsetRange (rows : List PatchRow) (partName : String) (partOffsetBegin partOffsetEnd : ℕ) : ℕ × ℕ :=
  (rows.findIdx fun row => ¬compareNameAndOffset row partName partOffsetBegin < 0,
    rows.findIdx fun row => compareNameAndOffset row partName partOffsetEnd > 0)

/-- A patch block that was read in the mode `Merge`: its columns `_part` and `_part_offset`, and the whole block. -/
structure MergePatchBlock (S V : Type) where
  rows : List PatchRow
  block : PatchBlock S V

/-- The rows of a column from `begin` up to `end`, with their positions. -/
def rowsFrom (offsets : List ℕ) (b e : ℕ) : List (ℕ × ℕ) := (List.range' b (e - b)).map fun row => (row, offsets.getD row 0)

/-- The pairs of patch rows and result rows when the offsets of the result have no gaps. -/
def contiguousPairs (patchOffsets : List ℕ) (patchBegin patchEnd firstResultOffset : ℕ) : List (ℕ × ℕ) :=
  (rowsFrom patchOffsets patchBegin patchEnd).map fun row => (row.1, subSize row.2 firstResultOffset)

/-- The pairs that the loop of the two iterators finds. -/
def iteratedPairs (patchOffsets resultOffsets : List ℕ) (patchBegin patchEnd : ℕ) : List (ℕ × ℕ) :=
  (SortedLists.mergeJoin Prod.snd Prod.snd (rowsFrom patchOffsets patchBegin patchEnd)
    (rowsFrom resultOffsets 0 resultOffsets.length)).map fun pair => (pair.1.1, pair.2.1)

/-- The text of a mode in messages. -/
def PatchMode.text : PatchMode → String
  | .merge => "Merge"
  | .join => "Join"

/-- `applyPatchMerge`, for the column `_part_offset` of the result block. -/
def applyPatchMerge {S V P : Type} (resultOffsets : List ℕ) (patchBlock : MergePatchBlock S V) (patch : PatchPartInfo P) :
    Except String (PatchToApply S V) :=
  match patch.sourceParts with
  | [sourcePart] =>
    let numRows := resultOffsets.length
    if numRows = 0 ∨ patchBlock.rows.length = 0 then .ok {}
    else
      let patchOffsets := patchBlock.rows.map PatchRow.partOffset
      let firstResultOffset := resultOffsets.getD 0 0
      let lastResultOffset := resultOffsets.getD (numRows - 1) 0
      let (patchBegin, patchEnd) := getPartNameOffsetRange patchBlock.rows sourcePart firstResultOffset lastResultOffset
      let pairs :=
        if addSize (subSize lastResultOffset firstResultOffset) 1 = numRows then
          contiguousPairs patchOffsets patchBegin patchEnd firstResultOffset
        else iteratedPairs patchOffsets resultOffsets patchBegin patchEnd
      .ok { patchBlocks := [patchBlock.block]
            resultRowIndices := pairs.map Prod.snd
            patchRowIndices := pairs.map Prod.fst }
  | sourceParts => .error ("Applying patch parts with mode " ++ patch.mode.text ++ " requires only one part, got: " ++
      toString sourceParts.length)

end MergeTree
