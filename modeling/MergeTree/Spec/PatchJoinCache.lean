import MergeTree.Lib.KeyedSet
import MergeTree.Spec.ApplyPatches

/-!
# Rows of a patch in the mode `Join`

An entry of `PatchJoinCache` has a map from block numbers to maps from block offsets to the places of patch rows, in
which `addBlock` keeps the row of the greatest data version. `applyPatchJoin` (`PatchParts/applyPatches.cpp`) looks
the rows of a block up in it, with an iterator for each block number.

The map is a hash map in the source; its order does not matter. Iterators into a map of offsets are the elements from
them on. The hints of the insertions have no effect on what is inserted.
-/

namespace MergeTree

/-- A block that is read from a patch part: the columns `_block_number` and `_block_offset`, and the block without them. -/
structure JoinPatchBlock (S V : Type) where
  blockNumbers : List ℕ
  blockOffsets : List ℕ
  data : PatchBlock S V
  length_blockOffsets : blockOffsets.length = blockNumbers.length
  length_dataVersions : data.dataVersions.length = blockNumbers.length

namespace JoinPatchBlock

variable {S V : Type} (block : JoinPatchBlock S V)

def rows : ℕ := block.blockNumbers.length

/-- The rows: block number and block offset, and the data version. -/
def keyedRows : List ((ℕ × ℕ) × ℕ) := (block.blockNumbers.zip block.blockOffsets).zip block.data.dataVersions

end JoinPatchBlock

/-- `PatchOffsetsMap`. -/
abbrev PatchOffsetsMap : Type := KeyedSet (Prod.fst : ℕ × ℕ × ℕ → ℕ)

/-- `PatchHashMap`. -/
abbrev PatchHashMap : Type := KeyedSet (Prod.fst : ℕ × PatchOffsetsMap → ℕ)

/-- `PatchJoinCache::Entry`. -/
structure PatchJoinEntry (S V : Type) where
  hashMap : PatchHashMap := .empty
  blocks : List (PatchBlock S V) := []
  minBlock : ℕ := 2 ^ 64 - 1
  maxBlock : ℕ := 0

namespace PatchJoinEntry

variable {S V : Type} (entry : PatchJoinEntry S V)

/-- The data version of the row in a place. -/
def versionAt (place : ℕ × ℕ) : ℕ := ((entry.blocks[place.1]?).map fun block => block.dataVersions.getD place.2 0).getD 0

/-- The map of the offsets of a block number, `*current_offsets`. -/
def currentOffsets (blockNumber : ℕ) : PatchOffsetsMap := ((entry.hashMap.find blockNumber).map Prod.snd).getD .empty

/-- A change of the map of the offsets of a block number. -/
def setOffsets (blockNumber : ℕ) (offsets : PatchOffsetsMap) : PatchJoinEntry S V :=
  { entry with hashMap := (entry.hashMap.erase blockNumber).emplace (blockNumber, offsets) }

/-- Another block number than that of the row before: `hash_map[block_number]` is there from now on. -/
def switchBlock (blockNumber prevBlockNumber : ℕ) : PatchJoinEntry S V :=
  if blockNumber ≠ prevBlockNumber then
    { entry with
      hashMap := entry.hashMap.emplace (blockNumber, .empty)
      minBlock := min entry.minBlock blockNumber
      maxBlock := max entry.maxBlock blockNumber }
  else entry

/-- The rest of the loop of `addBlock`: the row is inserted, or it replaces the row of its key if its version is greater. -/
def insertRow (blockNumber blockOffset version : ℕ) (place : ℕ × ℕ) : PatchJoinEntry S V :=
  let offsets := entry.currentOffsets blockNumber
  match offsets.find blockOffset with
  | none => entry.setOffsets blockNumber (offsets.emplace (blockOffset, place))
  | some existing =>
    if version > entry.versionAt existing.2 then
      entry.setOffsets blockNumber ((offsets.erase blockOffset).emplace (blockOffset, place))
    else entry

/-- The body of the loop of `addBlock`, with `prev_block_number`. -/
def addRow (newBlockIdx : ℕ) (state : PatchJoinEntry S V × ℕ) (row : ((ℕ × ℕ) × ℕ) × ℕ) : PatchJoinEntry S V × ℕ :=
  ((state.1.switchBlock row.1.1.1 state.2).insertRow row.1.1.1 row.1.1.2 row.1.2 (newBlockIdx, row.2), row.1.1.1)

/-- `addBlock`, of a call that is not the last one before an exception. -/
def addBlock (readBlock : JoinPatchBlock S V) : Except String (PatchJoinEntry S V) :=
  if readBlock.rows = 0 then .ok entry
  else
    let newBlockIdx := entry.blocks.length
    if newBlockIdx > 2 ^ 32 - 1 then .error ("Too large index of block (" ++ toString newBlockIdx ++ ") in patch join cache")
    else if readBlock.rows > 2 ^ 32 - 1 then .error ("Too many rows (" ++ toString readBlock.rows ++ ") in patch ranges")
    else
      let entry := { entry with blocks := entry.blocks ++ [readBlock.data] }
      .ok (readBlock.keyedRows.zipIdx.foldl (addRow newBlockIdx) (entry, 2 ^ 64 - 1)).1

end PatchJoinEntry

/-- The calls of `addBlock` on a new entry. -/
def addBlocks {S V : Type} (blocks : List (JoinPatchBlock S V)) : Except String (PatchJoinEntry S V) :=
  blocks.foldlM PatchJoinEntry.addBlock {}

/-! ## The lookup -/

/-- `IteratorsPair`: the elements from `it` up to `end`. -/
structure IteratorsPair where
  found : Bool := false
  it : List (ℕ × ℕ × ℕ) := []

/-- The state of the loop of `applyPatchJoin`: the rows of the result with the places of their patch rows. -/
structure JoinState where
  prevBlockNumber : ℕ := 2 ^ 64 - 1
  offsetsIterators : ℕ → Option IteratorsPair := fun _ => none
  pairs : List (ℕ × ℕ × ℕ) := []

namespace PatchJoinEntry

variable {S V : Type} (entry : PatchJoinEntry S V)

/-- The iterators of a block number that has not been looked up before. -/
def findIterators (blockNumber blockOffset : ℕ) : IteratorsPair :=
  match entry.hashMap.find blockNumber with
  | some offsets => { found := true, it := offsets.2.above blockOffset }
  | none => {}

/-- The iterators after a switch to another block number. -/
def switchIterators (state : JoinState) (key : ℕ × ℕ) : ℕ → Option IteratorsPair :=
  if key.1 ≠ state.prevBlockNumber ∧ (state.offsetsIterators key.1).isNone then
    Function.update state.offsetsIterators key.1 (some (entry.findIterators key.1 key.2))
  else state.offsetsIterators

/-- The body of the loop of `applyPatchJoin`. -/
def joinRow (state : JoinState) (row : (ℕ × ℕ) × ℕ) : JoinState :=
  let key := row.1
  if key.1 < entry.minBlock ∨ key.1 > entry.maxBlock then state
  else
    let offsetsIterators := entry.switchIterators state key
    let iterators := (offsetsIterators key.1).getD {}
    if iterators.found then
      let it := iterators.it.dropWhile fun offset => offset.1 < key.2
      { prevBlockNumber := key.1
        offsetsIterators := Function.update offsetsIterators key.1 (some { iterators with it })
        pairs :=
          match it with
          | offset :: _ => if offset.1 = key.2 then state.pairs ++ [(row.2, offset.2)] else state.pairs
          | [] => state.pairs }
    else { state with prevBlockNumber := key.1, offsetsIterators }

end PatchJoinEntry

/-- `applyPatchJoin`, for the columns `_block_number` and `_block_offset` of the result block. -/
def applyPatchJoin {S V : Type} (resultKeys : List (ℕ × ℕ)) (joinEntry : PatchJoinEntry S V) : PatchToApply S V :=
  let patchBlocks := joinEntry.blocks.filter fun block => block.dataVersions.length ≠ 0
  if resultKeys.length = 0 ∨ joinEntry.hashMap.toList.isEmpty then { patchBlocks }
  else
    let pairs := (resultKeys.zipIdx.foldl joinEntry.joinRow {}).pairs
    { patchBlocks
      resultRowIndices := pairs.map Prod.fst
      patchBlockIndices := pairs.map fun pair => pair.2.1
      patchRowIndices := pairs.map fun pair => pair.2.2 }

end MergeTree
