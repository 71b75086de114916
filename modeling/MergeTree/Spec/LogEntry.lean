import MergeTree.Spec.PartName

/-!
# Entries of the replication log

`ReplicatedMergeTreeLogEntryData` (`ReplicatedMergeTreeLogEntry.h`, `.cpp`), with the
fields that the queue reads, and the parts that an entry stands for: the virtual parts
it will produce and the range it drops.
-/

namespace MergeTree

/-- `ReplicatedMergeTreeLogEntryData::Type`. -/
inductive LogEntryType
  | empty
  | getPart
  | attachPart
  | mergeParts
  | dropRange
  | clearColumn
  | clearIndex
  | replaceRange
  | mutatePart
  | alterMetadata
  | syncPinnedPartUuids
  | clonePartFromShard
  | dropPart
deriving DecidableEq, Repr

/-- `ReplicatedMergeTreeLogEntryData::ReplaceRangeEntry`. It lives behind a shared
pointer, which the queue compares; `address` is what tells two of them apart. -/
structure ReplaceRangeEntry where
  address : ℕ := 0
  dropRangePartName : String := ""
  newPartNames : List String := []
deriving DecidableEq, Repr

/-- `ReplaceRangeEntry::isMovePartitionOrAttachFrom`: the drop range is then only there
to reserve a block number. -/
def ReplaceRangeEntry.isMovePartitionOrAttachFrom (dropRangeInfo : PartInfo) : Bool :=
  dropRangeInfo.getBlocksCount = 1

/-- `ReplicatedMergeTreeLogEntry`. -/
structure LogEntry where
  znodeName : String := ""
  type : LogEntryType := .empty
  newPartName : String := ""
  sourceParts : List String := []
  replaceRangeEntry : Option ReplaceRangeEntry := none
  alterVersion : ℤ := -1
  createTime : ℕ := 0
  -- the rest changes while the entry is in the queue
  actualNewPartName : String := ""
  replaceRangeActualNewPartNames : List String := []
  currentlyExecuting : Bool := false
  removedByOtherEntry : Bool := false
  numTries : ℕ := 0
deriving DecidableEq, Repr

namespace LogEntry

/-- `*replace_range_entry`, which a `REPLACE_RANGE` entry always has. -/
def replaceRange (entry : LogEntry) : ReplaceRangeEntry := entry.replaceRangeEntry.getD {}

variable [IntText]

/-- `getDropRange`: the range that the entry drops, if it does. -/
def getDropRange (entry : LogEntry) (formatVersion : ℕ) : Except String (Option String) :=
  match entry.type with
  | .dropRange | .dropPart => .ok (some entry.newPartName)
  | .replaceRange =>
    match fromPartName entry.replaceRange.dropRangePartName formatVersion with
    | .ok dropRangeInfo =>
      -- a REPLACE, not a MOVE or an ATTACH, drops its range
      if ReplaceRangeEntry.isMovePartitionOrAttachFrom dropRangeInfo then .ok none
      else .ok (some entry.replaceRange.dropRangePartName)
    | .error e => .error e
  | _ => .ok none

/-- `getVirtualPartNames`: the parts that will appear after the entry, and the range in
which it blocks merges. A `DROP_PART` has none, since its part may already be merged. -/
def getVirtualPartNames (entry : LogEntry) (formatVersion : ℕ) : Except String (List String) :=
  match entry.type with
  | .alterMetadata | .dropPart | .syncPinnedPartUuids | .clonePartFromShard => .ok []
  | .replaceRange =>
    match entry.getDropRange formatVersion with
    | .ok dropRange => .ok (entry.replaceRange.newPartNames ++ dropRange.toList)
    | .error e => .error e
  | _ => .ok [entry.newPartName]

/-- `is_simple_producing_op` of `removePartProducingOpsInRange`. -/
def isSimpleProducingOp (entry : LogEntry) : Bool :=
  match entry.type with
  | .getPart | .attachPart | .mergeParts | .mutatePart => true
  | _ => false

end LogEntry

end MergeTree
