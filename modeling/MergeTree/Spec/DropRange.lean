import MergeTree.Spec.WorkingSet

/-!
# Executing a drop range

`grabActivePartsToRemoveForDropRange` finds the parts that a drop range removes, and
`removePartsInRangeFromWorkingSetAndGetPartsToRemoveFromZooKeeper` removes them from the
working set, leaves an empty part in their place when asked to, and reports what is to be
removed from ZooKeeper (`MergeTreeData.cpp`).

A `MergeTreeTransaction` is what its snapshot sees of the parts; without one the Active parts
are visible. What moves to `detached` and the times of removal are left out.
-/

namespace MergeTree

namespace DataParts

/-- The parts of a partition in one state, in the order of the set. -/
def inPartition (parts : DataParts) (state : DataPartState) (partitionId : String) : List StatedPart :=
  parts.toList.filter fun part => part.state = state ∧ part.info.partitionId = partitionId

/-- `getVisibleDataPartsVectorInPartition`: with a transaction the Outdated parts follow the Active
ones. -/
def getVisibleDataPartsVectorInPartition (parts : DataParts) (txn : Option (DataPart → Bool)) (partitionId : String) :
    List StatedPart :=
  match txn with
  | some isVisible =>
    (parts.inPartition .active partitionId ++ parts.inPartition .outdated partitionId).filter fun part =>
      isVisible part.toDataPart
  | none => parts.inPartition .active partitionId

end DataParts

/-- `is_drop_part`: the range is a part that is dropped. -/
def PartInfo.IsDropPart (dropRange : PartInfo) : Prop := ¬dropRange.isFakeDropRangePart = true ∧ dropRange.minBlock ≠ 0

instance (dropRange : PartInfo) : Decidable dropRange.IsDropPart := inferInstanceAs (Decidable (_ ∧ _))

/-- The part has other blocks than the range and covers it. -/
def PartInfo.CoversBlocks (part dropRange : PartInfo) : Prop :=
  (part.minBlock ≠ dropRange.minBlock ∨ part.maxBlock ≠ dropRange.maxBlock) ∧ part.minBlock ≤ dropRange.minBlock ∧
    dropRange.maxBlock ≤ part.maxBlock

instance (part dropRange : PartInfo) : Decidable (part.CoversBlocks dropRange) := inferInstanceAs (Decidable (_ ∧ _ ∧ _))

/-- The loop of `grabActivePartsToRemoveForDropRange` over the visible parts. -/
def grabLoop (dropRange : PartInfo) : List StatedPart → List DataPart → Except PartsError (List DataPart)
  | [], partsToRemove => .ok partsToRemove
  | part :: partitionRange, partsToRemove =>
    if part.info.partitionId ≠ dropRange.partitionId then .error .logicalError
    -- a DROP PART that is already executed by fetching some covering part
    else if dropRange.IsDropPart ∧ part.info.CoversBlocks dropRange then .ok []
    else if part.info.minBlock < dropRange.minBlock then
      if dropRange.minBlock ≤ part.info.maxBlock then .error .logicalError
      else grabLoop dropRange partitionRange partsToRemove
    -- stop on new parts
    else if part.info.minBlock > dropRange.maxBlock then .ok partsToRemove
    else if part.info.minBlock ≤ dropRange.maxBlock ∧ dropRange.maxBlock < part.info.maxBlock then .error .logicalError
    else grabLoop dropRange partitionRange (partsToRemove ++ [part.toDataPart])

def DataParts.grabActivePartsToRemoveForDropRange (parts : DataParts) (txn : Option (DataPart → Bool))
    (dropRange : PartInfo) : Except PartsError (List DataPart) :=
  if dropRange.minBlock > dropRange.maxBlock then .error .logicalError
  else grabLoop dropRange (parts.getVisibleDataPartsVectorInPartition txn dropRange.partitionId) []

/-- The info of the empty part: it covers the removed parts up to the end of the range. The level is a
`UInt32`. -/
def emptyInfo (dropRange : PartInfo) (partsToRemove : List DataPart) : PartInfo :=
  { dropRange with
    minBlock := partsToRemove.foldl (fun minBlock part => min minBlock part.info.minBlock) maxBlockNumber
    level := (partsToRemove.foldl (fun level part => max level part.info.level) 0 + 1) % 2 ^ 32
    mutation := partsToRemove.foldl (fun mutation part => max mutation part.info.mutation) 0 }

namespace MergeTreeData

/-- The empty part is added in a transaction of its own (number `i`), which is rolled back: it becomes
Outdated. `renameTempPartAndAdd` throws when it covers Active parts. -/
def addEmptyPart (data : MergeTreeData) (i : ℕ) (part : DataPart) : MergeTreeData × Except PartsError Unit :=
  let coveredParts := (data.parts.getPartHierarchy part.info .active).coveredParts
  match data.renameTempPartAndReplaceImpl i part false with
  | .error e => (data, .error e)
  | .ok data =>
    let rolledBack := data.rollback i fun _ => false
    if !coveredParts.isEmpty then (rolledBack.1, .error .logicalError) else rolledBack

/-- What is returned: the empty part, and the parts to remove from ZooKeeper with `was_active`. -/
structure PartsToRemove where
  emptyPart : Option DataPart := none
  partsToRemoveFromZooKeeper : List (DataPart × Bool)

/-- `removePartsInRangeFromWorkingSetAndGetPartsToRemoveFromZooKeeper`. `refuses` tells whether
`removeOldPart` throws for a part, `isNewSyntax` is about the format of part names. -/
def removePartsInRange (data : MergeTreeData) (txn : Option (DataPart → Bool)) (refuses : DataPart → Bool) (i : ℕ)
    (dropRange : PartInfo) (createEmptyPart isNewSyntax : Bool) : MergeTreeData × Except PartsError PartsToRemove :=
  match data.parts.grabActivePartsToRemoveForDropRange txn dropRange with
  | .error e => (data, .error e)
  | .ok partsToRemove =>
    let inactivePartsToRemove := data.parts.inPartition .outdated dropRange.partitionId ++
      data.parts.inPartition .deleting dropRange.partitionId
    let reported := partsToRemove.map (fun part => (part, true)) ++
      (inactivePartsToRemove.filter fun part => dropRange.Contains part.info).map fun part => (part.toDataPart, false)
    match removePartsFromWorkingSet refuses partsToRemove data with
    | (data, .error e) => (data, .error e)
    | (data, .ok ()) =>
      let rangeInTheMiddle := dropRange.minBlock ≠ 0
      match partsToRemove with
      | [] => (data, .ok { partsToRemoveFromZooKeeper := reported })
      | front :: _ =>
        if createEmptyPart ∧ isNewSyntax ∧ ¬rangeInTheMiddle then
          let emptyPart : DataPart := { info := emptyInfo dropRange partsToRemove, partition := front.partition }
          match data.addEmptyPart i emptyPart with
          | (data, .error e) => (data, .error e)
          | (data, .ok ()) => (data, .ok { emptyPart := some emptyPart, partsToRemoveFromZooKeeper := reported })
        else (data, .ok { partsToRemoveFromZooKeeper := reported })

end MergeTreeData

end MergeTree
