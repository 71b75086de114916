import MergeTree.Lib.KeyedSet
import MergeTree.Spec.PartInfo

/-!
# The working set of data parts

`data_parts_indexes` of `MergeTreeData` (`MergeTreeData.cpp`): the parts of a table with their
states, and the counters of the volume of Active parts. A part enters the set as PreActive in a
transaction (`addTempPart`, `renameTempPartAndReplaceImpl`); `commit` makes it Active and what it
covers Outdated, `rollback` and `rollbackPartsToTemporaryState` take it back.

A part outside of the set is Temporary. What `MergeTreeTransaction` and the versions of parts decide
(whether a removal is refused, which Outdated parts a snapshot sees) are inputs of the operations.
-/

namespace MergeTree

/-- `MergeTreeDataPartState`. -/
inductive DataPartState
  | temporary
  | preActive
  | active
  | outdated
  | deleting
  | deleteOnDestroy
deriving DecidableEq, Repr

/-- The codes of the exceptions. -/
inductive PartsError
  | logicalError
  | corruptedData
  | partIsTemporarilyLocked
  | serializationError
  | duplicateDataPart
deriving DecidableEq, Repr

/-- Bytes, rows and number of parts. -/
abbrev DataVolume : Type := BitVec 64 × BitVec 64 × BitVec 64

/-- What `IMergeTreeDataPart` does not change while the part is in the set. -/
structure DataPart where
  info : PartInfo
  partition : String := ""
  bytesOnDisk : BitVec 64 := 0
  rowsCount : BitVec 64 := 0
deriving DecidableEq, Repr

/-- A part of the set. -/
structure StatedPart extends DataPart where
  state : DataPartState
deriving DecidableEq, Repr

/-- `LessDataPart` compares infos. -/
def DataPart.key (part : DataPart) : PartTuple := part.info.toTuple

/-- The key of a part in the set. -/
def StatedPart.key (part : StatedPart) : PartTuple := part.info.toTuple

/-- What the part adds to the volume. -/
def DataPart.volume (part : DataPart) : DataVolume := (part.bytesOnDisk, part.rowsCount, 1)

def DataPart.isEmpty (part : DataPart) : Bool := part.rowsCount = 0

/-- `data_parts_indexes`. -/
abbrev DataParts : Type := KeyedSet StatedPart.key

/-- `MergeTreeData::Transaction`; `txn` tells whether it has a `MergeTreeTransaction`. -/
structure Transaction where
  txn : Bool := false
  precommittedParts : KeyedSet DataPart.key := .empty
  precommittedPartsNeedRename : KeyedSet DataPart.key := .empty

namespace DataParts

/-! ## `getPartHierarchy` -/

/-- `getDataPartsStateRange` of a state and the kind of the part, to the left of its place, nearest first. -/
def toTheLeft (parts : DataParts) (info : PartInfo) (state : DataPartState) : List StatedPart :=
  ((parts.below info.toTuple).filter fun part => part.state = state ∧ part.info.kind = info.kind).reverse

/-- The same range from the place of the part on. -/
def toTheRight (parts : DataParts) (info : PartInfo) (state : DataPartState) : List StatedPart :=
  (parts.above info.toTuple).filter fun part => part.state = state ∧ part.info.kind = info.kind

/-- `PartHierarchy`. -/
structure PartHierarchy where
  duplicatePart : Option DataPart
  coveringParts : List DataPart
  coveredParts : List DataPart
  intersectedParts : List DataPart
deriving DecidableEq, Repr

/-- The parts that the part contains. -/
def covered (info : PartInfo) (part : StatedPart) : Bool := info.Contains part.info

/-- The part at which a walk ends. -/
def walkEnd (info : PartInfo) (walk : List StatedPart) : Option StatedPart := (walk.dropWhile (covered info)).head?

/-- The part at which a walk ends, when it contains the part. -/
def coveringEnd (info : PartInfo) (walk : List StatedPart) : Option StatedPart :=
  (walkEnd info walk).filter fun part => part.info.Contains info

/-- The part at which a walk ends, when it neither contains the part nor is disjoint from it. -/
def intersectedEnd (info : PartInfo) (walk : List StatedPart) : Option StatedPart :=
  (walkEnd info walk).filter fun part => ¬ part.info.Contains info ∧ ¬ info.IsDisjoint part.info

/-- `getPartHierarchy`: covered parts are consecutive around the place of the part. -/
def getPartHierarchy (parts : DataParts) (info : PartInfo) (state : DataPartState) : PartHierarchy :=
  let left := parts.toTheLeft info state
  let right := parts.toTheRight info state
  let run := (left.takeWhile (covered info)).reverse ++ right.takeWhile (covered info)
  { duplicatePart := ((right.takeWhile (covered info) ++ (walkEnd info right).toList).find? fun part => part.info.Eqv info).map
      StatedPart.toDataPart
    coveringParts := ((coveringEnd info left).toList ++ (coveringEnd info right).toList).map StatedPart.toDataPart
    intersectedParts := ((intersectedEnd info left).toList ++ (intersectedEnd info right).toList).map StatedPart.toDataPart
    -- the part itself is not covered
    coveredParts := (if run.head?.any fun part => part.info.Eqv info then run.tail else run).map StatedPart.toDataPart }

/-- `getActivePartsToReplace`: the covering part and the covered parts. -/
def getActivePartsToReplace (parts : DataParts) (info : PartInfo) : Except PartsError (Option DataPart × List DataPart) :=
  let hierarchy := parts.getPartHierarchy info .active
  if !hierarchy.intersectedParts.isEmpty then .error .logicalError
  else if hierarchy.duplicatePart.isSome then .error .logicalError
  else .ok (hierarchy.coveringParts.getLast?, hierarchy.coveredParts)

/-- `getState` of a part. -/
def stateOf (parts : DataParts) (part : DataPart) : DataPartState :=
  match parts.find part.key with
  | some found => if found.toDataPart = part then found.state else .temporary
  | none => .temporary

def getCoveredOutdatedParts (parts : DataParts) (part : DataPart) : Except PartsError (List DataPart) :=
  if ¬ (parts.stateOf part = .active ∨ parts.stateOf part = .preActive ∨ parts.stateOf part = .outdated) then .error .logicalError
  else
    let hierarchy := parts.getPartHierarchy part.info .outdated
    if hierarchy.duplicatePart.isSome ∧ parts.stateOf part ≠ .outdated then .error .logicalError
    else .ok hierarchy.coveredParts

/-- Sets the state of a part of the set. -/
def setState (parts : DataParts) (part : DataPart) (state : DataPartState) : DataParts :=
  parts.map (fun p => if p.key = part.key then { p with state } else p) fun p => by split <;> rfl

/-- `modifyPartState`: the part must be in the set, and not another copy of it. -/
def modifyPartState (parts : DataParts) (part : DataPart) (state : DataPartState) : Except PartsError DataParts :=
  match parts.find part.key with
  | none => .error .logicalError
  | some found => if found.toDataPart ≠ part then .error .logicalError else .ok (parts.setState part state)

/-- `modifyPartState` of several parts. -/
def modifyPartStates (state : DataPartState) : List DataPart → DataParts → Except PartsError DataParts
  | [], parts => .ok parts
  | part :: rest, parts => do modifyPartStates state rest (← parts.modifyPartState part state)

def getAnyPartInPartition (parts : DataParts) (partitionId : String) : Option StatedPart :=
  parts.toList.find? fun part => part.state = .active ∧ part.info.partitionId = partitionId

def checkPartPartition (parts : DataParts) (part : DataPart) : Except PartsError Unit :=
  match parts.getAnyPartInPartition part.info.partitionId with
  | some existing => if part.partition ≠ existing.partition then .error .corruptedData else .ok ()
  | none => .ok ()

def checkPartDuplicate (parts : DataParts) (part : DataPart) (transaction : Transaction) : Except PartsError Unit :=
  match parts.find part.key with
  | some duplicate =>
    if duplicate.state = .outdated ∨ duplicate.state = .deleting then .error .partIsTemporarilyLocked
    else if transaction.txn then .error .serializationError
    else .error .duplicateDataPart
  | none => .ok ()

end DataParts

/-! ## Transactions -/

/-- What `MergeTreeData` knows about its parts; an open transaction has a number. -/
structure MergeTreeData where
  parts : DataParts := .empty
  volume : DataVolume := 0
  transactions : ℕ → Transaction := fun _ => {}
  allDataDropped : Bool := false

namespace MergeTreeData

/-- A transaction is changed. -/
def setTransaction (data : MergeTreeData) (i : ℕ) (transaction : Transaction) : MergeTreeData :=
  { data with transactions := Function.update data.transactions i transaction }

/-- `Transaction::clear`. -/
def clear (data : MergeTreeData) (i : ℕ) : MergeTreeData :=
  data.setTransaction i { txn := (data.transactions i).txn }

def preparePartForCommit (data : MergeTreeData) (i : ℕ) (part : DataPart) (needRename renameInTransaction : Bool) : MergeTreeData :=
  let transaction := data.transactions i
  { data with parts := data.parts.emplace { part with state := .preActive } }.setTransaction i
    { transaction with
      precommittedParts := transaction.precommittedParts.emplace part
      precommittedPartsNeedRename :=
        if renameInTransaction ∧ needRename then transaction.precommittedPartsNeedRename.emplace part
        else transaction.precommittedPartsNeedRename }

def addTempPart (data : MergeTreeData) (i : ℕ) (part : DataPart) : Except PartsError (MergeTreeData × Bool) := do
  data.parts.checkPartPartition part
  data.parts.checkPartDuplicate part (data.transactions i)
  let hierarchy ← data.parts.getActivePartsToReplace part.info
  if hierarchy.1.isSome then return (data, false)
  else return (data.preparePartForCommit i part false false, true)

def renameTempPartAndReplaceImpl (data : MergeTreeData) (i : ℕ) (part : DataPart) (renameInTransaction : Bool) :
    Except PartsError MergeTreeData := do
  data.parts.checkPartPartition part
  data.parts.checkPartDuplicate part (data.transactions i)
  let hierarchy := data.parts.getPartHierarchy part.info .active
  match hierarchy.intersectedParts.getLast? with
  | some intersected =>
    if part.isEmpty ∨ (hierarchy.intersectedParts.length = 1 ∧ intersected.isEmpty) then .error .serializationError
    else .error .logicalError
  | none =>
    if hierarchy.duplicatePart.isSome then .error .logicalError
    else return data.preparePartForCommit i part true renameInTransaction

/-- `Transaction::renameParts`. -/
def renameParts (data : MergeTreeData) (i : ℕ) : MergeTreeData :=
  data.setTransaction i { data.transactions i with precommittedPartsNeedRename := .empty }

/-! ## `commit` -/

/-- The covered parts of the precommitted parts, collected before anything is changed: for each part
`refuses` tells whether `addNewPartAndRemoveCovered` throws, and `visible` what the snapshot sees. -/
def coveredPartsForCommit (parts : DataParts) (txn : Bool) (refuses : DataPart → List DataPart → Bool) (visible : DataPart → Bool) :
    List DataPart → Except PartsError (List (List DataPart))
  | [] => .ok []
  | part :: rest => do
    let toReplace ← parts.getActivePartsToReplace part.info
    let coveredOutdatedParts ← (if txn then parts.getCoveredOutdatedParts part else .ok [] : Except PartsError (List DataPart))
    let coveredParts := toReplace.2 ++ coveredOutdatedParts.filter visible
    if toReplace.1.isNone ∧ refuses part coveredParts then .error .serializationError
    else return coveredParts :: (← coveredPartsForCommit parts txn refuses visible rest)

/-- What the loop of `commit` changes: the set, the parts it returns and the difference of volumes. -/
structure Committing where
  parts : DataParts
  totalCoveredParts : List DataPart := []
  diff : DataVolume := 0

/-- One turn of the loop of `commit`. -/
def commitPart (committing : Committing) (part : DataPart) (coveredParts : List DataPart) : Except PartsError Committing := do
  let toReplace ← committing.parts.getActivePartsToReplace part.info
  if toReplace.1.isSome then return { committing with parts := ← committing.parts.modifyPartState part .outdated }
  else
    -- the covered parts of before the loop, not those of `toReplace`
    let parts ← DataParts.modifyPartStates .outdated coveredParts committing.parts
    return {
      parts := ← parts.modifyPartState part .active
      totalCoveredParts := committing.totalCoveredParts ++ coveredParts
      diff := committing.diff + part.volume - (coveredParts.map DataPart.volume).sum }

/-- The loop of `commit`. -/
def commitParts : Committing → List DataPart → List (List DataPart) → Except PartsError Committing
  | committing, part :: rest, coveredParts :: coveredRest => do
    commitParts (← commitPart committing part coveredParts) rest coveredRest
  | committing, _, _ => .ok committing

/-- `Transaction::commit`: the covered parts or an exception; an exception in the loop terminates
the process, then there is no result. -/
def commit (data : MergeTreeData) (i : ℕ) (refuses : DataPart → List DataPart → Bool) (visible : DataPart → Bool) :
    Option (MergeTreeData × Except PartsError (List DataPart)) :=
  let transaction := data.transactions i
  let precommittedParts := transaction.precommittedParts.toList
  if precommittedParts.isEmpty then some (data.clear i, .ok [])
  else if !transaction.precommittedPartsNeedRename.toList.isEmpty then some (data, .error .logicalError)
  else
    match coveredPartsForCommit data.parts transaction.txn refuses visible precommittedParts with
    | .error e => some (data, .error e)
    | .ok coveredParts =>
      match commitParts ⟨data.parts, [], 0⟩ precommittedParts coveredParts with
      | .error _ => none
      | .ok committed =>
        some ({ data with parts := committed.parts, volume := data.volume + committed.diff }.clear i,
          .ok committed.totalCoveredParts)

/-! ## Removing parts -/

/-- `removePartsFromWorkingSet`, which may stop in the middle; `refuses` tells whether `removeOldPart` throws. -/
def removePartsFromWorkingSet (refuses : DataPart → Bool) : List DataPart → MergeTreeData → MergeTreeData × Except PartsError Unit
  | [], data => (data, .ok ())
  | part :: remove, data =>
    if refuses part then (data, .error .serializationError)
    else
      let state := data.parts.stateOf part
      let data := if state = .active then { data with volume := data.volume - part.volume } else data
      if state ≠ .outdated then
        match data.parts.modifyPartState part .outdated with
        | .error e => (data, .error e)
        | .ok parts => removePartsFromWorkingSet refuses remove { data with parts }
      else removePartsFromWorkingSet refuses remove data

/-- `removePartsFromWorkingSetImmediatelyAndSetTemporaryState`. -/
def removePartsImmediately : List DataPart → MergeTreeData → MergeTreeData × Except PartsError Unit
  | [], data => (data, .ok ())
  | part :: remove, data =>
    match data.parts.modifyPartState part .temporary with
    | .error e => (data, .error e)
    | .ok parts => removePartsImmediately remove { data with parts := parts.erase part.key }

/-- `Transaction::rollback`; `detached` are the parts whose directory is still in `detached`. -/
def rollback (data : MergeTreeData) (i : ℕ) (detached : DataPart → Bool) : MergeTreeData × Except PartsError Unit :=
  let precommittedParts := (data.transactions i).precommittedParts.toList
  if precommittedParts.isEmpty then (data.clear i, .ok ())
  else if data.parts.toList.isEmpty then
    if data.allDataDropped then (data.clear i, .ok ()) else (data, .error .logicalError)
  else
    match removePartsImmediately (precommittedParts.filter detached) data with
    | (data, .error e) => (data, .error e)
    | (data, .ok ()) =>
      match removePartsFromWorkingSet (fun _ => false) (precommittedParts.filter fun part => !detached part) data with
      | (data, .error e) => (data, .error e)
      | (data, .ok ()) => (data.clear i, .ok ())

/-- `Transaction::rollbackPartsToTemporaryState`. -/
def rollbackPartsToTemporaryState (data : MergeTreeData) (i : ℕ) : MergeTreeData × Except PartsError Unit :=
  match removePartsImmediately (data.transactions i).precommittedParts.toList data with
  | (data, .error e) => (data, .error e)
  | (data, .ok ()) => (data.clear i, .ok ())

/-! ## Runs -/

/-- What is done under the lock of the parts. -/
inductive Action
  | addTempPart (i : ℕ) (part : DataPart)
  | renameTempPartAndReplace (i : ℕ) (part : DataPart) (renameInTransaction : Bool)
  | renameParts (i : ℕ)
  | commit (i : ℕ) (refuses : DataPart → List DataPart → Bool) (visible : DataPart → Bool)
  | rollback (i : ℕ) (detached : DataPart → Bool)
  | rollbackPartsToTemporaryState (i : ℕ)
  | removePartsFromWorkingSet (refuses : DataPart → Bool) (remove : List DataPart)

/-- The parts after a step; nothing when the process was terminated. -/
def step (data : MergeTreeData) : Action → Option MergeTreeData
  | .addTempPart i part => some ((data.addTempPart i part).toOption.elim data Prod.fst)
  | .renameTempPartAndReplace i part renameInTransaction =>
    some ((data.renameTempPartAndReplaceImpl i part renameInTransaction).toOption.getD data)
  | .renameParts i => some (data.renameParts i)
  | .commit i refuses visible => (data.commit i refuses visible).map Prod.fst
  | .rollback i detached => some (data.rollback i detached).1
  | .rollbackPartsToTemporaryState i => some (data.rollbackPartsToTemporaryState i).1
  | .removePartsFromWorkingSet refuses remove => some (removePartsFromWorkingSet refuses remove data).1

/-- Steps one after another. -/
def run : List Action → MergeTreeData → Option MergeTreeData
  | [], data => some data
  | action :: actions, data => (data.step action).bind (run actions)

end MergeTreeData

end MergeTree
