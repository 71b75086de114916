import MergeTree.Lib.Prog
import MergeTree.Spec.ActiveDataPartSet
import MergeTree.Spec.AltersSequence
import MergeTree.Spec.LogEntry

/-!
# The replication queue

`ReplicatedMergeTreeQueue` (`ReplicatedMergeTreeQueue.cpp`): the entries of the queue in
memory, the part sets that go with them, and what a new entry, a processed one and a
dropped range do to them. What the functions also do to ZooKeeper, and their waiting for
other threads, is left out; each of them runs under `state_mutex`.
-/

namespace MergeTree

/-- `ReplicatedMergeTreeQueue::MutationStatus`. -/
structure MutationStatus where
  znodeName : String := ""
  partsToDo : ActiveDataPartSet := {}
  partsInProgress : ActiveDataPartSet := {}
  isDone : Bool := false
  latestFailedPart : String := ""
  latestFailedPartInfo : PartInfo := {}
  latestFailTime : ℕ := 0
  latestFailReason : String := ""
  latestFailErrorCodeName : String := ""

/-- `ReplicatedMergeTreeQueue`. A part of `mutationsByPartition` is the block numbers of
the mutations in a partition, each with the znode of its mutation. -/
structure Queue where
  formatVersion : ℕ := minFormatVersionWithCustomPartitioning
  currentParts : ActiveDataPartSet := {}
  virtualParts : ActiveDataPartSet := {}
  queue : List LogEntry := []
  dropParts : KeyedSet (Prod.fst : String × PartInfo → String) := .empty
  mutationsByZnode : List MutationStatus := []
  mutationsByPartition : String → List (ℤ × String) := fun _ => []
  alterSequence : AltersSequence := {}
  futureParts : KeyedSet (Prod.fst : String × LogEntry → String) := .empty
  currentlyExecutingDropReplaceRanges : KeyedSet PartInfo.toTuple := .empty
  insertsByTime : List LogEntry := []
  minUnprocessedInsertTime : ℕ := 0
  maxProcessedInsertTime : ℕ := 0

/-- The constructor of `ReplicatedMergeTreeQueue`. -/
def Queue.create (formatVersion : ℕ) : Queue where
  formatVersion := formatVersion
  currentParts := { formatVersion := formatVersion }
  virtualParts := { formatVersion := formatVersion }

/-- What the queue throws. The exceptions of `virtual_parts.add` are kept apart. -/
inductive QueueError
  | virtualParts (reason : String)
  | other (reason : String)
deriving DecidableEq, Repr

/-- What runs on the queue. -/
abbrev QueueM := Prog QueueError Queue

namespace Queue

/-- Takes over a result, with its exception as one of the queue. -/
def orThrow {α : Type} (r : Except String α) : QueueM α := Prog.lift (r.mapError .other)

/-- Runs a call on `current_parts`. -/
def onCurrentParts {α : Type} (f : ActiveDataPartSet → ActiveDataPartSet × Except String α) : QueueM α :=
  Prog.update fun s => ({ s with currentParts := (f s.currentParts).1 }, (f s.currentParts).2.mapError .other)

/-- Runs a call on `virtual_parts`. -/
def onVirtualParts {α : Type} (f : ActiveDataPartSet → ActiveDataPartSet × Except String α) : QueueM α :=
  Prog.update fun s =>
    ({ s with virtualParts := (f s.virtualParts).1 }, (f s.virtualParts).2.mapError .virtualParts)

/-- Runs a call on the mutations of a partition whose block number is selected, in the
order of the block numbers. -/
def forMutations (partitionId : String) (selected : ℤ → Bool)
    (f : MutationStatus → MutationStatus × Except String Unit) : QueueM Unit := do
  let s ← get
  ((s.mutationsByPartition partitionId).filter fun m => selected m.1).forM fun m =>
    Prog.update fun s =>
      match s.mutationsByZnode.find? fun status => status.znodeName = m.2 with
      | some status =>
        ({ s with mutationsByZnode := s.mutationsByZnode.map fun other =>
            if other.znodeName = m.2 then (f status).1 else other }, (f status).2.mapError .other)
      | none => (s, .ok ())

variable [IntText]

/-- `MergeTreePartInfo::fromPartName`, for the format of the queue. -/
def parse (name : String) : QueueM PartInfo := do orThrow (fromPartName name (← get).formatVersion)

def addPartToMutations (partName : String) (partInfo : PartInfo) : QueueM Unit :=
  forMutations partInfo.partitionId (fun block => partInfo.getDataVersion < block) fun status =>
    let r := status.partsToDo.addName partName
    ({ status with partsToDo := r.1 }, r.2.map fun _ => ())

def addPartInProgressToMutations (partName : String) (partInfo newPartInfo : PartInfo) : QueueM Unit :=
  forMutations partInfo.partitionId
    (fun block => partInfo.getDataVersion < block ∧ block ≤ newPartInfo.mutation) fun status =>
    let r := status.partsInProgress.addName partName
    ({ status with partsInProgress := r.1 }, r.2.map fun _ => ())

def removePartInProgressFromMutations (partName : String) (partInfo newPartInfo : PartInfo) : QueueM Unit :=
  forMutations partInfo.partitionId
    (fun block => partInfo.getDataVersion < block ∧ block ≤ newPartInfo.mutation) fun status =>
    let r := status.partsInProgress.removeName partName
    ({ status with partsInProgress := r.1 }, r.2.map fun _ => ())

/-- What `removeCoveredPartsFromMutations` removes from the parts to do. -/
def removeFromPartsToDo (partsToDo : ActiveDataPartSet) (partName : String)
    (removePart removeCoveredParts : Bool) : ActiveDataPartSet × Except String Bool :=
  if removePart ∧ removeCoveredParts then partsToDo.removePartAndCoveredPartsName partName
  else if removeCoveredParts then partsToDo.removePartsCoveredBy partName
  else if removePart then partsToDo.removeName partName
  else (partsToDo, .error "Called remove part from mutations, but nothing removed")

/-- `removeCoveredPartsFromMutations`. A failure of a covered part is forgotten. -/
def removeCoveredPartsFromMutations (partName : String) (removePart removeCoveredParts : Bool) :
    QueueM Unit := do
  let partInfo ← parse partName
  forMutations partInfo.partitionId (fun _ => true) fun status =>
    match removeFromPartsToDo status.partsToDo partName removePart removeCoveredParts with
    | (partsToDo, .ok _) =>
      let status := { status with partsToDo := partsToDo }
      if status.latestFailedPart ≠ "" ∧ partInfo.Contains status.latestFailedPartInfo then
        ({ status with
            latestFailedPart := ""
            latestFailedPartInfo := {}
            latestFailTime := 0
            latestFailReason := ""
            latestFailErrorCodeName := "" }, .ok ())
      else (status, .ok ())
    | (partsToDo, .error e) => ({ status with partsToDo := partsToDo }, .error e)

/-- `source_parts.at(0)`. -/
def firstSourcePart (entry : LogEntry) : QueueM String :=
  match entry.sourceParts with
  | name :: _ => pure name
  | [] => throw (.other "vector")

/-- `DropPartsRanges::addDropPart`. -/
def addDropPart (entry : LogEntry) : QueueM Unit := do
  let info ← parse entry.newPartName
  modify fun s => { s with dropParts := s.dropParts.emplace (entry.znodeName, info) }

/-- `DropPartsRanges::removeDropPart`. -/
def removeDropPart (entry : LogEntry) : QueueM Unit :=
  modify fun s => { s with dropParts := s.dropParts.erase entry.znodeName }

/-- The source part of a mutation and what it becomes, for the parts in progress. -/
def withMutatedPart (entry : LogEntry) (f : String → PartInfo → PartInfo → QueueM Unit) : QueueM Unit := do
  let sourcePartName ← firstSourcePart entry
  let partInfo ← parse sourcePartName
  let newPartInfo ← parse entry.newPartName
  f sourcePartName partInfo newPartInfo

/-- Adds one virtual part of a new entry. Drop ranges do not produce parts to mutate. -/
def insertVirtualPart (virtualPartName : String) : QueueM Unit := do
  let _ ← onVirtualParts fun S => S.addName virtualPartName
  let partInfo ← parse virtualPartName
  if partInfo.isFakeDropRangePart then pure () else addPartToMutations virtualPartName partInfo

/-- A new `DROP_PART` takes its part out of the virtual parts and the parts to do. -/
def insertDropPart (entry : LogEntry) : QueueM Unit := do
  addDropPart entry
  let _ ← onVirtualParts fun S => S.removePartAndCoveredPartsName entry.newPartName
  removeCoveredPartsFromMutations entry.newPartName true true

/-- The insert times after a new entry. -/
def addInsertTime (entry : LogEntry) (s : Queue) : Queue :=
  { s with
    insertsByTime := entry :: s.insertsByTime
    minUnprocessedInsertTime :=
      if entry.createTime ≠ 0 ∧ (s.minUnprocessedInsertTime = 0 ∨ entry.createTime < s.minUnprocessedInsertTime)
      then entry.createTime else s.minUnprocessedInsertTime }

/-- The insert times after an entry is gone. -/
def removeInsertTime (entry : LogEntry) (s : Queue) : Queue :=
  let insertsByTime := s.insertsByTime.filter fun other => other.znodeName ≠ entry.znodeName
  { s with
    insertsByTime := insertsByTime
    minUnprocessedInsertTime :=
      match (insertsByTime.map LogEntry.createTime).min? with
      | none => 0
      | some first => if s.minUnprocessedInsertTime < first then first else s.minUnprocessedInsertTime
    maxProcessedInsertTime := max entry.createTime s.maxProcessedInsertTime }

def insertUnlocked (entry : LogEntry) : QueueM Unit := do
  let formatVersion := (← get).formatVersion
  let entryVirtualParts ← orThrow (entry.getVirtualPartNames formatVersion)
  entryVirtualParts.forM insertVirtualPart
  Prog.when (entry.type = .mutatePart) <| withMutatedPart entry addPartInProgressToMutations
  Prog.when (entry.type = .dropPart) <| insertDropPart entry
  -- drop ranges go first, not to fetch parts that will be deleted
  let dropRange ← orThrow (entry.getDropRange formatVersion)
  modify fun s =>
    { s with queue := if dropRange.isSome then entry :: s.queue else s.queue ++ [entry] }
  Prog.when (entry.type = .getPart ∨ entry.type = .attachPart) <| modify (addInsertTime entry)
  Prog.when (entry.type = .alterMetadata) <|
    modify fun s => { s with alterSequence := s.alterSequence.addMetadataAlter entry.alterVersion }

/-- A virtual part of a finished entry joins the current parts. One that is covered
already is obsolete, so it is not to be mutated either. -/
def finishVirtualPart (virtualPartName : String) : QueueM Unit := do
  let added ← onCurrentParts fun S => S.addName virtualPartName
  removeCoveredPartsFromMutations virtualPartName (!added.1) true

/-- The drop range of a finished entry leaves the part sets. -/
def finishDropRange (entry : LogEntry) (dropRangePartName : String) : QueueM Unit :=
  if entry.type = .dropPart then do
    let _ ← onCurrentParts fun S => S.removePartAndCoveredPartsName dropRangePartName
    removeDropPart entry
  else do
    let _ ← onCurrentParts fun S => S.removeName dropRangePartName
    let _ ← onVirtualParts fun S => S.removeName dropRangePartName

/-- `updateStateOnQueueEntryRemoval` of an entry that was executed. -/
def updateStateOnSuccess (entry : LogEntry) (entryVirtualParts : List String) : QueueM Unit := do
  Prog.when (entry.actualNewPartName ≠ "") <|
    removeCoveredPartsFromMutations entry.actualNewPartName false true
  entry.replaceRangeActualNewPartNames.forM fun actualPart =>
    removeCoveredPartsFromMutations actualPart false true
  entryVirtualParts.forM finishVirtualPart
  let dropRange ← orThrow (entry.getDropRange (← get).formatVersion)
  dropRange.toList.forM (finishDropRange entry)
  Prog.when (entry.type = .alterMetadata) <|
    modify fun s => { s with alterSequence := s.alterSequence.finishMetadataAlter entry.alterVersion }
  Prog.when (entry.type = .mutatePart) <| withMutatedPart entry removePartInProgressFromMutations

/-- A virtual part of an entry that will not be executed. -/
def cancelVirtualPart (virtualPartName : String) : QueueM Unit := do
  let _ ← onVirtualParts fun S => S.removeName virtualPartName
  removeCoveredPartsFromMutations virtualPartName true false

/-- `updateStateOnQueueEntryRemoval` of an entry that will not be executed. -/
def updateStateOnFailure (entry : LogEntry) (entryVirtualParts : List String) : QueueM Unit := do
  Prog.when (entry.type = .dropPart) <| removeDropPart entry
  entryVirtualParts.forM cancelVirtualPart

def updateStateOnQueueEntryRemoval (entry : LogEntry) (isSuccessful : Bool) : QueueM Unit := do
  let entryVirtualParts ← orThrow (entry.getVirtualPartNames (← get).formatVersion)
  Prog.when (entry.type = .getPart ∨ entry.type = .attachPart) <| modify (removeInsertTime entry)
  if isSuccessful then updateStateOnSuccess entry entryVirtualParts
  else updateStateOnFailure entry entryVirtualParts

/-- `queue.erase` of the entry with this znode. -/
def eraseFromQueue (entry : LogEntry) : QueueM Unit :=
  modify fun s => { s with queue := s.queue.filter fun other => other.znodeName ≠ entry.znodeName }

/-- `removeProcessedEntry`: nothing happens when another entry has removed this one. -/
def removeProcessedEntry (entry : LogEntry) : QueueM Unit := do
  if entry.removedByOtherEntry then pure ()
  else if (← get).queue.any fun other => other.znodeName = entry.znodeName then
    updateStateOnQueueEntryRemoval entry true
    eraseFromQueue entry
  else throw (.other s!"Can't find {entry.znodeName} in the memory queue. It is a bug.")

/-- `checkReplaceRangeCanBeRemoved`: whether `current`, which drops `partInfo`, covers the
`REPLACE_RANGE` entry and all its parts. -/
def checkReplaceRangeCanBeRemoved (partInfo : PartInfo) (entry current : LogEntry) : QueueM Bool := do
  if entry.type ≠ .replaceRange then pure false
  else if current.type ≠ .replaceRange ∧ current.type ≠ .dropRange ∧ current.type ≠ .dropPart then pure false
  -- the same partition must not drop itself
  else if entry.replaceRangeEntry.map ReplaceRangeEntry.address =
      current.replaceRangeEntry.map ReplaceRangeEntry.address then pure false
  else
    let dropRangeInfo ← parse entry.replaceRange.dropRangePartName
    if ¬ partInfo.Contains dropRangeInfo then pure false
    else
      let newPartInfos ← entry.replaceRange.newPartNames.mapM parse
      pure (newPartInfos.all fun newPartInfo => partInfo.Contains newPartInfo)

/-- `simple_op_covered` of `removePartProducingOpsInRange`. -/
def simpleOpCovered (partInfo : PartInfo) (entry : LogEntry) : QueueM Bool :=
  if entry.isSimpleProducingOp then do
    let newPartInfo ← parse entry.newPartName
    pure (decide (partInfo.Contains newPartInfo))
  else pure false

/-- `replace_range_covered` of `removePartProducingOpsInRange`. -/
def replaceRangeCovered (partInfo : PartInfo) (coveringEntry : Option LogEntry) (entry : LogEntry) : QueueM Bool :=
  match coveringEntry with
  | some current => checkReplaceRangeCanBeRemoved partInfo entry current
  | none => pure false

/-- What `removePartProducingOpsInRange` does with one entry. -/
def removeIfCovered (partInfo : PartInfo) (coveringEntry : Option LogEntry) (entry : LogEntry) : QueueM Unit := do
  let simple ← simpleOpCovered partInfo entry
  let replace ← replaceRangeCovered partInfo coveringEntry entry
  Prog.when (simple || replace) do
    updateStateOnQueueEntryRemoval entry false
    eraseFromQueue entry

/-- `removePartProducingOpsInRange`: the entries that produce parts inside the range
leave the queue without being executed. -/
def removePartProducingOpsInRange (partInfo : PartInfo) (coveringEntry : Option LogEntry) : QueueM Unit := do
  (← get).queue.forM (removeIfCovered partInfo coveringEntry)

/-- `initialize`, which starts from the parts that the replica has. -/
def initializeParts (parts : List String) : QueueM Unit :=
  parts.forM fun partName => do
    let _ ← onCurrentParts fun S => S.addName partName
    let _ ← onVirtualParts fun S => S.addName partName

end Queue

end MergeTree
