import MergeTree.Spec.LogEntry
import MergeTree.Spec.MergePredicate

/-!
# Inserts and merges in one partition

A step relation for what the merge predicate has to be safe against: inserts acquire
block numbers, register them as committing, and commit or give up; the replica assigns
merges of contiguous virtual parts and pulls the log; and
`ReplicatedMergeTreeZooKeeperMergePredicate` is built in between, one snapshot at a time.
-/

namespace MergeTree

/-- `FutureMergedMutatedPart::assign`: the info of the part that a range of parts is merged
into. The level is a `UInt32`. -/
def futureMergedPart (first last : PartInfo) (parts : List PartInfo) : PartInfo :=
  { ({} : PartInfo).setPartitionId first.partitionId with
    minBlock := first.minBlock
    maxBlock := last.maxBlock
    level := ((parts.map PartInfo.level).foldl max 0 + 1) % 2 ^ 32
    mutation := (parts.map PartInfo.mutation).foldl max 0 }

/-- How far the constructor of the predicate is. -/
inductive PredicateStage
  | idle
  -- `prev_virtual_parts` are copied
  | copied (prevVirtualParts : ActiveDataPartSet)
  -- the committing blocks are loaded
  | loaded (prevVirtualParts : ActiveDataPartSet) (committingBlocks : CommittingBlocksSet)
  -- `pullLogsToQueue` has listed the log, up to some entry
  | pulling (prevVirtualParts : ActiveDataPartSet) (committingBlocks : CommittingBlocksSet) (upTo : ℕ)
  | built (prevVirtualParts : ActiveDataPartSet) (committingBlocks : CommittingBlocksSet)

/-- A partition: the next block number, the numbers that are committing, the shared log,
how much of it the replica has pulled into its virtual parts, and the predicate. -/
structure PartitionLog where
  nextBlock : ℤ := 0
  committing : CommittingBlocksSet := .empty
  log : List LogEntry := []
  logPointer : ℕ := 0
  virtualParts : ActiveDataPartSet
  stage : PredicateStage := .idle

namespace PartitionLog

variable [IntText]

/-- The entry adds the part of one inserted block. -/
structure InsertsBlock (v : ℕ) (partitionId : String) (block : ℤ) (entry : LogEntry) (p : PartInfo) : Prop where
  type : entry.type = .getPart
  newPartName : fromPartName entry.newPartName v = .ok p
  partitionId : p.partitionId = partitionId
  minBlock : p.minBlock = block
  maxBlock : p.maxBlock = block
  level : p.level = 0
  mutation : p.mutation = 0

/-- **A step** of the partition. -/
inductive Step (v : ℕ) (partitionId : String) : PartitionLog → PartitionLog → Prop
  -- inserts
  | acquire (s : PartitionLog) (op : CommittingBlockOp) :
      Step v partitionId s { s with
        nextBlock := s.nextBlock + 1
        committing := s.committing.emplace (op, s.nextBlock) }
  | commit (s : PartitionLog) (op : CommittingBlockOp) (block : ℤ) (entry : LogEntry) (p : PartInfo) :
      (op, block) ∈ s.committing → InsertsBlock v partitionId block entry p →
      Step v partitionId s { s with
        committing := s.committing.erase block
        log := s.log ++ [entry] }
  | abandon (s : PartitionLog) (block : ℤ) :
      Step v partitionId s { s with committing := s.committing.erase block }
  -- the replica assigns a merge of contiguous virtual parts
  | merge (s : PartitionLog) (before after parts : List Entry) (first last : Entry) (entry : LogEntry) :
      s.virtualParts.partInfoToName.toList = before ++ parts ++ after →
      parts.head? = some first → parts.getLast? = some last → entry.type = .mergeParts →
      fromPartName entry.newPartName v = .ok (futureMergedPart first.1 last.1 (parts.map Prod.fst)) →
      Step v partitionId s { s with log := s.log ++ [entry] }
  -- the replica pulls the next entry
  | pull (s : PartitionLog) (entry : LogEntry) (virtualParts : ActiveDataPartSet) (r : Bool × List String) :
      s.log[s.logPointer]? = some entry → s.virtualParts.addName entry.newPartName = (virtualParts, .ok r) →
      Step v partitionId s { s with logPointer := s.logPointer + 1, virtualParts := virtualParts }
  -- the constructor of the predicate
  | copyVirtualParts (s : PartitionLog) :
      Step v partitionId s { s with stage := .copied s.virtualParts }
  | loadCommittingBlocks (s : PartitionLog) (prev : ActiveDataPartSet) : s.stage = .copied prev →
      Step v partitionId s { s with stage := .loaded prev s.committing }
  | listLog (s : PartitionLog) (prev : ActiveDataPartSet) (blocks : CommittingBlocksSet) :
      s.stage = .loaded prev blocks →
      Step v partitionId s { s with stage := .pulling prev blocks s.log.length }
  | pulled (s : PartitionLog) (prev : ActiveDataPartSet) (blocks : CommittingBlocksSet) (upTo : ℕ) :
      s.stage = .pulling prev blocks upTo → upTo ≤ s.logPointer →
      Step v partitionId s { s with stage := .built prev blocks }

/-- Runs of any length. -/
abbrev Run (v : ℕ) (partitionId : String) : PartitionLog → PartitionLog → Prop :=
  Relation.ReflTransGen (Step v partitionId)

/-- A partition without parts. -/
def start (v : ℕ) : PartitionLog where
  virtualParts := { formatVersion := v }

/-- The merge predicate over a snapshot, with the virtual parts as they are now. Blocks of
other partitions, the hint and the mutations may be anything. -/
def predicate (s : PartitionLog) (partitionId : String) (hint : Option (List String)) (prev : ActiveDataPartSet)
    (blocks : CommittingBlocksSet) (otherBlocks : String → CommittingBlocksSet)
    (mutationsState : String → ℤ → ℤ) : DistributedMergePredicate where
  partitionIdsHint := hint
  prevVirtualParts := some prev
  virtualParts := s.virtualParts
  committingBlocks := some (Function.update otherBlocks partitionId blocks)
  mutationsState := some mutationsState

end PartitionLog

end MergeTree
