import MergeTree.Spec.ActiveDataPartSet

/-!
# The merge predicate

`DistributedMergePredicate` (`Compaction/MergePredicates/DistributedMergePredicate.h`):
whether two parts may be merged, judged from two snapshots of the virtual parts and from
the block numbers that were about to commit between them.
-/

namespace MergeTree

/-- `CommittingBlock`. -/
inductive CommittingBlockOp
  | unknown
  | newPart
  | update
  | mutation
deriving DecidableEq, Repr

/-- `CommittingBlocksSet`: block numbers with what they were allocated for. -/
abbrev CommittingBlocksSet : Type := KeyedSet (Prod.snd : CommittingBlockOp × ℤ → ℤ)

/-- `PATCH_PART_PREFIX_SIZE`: the prefix is followed by a hash and a dash. -/
def patchPartPrefixSize : ℕ := 39

def isPatchPartitionId (partitionId : String) : Bool :=
  patchPartPrefix.toList.isPrefixOf partitionId.toList && patchPartPrefixSize < partitionId.toList.length

/-- `MergeTreePartInfo::getOriginalPartitionId`. -/
def PartInfo.getOriginalPartitionId (p : PartInfo) : Except String String :=
  if p.isPatch then
    if isPatchPartitionId p.partitionId then .ok (String.ofList (p.partitionId.toList.drop patchPartPrefixSize))
    else .error ("Partition id " ++ p.partitionId ++ " of patch part is invalid")
  else .ok p.partitionId

/-- `PartProperties`, as far as the predicate reads it. -/
structure PartProperties where
  name : String
  info : PartInfo
  projectionNames : List String := []
  isInVolumeWhereMergesAvoid : Bool := false
deriving DecidableEq, Repr

/-- A list as `fmt` prints it. -/
def formatNames (names : List String) : String :=
  "[" ++ ", ".intercalate (names.map fun name => "\"" ++ name ++ "\"") ++ "]"

/-- `DistributedMergePredicate`. The pointers may be null; the state of mutations answers
`getCurrentMutationVersion`. -/
structure DistributedMergePredicate where
  partitionIdsHint : Option (List String) := none
  prevVirtualParts : Option ActiveDataPartSet := none
  virtualParts : ActiveDataPartSet := {}
  committingBlocks : Option (String → CommittingBlocksSet) := none
  mutationsState : Option (String → ℤ → ℤ) := none

namespace DistributedMergePredicate

variable (P : DistributedMergePredicate)

def checkCanMergePartsPreconditions (name : String) (info : PartInfo) : Except String Unit :=
  if P.prevVirtualParts.any fun prev => prev.getContainingPart info = "" then
    .error ("Part " ++ name ++ " does not contain in snapshot of previous virtual parts")
  else if P.partitionIdsHint.any fun hint => info.partitionId ∉ hint then
    .error ("Uncommitted blocks were not loaded for partition " ++ info.partitionId)
  else .ok ()

/-- The check of `canUsePartInMerges` on a patch part: patches with a lower data version
may still be committing. -/
def checkPatchPart (name : String) (info : PartInfo) : Except String Unit :=
  match P.committingBlocks with
  | some committingBlocks =>
    if info.isPatch then
      match info.getOriginalPartitionId with
      | .error e => .error e
      | .ok originalPartitionId =>
        match (committingBlocks originalPartitionId).toList.head? with
        | some first =>
          if first.2 < info.getDataVersion then
            .error ("Patch part " ++ name ++ " with data version " ++ toString info.getDataVersion ++
              " cannot be used in merges because patches with lower data version are still being processed")
          else .ok ()
        | none => .ok ()
    else .ok ()
  | none => .ok ()

def canUsePartInMerges (name : String) (info : PartInfo) : Except String Unit :=
  match P.checkCanMergePartsPreconditions name info with
  | .error e => .error e
  | .ok () =>
    let containingPart := P.virtualParts.getContainingPart info
    if containingPart ≠ name then
      .error ("Part " ++ name ++ " has already been assigned a merge into " ++ containingPart)
    else P.checkPatchPart name info

/-- The check of `canMergeParts` that no block between the parts is being inserted: only
the first block after the left part is looked at. -/
def checkCommittingBlocks (left right : PartProperties) : Except String Unit :=
  match P.committingBlocks with
  | some committingBlocks =>
    if left.info.maxBlock + 1 < right.info.minBlock then
      match (committingBlocks left.info.partitionId).toList.find? fun block => left.info.maxBlock < block.2 with
      | some block =>
        if block.2 < right.info.minBlock then
          .error ("Block number " ++ toString block.2 ++ " is still being inserted between parts " ++
            left.name ++ " and " ++ right.name)
        else .ok ()
      | none => .ok ()
    else .ok ()
  | none => .ok ()

/-- The fake part between two parts. -/
def gapPartInfo (left right : PartInfo) : PartInfo :=
  PartInfo.make left.partitionId (left.maxBlock + 1) (right.minBlock - 1) maxLevel maxBlockNumber

/-- The check of `canMergeParts` that no virtual part lies between the parts. -/
def checkVirtualParts (left right : PartProperties) : Except String Unit :=
  if left.info.maxBlock + 1 < right.info.minBlock then
    let covered := P.virtualParts.getPartsCoveredBy (gapPartInfo left.info right.info)
    if covered ≠ [] then
      .error ("There are " ++ toString covered.length ++ " parts (from " ++ covered.headD "" ++ " to " ++
        covered.getLastD "" ++ ") that are still not present or being processed by other background " ++
        "process on this replica between " ++ left.name ++ " and " ++ right.name)
    else .ok ()
  else .ok ()

/-- The check of `canMergeParts` on mutation versions. -/
def checkMutationVersions (left right : PartProperties) : Except String Unit :=
  match P.mutationsState with
  | some getCurrentMutationVersion =>
    match left.info.getOriginalPartitionId with
    | .error e => .error e
    | .ok originalPartitionId =>
      let leftMutationVersion := getCurrentMutationVersion originalPartitionId left.info.getDataVersion
      let rightMutationVersion := getCurrentMutationVersion originalPartitionId right.info.getDataVersion
      if leftMutationVersion ≠ rightMutationVersion then
        .error ("Current mutation versions of parts " ++ left.name ++ " and " ++ right.name ++ " differ: " ++
          toString leftMutationVersion ++ " and " ++ toString rightMutationVersion ++ " respectively")
      else .ok ()
  | none => .ok ()

def canMergeParts (left right : PartProperties) : Except String Unit :=
  if left.info.partitionId ≠ right.info.partitionId then
    .error ("Parts " ++ left.name ++ " and " ++ right.name ++ " belong to different partitions")
  else if left.info.isPatch ≠ right.info.isPatch then
    .error ("One of parts (" ++ left.name ++ ", " ++ right.name ++ ") is patch part and another is regular part")
  else if left.isInVolumeWhereMergesAvoid ∨ right.isInVolumeWhereMergesAvoid then
    .error ("One of parts (" ++ left.name ++ ", " ++ right.name ++
      ") lies on volume where merges should be avoided")
  else
    match P.checkCommittingBlocks left right with
    | .error e => .error e
    | .ok () =>
      match P.checkVirtualParts left right with
      | .error e => .error e
      | .ok () =>
        match P.checkMutationVersions left right with
        | .error e => .error e
        | .ok () =>
          if left.projectionNames ≠ right.projectionNames then
            .error ("Parts have different projection sets: " ++ formatNames left.projectionNames ++ " in '" ++
              left.name ++ "' and " ++ formatNames right.projectionNames ++ " in '" ++ right.name ++ "'")
          else .ok ()

end DistributedMergePredicate

end MergeTree
