import MergeTree.Spec.MergePredicate

/-!
# Mutation commands that are applied on the fly

`getMutationsSnapshot` takes the mutations that some part may need
(`ReplicatedMergeTreeQueue.cpp`), and `getOnFlyMutationCommandsForPart` takes from them what one
part needs. Both scan the mutations of a partition from the newest on, and stop when they have seen
all ALTER mutations and all others.
-/

namespace MergeTree

/-- `MutationCommand::Type`: the types that are told apart. -/
inductive MutationCommandType
  | delete
  | update
  | readColumn
  | dropColumn
  | renameColumn
  | other (name : String)
deriving DecidableEq, Repr

/-- `MutationCommand`: its type, what else it says, and the version that it is given. -/
structure OnFlyCommand where
  type : MutationCommandType
  text : String := ""
  mutationVersion : ℕ := 0
deriving DecidableEq, Repr

/-- `AlterConversions::isSupportedDataMutation`. -/
def isSupportedDataMutation (type : MutationCommandType) : Bool := type = .update || type = .delete

/-- `AlterConversions::isSupportedAlterMutation`. -/
def isSupportedAlterMutation (type : MutationCommandType) : Bool := type = .readColumn

/-- `AlterConversions::isSupportedMetadataMutation`. -/
def isSupportedMetadataMutation (type : MutationCommandType) : Bool := type = .renameColumn || type = .dropColumn

/-- A mutation of a partition: its version, and the `alter_version` and the commands of its entry. -/
structure QueuedMutation where
  version : ℤ
  alterVersion : ℤ := -1
  commands : List OnFlyCommand
deriving DecidableEq, Repr

/-- The mutations of a partition, in the order of their versions. -/
abbrev QueuedMutations : Type := KeyedSet QueuedMutation.version

/-- `mutations_by_partition`. -/
abbrev MutationsByPartition : Type := KeyedSet (Prod.fst : String × QueuedMutations → String)

/-- `IMutationsSnapshot::Params`, as far as it concerns mutations. The pointers to maps may be null. -/
structure SnapshotParams where
  metadataVersion : ℤ := -1
  minPartMetadataVersion : ℤ := -1
  minPartDataVersions : Option (String → Option ℤ) := none
  maxMutationVersions : Option (String → Option ℤ) := none
  needDataMutations : Bool := false
  needAlterMutations : Bool := false

/-- `MutationCounters`. -/
structure MutationCounters where
  numData : ℤ := 0
  numAlter : ℤ := 0
  numMetadata : ℤ := 0
deriving DecidableEq, Repr

/-- `MutationsSnapshot`. -/
structure MutationsSnapshot where
  params : SnapshotParams
  counters : MutationCounters := {}
  mutationsByPartition : MutationsByPartition := .empty

/-- `incrementMutationsCounters`: a mutation counts once for each kind of its commands. -/
def incrementMutationsCounters (counters : MutationCounters) (commands : List OnFlyCommand) : MutationCounters where
  numData := if commands.any fun command => isSupportedDataMutation command.type then counters.numData + 1 else counters.numData
  numAlter := if commands.any fun command => isSupportedAlterMutation command.type then counters.numAlter + 1 else counters.numAlter
  numMetadata :=
    if commands.any fun command => isSupportedMetadataMutation command.type then counters.numMetadata + 1 else counters.numMetadata

namespace SnapshotParams

variable (params : SnapshotParams)

def extractVersion (versions : Option (String → Option ℤ)) (partitionId : String) (defaultValue : ℤ) : ℤ :=
  match versions with
  | none => defaultValue
  | some versions => (versions partitionId).getD defaultValue

def getMinPartDataVersionForPartition (partitionId : String) : ℤ := extractVersion params.minPartDataVersions partitionId (-(2 ^ 63))

def getMaxMutationVersionForPartition (partitionId : String) : ℤ := extractVersion params.maxMutationVersions partitionId (2 ^ 63 - 1)

/-- What `needIncludeMutationToSnapshot` and `addSupportedCommands` ask of a command. -/
def supports (command : OnFlyCommand) : Bool :=
  isSupportedMetadataMutation command.type || (params.needDataMutations && isSupportedDataMutation command.type) ||
    (params.needAlterMutations && isSupportedAlterMutation command.type)

def needIncludeMutationToSnapshot (commands : List OnFlyCommand) : Bool :=
  commands.any fun command =>
    (params.needDataMutations && isSupportedDataMutation command.type) ||
      (params.needAlterMutations && isSupportedAlterMutation command.type) || isSupportedMetadataMutation command.type

/-- A mutation is taken into the snapshot of its partition and counted, if it is needed. -/
def includeMutation (taken : QueuedMutations × MutationCounters) (mutation : QueuedMutation) : QueuedMutations × MutationCounters :=
  if params.needIncludeMutationToSnapshot mutation.commands then
    (taken.1.emplace mutation, incrementMutationsCounters taken.2 mutation.commands)
  else taken

/-- The loop over the mutations of a partition, the newest first, that both functions have. ALTER mutations are taken while their
`alter_version` is greater than `seenMetadataVersion`, others while their version is greater than `seenDataVersion`. -/
def scanMutations {S : Type} (skip : QueuedMutation → Bool) (seenDataVersion seenMetadataVersion : ℤ) (take : S → QueuedMutation → S) :
    List QueuedMutation → Bool → Bool → S → S
  | [], _, _, taken => taken
  | mutation :: rest, seenAllData, seenAllMetadata, taken =>
    if seenAllData && seenAllMetadata then taken
    else if skip mutation then scanMutations skip seenDataVersion seenMetadataVersion take rest seenAllData seenAllMetadata taken
    else if mutation.alterVersion ≠ -1 then
      if seenAllMetadata || mutation.alterVersion > params.metadataVersion then
        scanMutations skip seenDataVersion seenMetadataVersion take rest seenAllData seenAllMetadata taken
      else if mutation.alterVersion > seenMetadataVersion then
        scanMutations skip seenDataVersion seenMetadataVersion take rest seenAllData seenAllMetadata (take taken mutation)
      else scanMutations skip seenDataVersion seenMetadataVersion take rest seenAllData true taken
    else if !seenAllData then
      if mutation.version > seenDataVersion then
        scanMutations skip seenDataVersion seenMetadataVersion take rest seenAllData seenAllMetadata (take taken mutation)
      else scanMutations skip seenDataVersion seenMetadataVersion take rest true seenAllMetadata taken
    else scanMutations skip seenDataVersion seenMetadataVersion take rest seenAllData seenAllMetadata taken

/-- The loop of `getMutationsSnapshot` over the mutations of a partition. -/
def takeMutations (minPartDataVersion maxMutationVersion : ℤ) (mutations : List QueuedMutation) (seenAllData seenAllMetadata : Bool)
    (taken : QueuedMutations × MutationCounters) : QueuedMutations × MutationCounters :=
  params.scanMutations (fun mutation => mutation.version > maxMutationVersion) minPartDataVersion params.minPartMetadataVersion
    params.includeMutation mutations seenAllData seenAllMetadata taken

/-- The body of the loop of `getMutationsSnapshot` over the partitions. -/
def takePartition (snapshot : MutationsSnapshot) (partition : String × QueuedMutations) : MutationsSnapshot :=
  if getKind partition.1 = .patch then snapshot
  else
    let taken := params.takeMutations (params.getMinPartDataVersionForPartition partition.1)
      (params.getMaxMutationVersionForPartition partition.1) partition.2.toList.reverse
      (!params.needDataMutations && !params.needAlterMutations) (decide (params.minPartMetadataVersion ≥ params.metadataVersion))
      (.empty, snapshot.counters)
    { snapshot with counters := taken.2, mutationsByPartition := snapshot.mutationsByPartition.emplace (partition.1, taken.1) }

def getMutationsSnapshot (mutationsByPartition : MutationsByPartition) : MutationsSnapshot :=
  if !params.needDataMutations && !params.needAlterMutations && decide (params.minPartMetadataVersion ≥ params.metadataVersion) then
    { params := params }
  else mutationsByPartition.toList.foldl params.takePartition { params := params }

end SnapshotParams

namespace MutationsSnapshot

variable (snapshot : MutationsSnapshot)

def hasDataMutations : Bool := snapshot.counters.numData > 0

def hasAlterMutations : Bool := snapshot.counters.numAlter > 0

/-- `addSupportedCommands`, the last command first. The version is stored as a `UInt64`. -/
def addSupportedCommands (commands : List OnFlyCommand) (mutationVersion : ℤ) (result : List OnFlyCommand) : List OnFlyCommand :=
  commands.reverse.foldl (fun result command =>
    if snapshot.params.supports command then result ++ [{ command with mutationVersion := (mutationVersion % 2 ^ 64).toNat }] else result) result

/-- The loop of `getOnFlyMutationCommandsForPart`. -/
def takeCommands (partDataVersion partMetadataVersion : ℤ) (mutations : List QueuedMutation) (seenAllData seenAllMetadata : Bool) :
    List OnFlyCommand :=
  snapshot.params.scanMutations (fun _ => false) partDataVersion partMetadataVersion
    (fun result mutation => snapshot.addSupportedCommands mutation.commands mutation.version result) mutations seenAllData seenAllMetadata []

/-- `getOnFlyMutationCommandsForPart`, for a part with this metadata version. -/
def getOnFlyMutationCommandsForPart (info : PartInfo) (partMetadataVersion : ℤ) : Except String (List OnFlyCommand) := do
  let partitionId ← info.getOriginalPartitionId
  match snapshot.mutationsByPartition.find partitionId with
  | none => return []
  | some inPartition =>
    let seenAllData := (!snapshot.hasDataMutations && !snapshot.hasAlterMutations) || info.isPatch
    let seenAllMetadata := decide (partMetadataVersion ≥ snapshot.params.metadataVersion)
    if seenAllData && seenAllMetadata then return []
    return (snapshot.takeCommands info.getDataVersion partMetadataVersion inPartition.2.toList.reverse seenAllData seenAllMetadata).reverse

end MutationsSnapshot

/-! ## What a part needs -/

/-- The supported commands of a mutation, in their order and with its version. -/
def SnapshotParams.supportedCommands (params : SnapshotParams) (mutation : QueuedMutation) : List OnFlyCommand :=
  (mutation.commands.filter params.supports).map fun command => { command with mutationVersion := (mutation.version % 2 ^ 64).toNat }

/-- **The mutations whose commands a part needs**: those up to the maximal version of the partition that
are ALTERs of metadata the part does not have and the query knows, or, if they are `wanted`, others
that are newer than the data of the part. -/
def SnapshotParams.Needs (params : SnapshotParams) (wanted : Bool) (info : PartInfo) (partMetadataVersion : ℤ) (mutation : QueuedMutation) :
    Prop :=
  mutation.version ≤ params.getMaxMutationVersionForPartition info.partitionId ∧
    if mutation.alterVersion ≠ -1 then
      partMetadataVersion < mutation.alterVersion ∧ mutation.alterVersion ≤ params.metadataVersion
    else wanted ∧ info.getDataVersion < mutation.version

instance (params : SnapshotParams) (wanted : Bool) (info : PartInfo) (partMetadataVersion : ℤ) (mutation : QueuedMutation) :
    Decidable (params.Needs wanted info partMetadataVersion mutation) :=
  inferInstanceAs (Decidable (_ ∧ ite _ _ _))

/-- The commands that a part needs, in ascending order of the mutation versions. -/
def SnapshotParams.neededCommands (params : SnapshotParams) (wanted : Bool) (info : PartInfo) (partMetadataVersion : ℤ)
    (mutations : QueuedMutations) : List OnFlyCommand :=
  (mutations.toList.filter fun mutation => params.Needs wanted info partMetadataVersion mutation).flatMap params.supportedCommands

end MergeTree
