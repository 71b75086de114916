import MergeTree.Lib.Intervals
import MergeTree.Spec.ActiveDataPartSet

/-!
# The mutation version of a part

`getExpectedMutationVersion` chooses the version that a part is mutated to: it takes the
mutations of the partition in their order while they may be executed together
(`ReplicatedMergeTreeMergePredicate.cpp`). `MutationBatch` says which mutations these are.
-/

namespace MergeTree

/-- A mutation of a partition with its `MutationStatus`: what `containBarrierCommand` says of its
commands, the `alter_version` of its entry, and whether it is done. -/
structure PartitionMutation where
  version : ℤ
  containBarrierCommand : Bool := false
  alterVersion : ℤ := -1
  isDone : Bool := false
deriving DecidableEq, Repr

def PartitionMutation.isAlterMutation (mutation : PartitionMutation) : Bool := mutation.alterVersion ≠ -1

/-- The mutations of a partition, in the order of their versions. -/
abbrev PartitionMutations : Type := KeyedSet PartitionMutation.version

/-- `getCurrentMutationVersion`, of a partition that has mutations. -/
def getCurrentMutationVersion (mutations : PartitionMutations) (dataVersion : ℤ) : ℤ :=
  if mutations.upperBound dataVersion = 0 then 0
  else (mutations.toList[mutations.upperBound dataVersion - 1]?.map PartitionMutation.version).getD 0

/-- What `ReplicatedMergeTreeZooKeeperMergePredicate` reads. A partition without mutations or
patches is not in its map. -/
structure ReplicatedMergePredicate where
  inprogressQuorumPart : Option String := none
  virtualParts : ActiveDataPartSet := {}
  mutationsByPartition : String → Option PartitionMutations
  patchesByPartition : String → Option (List PartInfo) := fun _ => none
  replicatedMaxMutationsInOneEntry : ℕ := 0

def versionsOfPatches (patches : List PartInfo) : KeyedSet (id : ℤ → ℤ) :=
  patches.foldl (fun versions patch => versions.emplace patch.getDataVersion) .empty

/-- Where the loop of `getExpectedMutationVersion` is: the mutation before, `max_version` and
`mutations_count`. -/
structure VersionSearch where
  prevVersion : Option ℤ := none
  maxVersion : ℤ
  mutationsCount : ℕ := 0

/-- The loop of `getExpectedMutationVersion`: `max_version` and `alter_version`. -/
def searchVersion (limit : ℕ) (currentVersion : ℤ) (patches : KeyedSet (id : ℤ → ℤ)) : List PartitionMutation → VersionSearch → ℤ × ℤ
  | [], search => (search.maxVersion, -1)
  | mutation :: rest, search =>
    -- some commands cannot stick together with other commands
    if mutation.containBarrierCommand ∧ search.maxVersion ≠ mutation.version ∧ search.maxVersion > currentVersion then
      (search.maxVersion, -1)
    else if search.prevVersion.any fun prev => prev > currentVersion ∧ patches.lowerBound prev ≠ patches.upperBound mutation.version then
      (search.maxVersion, -1)
    else
      let count := if currentVersion < mutation.version then search.mutationsCount + 1 else search.mutationsCount
      if mutation.isAlterMutation ∧ (mutation.version > currentVersion ∨ !mutation.isDone) then (mutation.version, mutation.alterVersion)
      else if limit ≠ 0 ∧ count = limit then (mutation.version, -1)
      else if mutation.containBarrierCommand ∧ mutation.version > currentVersion then (mutation.version, -1)
      else searchVersion limit currentVersion patches rest { prevVersion := some mutation.version, maxVersion := mutation.version, mutationsCount := count }

def ReplicatedMergePredicate.getExpectedMutationVersion (predicate : ReplicatedMergePredicate) (name : String) (info : PartInfo) :
    Option (ℤ × ℤ) :=
  if predicate.inprogressQuorumPart = some name then none
  else if predicate.virtualParts.getContainingPart info ≠ name then none
  else
    match predicate.mutationsByPartition info.partitionId with
    | none => none
    | some mutations =>
      match mutations.toList with
      | [] => none
      | first :: _ =>
        let currentVersion := getCurrentMutationVersion mutations info.getDataVersion
        let patches := versionsOfPatches ((predicate.patchesByPartition info.partitionId).getD [])
        let found := searchVersion predicate.replicatedMaxMutationsInOneEntry currentVersion patches mutations.toList { maxVersion := first.version }
        if currentVersion ≥ found.1 then none else some found

/-! ## Mutations that may be executed together -/

/-- The mutations in `(c, v]`. -/
def mutationsBetween (mutations : PartitionMutations) (c v : ℤ) : List PartitionMutation :=
  mutations.toList.filter fun mutation => c < mutation.version ∧ mutation.version ≤ v

/-- **The mutations that a part may be mutated by at once**: they are few enough, a barrier stands
alone, only the last one is an ALTER, and no patch has a version between those of two of them. -/
structure MutationBatch (limit : ℕ) (patches : List ℤ) (batch : List PartitionMutation) : Prop where
  few : limit ≠ 0 → batch.length ≤ limit
  barrier : ∀ mutation ∈ batch, mutation.containBarrierCommand → batch = [mutation]
  alter : ∀ mutation ∈ batch, mutation.isAlterMutation → batch.getLast? = some mutation
  patches : ∀ first ∈ batch.head?, ∀ last ∈ batch.getLast?, 2 ≤ batch.length → ∀ patch ∈ patches, ¬(first.version ≤ patch ∧ patch ≤ last.version)

/-- The part may be mutated from `c` to `v`: no older ALTER is undone, and the mutations between
are a batch. -/
structure MayMutateTo (mutations : PartitionMutations) (limit : ℕ) (patches : List ℤ) (c v : ℤ) : Prop where
  mem : ∃ mutation ∈ mutations, mutation.version = v
  lt : c < v
  done : ∀ mutation ∈ mutations, mutation.version ≤ c → mutation.isAlterMutation → mutation.isDone
  batch : MutationBatch limit patches (mutationsBetween mutations c v)

end MergeTree
