import MergeTree.Lib.KeyedSet
import MergeTree.Lib.Sorting
import MergeTree.Spec.Messages

/-!
# The first announcement

`DefaultCoordinator::initializeReadingState` (`ParallelReplicasReadingCoordinator.cpp`): the
parts of the first announcement become the working set of the query. Every part is compared
with its neighbour among the parts listed before it.
-/

namespace MergeTree

/-- `Part` of the coordinator. -/
structure CoordinatorPart where
  description : RangesInDataPartDescription
  replicas : List ℕ
deriving DecidableEq, Repr

/-- What `operator<` of the coordinator's parts compares. -/
def CoordinatorPart.key (part : CoordinatorPart) : PartTuple := part.description.info.toTuple

/-- `Parts`. -/
abbrev CoordinatorParts : Type := KeyedSet CoordinatorPart.key

/-- `DefaultCoordinator`: the fields that an announcement sets. -/
structure DefaultCoordinator where
  partVisibility : String → Finset ℕ := fun _ => ∅
  stateInitialized : Bool := false
  allPartsToRead : List CoordinatorPart := []
  sourceReplicaForPartsSnapshot : ℕ := 0
  markSegmentSize : ℕ := 0

namespace DefaultCoordinator

/-- The exception on parts that intersect. -/
def intersectingParts : String := "Intersecting parts found in announcement"

/-- The exception on a zero segment size. -/
def zeroMarkSegmentSize : String := "Zero value provided for `mark_segment_size`"

def biggerPartsFirst (lhs rhs : CoordinatorPart) : Bool :=
  rhs.description.info.getBlocksCount < lhs.description.info.getBlocksCount

/-- The replica is noted for each part that it announced. -/
def registerParts [IntText] (replicaNum : ℕ) (description : RangesInDataPartsDescription) (partVisibility : String → Finset ℕ) :
    String → Finset ℕ :=
  description.foldl (fun visibility part =>
    Function.update visibility part.getPartOrProjectionName (insert replicaNum (visibility part.getPartOrProjectionName)))
    partVisibility

/-- The loop over the parts: the parts added, and the exception if there is one. -/
def addParts (replicaNum : ℕ) : RangesInDataPartsDescription → CoordinatorParts → List CoordinatorPart →
    List CoordinatorPart × Except String Unit
  | [], _, allPartsToRead => (allPartsToRead, .ok ())
  | part :: rest, knownParts, allPartsToRead =>
    let add := addParts replicaNum rest (knownParts.emplace ⟨part, []⟩) (allPartsToRead ++ [⟨part, [replicaNum]⟩])
    match (knownParts.above part.info.toTuple).head? with
    | some intersecting =>
      if ¬ intersecting.description.info.IsDisjoint part.info then (allPartsToRead, .error intersectingParts) else add
    | none => add

def initializeReadingState [IntText] (std : StdSort) (coordinator : DefaultCoordinator)
    (announcement : InitialAllRangesAnnouncement) : DefaultCoordinator × Except String Unit :=
  let coordinator := { coordinator with
    partVisibility := registerParts announcement.replicaNum announcement.description coordinator.partVisibility }
  if coordinator.stateInitialized then (coordinator, .ok ())
  else
    let knownParts : CoordinatorParts := coordinator.allPartsToRead.foldl KeyedSet.emplace KeyedSet.empty
    match addParts announcement.replicaNum announcement.description knownParts coordinator.allPartsToRead with
    | (allPartsToRead, .error e) => ({ coordinator with allPartsToRead }, .error e)
    | (allPartsToRead, .ok ()) =>
      ({ coordinator with
          allPartsToRead := std.sort biggerPartsFirst allPartsToRead
          stateInitialized := true
          sourceReplicaForPartsSnapshot := announcement.replicaNum
          markSegmentSize := announcement.markSegmentSize },
        if announcement.markSegmentSize = 0 then .error zeroMarkSegmentSize else .ok ())

end DefaultCoordinator

end MergeTree
