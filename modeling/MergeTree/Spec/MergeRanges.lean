import MergeTree.Spec.MergePredicate

/-!
# Ranges of parts for merges

The parts that may be merged are split into ranges in two steps: at the parts that a
precondition rejects (`splitRangeByPredicate`, `Compaction/PartsCollectors/Common.h`), and
between neighbours that cannot be merged (`splitByMergePredicate`,
`MergeTreeDataMergerMutator.cpp`). `FutureMergedMutatedPart::assign` makes the info of the
merged part. Predicates return nothing or the reason of a refusal.
-/

namespace MergeTree

variable {A : Type}

/-! ## Splitting at rejected parts -/

/-- `build_next_range` of `splitRangeByPredicate`: the range and what is left behind the part that
closed it. -/
def buildNextRange (predicate : A → Except String Unit) : List A → List A → List A × List A
  | range, [] => (range, [])
  | range, part :: parts =>
    match predicate part with
    | .error _ => (range, parts)
    | .ok () => buildNextRange predicate (range ++ [part]) parts

theorem length_buildNextRange (predicate : A → Except String Unit) : ∀ range parts : List A,
    (buildNextRange predicate range parts).2.length ≤ parts.length - 1 := by
  intro range parts
  induction parts generalizing range with
  | nil => exact Nat.zero_le _
  | cons part parts ih =>
    rw [buildNextRange]
    split
    · exact le_of_eq rfl
    · exact (ih _).trans (by rw [List.length_cons]; omega)

/-- `splitRangeByPredicate`. Empty ranges are not kept. -/
def splitRangeByPredicate (predicate : A → Except String Unit) : List A → List (List A)
  | [] => []
  | part :: parts =>
    let next := buildNextRange predicate [] (part :: parts)
    if next.1 = [] then splitRangeByPredicate predicate next.2 else next.1 :: splitRangeByPredicate predicate next.2
termination_by parts => parts.length
decreasing_by
  all_goals
    have hle := length_buildNextRange predicate [] (part :: parts)
    rw [List.length_cons] at *
    omega

def filterByPartitions (info : A → PartInfo) (partitionsToKeep : Option (String → Bool)) (parts : List A) : List A :=
  match partitionsToKeep with
  | none => parts
  | some keep => parts.filter fun part => keep (info part).partitionId

/-! ## Splitting between parts that cannot be merged -/

/-- `build_next_range` of `splitByMergePredicate` after its first part: the range ends in `prev`, and the
part that closes it is left in front of the others. -/
def buildNextMergeableRange (canMergeParts : PartProperties → PartProperties → Except String Unit) :
    List PartProperties → PartProperties → List PartProperties → Except String (List PartProperties × List PartProperties)
  | range, prev, [] => .ok (range ++ [prev], [])
  | range, prev, current :: parts =>
    match canMergeParts prev current with
    | .error _ => .ok (range ++ [prev], current :: parts)
    | .ok () =>
      if current.info.Contains prev.info then .error ("Part " ++ current.name ++ " contains previous part " ++ prev.name)
      else if ¬current.info.IsDisjoint prev.info then
        .error ("Part " ++ current.name ++ " intersects previous part " ++ prev.name)
      else buildNextMergeableRange canMergeParts (range ++ [prev]) current parts

/-- `splitByMergePredicate` on one range. The count bounds the number of ranges. -/
def splitMergeable (canMergeParts : PartProperties → PartProperties → Except String Unit) :
    ℕ → List PartProperties → Except String (List (List PartProperties))
  | _, [] => .ok []
  | 0, _ :: _ => .ok []
  | count + 1, part :: parts => do
    let (range, rest) ← buildNextMergeableRange canMergeParts [] part parts
    let ranges ← splitMergeable canMergeParts count rest
    .ok (range :: ranges)

/-- `splitByMergePredicate` on all ranges. -/
def splitByMergePredicate (canMergeParts : PartProperties → PartProperties → Except String Unit)
    (ranges : List (List PartProperties)) : Except String (List (List PartProperties)) := do
  let split ← ranges.mapM fun range => splitMergeable canMergeParts range.length range
  .ok split.flatten

/-- What merges are chosen from: the active parts of the partitions to keep, split by both
predicates. `properties` is `buildPartProperties`. -/
def mergeableRanges (properties : A → PartProperties) (partitionsToKeep : Option (String → Bool))
    (precondition : A → Except String Unit) (canMergeParts : PartProperties → PartProperties → Except String Unit)
    (active : List A) : Except String (List (List PartProperties)) :=
  let parts := filterByPartitions (fun part => (properties part).info) partitionsToKeep active
  splitByMergePredicate canMergeParts ((splitRangeByPredicate precondition parts).map fun range => range.map properties)

/-! ## The merged part -/

/-- The part info of `FutureMergedMutatedPart::assign`. The patches give the greatest data version of
their source parts. The level is a `UInt32`. -/
def assignPartInfo (parts : List PartProperties) (patchVersions : List ℤ) : Option PartInfo :=
  match parts with
  | [] => none
  | first :: rest =>
    let last := (first :: rest).getLast (List.cons_ne_nil first rest)
    some { ({} : PartInfo).setPartitionId first.info.partitionId with
      minBlock := first.info.minBlock
      maxBlock := last.info.maxBlock
      level := (parts.foldl (fun level part => max level part.info.level) 0 + 1) % 2 ^ 32
      mutation := patchVersions.foldl max (parts.foldl (fun mutation part => max mutation part.info.mutation) 0) }

/-! ## What the ranges are -/

/-- A run of neighbours of the list, each of which can be merged with the next one. -/
def MergeableRun (canMergeParts : PartProperties → PartProperties → Except String Unit) (parts range : List PartProperties) :
    Prop :=
  range <:+: parts ∧ range.IsChain fun prev current => canMergeParts prev current = .ok ()

/-- **Runs of consecutive mergeable parts**: the ranges hold the accepted parts of the list once and in its
order; each one is a run and not empty, and none can be joined with the next one. -/
structure MergeCandidates (canMergeParts : PartProperties → PartProperties → Except String Unit)
    (parts accepted : List PartProperties) (ranges : List (List PartProperties)) : Prop where
  flatten_eq : ranges.flatten = accepted
  nodup : ranges.flatten.Nodup
  nonempty : ∀ range ∈ ranges, range ≠ []
  run : ∀ range ∈ ranges, MergeableRun canMergeParts parts range
  maximal : ranges.IsChain fun range next => ¬MergeableRun canMergeParts parts (range ++ next)

/-- Active parts: sorted by part info, and pairwise disjoint. -/
structure ActiveList (infos : List PartInfo) : Prop where
  proper : ∀ info ∈ infos, info.Proper
  sorted : infos.Pairwise fun p q => p.toTuple < q.toTuple
  disjoint : infos.Pairwise PartInfo.IsDisjoint

end MergeTree
