import MergeTree.Lib.KeyedSet
import MergeTree.Lib.SizeT

/-!
# Parts that are moved to free a disk

`LargestPartsWithRequiredSize` collects the heaviest parts of a disk whose total size is the
required one, and `MergeTreePartsMover::selectPartsForMove` lists the parts to move: by a TTL
rule, or by the policy from the disks that have too little space (`MergeTreePartsMover.cpp`).

The free space of the disks, the TTL rules and the reservations are inputs: a part is asked for
a reservation by either rule at most once, so a reservation is a predicate of the part.
-/

namespace MergeTree

/-- A data part, as the mover reads it. -/
structure MovedPart where
  name : String
  diskName : String
  bytesOnDisk : ℕ
deriving DecidableEq, Repr

/-- `PartsSizeOnDiskComparator`: by size, parts of one size by name. -/
def MovedPart.sizeKey (part : MovedPart) : ℕ ×ₗ String := toLex (part.bytesOnDisk, part.name)

/-- The total size of parts. -/
def sizeSum (parts : List MovedPart) : ℕ := (parts.map MovedPart.bytesOnDisk).sum

/-- `LargestPartsWithRequiredSize`. -/
structure LargestPartsWithRequiredSize where
  elems : KeyedSet MovedPart.sizeKey := .empty
  requiredSizeSum : ℕ
  currentSizeSum : ℕ := 0

namespace LargestPartsWithRequiredSize

/-- The loop of `removeRedundantElements` over the elements in their order. -/
def removeRedundant (requiredSizeSum : ℕ) : List MovedPart → ℕ → List MovedPart × ℕ
  | [], sum => ([], sum)
  | part :: elems, sum =>
    if requiredSizeSum ≤ subSize sum part.bytesOnDisk then removeRedundant requiredSizeSum elems (subSize sum part.bytesOnDisk)
    else (part :: elems, sum)

theorem removeRedundant_suffix (requiredSizeSum : ℕ) : ∀ (elems : List MovedPart) (sum : ℕ),
    (removeRedundant requiredSizeSum elems sum).1 <:+ elems := by
  intro elems
  induction elems with
  | nil => exact fun _ => List.suffix_rfl
  | cons part elems ih =>
    intro sum
    rw [removeRedundant]
    split
    · exact (ih _).trans (List.suffix_cons part elems)
    · exact List.suffix_rfl

variable (s : LargestPartsWithRequiredSize)

def removeRedundantElements : LargestPartsWithRequiredSize where
  elems := s.elems.ofSublist (removeRedundant s.requiredSizeSum s.elems.toList s.currentSizeSum).1
    (removeRedundant_suffix _ _ _).sublist
  requiredSizeSum := s.requiredSizeSum
  currentSizeSum := (removeRedundant s.requiredSizeSum s.elems.toList s.currentSizeSum).2

/-- An element more. -/
def emplace (part : MovedPart) : LargestPartsWithRequiredSize :=
  { s with elems := s.elems.emplace part, currentSizeSum := addSize s.currentSizeSum part.bytesOnDisk }

def add (part : MovedPart) : LargestPartsWithRequiredSize :=
  if s.currentSizeSum < s.requiredSizeSum then s.emplace part
  -- a smaller element
  else if s.elems.toList.head?.any fun first => part.bytesOnDisk ≤ first.bytesOnDisk then s
  else (s.emplace part).removeRedundantElements

def decreaseRequiredSizeAndRemoveRedundantParts (sizeDecrease : ℕ) : LargestPartsWithRequiredSize :=
  { s with requiredSizeSum := s.requiredSizeSum - min sizeDecrease s.requiredSizeSum }.removeRedundantElements

end LargestPartsWithRequiredSize

/-- A call on a `LargestPartsWithRequiredSize`. -/
inductive SizeCall where
  | add (part : MovedPart)
  | decrease (size : ℕ)
deriving DecidableEq, Repr

namespace LargestPartsWithRequiredSize

/-- One call. -/
def call (s : LargestPartsWithRequiredSize) : SizeCall → LargestPartsWithRequiredSize
  | .add part => s.add part
  | .decrease size => s.decreaseRequiredSizeAndRemoveRedundantParts size

/-- The state after calls, for a required size. -/
def afterCalls (requiredSumSize : ℕ) (calls : List SizeCall) : LargestPartsWithRequiredSize :=
  calls.foldl call { requiredSizeSum := requiredSumSize }

end LargestPartsWithRequiredSize

/-- The parts that were added. -/
def addedParts (calls : List SizeCall) : List MovedPart :=
  calls.filterMap fun
    | .add part => some part
    | .decrease _ => none

/-- **A minimal set of heaviest parts** with the required size, or all parts when their size is below it. -/
structure HoldsHeaviest (s : LargestPartsWithRequiredSize) (added : List MovedPart) : Prop where
  sum_eq : s.currentSizeSum = sizeSum s.elems.toList
  mem_added : ∀ part ∈ s.elems, part ∈ added
  heaviest : ∀ part ∈ added, part ∉ s.elems → ∀ kept ∈ s.elems, part.bytesOnDisk ≤ kept.bytesOnDisk
  enough : (s.requiredSizeSum ≤ sizeSum s.elems.toList ∧
      ∀ kept ∈ s.elems, sizeSum s.elems.toList - kept.bytesOnDisk < s.requiredSizeSum) ∨
    sizeSum added < s.requiredSizeSum ∧ ∀ part ∈ added, part ∈ s.elems

/-- The call leaves no redundant element behind: when a part is added to a set that is still too small, and the
set is large enough with it, every element is needed. -/
def SizeCall.LeavesNothingRedundant (s : LargestPartsWithRequiredSize) : SizeCall → Prop
  | .add part => s.currentSizeSum < s.requiredSizeSum → s.requiredSizeSum ≤ s.currentSizeSum + part.bytesOnDisk →
      ∀ kept ∈ s.elems, s.currentSizeSum + part.bytesOnDisk - kept.bytesOnDisk < s.requiredSizeSum
  | .decrease _ => True

instance (s : LargestPartsWithRequiredSize) : (call : SizeCall) → Decidable (call.LeavesNothingRedundant s)
  | .add part => inferInstanceAs (Decidable (s.currentSizeSum < s.requiredSizeSum →
      s.requiredSizeSum ≤ s.currentSizeSum + part.bytesOnDisk →
      ∀ kept ∈ s.elems.toList, s.currentSizeSum + part.bytesOnDisk - kept.bytesOnDisk < s.requiredSizeSum))
  | .decrease _ => .isTrue trivial

/-! ## Selecting parts -/

/-- `MergeTreeMoveEntry`: a part, and whether its reservation is by a TTL rule or by the policy. -/
structure MoveEntry where
  part : MovedPart
  byTTL : Bool
deriving DecidableEq, Repr

/-- The parts to move so far, and what is to be freed on each disk. -/
structure MoveSelection where
  partsToMove : List MoveEntry := []
  needToMove : List (String × LargestPartsWithRequiredSize)

/-- Changes the first disk of the name. -/
def modifyDisk (diskName : String) (f : LargestPartsWithRequiredSize → LargestPartsWithRequiredSize) :
    List (String × LargestPartsWithRequiredSize) → List (String × LargestPartsWithRequiredSize)
  | [] => []
  | disk :: disks => if disk.1 = diskName then (disk.1, f disk.2) :: disks else disk :: modifyDisk diskName f disks

/-- One part of `selectPartsForMove`: a part that a TTL rule moves frees its disk, another one may be moved by the
policy. -/
def MoveSelection.selectPart (canMove reserveByTTL : MovedPart → Bool) (selection : MoveSelection) (part : MovedPart) :
    MoveSelection :=
  if !canMove part then selection
  else if reserveByTTL part then
    ⟨selection.partsToMove ++ [⟨part, true⟩],
      modifyDisk part.diskName (·.decreaseRequiredSizeAndRemoveRedundantParts part.bytesOnDisk) selection.needToMove⟩
  else { selection with needToMove := modifyDisk part.diskName (·.add part) selection.needToMove }

/-- `selectPartsForMove`. From a disk parts are moved by the policy until there is no reservation for one. -/
def selectPartsForMove (needToMove : List (String × ℕ)) (hasAnyMoveTTL : Bool) (canMove reserveByTTL reserve : MovedPart → Bool)
    (dataParts : List MovedPart) : List MoveEntry :=
  if dataParts = [] then []
  else if needToMove = [] ∧ !hasAnyMoveTTL then []
  else
    let selection := dataParts.foldl (MoveSelection.selectPart canMove reserveByTTL)
      { needToMove := needToMove.map fun disk => (disk.1, { requiredSizeSum := disk.2 }) }
    selection.partsToMove ++ selection.needToMove.flatMap fun disk =>
      (disk.2.elems.toList.takeWhile reserve).map fun part => ⟨part, false⟩

/-- The calls that the parts make on the set of a disk. -/
def callsOn (canMove reserveByTTL : MovedPart → Bool) (diskName : String) (dataParts : List MovedPart) : List SizeCall :=
  dataParts.filterMap fun part =>
    if part.diskName = diskName ∧ canMove part then
      some (if reserveByTTL part then .decrease part.bytesOnDisk else .add part)
    else none

/-- The parts that are moved from a disk by either rule. -/
def movedFrom (entries : List MoveEntry) (diskName : String) (byTTL : Bool) : List MovedPart :=
  (entries.filter fun entry => entry.part.diskName = diskName ∧ entry.byTTL = byTTL).map MoveEntry.part

end MergeTree
