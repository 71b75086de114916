import Mathlib

/-!
# Part infos

`MergeTreePartInfo` (`MergeTreePartInfo.h`): the partition and the range of blocks
of a data part, with its merge level and its mutation version. A part contains
another one when it was obtained by merging or mutating it; two parts are disjoint
when their block ranges do not meet.

Block numbers are `Int64` in the source and `ℤ` here; levels are `UInt32` and `ℕ`.
The comparison operators read the tuple `toTuple`, so `useLegacyMaxLevel` does not
take part in them.
-/

namespace MergeTree

/-- `MergeTreePartInfo::Kind`. -/
inductive Kind
  | regular
  | patch
deriving DecidableEq, Repr

/-- The position of a kind in its enumeration. -/
def Kind.toNat : Kind → ℕ
  | .regular => 0
  | .patch => 1

theorem Kind.toNat_injective : Function.Injective Kind.toNat := by
  intro a b h
  cases a <;> cases b <;> simp_all [Kind.toNat]

instance : LinearOrder Kind := LinearOrder.lift' Kind.toNat Kind.toNat_injective

def patchPartPrefix : String := "patch-"

/-- The static `MergeTreePartInfo::getKind`. -/
def getKind (partitionId : String) : Kind :=
  if patchPartPrefix.toList.isPrefixOf partitionId.toList then .patch else .regular

def maxLevel : ℕ := 999999999

/-- `LEGACY_MAX_LEVEL`, the greatest `UInt32`. -/
def legacyMaxLevel : ℕ := 4294967295

/-- `MAX_BLOCK_NUMBER`, the greatest `Int32`. -/
def maxBlockNumber : ℤ := 2147483647

/-- `MergeTreePartInfo`. -/
structure PartInfo where
  kind : Kind := .regular
  partitionId : String := ""
  minBlock : ℤ := 0
  maxBlock : ℤ := 0
  level : ℕ := 0
  mutation : ℤ := 0
  useLegacyMaxLevel : Bool := false
deriving DecidableEq, Repr

/-- The keys of the part order. -/
abbrev PartTuple : Type := Kind ×ₗ String ×ₗ ℤ ×ₗ ℤ ×ₗ ℕ ×ₗ ℤ

namespace PartInfo

/-- The constructors of `MergeTreePartInfo`. -/
def make (partitionId : String) (minBlock maxBlock : ℤ) (level : ℕ) (mutation : ℤ) : PartInfo where
  kind := getKind partitionId
  partitionId := partitionId
  minBlock := minBlock
  maxBlock := maxBlock
  level := level
  mutation := mutation

def setPartitionId (p : PartInfo) (newPartitionId : String) : PartInfo :=
  { p with kind := getKind newPartitionId, partitionId := newPartitionId }

def isPatch (p : PartInfo) : Bool := p.kind = .patch

/-- `toTuple`: what `operator<=>` and `operator==` compare. -/
def toTuple (p : PartInfo) : PartTuple :=
  toLex (p.kind, toLex (p.partitionId, toLex (p.minBlock, toLex (p.maxBlock, toLex (p.level, p.mutation)))))

/-- `operator==`. -/
def Eqv (p q : PartInfo) : Prop := p.toTuple = q.toTuple

instance (p q : PartInfo) : Decidable (p.Eqv q) := inferInstanceAs (Decidable (p.toTuple = q.toTuple))

def getDataVersion (p : PartInfo) : ℤ := if p.mutation ≠ 0 then p.mutation else p.minBlock

/-- `strictly_contains_block_range` of `contains`: the containing part may have an
equal level only when the block numbers are equal, unless its level is the maximum. -/
def StrictlyContainsBlockRange (p q : PartInfo) : Prop :=
  (p.minBlock = q.minBlock ∧ p.maxBlock = q.maxBlock) ∨ q.level < p.level ∨
    p.level = maxLevel ∨ p.level = legacyMaxLevel

/-- `contains`: `p` was obtained by merging `q` with some other parts or mutating it. -/
def Contains (p q : PartInfo) : Prop :=
  p.partitionId = q.partitionId ∧ p.minBlock ≤ q.minBlock ∧ q.maxBlock ≤ p.maxBlock ∧
    q.level ≤ p.level ∧ q.mutation ≤ p.mutation ∧ p.StrictlyContainsBlockRange q

instance (p q : PartInfo) : Decidable (p.StrictlyContainsBlockRange q) :=
  inferInstanceAs (Decidable (_ ∨ _ ∨ _ ∨ _))

instance (p q : PartInfo) : Decidable (p.Contains q) :=
  inferInstanceAs (Decidable (_ ∧ _ ∧ _ ∧ _ ∧ _ ∧ _))

/-- `isDisjoint`: the parts do not intersect in any way. -/
def IsDisjoint (p q : PartInfo) : Prop :=
  p.partitionId ≠ q.partitionId ∨ q.maxBlock < p.minBlock ∨ p.maxBlock < q.minBlock

instance (p q : PartInfo) : Decidable (p.IsDisjoint q) := inferInstanceAs (Decidable (_ ∨ _ ∨ _))

def isFakeDropRangePart (p : PartInfo) : Bool := p.level = maxLevel ∨ p.level = legacyMaxLevel

/-- `getBlocksCount`, a `UInt64`. -/
def getBlocksCount (p : PartInfo) : ℕ := ((p.maxBlock - p.minBlock + 1) % 2 ^ 64).toNat

/-- **A proper part info**: the kind is the one of the partition id, as the
constructors and `setPartitionId` leave it, and the block range is not empty, as
`tryParsePartName` checks. -/
structure Proper (p : PartInfo) : Prop where
  kind : p.kind = getKind p.partitionId
  blocks : p.minBlock ≤ p.maxBlock

instance (p : PartInfo) : Decidable p.Proper :=
  decidable_of_iff (p.kind = getKind p.partitionId ∧ p.minBlock ≤ p.maxBlock)
    ⟨fun h => ⟨h.1, h.2⟩, fun h => ⟨h.1, h.2⟩⟩

end PartInfo

end MergeTree
