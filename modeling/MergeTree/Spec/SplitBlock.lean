import MergeTree.Spec.PartitionId

/-!
# Splitting an inserted block into partitions

`splitBlockIntoParts` splits the rows of an inserted block by their partition keys
(`MergeTreeDataWriter.cpp`). `buildScatterSelector` numbers the partitions in the order of
their first rows and notes the partition of every row. The hash of a row of keys is a
parameter, and so is the test that a column has equal values, both of them from the columns.
-/

namespace MergeTree

/-- The fields of a column of this type, as far as the id relies on it. -/
def DataType.HasField : DataType → Field → Prop
  | .date, field => ∃ day, field = .uint64 day
  | .ipv4, field => ∃ address, field = .ipv4 address
  | _, _ => True

/-- A column of the partition key in a block. -/
structure KeyColumn where
  values : List Field

variable {α : Type}

/-- A block with cells of type `α`: all columns have the same number of rows. -/
structure Block (α : Type) where
  columns : List (List α)
  sameRows : ∀ column ∈ columns, ∀ column' ∈ columns, column.length = column'.length

/-- The number of rows. -/
def Block.rows (block : Block α) : ℕ := (block.columns.head?.map List.length).getD 0

/-- What the metadata of the table says about its partitions: `check` throws on blocks with another
structure, and `executePartitionByExpression` computes the columns of the partition key. A key with
`modulo` is computed with `moduloLegacy`, so the columns may have other types than the sample block of the
key; what the id relies on is that their values are values of the types of the sample block. -/
structure PartitionMetadata (α : Type) where
  check : Block α → Except String Unit
  partitionKeySample : List DataType
  executePartitionByExpression : Block α → List KeyColumn
  length_eq : ∀ block, (executePartitionByExpression block).length = partitionKeySample.length
  hasField : ∀ block, ∀ x ∈ partitionKeySample.zip (executePartitionByExpression block),
    ∀ field ∈ x.2.values, x.1.HasField field
  rows_eq : ∀ block, ∀ column ∈ executePartitionByExpression block, column.values.length = block.rows

/-- `BlockWithPartition`. -/
structure BlockWithPartition (α : Type) where
  columns : List (List α)
  partition : Row
  partitionId : String

/-- The values of the key columns in one row: the local `get_partition`. -/
def getPartition (partitionColumns : List KeyColumn) (rowNum : ℕ) : Row :=
  partitionColumns.map fun column => column.values.getD rowNum .null

/-- The settings of an insert, the hash of a row of keys and the test for equal values, and what is
in the memory of a new selector before it is written. -/
structure SplitContext where
  maxParts : ℕ
  throwOnLimit : Bool
  hash128 : Row → BitVec 128
  hasEqualValues : List Field → Bool
  uninitialized : ℕ

/-- The local variables of `buildScatterSelector`. -/
structure ScatterSelector where
  partitionsMap : List (BitVec 128 × ℕ) := []
  partitionNumToFirstRow : List ℕ := []
  selector : List ℕ := []
  partitionsCount : ℕ := 0

namespace ScatterSelector

/-- `selector[i] = it->getMapped()`, which is deferred until there are two partitions. -/
def setRow (s : ScatterSelector) (i partitionNum : ℕ) : ScatterSelector :=
  if 1 < s.partitionsCount then { s with selector := s.selector.set i partitionNum } else s

/-- A new partition starts at row `i`. With the second one the selector is created, and the rows
before are those of the first. -/
def addPartition (ctx : SplitContext) (numRows i : ℕ) (key : BitVec 128) (s : ScatterSelector) : ScatterSelector where
  partitionsMap := (key, s.partitionsCount) :: s.partitionsMap
  partitionNumToFirstRow := s.partitionNumToFirstRow ++ [i]
  partitionsCount := s.partitionsCount + 1
  selector := if s.partitionsCount + 1 = 2 then
      List.replicate i 0 ++ List.replicate (numRows - i) ctx.uninitialized
    else s.selector

/-- One row. -/
def addRow (ctx : SplitContext) (numRows i : ℕ) (row : Row) (s : ScatterSelector) : Except String ScatterSelector :=
  match s.partitionsMap.lookup (ctx.hash128 row) with
  | some partitionNum => .ok (s.setRow i partitionNum)
  | none =>
    if ctx.maxParts ≠ 0 ∧ ctx.maxParts ≤ s.partitionsCount ∧ ctx.throwOnLimit = true then
      .error s!"Too many partitions for single INSERT block (more than {ctx.maxParts})."
    else .ok ((s.addPartition ctx numRows i (ctx.hash128 row)).setRow i s.partitionsCount)

/-- The rows from row `i` on. -/
def addRows (ctx : SplitContext) (numRows : ℕ) : ℕ → List Row → ScatterSelector → Except String ScatterSelector
  | _, [], s => .ok s
  | i, row :: rows, s => do
    let s ← s.addRow ctx numRows i row
    addRows ctx numRows (i + 1) rows s

end ScatterSelector

def buildScatterSelector (ctx : SplitContext) (rows : List Row) : Except String ScatterSelector :=
  ScatterSelector.addRows ctx rows.length 0 rows {}

/-- `IColumn::scatter`: the rows are distributed by the selector, in order. -/
def scatter (numColumns : ℕ) (selector : List ℕ) (column : List α) : Except String (List (List α)) :=
  if column.length ≠ selector.length then .error "Size of selector doesn't match size of column"
  else .ok ((List.range numColumns).map fun p => ((column.zip selector).filter fun cell => cell.2 = p).map Prod.fst)

variable [NumberText] [DateLUT] [FieldText]

/-- A returned block with the id of its partition. -/
def withPartitionId (partitionKeySample : List DataType) (columns : List (List α)) (partition : Row) :
    Except String (BlockWithPartition α) := do
  let partitionId ← getID partition partitionKeySample
  return { columns, partition, partitionId }

/-- Columns scattered by the selector, one block for every partition. -/
def scatterBlock (block : Block α) (partitionColumns : List KeyColumn) (partitionKeySample : List DataType)
    (s : ScatterSelector) : Except String (List (BlockWithPartition α)) := do
  let partitionsCount := s.partitionNumToFirstRow.length
  let scattered ← block.columns.mapM (scatter partitionsCount s.selector)
  (List.range partitionsCount).mapM fun i =>
    withPartitionId partitionKeySample (scattered.map fun parts => parts.getD i [])
      (getPartition partitionColumns (s.partitionNumToFirstRow.getD i 0))

/-- `MergeTreeDataWriter::splitBlockIntoParts`. -/
def splitBlockIntoParts (ctx : SplitContext) (metadata : PartitionMetadata α) (block : Block α) :
    Except String (List (BlockWithPartition α)) :=
  if block.columns.isEmpty ∨ block.rows = 0 then .ok []
  else do
    metadata.check block
    if metadata.partitionKeySample.isEmpty then
      let item ← withPartitionId metadata.partitionKeySample block.columns []
      return [item]
    else
      let partitionColumns := metadata.executePartitionByExpression block
      if partitionColumns.all fun column => ctx.hasEqualValues column.values then
        let item ← withPartitionId metadata.partitionKeySample block.columns (getPartition partitionColumns 0)
        return [item]
      else
        let s ← buildScatterSelector ctx ((List.range block.rows).map (getPartition partitionColumns))
        scatterBlock block partitionColumns metadata.partitionKeySample s

end MergeTree
