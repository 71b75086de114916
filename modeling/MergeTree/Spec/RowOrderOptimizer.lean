import MergeTree.Lib.EqualRanges
import MergeTree.Spec.SplitBlock

/-!
# Row order optimisation

`RowOrderOptimizer::optimize` (`RowOrderOptimizer.cpp`) changes the order of rows with equal
sorting keys, so that the other columns compress well. The cells of a column are a linear
order, the one of `compareAt`; a sort description has an order of its own for its direction.
The estimate of the cardinality of a column in some rows is a parameter.
-/

namespace MergeTree

open EqualRange

/-- A block with the names of its columns. -/
structure NamedBlock (V : Type) extends Block V where
  names : List String
  names_length : names.length = columns.length

/-- `SortColumnDescription`: the direction and the place of NULLs are an order of the cells. -/
structure SortColumnDescription (V : Type) where
  columnName : String
  order : LinearOrder V

variable {V : Type} [LinearOrder V] [Inhabited V]

namespace NamedBlock

/-- `getPositionByName`, which throws on a name that is not there. -/
def getPositionByName (block : NamedBlock V) (name : String) : ℕ := block.names.idxOf name

omit [LinearOrder V] in
/-- The cell of a column in a row. -/
def cell (block : NamedBlock V) (column row : ℕ) : V := (block.columns.getD column []).getD row default

end NamedBlock

/-- The values of the sorting key columns are equal in both rows. -/
def haveEqualSortingKeyValues (block : NamedBlock V) (sortDescription : List (SortColumnDescription V))
    (leftRow rightRow : ℕ) : Bool :=
  sortDescription.all fun sortColumn =>
    block.cell (block.getPositionByName sortColumn.columnName) leftRow =
      block.cell (block.getPositionByName sortColumn.columnName) rightRow

/-- `std::unique`: drops what equals the element before it. -/
def unique : List ℕ → List ℕ
  | a :: b :: l => if a = b then unique (b :: l) else a :: unique (b :: l)
  | l => l

/-- `std::set_difference` of ascending lists. -/
def setDifference : List ℕ → List ℕ → List ℕ
  | [], _ => []
  | x :: xs, ys =>
    match ys.dropWhile fun y => y < x with
    | [] => x :: setDifference xs []
    | y :: ys => if x = y then setDifference xs ys else x :: setDifference xs (y :: ys)

/-- The ascending indexes of the columns that are not in the sorting key. -/
def getOtherColumnIndexes (block : NamedBlock V) (sortDescription : List (SortColumnDescription V)) : List ℕ :=
  if sortDescription.length = 0 then List.range block.columns.length
  else
    let sortedColumnIndexes := sortDescription.map fun sortColumn => block.getPositionByName sortColumn.columnName
    setDifference (List.range block.columns.length) (unique (sortedColumnIndexes.insertionSort (· ≤ ·)))

/-- The ranges of rows with equal values in all sorting key columns. -/
def getEqualRanges (block : NamedBlock V) (sortDescription : List (SortColumnDescription V)) (permutation : List ℕ) :
    List EqualRange :=
  if sortDescription.isEmpty then [⟨0, block.rows⟩]
  else
    equalRanges (fun i j => haveEqualSortingKeyValues block sortDescription (rowAt permutation i) (rowAt permutation j))
      block.rows block.rows 0

/-- The rows of a range. -/
def rowsOfRange (permutation : List ℕ) (range : EqualRange) : List ℕ :=
  (permutation.take range.stop).drop range.start

def getCardinalitiesInPermutedRange (estimateCardinality : List V → List ℕ → ℕ) (block : NamedBlock V)
    (otherColumnIndexes : List ℕ) (permutation : List ℕ) (equalRange : EqualRange) : List ℕ :=
  otherColumnIndexes.map fun column =>
    estimateCardinality (block.columns.getD column []) (rowsOfRange permutation equalRange)

/-- `IColumn::updatePermutation`, ascending and stable: sorts each range by the column and goes on with
its runs of equal values with more than one row. -/
def updatePermutation (block : NamedBlock V) (column : ℕ) (state : List ℕ × List EqualRange) : List ℕ × List EqualRange :=
  sortRanges (block.cell column) state.2 state.1

/-- `updatePermutationInEqualRange`: the columns are taken in the order of their cardinalities. -/
def updatePermutationInEqualRange (block : NamedBlock V) (otherColumnIndexes permutation : List ℕ) (equalRange : EqualRange)
    (cardinalities : List ℕ) : List ℕ :=
  let columnOrder := (List.range otherColumnIndexes.length).insertionSort fun lhs rhs =>
    cardinalities.getD lhs 0 ≤ cardinalities.getD rhs 0
  (columnOrder.foldl (fun state i => updatePermutation block (otherColumnIndexes.getD i 0) state)
    (permutation, [equalRange])).1

/-- The turn of the loop of `optimize` for one range. -/
def optimizeRange (estimateCardinality : List V → List ℕ → ℕ) (block : NamedBlock V) (otherColumnIndexes permutation : List ℕ)
    (equalRange : EqualRange) : List ℕ :=
  if equalRange.size ≤ 1 then permutation
  else
    updatePermutationInEqualRange block otherColumnIndexes permutation equalRange
      (getCardinalitiesInPermutedRange estimateCardinality block otherColumnIndexes permutation equalRange)

/-- `RowOrderOptimizer::optimize`. -/
def optimize (estimateCardinality : List V → List ℕ → ℕ) (block : NamedBlock V)
    (sortDescription : List (SortColumnDescription V)) (permutation : List ℕ) : List ℕ :=
  if block.columns.length = 0 then permutation
  else
    let permutation := if permutation.isEmpty then List.range block.rows else permutation
    (getEqualRanges block sortDescription permutation).foldl
      (optimizeRange estimateCardinality block (getOtherColumnIndexes block sortDescription)) permutation

end MergeTree
