import MergeTree.Spec.AlterConversions

/-!
# Required columns

`injectRequiredColumns` (`MergeTreeBlockReadUtils.cpp`) adds to the columns of a read those that
the default expressions of missing columns need, or a column of minimum size when nothing else
would be read.

The storage snapshot is what it answers. `checkStackSize` throws when the recursion is deeper than
`stack`.
-/

namespace MergeTree

/-- What a storage snapshot answers: `tryGetColumn` with the options of the read, and the identifiers of the
default expression of a column. -/
structure StorageSnapshot where
  tryGetColumn : String → Option RequestedColumn
  getDefault : String → Option (List String)

/-- The codes of the exceptions. -/
inductive ReadColumnsError
  | noSuchColumnInTable
  | tooDeepRecursion
  | logicalError
deriving DecidableEq, Repr

/-- `columns`, `required_columns` and `injected_columns`. -/
structure Injection where
  columns : List String
  requiredColumns : List String
  injectedColumns : List String := []
deriving DecidableEq, Repr

def Injection.addColumn (injection : Injection) (name : String) : Injection :=
  if name ∈ injection.requiredColumns then injection
  else
    { columns := injection.columns ++ [name]
      requiredColumns := name :: injection.requiredColumns
      injectedColumns := name :: injection.injectedColumns }

def textIndexVirtualColumnPrefix : String := "__text_index_"

def isTextIndexVirtualColumn (columnName : String) : Bool :=
  textIndexVirtualColumnPrefix.toList.isPrefixOf columnName.toList

namespace PartInfoForReader

variable (part : PartInfoForReader) (snapshot : StorageSnapshot)

/-- `alter_conversions` of `injectRequiredColumns`, which a projection part does not have. -/
def conversionsForInjection : AlterConversions := if part.isProjectionPart then {} else part.alterConversions

/-- The column is not missing for `injectRequiredColumnsRecursively`. -/
def isReadable (columnName : String) : Bool :=
  match snapshot.tryGetColumn columnName with
  | none => false
  | some column =>
    let columnNameInPart := part.conversionsForInjection.nameInPart column.nameInStorage
    if columnNameInPart ∈ part.columns ∧ ¬part.conversionsForInjection.isColumnDropped columnNameInPart then
      column.subcolumnName.all (part.hasSubcolumn columnNameInPart)
    else isTextIndexVirtualColumn columnNameInPart && part.hasMaterializedTextIndex columnNameInPart

/-- `injectRequiredColumnsRecursively`: whether a physical column was found. -/
def injectRequiredColumnsRecursively : ℕ → String → Injection → Except ReadColumnsError (Injection × Bool)
  | 0, _, _ => .error .tooDeepRecursion
  | stack + 1, columnName, injection =>
    if part.isReadable snapshot columnName then .ok (injection.addColumn columnName, true)
    else
      match snapshot.getDefault columnName with
      | none => .ok (injection, false)
      | some identifiers =>
        identifiers.foldlM (fun result identifier => do
          let (injection, found) ← injectRequiredColumnsRecursively stack identifier result.1
          return (injection, result.2 || found)) (injection, false)

/-- The loop of `injectRequiredColumns` from position `i` on, over a list that grows; `steps` bounds the turns. -/
def injectLoop (stack : ℕ) : ℕ → ℕ → Injection → Bool → Except ReadColumnsError (Injection × Bool)
  | 0, _, _, _ => .error .tooDeepRecursion
  | steps + 1, i, injection, found =>
    match injection.columns[i]? with
    | none => .ok (injection, found)
    | some columnName =>
      if (snapshot.tryGetColumn columnName).isNone then .error .noSuchColumnInTable
      else do
        let (injection, found') ← part.injectRequiredColumnsRecursively snapshot stack columnName injection
        injectLoop stack steps (i + 1) injection (found || found')

/-- The loop of `getColumnNameWithMinimumCompressedSize`. -/
def minimumSizeLoop : List String → Option String → BitVec 64 → Option String
  | [], minimumSizeColumn, _ => minimumSizeColumn
  | column :: availableColumns, minimumSizeColumn, minimumSize =>
    if !part.hasColumnFiles column then minimumSizeLoop availableColumns minimumSizeColumn minimumSize
    else if part.columnSize column < minimumSize then minimumSizeLoop availableColumns (some column) (part.columnSize column)
    else minimumSizeLoop availableColumns minimumSizeColumn minimumSize

/-- `getColumnNameWithMinimumCompressedSize`: no column is smaller than the greatest size. -/
def getColumnNameWithMinimumCompressedSize (availableColumns : List String) : Except ReadColumnsError String :=
  match part.minimumSizeLoop availableColumns none (BitVec.allOnes 64) with
  | some minimumSizeColumn => .ok minimumSizeColumn
  | none => .error .logicalError

/-- The columns of the part from which the one of minimum size is taken. -/
def availableColumns : List String :=
  let available := part.columns.filter fun column => (snapshot.tryGetColumn column).isSome
  if available.isEmpty then part.columns else available

/-- `injectRequiredColumns`: the columns and the injected ones. -/
def injectRequiredColumns (stack steps : ℕ) (columns : List String) : Except ReadColumnsError (List String × List String) := do
  let (injection, haveAtLeastOnePhysicalColumn) ←
    part.injectLoop snapshot stack steps 0 { columns, requiredColumns := columns } false
  if haveAtLeastOnePhysicalColumn then return (injection.columns, injection.injectedColumns)
  else
    let minimumSizeColumn ← part.getColumnNameWithMinimumCompressedSize (part.availableColumns snapshot)
    -- the column is not looked up in the required ones
    return (injection.columns ++ [minimumSizeColumn], minimumSizeColumn :: injection.injectedColumns)

end PartInfoForReader

end MergeTree
