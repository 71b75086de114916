import Mathlib

/-!
# Mutations on the fly

A reader applies the `UPDATE` and `DELETE` commands that are not yet applied to a part.
`filterMutationCommands` (`AlterConversions.cpp`) keeps only what affects the columns that are
read: it walks back over the commands and collects the columns they need.

An expression is a function of the columns it mentions. Values are of any type; `isTrue` tells
whether a predicate holds.
-/

namespace MergeTree

/-- `RowExistsColumn::name`. -/
def rowExistsColumn : String := "_row_exists"

/-- A deterministic expression: its identifiers and its value on a row, which depends on nothing else. -/
structure ColumnExpression (V : Type) where
  identifiers : List String
  eval : (String → V) → V
  congr : ∀ row row', (∀ column ∈ identifiers, row column = row' column) → eval row = eval row'
  /-- The syntax tree is the literal `0`. -/
  isZero : Bool := false

/-- What an `UPDATE` sets (`column_to_update_expression`). -/
abbrev Assignments (V : Type) : Type := List (String × ColumnExpression V)

/-- `MutationCommand`. -/
inductive MutationCommand (V : Type)
  | delete (predicate : ColumnExpression V)
  | update (predicate : ColumnExpression V) (assignments : Assignments V)

variable {V : Type}

/-! ## What commands do -/

/-- A row with the assigned columns, all of them computed on the row before. -/
def assignColumns (assignments : Assignments V) (row : String → V) : String → V := fun column =>
  match assignments.lookup column with
  | some expression => expression.eval row
  | none => row column

def isLightweightDeleteCommand (assignment : String × ColumnExpression V) : Bool :=
  assignment.1 = rowExistsColumn ∧ assignment.2.isZero

/-- A command on a row; nothing when it removes the row. -/
def MutationCommand.apply (isTrue : V → Bool) : MutationCommand V → (String → V) → Option (String → V)
  | delete predicate, row => if isTrue (predicate.eval row) then none else some row
  | update predicate assignments, row =>
    if isTrue (predicate.eval row) then
      if assignments.any isLightweightDeleteCommand then none else some (assignColumns assignments row)
    else some row

/-- Commands in order. -/
def applyCommands (isTrue : V → Bool) : List (MutationCommand V) → (String → V) → Option (String → V)
  | [], row => some row
  | command :: commands, row => (command.apply isTrue row).bind (applyCommands isTrue commands)

/-! ## `filterMutationCommands` -/

/-- `filtered_commands`, `read_columns` and `read_columns_set` in the loop. -/
structure Filtering (V : Type) where
  filteredCommands : List (MutationCommand V)
  readColumns : List String
  readColumnsSet : List String

/-- One source column is added to the columns that are read. -/
def Filtering.addColumn (filtering : Filtering V) (column : String) : Filtering V :=
  if column ∈ filtering.readColumnsSet then filtering
  else { filtering with readColumns := filtering.readColumns ++ [column], readColumnsSet := column :: filtering.readColumnsSet }

/-- The assignments that are kept. -/
def newUpdatedColumns (readColumnsSet : List String) (assignments : Assignments V) : Assignments V :=
  assignments.filter fun assignment => !isLightweightDeleteCommand assignment && decide (assignment.1 ∈ readColumnsSet)

/-- The commands that are pushed for a command, and its `source_columns`. -/
def filterCommand (readColumnsSet : List String) : MutationCommand V → List (MutationCommand V) × List String
  | .delete predicate => ([.delete predicate], predicate.identifiers)
  | .update predicate assignments =>
    let hasLightweightDelete := assignments.any isLightweightDeleteCommand
    let kept := newUpdatedColumns readColumnsSet assignments
    let sourceColumns := kept.flatMap fun assignment => assignment.2.identifiers
    ((if hasLightweightDelete then [.delete predicate] else []) ++
        (if kept.isEmpty then [] else [.update predicate kept]),
      sourceColumns ++ if hasLightweightDelete ∨ ¬kept.isEmpty then predicate.identifiers else [])

/-- One turn of the loop; `source_columns` is in the order of names. -/
def Filtering.push (filtering : Filtering V) (command : MutationCommand V) : Filtering V :=
  let (commands, sourceColumns) := filterCommand filtering.readColumnsSet command
  (sourceColumns.mergeSort fun a b => a ≤ b).foldl Filtering.addColumn
    { filtering with filteredCommands := filtering.filteredCommands ++ commands }

/-- `filterMutationCommands`: the commands, and `read_columns` afterwards. -/
def filterMutationCommands (mutationCommands : List (MutationCommand V)) (readColumns : List String) :
    List (MutationCommand V) × List String :=
  let filtering := mutationCommands.reverse.foldl Filtering.push
    { filteredCommands := [], readColumns, readColumnsSet := readColumns }
  (filtering.filteredCommands.reverse, filtering.readColumns)

end MergeTree
