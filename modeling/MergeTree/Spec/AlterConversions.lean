import Mathlib

/-!
# Alter conversions

`AlterConversions` (`AlterConversions.cpp`) holds the renames and drops of columns that are not
yet applied to a part; a reader resolves the names of the table with it (`IMergeTreeReader.cpp`).

The shared offsets of a Nested column, which are read in place of the offsets of its members, are
left out.
-/

namespace MergeTree

/-- `RenamePair`. -/
structure RenamePair where
  renameTo : String
  renameFrom : String
deriving DecidableEq, Repr

/-- The commands that change the names of columns. -/
inductive MetadataCommand
  | renameColumn (columnName renameTo : String)
  | dropColumn (columnName : String)
deriving DecidableEq, Repr

/-- `AlterConversions`: `rename_map` and `dropped_columns`. -/
structure AlterConversions where
  renameMap : List RenamePair := []
  droppedColumns : List String := []
deriving DecidableEq, Repr

/-- The loop over `rename_map` for a chained rename: the first entry that leads to the column leads to the
new name; nothing when there is none. -/
def chainRename (columnName renameTo : String) : List RenamePair → Option (List RenamePair)
  | [] => none
  | entry :: renameMap =>
    if entry.renameTo = columnName then some ({ entry with renameTo } :: renameMap)
    else (chainRename columnName renameTo renameMap).map (entry :: ·)

namespace AlterConversions

/-- `addMutationCommand` of the commands that change names. -/
def addMutationCommand (conversions : AlterConversions) : MetadataCommand → AlterConversions
  | .renameColumn columnName renameTo =>
    match chainRename columnName renameTo conversions.renameMap with
    | some renameMap => { conversions with renameMap }
    | none => { conversions with renameMap := conversions.renameMap ++ [⟨renameTo, columnName⟩] }
  | .dropColumn columnName => { conversions with droppedColumns := columnName :: conversions.droppedColumns }

/-- `isColumnRenamed` and `getColumnOldName`: the old name of a column that was renamed. -/
def getColumnOldName? (conversions : AlterConversions) (newName : String) : Option String :=
  (conversions.renameMap.find? fun entry => entry.renameTo = newName).map RenamePair.renameFrom

/-- The name in the part. -/
def nameInPart (conversions : AlterConversions) (name : String) : String := (conversions.getColumnOldName? name).getD name

/-- The prefix of the name before the first dot. -/
def nestedPrefix (name : String) : String := String.ofList (name.toList.takeWhile fun c => c ≠ '.')

/-- `isColumnDropped`: the column or its Nested column. -/
def isColumnDropped (conversions : AlterConversions) (name : String) : Bool :=
  name ∈ conversions.droppedColumns ∨ ('.' ∈ name.toList ∧ nestedPrefix name ∈ conversions.droppedColumns)

end AlterConversions

/-- A requested column (`NameAndTypePair`), or a subcolumn of it. -/
structure RequestedColumn where
  nameInStorage : String
  subcolumnName : Option String := none
deriving DecidableEq, Repr

/-- What `IMergeTreeDataPartInfoForReader` tells of a part: the names of its columns, which subcolumns their types
have, the files and sizes of the columns, and the text indexes that are materialized. -/
structure PartInfoForReader where
  columns : List String
  hasSubcolumn : String → String → Bool := fun _ _ => false
  isProjectionPart : Bool := false
  alterConversions : AlterConversions := {}
  hasColumnFiles : String → Bool := fun _ => true
  columnSize : String → BitVec 64 := fun _ => 0
  hasMaterializedTextIndex : String → Bool := fun _ => false

namespace PartInfoForReader

/-- `getColumnInPart`: the column under its name in the part. -/
def getColumnInPart (part : PartInfoForReader) (column : RequestedColumn) : RequestedColumn :=
  { column with nameInStorage := part.alterConversions.nameInPart column.nameInStorage }

/-- The column or subcolumn is in the part. -/
def hasColumn (part : PartInfoForReader) (column : RequestedColumn) : Bool :=
  column.nameInStorage ∈ part.columns ∧ column.subcolumnName.all (part.hasSubcolumn column.nameInStorage)

def isColumnDroppedByPendingMutation (part : PartInfoForReader) (column : RequestedColumn) : Bool :=
  !part.isProjectionPart && part.alterConversions.isColumnDropped (part.getColumnInPart column).nameInStorage

/-- The column of the part that the reader reads, if the column is not missing. -/
def readsFrom (part : PartInfoForReader) (column : RequestedColumn) : Option String :=
  if part.hasColumn (part.getColumnInPart column) ∧ ¬part.isColumnDroppedByPendingMutation column then
    some (part.getColumnInPart column).nameInStorage
  else none

end PartInfoForReader

end MergeTree
