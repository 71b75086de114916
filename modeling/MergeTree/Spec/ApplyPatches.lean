import MergeTree.Lib.LastWriter

/-!
# Applying patches

`MergeTreeReadersChain::applyPatches` groups the patches of a block by the columns they
update and calls `applyPatchesToBlock` for each group. That function updates the block with
one patch after another, with the versions of the rows at hand
(`applyPatchesToBlockRaw`), or merges all patches into one first
(`applyPatchesToBlockCombined`).

The updates of a column (`IColumn`), the cast of a column and the order of a heap are not
code of this directory and are parameters. The type of a column stands for its structure.
-/

namespace MergeTree

open LastWriter

/-! ## Blocks -/

/-- `ColumnWithTypeAndName` of the result block. -/
structure ResultColumn (S V : Type) where
  name : String
  type : S
  values : List V

/-- `ColumnWithTypeAndName` of a patch block; the column may be null. -/
structure PatchColumn (S V : Type) where
  name : String
  type : S
  column : Option (List V)

/-- A block of a patch part, with its `_part_data_version` column. -/
structure PatchBlock (S V : Type) where
  columns : List (PatchColumn S V) := []
  dataVersions : List ℕ := []

/-- `getByName`, if there is one. -/
def PatchBlock.find {S V : Type} (block : PatchBlock S V) (name : String) : Option (PatchColumn S V) :=
  block.columns.find? fun column => column.name = name

/-- `PatchToApply`. -/
structure PatchToApply (S V : Type) where
  patchBlocks : List (PatchBlock S V) := []
  resultRowIndices : List ℕ := []
  patchBlockIndices : List ℕ := []
  patchRowIndices : List ℕ := []

namespace PatchToApply

variable {S V : Type} (patch : PatchToApply S V)

def empty : Bool := patch.patchBlocks.isEmpty

def getNumSources : ℕ := patch.patchBlocks.length

def getNumRows : ℕ := patch.resultRowIndices.length

def getPatchBlockIndex (rowIdx : ℕ) : ℕ := if patch.getNumSources = 1 then 0 else patch.patchBlockIndices.getD rowIdx 0

def getPatchRowIndex (rowIdx : ℕ) : ℕ := patch.patchRowIndices.getD rowIdx 0

def getResultRowIndex (rowIdx : ℕ) : ℕ := patch.resultRowIndices.getD rowIdx 0

end PatchToApply

/-- The versions of the rows, for each column that was updated: `_part_data_version_<column>`. -/
abbrev VersionsBlock : Type := List (String × List ℕ)

/-! ## What is not code of this directory -/

/-- `IColumn::Patch::Source`. -/
structure UpdateSource (V : Type) where
  column : List V
  versions : List ℕ

/-- `IColumn::Patch`. -/
structure UpdatePatch (V : Type) where
  sources : List (UpdateSource V)
  srcColIndices : Option (List ℕ)
  srcRowIndices : List ℕ
  dstRowIndices : List ℕ

/-- The writes of a patch to a row, in order. -/
def UpdatePatch.writesAt {V : Type} (patch : UpdatePatch V) (row : ℕ) : List (Cell V ℕ) :=
  (List.range patch.dstRowIndices.length).filterMap fun i =>
    if patch.dstRowIndices.getD i 0 = row then
      match patch.sources[(patch.srcColIndices.map fun indices => indices.getD i 0).getD 0]? with
      | some source =>
        match source.column[patch.srcRowIndices.getD i 0]?, source.versions[patch.srcRowIndices.getD i 0]? with
        | some value, some version => some ⟨value, version⟩
        | _, _ => none
      | none => none
    else none

/-- A column and the versions of its rows. -/
abbrev VersionedColumn (V : Type) : Type := List V × List ℕ

/-- The cell in a row. -/
def VersionedColumn.cellAt {V : Type} (column : VersionedColumn V) (row : ℕ) : Option (Cell V ℕ) :=
  match column.1[row]?, column.2[row]? with
  | some value, some version => some ⟨value, version⟩
  | _, _ => none

/-- The functions of `IColumn`, `castColumn` and `assertCompatibleHeader`, and a heap: `popHeap` takes an
element with the least key out. -/
structure PatchEnvironment (S V : Type) where
  updateFrom : UpdatePatch V → VersionedColumn V → VersionedColumn V
  updateInplaceFrom : UpdatePatch V → VersionedColumn V → VersionedColumn V
  canApplyPatchInplace : S → Bool
  castColumn : S → S → V → V
  isCompatibleHeader : PatchBlock S V → PatchBlock S V → Bool
  popHeap : (ℕ → ℕ) → List ℕ → Option (ℕ × List ℕ)

/-! ## Errors -/

/-- The exception of `assertCompatibleHeader`. -/
def incompatibleHeader : String := "Block structure mismatch in patch parts"

/-- The exception of `getByName`. -/
def columnNotFound (name : String) : String := "Not found column " ++ name

/-- The exception on a column without data. -/
def nullPatchColumn (name : String) : String := "Column " ++ name ++ " has null data in patch block"

/-! ## `applyPatches.cpp` -/

def isPatchPartSystemColumn (name : String) : Bool :=
  name ∈ ["_part", "_part_offset", "_block_number", "_block_offset", "_part_data_version"]

/-- The name of the versions of a column. -/
def dataVersionName (columnName : String) : String := "_part_data_version" ++ "_" ++ columnName

/-- `addDataVersionForColumn`: the block with the versions of the column, and the versions. -/
def addDataVersionForColumn (block : VersionsBlock) (columnName : String) (numRows dataVersion : ℕ) :
    VersionsBlock × List ℕ :=
  match block.lookup (dataVersionName columnName) with
  | some versions => (block, versions)
  | none =>
    let versions := List.replicate numRows dataVersion
    (block ++ [(dataVersionName columnName, versions)], versions)

/-- The versions of a column, written back. -/
def VersionsBlock.setVersions (block : VersionsBlock) (columnName : String) (versions : List ℕ) : VersionsBlock :=
  block.map fun entry => if entry.1 = dataVersionName columnName then (entry.1, versions) else entry

section Apply

variable {S V : Type} [DecidableEq S] (env : PatchEnvironment S V)

/-- The values of a patch column, in the structure of the result column. -/
def sourceValues (resultColumn : ResultColumn S V) (patchColumn : PatchColumn S V) (values : List V) : List V :=
  if resultColumn.type = patchColumn.type then values
  else values.map (env.castColumn patchColumn.type resultColumn.type)

/-- `updateInplaceFrom` or `updateFrom`. -/
def updateColumn (type : S) (patch : UpdatePatch V) (column : VersionedColumn V) : VersionedColumn V :=
  if env.canApplyPatchInplace type then env.updateInplaceFrom patch column else env.updateFrom patch column

/-- `getUpdatedHeader`, as the names of its columns: those of the first patch that has blocks. -/
def getUpdatedHeader (patches : List (PatchToApply S V)) (updatedColumns : List String) : Except String (List String) := do
  let headers ← (patches.filter fun patch => !patch.patchBlocks.isEmpty).mapM fun patch =>
    match patch.patchBlocks with
    | [] => .ok []
    | first :: rest =>
      if rest.all fun block => env.isCompatibleHeader block first then
        .ok ((first.columns.filter fun column => column.name ∈ updatedColumns ∧ column.column.isSome).map PatchColumn.name)
      else .error incompatibleHeader
  return headers.headD []

def canApplyPatchesRaw (patches : List (PatchToApply S V)) : Bool :=
  patches.all fun patch =>
    patch.getNumSources = 1 ∧
      (1 < patches.length → ∀ block ∈ patch.patchBlocks.take 1, ∀ column ∈ block.columns,
        ¬ isPatchPartSystemColumn column.name → column.column.isSome → env.canApplyPatchInplace column.type)

/-! ### One patch after another -/

/-- One patch on one column. -/
def applyPatchRaw (resultColumn : ResultColumn S V) (column : VersionedColumn V) (patchToApply : PatchToApply S V) :
    VersionedColumn V :=
  match patchToApply.patchBlocks with
  | [] => column
  | patchBlock :: _ =>
    match patchBlock.find resultColumn.name with
    | none => column
    | some patchColumn =>
      match patchColumn.column with
      | none => column
      | some values =>
        updateColumn env resultColumn.type
          { sources := [⟨sourceValues env resultColumn patchColumn values, patchBlock.dataVersions⟩]
            srcColIndices := none
            srcRowIndices := patchToApply.patchRowIndices
            dstRowIndices := patchToApply.resultRowIndices } column

/-! ### All patches merged into one -/

/-- An entry of the merged patch: `src_block_indices`, `src_row_indices` and `dst_row_indices`. -/
structure Picked where
  srcBlockIndex : ℕ
  srcRowIndex : ℕ
  dstRowIndex : ℕ
deriving DecidableEq, Repr

/-- The blocks of all patches, flattened. -/
def allPatchBlocks (patches : List (PatchToApply S V)) : List (PatchBlock S V) := patches.flatMap PatchToApply.patchBlocks

/-- `flattened_block_indices[patch_idx][patch_block_idx]`. -/
def flattenedBlockIndex (patches : List (PatchToApply S V)) (patchIdx patchBlockIdx : ℕ) : ℕ :=
  ((patches.take patchIdx).map PatchToApply.getNumSources).sum + patchBlockIdx

/-- The entry of a row of a patch. -/
def pickedRow (patches : List (PatchToApply S V)) (patchIdx rowIdx : ℕ) : Picked :=
  let patch := patches.getD patchIdx {}
  ⟨flattenedBlockIndex patches patchIdx (patch.getPatchBlockIndex rowIdx), patch.getPatchRowIndex rowIdx,
    patch.getResultRowIndex rowIdx⟩

/-- The data version of an entry. -/
def pickedVersion (patches : List (PatchToApply S V)) (picked : Picked) : ℕ :=
  ((allPatchBlocks patches).getD picked.srcBlockIndex {}).dataVersions.getD picked.srcRowIndex 0

/-- `get_row_op` and what follows it: a new row is added, an entry with a greater version replaces the last
one, any other is skipped. -/
def addRow (version : Picked → ℕ) (out : List Picked) (current : Picked) : List Picked :=
  match out.getLast? with
  | none => out ++ [current]
  | some last =>
    if current.dstRowIndex ≠ last.dstRowIndex then out ++ [current]
    else if version last < version current then out.dropLast ++ [current]
    else out

/-- The state of the merge. -/
structure CombinedPatchBuilder where
  heap : List ℕ
  cursors : ℕ → ℕ
  out : List Picked

/-- One round of the loop: the patch with the least row comes first. -/
def mergeRound (patches : List (PatchToApply S V)) (builder : CombinedPatchBuilder) : CombinedPatchBuilder :=
  match env.popHeap (fun patchIdx => (pickedRow patches patchIdx (builder.cursors patchIdx)).dstRowIndex) builder.heap with
  | none => builder
  | some (patchIdx, heap) =>
    let rowIdx := builder.cursors patchIdx
    let out := addRow (pickedVersion patches) builder.out (pickedRow patches patchIdx rowIdx)
    let cursors := Function.update builder.cursors patchIdx (rowIdx + 1)
    if rowIdx + 1 < (patches.getD patchIdx {}).getNumRows then ⟨patchIdx :: heap, cursors, out⟩
    else ⟨heap, cursors, out⟩

/-- The loop, for at most so many rounds. -/
def mergeRounds (patches : List (PatchToApply S V)) : ℕ → CombinedPatchBuilder → CombinedPatchBuilder
  | 0, builder => builder
  | rounds + 1, builder =>
    if builder.heap.isEmpty then builder else mergeRounds patches rounds (mergeRound env patches builder)

/-- The rows of all patches: one round for each. -/
def totalRows (patches : List (PatchToApply S V)) : ℕ := (patches.map PatchToApply.getNumRows).sum

/-- `build`. -/
def buildCombinedPatch (patches : List (PatchToApply S V)) : CombinedPatchBuilder :=
  mergeRounds env patches (totalRows patches)
    ⟨(List.range patches.length).filter fun i => 0 < (patches.getD i {}).getNumRows, fun _ => 0, []⟩

/-- The source of a block for a column. -/
def createSource (resultColumn : ResultColumn S V) (patchBlock : PatchBlock S V) : Except String (UpdateSource V) :=
  match patchBlock.find resultColumn.name with
  | none => .error (columnNotFound resultColumn.name)
  | some patchColumn =>
    match patchColumn.column with
    | none => .error (nullPatchColumn resultColumn.name)
    | some values => .ok ⟨sourceValues env resultColumn patchColumn values, patchBlock.dataVersions⟩

def createPatchForColumn (patches : List (PatchToApply S V)) (resultColumn : ResultColumn S V) :
    Except String (UpdatePatch V) := do
  let sources ← (allPatchBlocks patches).mapM (createSource env resultColumn)
  let out := (buildCombinedPatch env patches).out
  return { sources, srcColIndices := some (out.map Picked.srcBlockIndex), srcRowIndices := out.map Picked.srcRowIndex,
           dstRowIndices := out.map Picked.dstRowIndex }

/-! ### A block -/

/-- The loop over the columns of the result block; `update` is what is done with a column of the header. -/
def forColumns (updatedHeader : List String) (rows sourceDataVersion : ℕ)
    (update : ResultColumn S V → VersionedColumn V → Except String (VersionedColumn V)) :
    List (ResultColumn S V) → VersionsBlock → Except String (List (ResultColumn S V) × VersionsBlock)
  | [], versionsBlock => .ok ([], versionsBlock)
  | column :: columns, versionsBlock =>
    if column.name ∈ updatedHeader then do
      let (added, versions) := addDataVersionForColumn versionsBlock column.name rows sourceDataVersion
      let updated ← update column (column.values, versions)
      let (columns, versionsBlock) ← forColumns updatedHeader rows sourceDataVersion update columns
        (added.setVersions column.name updated.2)
      return ({ column with values := updated.1 } :: columns, versionsBlock)
    else do
      let (columns, versionsBlock) ← forColumns updatedHeader rows sourceDataVersion update columns versionsBlock
      return (column :: columns, versionsBlock)

/-- The rows of a block. -/
def blockRows (block : List (ResultColumn S V)) : ℕ :=
  match block with
  | [] => 0
  | column :: _ => column.values.length

def applyPatchesToBlockRaw (block : List (ResultColumn S V)) (versionsBlock : VersionsBlock)
    (patches : List (PatchToApply S V)) (updatedHeader : List String) (sourceDataVersion : ℕ) :
    Except String (List (ResultColumn S V) × VersionsBlock) :=
  if patches.isEmpty then .ok (block, versionsBlock)
  else
    forColumns updatedHeader (blockRows block) sourceDataVersion
      (fun resultColumn column => .ok (patches.foldl (applyPatchRaw env resultColumn) column)) block versionsBlock

def applyPatchesToBlockCombined (block : List (ResultColumn S V)) (versionsBlock : VersionsBlock)
    (patches : List (PatchToApply S V)) (updatedHeader : List String) (sourceDataVersion : ℕ) :
    Except String (List (ResultColumn S V) × VersionsBlock) :=
  if patches.isEmpty then .ok (block, versionsBlock)
  else
    forColumns updatedHeader (blockRows block) sourceDataVersion
      (fun resultColumn column => do
        let patch ← createPatchForColumn env patches resultColumn
        return updateColumn env resultColumn.type patch column) block versionsBlock

def applyPatchesToBlock (block : List (ResultColumn S V)) (versionsBlock : VersionsBlock)
    (patches : List (PatchToApply S V)) (updatedColumns : List String) (sourceDataVersion : ℕ) :
    Except String (List (ResultColumn S V) × VersionsBlock) :=
  if patches.isEmpty then .ok (block, versionsBlock)
  else do
    let updatedHeader ← getUpdatedHeader env patches updatedColumns
    if canApplyPatchesRaw env patches then
      applyPatchesToBlockRaw env block versionsBlock patches updatedHeader sourceDataVersion
    else applyPatchesToBlockCombined env block versionsBlock patches updatedHeader sourceDataVersion

end Apply

/-! ## `MergeTreeReadersChain::applyPatches` -/

/-- The exception on a patch part that intersects a mutation. -/
def intersectsMutation (partName : String) (minVersion maxVersion maxDataVersion : ℤ) : String :=
  "Found patch part " ++ partName ++ " (min data version: " ++ toString minVersion ++ ", max data version: " ++
    toString maxVersion ++ ") that intersects mutation with version " ++ toString maxDataVersion

def patchHasHigherDataVersion (partName : String) (minPatchVersion maxPatchVersion maxDataVersion : ℤ) : Except String Bool :=
  if maxDataVersion < maxPatchVersion then
    if minPatchVersion ≤ maxDataVersion then
      .error (intersectsMutation partName minPatchVersion maxPatchVersion maxDataVersion)
    else .ok true
  else .ok false

/-- The exception on patches with different source versions. -/
def differentSourceVersions (got expected : ℕ) : String :=
  "Patches for one reader must have the same source data version. Got: " ++ toString got ++ ", expected: " ++ toString expected

/-- A patch reader: its patch part, the columns of `columns_for_patches` with a suitable order, and what
`applyPatch` returns for each of its results. -/
structure ReaderPatches (S V : Type) where
  partName : String
  minDataVersion : ℤ
  maxDataVersion : ℤ
  sourceDataVersion : ℕ
  columns : List String
  patchesToApply : List (PatchToApply S V)

/-- The patches of each list of updated columns. -/
abbrev PatchGroups (S V : Type) : Type := List (List String × List (PatchToApply S V))

section Chain

variable {S V : Type}

/-- `patches_to_apply[updated_columns].push_back`. -/
def PatchGroups.push (groups : PatchGroups S V) (updatedColumns : List String) (patch : PatchToApply S V) : PatchGroups S V :=
  match groups with
  | [] => [(updatedColumns, [patch])]
  | group :: groups =>
    if group.1 = updatedColumns then (group.1, group.2 ++ [patch]) :: groups
    else group :: PatchGroups.push groups updatedColumns patch

/-- `std::sort` of names. -/
def sortNames (names : List String) : List String := names.mergeSort fun a b => decide (a ≤ b)

/-- `min_version` and `max_version` let the patch pass. -/
def patchInVersions (minVersion maxVersion : Option ℕ) (reader : ReaderPatches S V) : Except String Bool := do
  let aboveMin ← match minVersion with
    | none => pure true
    | some version => patchHasHigherDataVersion reader.partName reader.minDataVersion reader.maxDataVersion version
  if !aboveMin then return false
  match maxVersion with
  | none => return true
  | some version =>
    return !(← patchHasHigherDataVersion reader.partName reader.minDataVersion reader.maxDataVersion version)

/-- The patches of one reader. -/
def groupReader (minVersion maxVersion : Option ℕ) (sourceDataVersion : ℕ) (groups : PatchGroups S V)
    (reader : ReaderPatches S V) : Except String (PatchGroups S V) := do
  if reader.sourceDataVersion ≠ sourceDataVersion then
    throw (differentSourceVersions reader.sourceDataVersion sourceDataVersion)
  if !(← patchInVersions minVersion maxVersion reader) then return groups
  if reader.columns.isEmpty then return groups
  return (reader.patchesToApply.filter fun patch => !patch.empty).foldl
    (fun groups patch => groups.push (sortNames reader.columns) patch) groups

/-- The patches of all readers. -/
def groupPatches (minVersion maxVersion : Option ℕ) (sourceDataVersion : ℕ) (readers : List (ReaderPatches S V)) :
    Except String (PatchGroups S V) :=
  readers.foldlM (groupReader minVersion maxVersion sourceDataVersion) []

variable [DecidableEq S] (env : PatchEnvironment S V)

/-- The groups, in the order in which the map has them. -/
def applyGroups (sourceDataVersion : ℕ) (block : List (ResultColumn S V)) (versionsBlock : VersionsBlock)
    (groups : PatchGroups S V) : Except String (List (ResultColumn S V) × VersionsBlock) :=
  groups.foldlM
    (fun state group => applyPatchesToBlock env state.1 state.2 group.2 group.1 sourceDataVersion) (block, versionsBlock)

/-- The version of rows that no patch updates: at least `min_version`. -/
def effectiveSourceVersion (minVersion : Option ℕ) (sourceDataVersion : ℕ) : ℕ :=
  match minVersion with
  | some version => max sourceDataVersion version
  | none => sourceDataVersion

/-- `applyPatches`, for a result block with its virtual columns; `order` is the order of the map. -/
def applyPatches (order : PatchGroups S V → PatchGroups S V) (minVersion maxVersion : Option ℕ)
    (block : List (ResultColumn S V)) (versionsBlock : VersionsBlock) (readers : List (ReaderPatches S V)) :
    Except String (List (ResultColumn S V) × VersionsBlock) :=
  match readers with
  | [] => .ok (block, versionsBlock)
  | first :: _ =>
    if block.isEmpty then .ok (block, versionsBlock)
    else do
      let groups ← groupPatches minVersion maxVersion first.sourceDataVersion readers
      applyGroups env (effectiveSourceVersion minVersion first.sourceDataVersion) block versionsBlock (order groups)

end Chain

/-! ## The last writer of a cell -/

section Meaning

variable {S V : Type} [DecidableEq S] (env : PatchEnvironment S V)

/-- The value and the version of a patch row for a column. -/
def PatchToApply.cell (resultColumn : ResultColumn S V) (patch : PatchToApply S V) (rowIdx : ℕ) : Option (Cell V ℕ) :=
  match patch.patchBlocks[patch.getPatchBlockIndex rowIdx]? with
  | none => none
  | some patchBlock =>
    match patchBlock.find resultColumn.name with
    | none => none
    | some patchColumn =>
      match patchColumn.column with
      | none => none
      | some values =>
        match (sourceValues env resultColumn patchColumn values)[patch.getPatchRowIndex rowIdx]?,
          patchBlock.dataVersions[patch.getPatchRowIndex rowIdx]? with
        | some value, some version => some ⟨value, version⟩
        | _, _ => none

/-- The patch rows aimed at a row, for a column. -/
def PatchToApply.writesAt (resultColumn : ResultColumn S V) (patch : PatchToApply S V) (row : ℕ) : List (Cell V ℕ) :=
  (List.range patch.getNumRows).filterMap fun rowIdx =>
    if patch.getResultRowIndex rowIdx = row then patch.cell env resultColumn rowIdx else none

/-- The patches of a reader that are applied, with the columns they update. -/
def ReaderPatches.accepted (minVersion maxVersion : Option ℕ) (reader : ReaderPatches S V) :
    List (List String × PatchToApply S V) :=
  match patchInVersions minVersion maxVersion reader with
  | .ok true =>
    if reader.columns.isEmpty then []
    else (reader.patchesToApply.filter fun patch => !patch.empty).map fun patch => (reader.columns, patch)
  | _ => []

/-- The patch rows aimed at a cell in patches that update its column. -/
def cellWrites (accepted : List (List String × PatchToApply S V)) (resultColumn : ResultColumn S V) (row : ℕ) :
    List (Cell V ℕ) :=
  accepted.flatMap fun entry => if resultColumn.name ∈ entry.1 then entry.2.writesAt env resultColumn row else []

/-- The block with the last write of every cell. -/
def lastWritten (accepted : List (List String × PatchToApply S V)) (sourceDataVersion : ℕ)
    (block : List (ResultColumn S V)) : List (ResultColumn S V) :=
  block.map fun column => { column with
    values := column.values.mapIdx fun row value =>
      (writeAll ⟨value, sourceDataVersion⟩ (cellWrites env accepted column row)).value }

/-- A patch over a block with so many rows that updates these columns. -/
structure PatchToApply.WellFormed (rows : ℕ) (updatedColumns : List String) (patch : PatchToApply S V) : Prop where
  sorted : patch.resultRowIndices.Pairwise (· ≤ ·)
  resultRow_lt : ∀ row ∈ patch.resultRowIndices, row < rows
  patchRows_length : patch.patchRowIndices.length = patch.resultRowIndices.length
  patchBlock_exists : ∀ rowIdx < patch.getNumRows, ∃ patchBlock,
    patch.patchBlocks[patch.getPatchBlockIndex rowIdx]? = some patchBlock ∧
      patch.getPatchRowIndex rowIdx < patchBlock.dataVersions.length
  column_exists : ∀ patchBlock ∈ patch.patchBlocks, ∀ name ∈ updatedColumns, ∃ patchColumn values,
    patchBlock.find name = some patchColumn ∧ patchColumn.column = some values ∧
      values.length = patchBlock.dataVersions.length
  compatible : ∀ first rest, patch.patchBlocks = first :: rest → ∀ patchBlock ∈ rest,
    env.isCompatibleHeader patchBlock first = true

/-- A reader whose patches can be applied. -/
structure ReaderPatches.WellFormed (minVersion maxVersion : Option ℕ) (sourceDataVersion rows : ℕ)
    (reader : ReaderPatches S V) : Prop where
  source_eq : reader.sourceDataVersion = sourceDataVersion
  versions : ∃ inVersions, patchInVersions minVersion maxVersion reader = .ok inVersions
  patches : ∀ patch ∈ reader.patchesToApply, patch.WellFormed env rows reader.columns

/-- A block with so many rows; its columns have different names. -/
structure BlockOf (rows : ℕ) (block : List (ResultColumn S V)) : Prop where
  length_eq : ∀ column ∈ block, column.values.length = rows
  names : (block.map ResultColumn.name).Nodup

/-- A patch that can be given to a column: its rows are in order and exist. -/
structure UpdatePatch.Valid (patch : UpdatePatch V) (column : VersionedColumn V) : Prop where
  sorted : patch.dstRowIndices.Pairwise (· ≤ ·)
  dst_lt : ∀ row ∈ patch.dstRowIndices, row < column.1.length
  versions_length : column.2.length = column.1.length
  srcRows_length : patch.srcRowIndices.length = patch.dstRowIndices.length
  source_exists : ∀ i < patch.dstRowIndices.length, ∃ source,
    patch.sources[(patch.srcColIndices.map fun indices => indices.getD i 0).getD 0]? = some source ∧
      patch.srcRowIndices.getD i 0 < source.column.length ∧ source.versions.length = source.column.length

/-- Every row takes, of the patch rows aimed at it in order, those with a greater version than it has. -/
structure UpdatePatch.Writes (patch : UpdatePatch V) (column column' : VersionedColumn V) : Prop where
  values_length : column'.1.length = column.1.length
  versions_length : column'.2.length = column.2.length
  cells : ∀ row, column'.cellAt row = (column.cellAt row).map fun c => writeAll c (patch.writesAt row)

/-- The functions of `IColumn` update the rows; a heap gives an element with the least key. -/
structure PatchEnvironment.Lawful : Prop where
  updateFrom : ∀ (patch : UpdatePatch V) (column : VersionedColumn V), patch.Valid column →
    patch.Writes column (env.updateFrom patch column)
  updateInplaceFrom : ∀ (patch : UpdatePatch V) (column : VersionedColumn V), patch.Valid column →
    patch.Writes column (env.updateInplaceFrom patch column)
  popHeap : ∀ key heap, heap ≠ [] → ∃ x rest, env.popHeap key heap = some (x, rest) ∧ (x :: rest).Perm heap ∧
    ∀ y ∈ heap, key x ≤ key y

end Meaning

end MergeTree
