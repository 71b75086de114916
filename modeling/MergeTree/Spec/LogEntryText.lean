import MergeTree.Spec.NumberText
import MergeTree.Spec.LogEntry

/-!
# The text of replication log entries

`ReplicatedMergeTreeLogEntryData::writeText` and `readText`, with the nested
`ReplaceRangeEntry`, and `ReplicatedMergeTreeLogEntry::parse`
(`ReplicatedMergeTreeLogEntry.h`, `.cpp`), `MergeTreeDataPartFormat`
(`MergeTreeDataPartType.h`, `.cpp`) and `MergeType` (`MergeType.h`, `.cpp`).

A character stands for a byte of the text. The readers and writers of single values belong
to the IO library; they are the class `EntryText`.
-/

namespace MergeTree

/-- `MergeTreeDataPartType::Value`. -/
inductive PartType
  | wide
  | compact
  | unknown
deriving DecidableEq, Repr

/-- `MergeTreeDataPartStorageType::Value`. -/
inductive PartStorageType
  | full
  | packed
  | unknown
deriving DecidableEq, Repr

/-- `MergeTreeDataPartFormat`. -/
structure PartFormat where
  partType : PartType := .unknown
  storageType : PartStorageType := .unknown
deriving DecidableEq, Repr

/-- `parseEnum`: the value with the name `str`, unless it is the unknown one. -/
def parseEnum {E : Type} [DecidableEq E] (enumTypeName : String) (values : List E) (name : E → String)
    (unknown : E) (str : String) : Except String E :=
  match values.find? fun e => name e = str with
  | some value =>
    if value = unknown then .error s!"Unexpected string {str} for enum {enumTypeName}" else .ok value
  | none => .error s!"Unexpected string {str} for enum {enumTypeName}"

/-- `MergeTreeDataPartType::toString`. -/
def PartType.toString : PartType → String
  | .wide => "Wide"
  | .compact => "Compact"
  | .unknown => "Unknown"

/-- `MergeTreeDataPartType::fromString`. -/
def PartType.fromString (str : String) : Except String PartType :=
  parseEnum "DB::MergeTreeDataPartType::Value" [.wide, .compact, .unknown] PartType.toString .unknown str

/-- `MergeTreeDataPartStorageType::toString`. -/
def PartStorageType.toString : PartStorageType → String
  | .full => "Full"
  | .packed => "Packed"
  | .unknown => "Unknown"

/-- `MergeTreeDataPartStorageType::fromString`. -/
def PartStorageType.fromString (str : String) : Except String PartStorageType :=
  parseEnum "DB::MergeTreeDataPartStorageType::Value" [.full, .packed, .unknown] PartStorageType.toString
    .unknown str

/-- `MergeType`. -/
inductive MergeType
  | regular
  | ttlDelete
  | ttlRecompress
  | ttlDrop
deriving DecidableEq, Repr

/-- `static_cast<UInt64>(merge_type)`. -/
def MergeType.toNat : MergeType → ℕ
  | .regular => 1
  | .ttlDelete => 2
  | .ttlRecompress => 3
  | .ttlDrop => 4

/-- `checkAndGetMergeType`, of a value of the underlying type. -/
def checkAndGetMergeType (mergeType : ℕ) : Except String MergeType :=
  match [MergeType.regular, .ttlDelete, .ttlRecompress, .ttlDrop].find? fun t => t.toNat = mergeType with
  | some value => .ok value
  | none => .error s!"Unknown MergeType {mergeType}"

/-- `LocalDateTime`. -/
structure LocalDateTime where
  year : ℕ
  month : ℕ
  day : ℕ
  hour : ℕ
  minute : ℕ
  second : ℕ
deriving DecidableEq, Repr

/-- The readers and writers of the IO library that the text of an entry uses besides numbers, and
the conversions of the time zone of the server. `readString` is `in >> s` for a string,
`writeEscaped` and `writeQuoted` are the manipulators `escape` and `quote`, and the functions of
`Strings` write and read a list of quoted strings. -/
class EntryText extends NumberText where
  readString : TextReader String
  writeEscaped : String → String
  readEscaped : TextReader String
  writeQuoted : String → String
  readQuoted : TextReader String
  writeQuotedStrings : List String → String
  readQuotedStrings : TextReader (List String)
  writeBool : Bool → String
  readBool : TextReader Bool
  writeUuid : BitVec 128 → String
  readUuid : TextReader (BitVec 128)
  toLocalDateTime : ℤ → LocalDateTime
  makeDateTime (year month day hour minute second : ℕ) : ℤ
  writeDateTime : LocalDateTime → String
  readDateTime : TextReader LocalDateTime

/-- `ReplicatedMergeTreeLogEntryData::ReplaceRangeEntry`. -/
structure LogEntryData.ReplaceRangeEntry where
  dropRangePartName : String := ""
  fromDatabase : String := ""
  fromTable : String := ""
  srcPartNames : List String := []
  newPartNames : List String := []
  partNamesChecksums : List String := []
  columnsVersion : ℤ := 0
deriving DecidableEq, Repr

/-- `ReplicatedMergeTreeLogEntryData`, with the fields that have a place in the text. -/
structure LogEntryData where
  logEntryId : String := ""
  type : LogEntryType := .empty
  sourceReplica : String := ""
  sourceShard : String := ""
  partChecksum : String := ""
  newPartName : String := ""
  newPartFormat : PartFormat := {}
  deduplicationBlockIds : List String := []
  newPartUuid : BitVec 128 := 0
  sourceParts : List String := []
  patchParts : List String := []
  deduplicate : Bool := false
  deduplicateByColumns : List String := []
  cleanup : Bool := false
  mergeType : MergeType := .regular
  columnName : String := ""
  indexName : String := ""
  detach : Bool := false
  replaceRangeEntry : Option LogEntryData.ReplaceRangeEntry := none
  alterVersion : ℤ := -1
  haveMutation : Bool := false
  columnsStr : String := ""
  metadataStr : String := ""
  createTime : ℤ := 0
  quorum : ℕ := 0
deriving DecidableEq, Repr

/-! ## Format versions -/

def formatWithCreateTime : ℕ := 2
def formatWithBlockId : ℕ := 3
def formatWithDeduplicate : ℕ := 4
def formatWithUuid : ℕ := 5
def formatWithDeduplicateByColumns : ℕ := 6
def formatWithLogEntryId : ℕ := 7
def formatLast : ℕ := 8

/-- The text of `REPLACE_RANGE` in `typeToString`, which is the type line of its entries. -/
def replaceRangeTypeString : String := "REPLACE_RANGE"

open IntText NumberText EntryText TextReader

variable [EntryText]

namespace LogEntryData

/-! ## Writing -/

def ReplaceRangeEntry.writeText (r : ReplaceRangeEntry) : String :=
  "drop_range_name: " ++ r.dropRangePartName ++ "\n" ++
  "from_database: " ++ writeEscaped r.fromDatabase ++ "\n" ++
  "from_table: " ++ writeEscaped r.fromTable ++ "\n" ++
  "source_parts: " ++ writeQuotedStrings r.srcPartNames ++ "\n" ++
  "new_parts: " ++ writeQuotedStrings r.newPartNames ++ "\n" ++
  "part_checksums: " ++ writeQuotedStrings r.partNamesChecksums ++ "\n" ++
  "columns_version: " ++ writeIntText r.columnsVersion

def isAlterMutation (e : LogEntryData) : Bool := e.type = .mutatePart ∧ e.alterVersion ≠ -1

/-- `format_version` of `writeText`: bumped only for what an older server could not read. -/
def writtenFormatVersion (e : LogEntryData) : ℕ :=
  let v := formatWithDeduplicate
  let v := if e.deduplicateByColumns ≠ [] then max v formatWithDeduplicateByColumns else v
  let v := if e.newPartUuid ≠ 0 then max v formatWithUuid else v
  if e.logEntryId ≠ "" then max v formatWithLogEntryId else v

/-- The lines in front of the type. An entry without a time gets the current one. -/
def writeHeader (e : LogEntryData) (now : ℤ) : String :=
  "format version: " ++ writeIntText e.writtenFormatVersion ++ "\n" ++
  "create_time: " ++ writeDateTime (toLocalDateTime (if e.createTime ≠ 0 then e.createTime else now)) ++ "\n" ++
  "source replica: " ++ e.sourceReplica ++ "\n" ++
  "block_id: " ++ writeEscaped (String.intercalate "," e.deduplicationBlockIds) ++ "\n" ++
  if e.writtenFormatVersion ≥ formatWithLogEntryId then "log_entry_id: " ++ writeEscaped e.logEntryId ++ "\n"
  else ""

/-- The case `MERGE_PARTS` of `writeText`. -/
def writeMerge (e : LogEntryData) : String :=
  "merge\n" ++ String.join (e.sourceParts.map fun s => s ++ "\n") ++ "into\n" ++ e.newPartName ++
  "\ndeduplicate: " ++ writeBool e.deduplicate ++
  (if e.mergeType ≠ .regular then "\nmerge_type: " ++ writeIntText e.mergeType.toNat else "") ++
  (if e.newPartUuid ≠ 0 then "\ninto_uuid: " ++ writeUuid e.newPartUuid else "") ++
  (if e.deduplicateByColumns ≠ [] then
    "\ndeduplicate_by_columns: " ++ String.intercalate "," (e.deduplicateByColumns.map writeQuoted) else "") ++
  (if e.cleanup then "\ncleanup: " ++ writeBool e.cleanup else "") ++
  if e.patchParts ≠ [] then
    "\napply_patches: " ++ writeIntText e.patchParts.length ++ String.join (e.patchParts.map fun s => "\n" ++ s)
  else ""

/-- The case `MUTATE_PART` of `writeText`; `source_parts.at(0)` throws when there is none. -/
def writeMutate (e : LogEntryData) : Except String String :=
  match e.sourceParts with
  | [] => .error "vector"
  | sourcePart :: _ => .ok <|
    "mutate\n" ++ sourcePart ++ "\n" ++ "to\n" ++ e.newPartName ++
    (if e.newPartUuid ≠ 0 then "\nto_uuid\n" ++ writeUuid e.newPartUuid else "") ++
    if e.isAlterMutation then "\nalter_version\n" ++ writeIntText e.alterVersion else ""

/-- The case `ALTER_METADATA` of `writeText`. -/
def writeAlter (e : LogEntryData) : String :=
  "alter\n" ++ "alter_version\n" ++ writeIntText e.alterVersion ++ "\n" ++
  "have_mutation\n" ++ writeBool e.haveMutation ++ "\n" ++
  "columns_str_size:\n" ++ writeIntText e.columnsStr.toList.length ++ "\n" ++ e.columnsStr ++ "\n" ++
  "metadata_str_size:\n" ++ writeIntText e.metadataStr.toList.length ++ "\n" ++ e.metadataStr

/-- The type and the fields that it needs: the switch of `writeText`. -/
def writeBody (e : LogEntryData) : Except String String :=
  match e.type with
  | .getPart => .ok ("get\n" ++ e.newPartName)
  | .clonePartFromShard =>
    .ok ("clone_part_from_shard\n" ++ e.newPartName ++ "\n" ++ "source_shard: " ++ e.sourceShard)
  | .attachPart => .ok ("attach\n" ++ e.newPartName ++ "\n" ++ "part_checksum: " ++ e.partChecksum)
  | .mergeParts => .ok e.writeMerge
  | .dropRange | .dropPart => .ok ((if e.detach then "detach\n" else "drop\n") ++ e.newPartName)
  | .clearColumn => .ok ("clear_column\n" ++ writeEscaped e.columnName ++ "\nfrom\n" ++ e.newPartName)
  | .clearIndex => .ok ("clear_index\n" ++ writeEscaped e.indexName ++ "\nfrom\n" ++ e.newPartName)
  | .replaceRange =>
    match e.replaceRangeEntry with
    | some r => .ok (replaceRangeTypeString ++ "\n" ++ r.writeText)
    -- the source dereferences a null pointer here
    | none => .error "REPLACE_RANGE without replace_range_entry"
  | .mutatePart => e.writeMutate
  | .alterMetadata => .ok e.writeAlter
  | .syncPinnedPartUuids => .ok "sync_pinned_part_uuids\n"
  | .empty => .error "Unknown log entry type: 0"

/-- The optional lines behind the body. -/
def writeTail (e : LogEntryData) : String :=
  (if e.newPartFormat.partType ≠ .wide ∧ e.newPartFormat.partType ≠ .unknown then
    "part_type: " ++ e.newPartFormat.partType.toString ++ "\n" else "") ++
  (if e.newPartFormat.storageType ≠ .full ∧ e.newPartFormat.storageType ≠ .unknown then
    "storage_type: " ++ e.newPartFormat.storageType.toString ++ "\n" else "") ++
  if e.quorum ≠ 0 then "quorum: " ++ writeIntText e.quorum ++ "\n" else ""

/-- `writeText`, which is also `toString`; `now` is `time(nullptr)`. -/
def writeText (e : LogEntryData) (now : ℤ) : Except String String :=
  match e.writeBody with
  | .ok body => .ok (e.writeHeader now ++ body ++ "\n" ++ e.writeTail)
  | .error message => .error message

/-! ## Reading -/

def ReplaceRangeEntry.readText : TextReader ReplaceRangeEntry := do
  assertString "drop_range_name: "
  let dropRangePartName ← readString
  assertString "\n"
  assertString "from_database: "
  let fromDatabase ← readEscaped
  assertString "\n"
  assertString "from_table: "
  let fromTable ← readEscaped
  assertString "\n"
  assertString "source_parts: "
  let srcPartNames ← readQuotedStrings
  assertString "\n"
  assertString "new_parts: "
  let newPartNames ← readQuotedStrings
  assertString "\n"
  assertString "part_checksums: "
  let partNamesChecksums ← readQuotedStrings
  assertString "\n"
  assertString "columns_version: "
  let columnsVersion ← readIntText .int32
  return { dropRangePartName, fromDatabase, fromTable, srcPartNames, newPartNames, partNamesChecksums, columnsVersion }

/-- `splitInto<','>` with `token_compress`: empty tokens are dropped. -/
def splitBlockIds (s : String) : List String :=
  ((s.toList.splitOn ',').filter fun token => token ≠ []).map String.ofList

/-- The line of the time, since format version 2. -/
def readCreateTime (formatVersion : ℤ) (e : LogEntryData) : TextReader LogEntryData :=
  if formatVersion ≥ formatWithCreateTime then do
    assertString "create_time: "
    let dt ← readDateTime
    assertString "\n"
    return { e with createTime := makeDateTime dt.year dt.month dt.day dt.hour dt.minute dt.second }
  else return e

/-- The line of the block ids, since format version 3. -/
def readBlockIds (formatVersion : ℤ) (e : LogEntryData) : TextReader LogEntryData :=
  if formatVersion ≥ formatWithBlockId then do
    assertString "block_id: "
    let blockHashesString ← readEscaped
    assertString "\n"
    return { e with deduplicationBlockIds := e.deduplicationBlockIds ++ splitBlockIds blockHashesString }
  else return e

/-- The line of the id, since format version 7. -/
def readLogEntryId (formatVersion : ℤ) (e : LogEntryData) : TextReader LogEntryData :=
  if formatVersion ≥ formatWithLogEntryId then do
    assertString "log_entry_id: "
    let logEntryId ← readEscaped
    assertString "\n"
    return { e with logEntryId := logEntryId }
  else return e

/-- The lines in front of the type. -/
def readHeader (e : LogEntryData) : TextReader (ℤ × LogEntryData) := do
  assertString "format version: "
  let formatVersion ← readIntText .uint8
  assertString "\n"
  if formatVersion < 1 ∨ formatVersion ≥ formatLast then
    throw s!"Unknown ReplicatedMergeTreeLogEntry format version: {formatVersion}"
  else
    let e ← readCreateTime formatVersion e
    assertString "source replica: "
    let sourceReplica ← readString
    assertString "\n"
    let e ← readBlockIds formatVersion { e with sourceReplica := sourceReplica }
    let e ← readLogEntryId formatVersion e
    return (formatVersion, e)

/-- The lines of the source parts, up to the line `into`. -/
def readSourceParts : ℕ → List String → TextReader (List String)
  | 0, _ => throw "Too many rounds"
  | fuel + 1, sourceParts => do
    let s ← readString
    assertString "\n"
    if s = "into" then return sourceParts else readSourceParts fuel (sourceParts ++ [s])

/-- Quoted names with commas between them. -/
def readColumnNames : ℕ → List String → TextReader (List String) := readSeparated "," readQuoted

/-- `numPatches` lines, the last one without its newline. -/
def readPatchNames : ℕ → List String → TextReader (List String)
  | 0, patchParts => return patchParts
  | 1, patchParts => do
    let patchName ← readString
    return patchParts ++ [patchName]
  | n + 2, patchParts => do
    let patchName ← readString
    assertString "\n"
    readPatchNames (n + 1) (patchParts ++ [patchName])

/-- An optional line of a merge. -/
def readMergeOption (e : LogEntryData) : TextReader (Option LogEntryData) := do
  if ← checkString "merge_type: " then
    let value ← readIntText .uint32
    match checkAndGetMergeType (value.toNat % 2 ^ 8) with
    | .ok mergeType => return some { e with mergeType := mergeType }
    | .error message => throw message
  else if ← checkString "into_uuid: " then
    let newPartUuid ← readUuid
    return some { e with newPartUuid := newPartUuid }
  else if ← checkString "deduplicate_by_columns: " then
    let deduplicateByColumns ← withFuel fun fuel => readColumnNames fuel []
    return some { e with deduplicateByColumns := deduplicateByColumns }
  else if ← checkString "cleanup: " then
    let cleanup ← readBool
    return some { e with cleanup := cleanup }
  else if ← checkString "apply_patches:" then
    assertString " "
    let numPatches ← readIntText .uint64
    assertString "\n"
    let patchParts ← readPatchNames numPatches.toNat e.patchParts
    return some { e with patchParts := patchParts }
  else return none

/-- An optional line of a mutation. -/
def readMutateOption (e : LogEntryData) : TextReader (Option LogEntryData) := do
  if ← checkString "alter_version\n" then
    let alterVersion ← readIntText .int32
    return some { e with alterVersion := alterVersion }
  else if ← checkString "to_uuid\n" then
    let newPartUuid ← readUuid
    return some { e with newPartUuid := newPartUuid }
  else return none

/-- The case `merge` of `readText`; the flag is `trailing_newline_found`. -/
def readMerge (formatVersion : ℤ) (e : LogEntryData) : TextReader (LogEntryData × Bool) := do
  let sourceParts ← withFuel fun fuel => readSourceParts fuel e.sourceParts
  let newPartName ← readString
  let e := { e with type := .mergeParts, sourceParts := sourceParts, newPartName := newPartName }
  if formatVersion ≥ formatWithDeduplicate then
    assertString "\ndeduplicate: "
    let deduplicate ← readBool
    let e ← withFuel fun fuel => readOptions readMergeOption fuel { e with deduplicate := deduplicate }
    return (e, true)
  else return (e, false)

/-- The case `drop` or `detach` of `readText`: a part that no drop range has is dropped alone. -/
def readDrop (partitionFormatVersion : ℕ) (detach : Bool) (e : LogEntryData) : TextReader (LogEntryData × Bool) := do
  let newPartName ← readString
  match fromPartName newPartName partitionFormatVersion with
  | .error message => throw message
  | .ok dropRangeInfo =>
    let type := if dropRangeInfo.isFakeDropRangePart then LogEntryType.dropRange else .dropPart
    return ({ e with type := type, detach := detach, newPartName := newPartName }, false)

/-- The case `mutate` of `readText`. -/
def readMutate (e : LogEntryData) : TextReader (LogEntryData × Bool) := do
  let sourcePart ← readString
  assertString "\n"
  assertString "to\n"
  let newPartName ← readString
  let e := { e with
    type := .mutatePart, newPartName := newPartName, sourceParts := e.sourceParts ++ [sourcePart] }
  let e ← withFuel fun fuel => readOptions readMutateOption fuel e
  return (e, true)

/-- The case `alter` of `readText`. -/
def readAlter (e : LogEntryData) : TextReader (LogEntryData × Bool) := do
  assertString "alter_version\n"
  let alterVersion ← readIntText .int32
  assertString "\nhave_mutation\n"
  let haveMutation ← readBool
  assertString "\ncolumns_str_size:\n"
  let columnsSize ← readIntText .uint64
  assertString "\n"
  let columnsStr ← readStrict columnsSize.toNat
  assertString "\nmetadata_str_size:\n"
  let metadataSize ← readIntText .uint64
  assertString "\n"
  let metadataStr ← readStrict metadataSize.toNat
  return ({ e with
    type := .alterMetadata, alterVersion := alterVersion, haveMutation := haveMutation,
    columnsStr := columnsStr, metadataStr := metadataStr }, false)

/-- The chain of cases of `readText`. An unknown type line leaves the entry empty. -/
def readBody (partitionFormatVersion : ℕ) (formatVersion : ℤ) (typeStr : String) (e : LogEntryData) :
    TextReader (LogEntryData × Bool) :=
  match typeStr with
  | "get" => do
    let newPartName ← readString
    return ({ e with type := .getPart, newPartName := newPartName }, false)
  | "attach" => do
    let newPartName ← readString
    assertString "\npart_checksum: "
    let partChecksum ← readString
    return ({ e with type := .attachPart, newPartName := newPartName, partChecksum := partChecksum }, false)
  | "merge" => readMerge formatVersion e
  | "drop" => readDrop partitionFormatVersion false e
  | "detach" => readDrop partitionFormatVersion true e
  | "clear_column" => do
    let columnName ← readEscaped
    assertString "\nfrom\n"
    let newPartName ← readString
    return ({ e with type := .clearColumn, columnName := columnName, newPartName := newPartName }, false)
  | "clear_index" => do
    let indexName ← readEscaped
    assertString "\nfrom\n"
    let newPartName ← readString
    return ({ e with type := .clearIndex, indexName := indexName, newPartName := newPartName }, false)
  | "REPLACE_RANGE" => do
    let replaceRangeEntry ← ReplaceRangeEntry.readText
    return ({ e with type := .replaceRange, replaceRangeEntry := some replaceRangeEntry }, false)
  | "mutate" => readMutate e
  | "alter" => readAlter e
  | "sync_pinned_part_uuids" => return ({ e with type := .syncPinnedPartUuids }, false)
  | "clone_part_from_shard" => do
    let newPartName ← readString
    assertString "\nsource_shard: "
    let sourceShard ← readString
    return ({ e with type := .clonePartFromShard, newPartName := newPartName, sourceShard := sourceShard }, false)
  | _ => return (e, false)

/-- The body with the newline behind it, which the optional lines of a body have already read. -/
def readBodyLines (partitionFormatVersion : ℕ) (formatVersion : ℤ) (typeStr : String) (e : LogEntryData) :
    TextReader LogEntryData := do
  let (e, trailingNewlineFound) ← readBody partitionFormatVersion formatVersion typeStr e
  if trailingNewlineFound then return e
  else
    assertString "\n"
    return e

/-- The optional line of the part type; a text without it is of a wide part. -/
def readPartType (e : LogEntryData) : TextReader LogEntryData := do
  if ← checkString "part_type: " then
    let typeStr ← readString
    match PartType.fromString typeStr with
    | .error message => throw message
    | .ok partType =>
      assertString "\n"
      return { e with newPartFormat := { e.newPartFormat with partType := partType } }
  else return { e with newPartFormat := { e.newPartFormat with partType := .wide } }

/-- The optional line of the storage type. -/
def readStorageType (e : LogEntryData) : TextReader LogEntryData := do
  if ← checkString "storage_type: " then
    let typeStr ← readString
    match PartStorageType.fromString typeStr with
    | .error message => throw message
    | .ok storageType =>
      assertString "\n"
      return { e with newPartFormat := { e.newPartFormat with storageType := storageType } }
  else return { e with newPartFormat := { e.newPartFormat with storageType := .full } }

/-- The optional line of the quorum. -/
def readQuorum (e : LogEntryData) : TextReader LogEntryData := do
  if ← eof then return e
  else
    assertString "quorum: "
    let quorum ← readIntText .uint64
    assertString "\n"
    return { e with quorum := quorum.toNat }

/-- The optional lines behind the body. -/
def readTail (e : LogEntryData) : TextReader LogEntryData := do
  let e ← readPartType e
  let e ← readStorageType e
  readQuorum e

def readText (partitionFormatVersion : ℕ) (e : LogEntryData) : TextReader LogEntryData := do
  let (formatVersion, e) ← readHeader e
  let typeStr ← readString
  assertString "\n"
  let e ← readBodyLines partitionFormatVersion formatVersion typeStr e
  readTail e

/-- `ReplicatedMergeTreeLogEntry::parse`; `ctime` is `stat.ctime`, in milliseconds. -/
def parse (s : String) (ctime : ℤ) (formatVersion : ℕ) : Except String LogEntryData :=
  match (readText formatVersion {}).run s.toList with
  | .error message => .error message
  | .ok (_, _ :: _) => .error "Cannot parse input: expected eof"
  | .ok (res, []) => .ok (if res.createTime ≠ 0 then res else { res with createTime := ctime / 1000 })

end LogEntryData

end MergeTree
