import MergeTree.Lib.KeyedSet
import MergeTree.Lib.Prog
import MergeTree.Lib.SizeT
import MergeTree.Spec.NumberText

/-!
# The deduplication log of a table without replication

`MergeTreeDeduplicationLog` (`MergeTreeDeduplicationLog.h`, `.cpp`) remembers the block
identifiers of the last inserted parts, in memory and as records in log files. A full log
file is rotated, and files that are too old are removed.
-/

namespace MergeTree

/-- `LimitedOrderedHashMap`: a queue of the live keys, the oldest first. Its index by key is
a lookup in the queue here. -/
structure LimitedOrderedHashMap (V : Type) where
  queue : List (String × V)
  maxSize : ℕ
  nodup : (queue.map Prod.fst).Nodup

namespace LimitedOrderedHashMap

variable {V : Type}

/-- A map with no key. -/
def empty (maxSize : ℕ) : LimitedOrderedHashMap V := ⟨[], maxSize, List.nodup_nil⟩

def get (m : LimitedOrderedHashMap V) (key : String) : Option V := m.queue.lookup key

def contains (m : LimitedOrderedHashMap V) (key : String) : Prop := key ∈ m.queue.map Prod.fst

instance (m : LimitedOrderedHashMap V) (key : String) : Decidable (m.contains key) :=
  inferInstanceAs (Decidable (key ∈ m.queue.map Prod.fst))

def erase (m : LimitedOrderedHashMap V) (key : String) : LimitedOrderedHashMap V :=
  ⟨m.queue.filter fun node => node.1 ≠ key, m.maxSize, m.nodup.sublist (List.filter_sublist.map _)⟩

/-- The queue with its front removed when it is full. -/
def room (m : LimitedOrderedHashMap V) : List (String × V) :=
  if m.queue.length = m.maxSize then m.queue.drop 1 else m.queue

theorem room_sublist (m : LimitedOrderedHashMap V) : m.room.Sublist m.queue := by
  unfold room
  split
  · exact List.drop_sublist 1 _
  · exact List.Sublist.refl _

/-- `insert`: a key that is there keeps its value and its place; a new one goes to the end,
and pushes out the front of a full queue. -/
def insert (m : LimitedOrderedHashMap V) (key : String) (value : V) : LimitedOrderedHashMap V :=
  if h : m.contains key then m
  else ⟨m.room ++ [(key, value)], m.maxSize, by
    rw [List.map_append, List.nodup_append]
    refine ⟨m.nodup.sublist (m.room_sublist.map _), List.nodup_singleton key, ?_⟩
    intro a ha b hb
    obtain rfl : b = key := List.mem_singleton.1 hb
    rintro rfl
    exact h ((m.room_sublist.map _).subset ha)⟩

end LimitedOrderedHashMap

/-- `MergeTreeDeduplicationOp`. A value read from a file may have no name. -/
inductive DeduplicationOp
  | add
  | drop
  | unnamed (value : ℤ)
deriving DecidableEq, Repr

namespace DeduplicationOp

def toInt : DeduplicationOp → ℤ
  | .add => 1
  | .drop => 2
  | .unnamed value => value

def ofInt (value : ℤ) : DeduplicationOp :=
  if value = 1 then .add else if value = 2 then .drop else .unnamed value

end DeduplicationOp

/-- `MergeTreeDeduplicationLogRecord`. -/
structure DeduplicationLogRecord where
  operation : DeduplicationOp
  partName : String
  blockId : String
deriving DecidableEq, Repr

/-- `MergeTreeDeduplicationLogNameDescription`, with the number that it is stored under. -/
structure DeduplicationLogFile where
  number : ℕ
  path : String
  entriesCount : ℕ
deriving DecidableEq, Repr

/-- A file of the directory. -/
structure DiskFile where
  path : String
  text : List Char
deriving DecidableEq, Repr

/-- A word of `readString` ends at a tab or a line break. -/
def endsString (c : Char) : Bool := c = '\t' || c = '\n'

/-! ## Records -/

section Records

variable [NumberText]

open TextReader IntText NumberText

/-- `writeRecord`. -/
def DeduplicationLogRecord.text (record : DeduplicationLogRecord) : List Char :=
  (writeIntText record.operation.toInt).toList ++ ("\t".toList ++ (record.partName.toList ++
    ("\t".toList ++ (record.blockId.toList ++ "\n".toList))))

def readRecord : TextReader DeduplicationLogRecord := do
  let op ← readIntText .uint8
  assertString "\t"
  let partName ← takeUntil endsString
  assertString "\t"
  let blockId ← takeUntil endsString
  assertString "\n"
  return { operation := DeduplicationOp.ofInt op, partName := partName, blockId := blockId }

/-- What a record does to the map, as `loadSingleLog` applies it. -/
def applyRecord (formatVersion : ℕ) (m : LimitedOrderedHashMap PartInfo) (record : DeduplicationLogRecord) :
    Except String (LimitedOrderedHashMap PartInfo) :=
  if record.operation = .drop then .ok (m.erase record.blockId)
  else do
    let partInfo ← fromPartName record.partName formatVersion
    return m.insert record.blockId partInfo

/-- `loadSingleLog`, with the map it leaves, also when it throws. A record is never empty,
so the length of the text bounds the number of rounds. -/
def loadRecords (formatVersion : ℕ) : ℕ → List Char → LimitedOrderedHashMap PartInfo → ℕ →
    LimitedOrderedHashMap PartInfo × Except String ℕ
  | 0, _, m, total => (m, .ok total)
  | fuel + 1, text, m, total =>
    if text.isEmpty then (m, .ok total)
    else
      match readRecord.run text with
      | .error e => (m, .error e)
      | .ok (record, rest) =>
        match applyRecord formatVersion m record with
        | .error e => (m, .error e)
        | .ok m => loadRecords formatVersion fuel rest m (total + 1)

/-- The records that the text of a log file holds, read one by one. -/
def readRecords : ℕ → List Char → List DeduplicationLogRecord
  | 0, _ => []
  | fuel + 1, text =>
    if text.isEmpty then []
    else
      match readRecord.run text with
      | .error _ => []
      | .ok (record, rest) => record :: readRecords fuel rest

end Records

/-! ## Paths -/

/-- `path /= name`. -/
def joinPath (path name : String) : String :=
  if path.toList.getLast?.all (· = '/') then path ++ name else path ++ "/" ++ name

def getLogPath (dir : String) (number : ℕ) : String :=
  joinPath dir ("deduplication_log_" ++ number.repr ++ ".txt")

/-- The text after the last `c`, or all of it. -/
def afterLast (c : Char) (text : List Char) : List Char := (text.reverse.takeWhile (· ≠ c)).reverse

/-- The text before the last `c`, or nothing. -/
def beforeLast (c : Char) (text : List Char) : List Char := ((text.reverse.dropWhile (· ≠ c)).drop 1).reverse

/-- The text after the first underscore. -/
def afterUnderscore (text : List Char) : List Char := (text.dropWhile (· ≠ '_')).drop 1

/-- `getLogNumber`: the third of the fields that underscores separate in the stem of the
name. Numbers of logs stay far below the limit of their type. -/
def getLogNumber (path : String) : Except String ℕ :=
  let stem := beforeLast '.' (afterLast '/' path.toList)
  let r := readDigits 0 ((afterUnderscore (afterUnderscore stem)).takeWhile (· ≠ '_'))
  if r.2 = [] then .ok r.1 else .error "Cannot parse number"

/-! ## The log -/

/-- `MergeTreeDeduplicationLog`, with the files of its directory. -/
structure DeduplicationLog where
  logsDir : String
  deduplicationWindow : ℕ
  rotateInterval : ℕ
  existingLogs : KeyedSet DeduplicationLogFile.number
  currentLogNumber : ℕ
  deduplicationMap : LimitedOrderedHashMap PartInfo
  /-- The path of the file that the writer appends to. -/
  currentWriter : Option String
  stopped : Bool
  formatVersion : ℕ
  disk : KeyedSet DiskFile.path
  diskSupportsWritingWithAppend : Bool

namespace DeduplicationLog

/-- The constructor. It makes the directory, so `load` finds one. -/
def make (logsDir : String) (deduplicationWindow formatVersion : ℕ) (append : Bool)
    (disk : KeyedSet DiskFile.path) : DeduplicationLog where
  logsDir := logsDir
  deduplicationWindow := deduplicationWindow
  rotateInterval := mulSize deduplicationWindow 2
  existingLogs := KeyedSet.empty
  currentLogNumber := 0
  deduplicationMap := LimitedOrderedHashMap.empty deduplicationWindow
  currentWriter := none
  stopped := false
  formatVersion := formatVersion
  disk := disk
  diskSupportsWritingWithAppend := append

/-- `existing_logs[number]` is assigned `file`. -/
def setLog (log : DeduplicationLog) (file : DeduplicationLogFile) : DeduplicationLog :=
  { log with existingLogs := (log.existingLogs.erase file.number).emplace file }

/-- The text of a file. -/
def readFile (log : DeduplicationLog) (path : String) : List Char :=
  ((log.disk.find path).map DiskFile.text).getD []

/-- The file `path` becomes `text`. -/
def writeFile (log : DeduplicationLog) (path : String) (text : List Char) : DeduplicationLog :=
  { log with disk := (log.disk.erase path).emplace { path := path, text := text } }

/-- `existing_logs[current_log_number]`. -/
def currentLog (log : DeduplicationLog) : DeduplicationLogFile :=
  (log.existingLogs.find log.currentLogNumber).getD { number := log.currentLogNumber, path := "", entriesCount := 0 }

/-- `rotate`: an empty file under the next number. -/
def rotate (log : DeduplicationLog) : DeduplicationLog :=
  if log.deduplicationWindow = 0 then log
  else
    let number := log.currentLogNumber + 1
    let newPath := getLogPath log.logsDir number
    let file : DeduplicationLogFile := { number := number, path := newPath, entriesCount := 0 }
    ({ log with
      currentLogNumber := number
      existingLogs := log.existingLogs.emplace file
      currentWriter := some newPath }).writeFile newPath []

/-- The number of the newest log that is not needed, if any: from the newest log back, the
first one after more than `window` records. -/
def removeFrom (window : ℕ) : ℕ → List DeduplicationLogFile → ℕ
  | _, [] => 0
  | sum, file :: older =>
    if window < sum then file.number else removeFrom window (sum + file.entriesCount) older

/-- Removes the logs of the list up to the one with the number `last`. -/
def removeLogs (last : ℕ) : List DeduplicationLogFile → DeduplicationLog → DeduplicationLog
  | [], log => log
  | file :: files, log =>
    let log := { log with
      disk := log.disk.erase file.path
      existingLogs := log.existingLogs.erase file.number }
    if file.number = last then log else removeLogs last files log

def dropOutdatedLogs (log : DeduplicationLog) : DeduplicationLog :=
  let removeFromValue := removeFrom log.deduplicationWindow 0 log.existingLogs.toList.reverse
  if removeFromValue ≠ 0 then removeLogs removeFromValue log.existingLogs.toList log else log

def rotateAndDropIfNeeded (log : DeduplicationLog) : DeduplicationLog :=
  if log.existingLogs.toList.isEmpty ∨ log.rotateInterval ≤ log.currentLog.entriesCount ∨
      log.diskSupportsWritingWithAppend = false then
    log.rotate.dropOutdatedLogs
  else log

variable [NumberText]

/-- Appends a record to the current file and counts it. -/
def write (log : DeduplicationLog) (record : DeduplicationLogRecord) : DeduplicationLog :=
  let path := log.currentWriter.getD ""
  let log := log.writeFile path (log.readFile path ++ record.text)
  log.setLog { log.currentLog with entriesCount := log.currentLog.entriesCount + 1 }

/-- One block of `addPart`. -/
def addBlock (partInfo : PartInfo) (blockId : String) : Prog String DeduplicationLog Unit := do
  let partName ← Prog.lift (partInfo.getPartNameAndCheckFormat (← get).formatVersion)
  modify fun log => log.write { operation := .add, partName := partName, blockId := blockId }
  modify fun log => { log with deduplicationMap := log.deduplicationMap.insert blockId partInfo }

/-- `addPart`: the parts and block identifiers that are duplicates, or none when the part
was added. -/
def addPart (blockIds : List String) (partInfo : PartInfo) :
    Prog String DeduplicationLog (List (PartInfo × String)) := do
  let log ← get
  if log.deduplicationWindow = 0 then return []
  let result := blockIds.filterMap fun blockId => (log.deduplicationMap.get blockId).map fun info => (info, blockId)
  if result ≠ [] then return result
  if log.stopped then throw "Storage has been shutdown when we add this part."
  blockIds.forM (addBlock partInfo)
  modify rotateAndDropIfNeeded
  return []

/-- One entry of the map in `dropPart`. -/
def dropNode (dropPartInfo : PartInfo) (node : String × PartInfo) : Prog String DeduplicationLog Unit :=
  Prog.when (dropPartInfo.Contains node.2) do
    let partName ← Prog.lift (node.2.getPartNameAndCheckFormat (← get).formatVersion)
    modify fun log => log.write { operation := .drop, partName := partName, blockId := node.1 }
    modify fun log => { log with deduplicationMap := log.deduplicationMap.erase node.1 }
    modify rotateAndDropIfNeeded

/-- `dropPart`. The loop erases only the entry it is at, so it goes over the entries that
were there at the start. -/
def dropPart (dropPartInfo : PartInfo) : Prog String DeduplicationLog Unit := do
  let log ← get
  Prog.when (log.deduplicationWindow ≠ 0) do
    if log.stopped then throw "Storage has been shutdown when we drop this part."
    log.deduplicationMap.queue.forM (dropNode dropPartInfo)

/-- One file of the directory in `load`. -/
def registerFile (path : String) : Prog String DeduplicationLog Unit := do
  let number ← Prog.lift (getLogNumber path)
  modify fun log => log.setLog { number := number, path := path, entriesCount := 0 }

/-- One log in `load`. A log that cannot be read is left with what was read of it. -/
def loadSingleLog (log : DeduplicationLog) (file : DeduplicationLogFile) : DeduplicationLog :=
  let text := log.readFile file.path
  let r := loadRecords log.formatVersion text.length text log.deduplicationMap 0
  let log := { log with deduplicationMap := r.1 }
  match r.2 with
  | .ok total => log.setLog { file with entriesCount := total }
  | .error _ => log

def load : Prog String DeduplicationLog Unit := do
  (← get).disk.toList.forM fun file => registerFile file.path
  modify fun log => { log with
    currentLogNumber := (log.existingLogs.toList.getLast?.map DeduplicationLogFile.number).getD log.currentLogNumber }
  Prog.when ((← get).deduplicationWindow ≠ 0) do
    -- from the first log to the last
    modify fun log => log.existingLogs.toList.foldl loadSingleLog log
    modify rotateAndDropIfNeeded
    modify fun log => { log with
      currentWriter := log.currentWriter.or (log.existingLogs.toList.getLast?.map DeduplicationLogFile.path) }

/-! ## Runs -/

/-- The calls of a table. -/
inductive Call
  | addPart (blockIds : List String) (partInfo : PartInfo)
  | dropPart (dropPartInfo : PartInfo)

/-- The log after a call, whether it returned or threw. -/
def Call.run (log : DeduplicationLog) : Call → DeduplicationLog
  | .addPart blockIds partInfo => ((DeduplicationLog.addPart blockIds partInfo).exec log).2
  | .dropPart dropPartInfo => ((DeduplicationLog.dropPart dropPartInfo).exec log).2

/-- A log made over the files of a directory and loaded. -/
def opened (logsDir : String) (deduplicationWindow formatVersion : ℕ) (append : Bool)
    (disk : KeyedSet DiskFile.path) : DeduplicationLog :=
  (load.exec (make logsDir deduplicationWindow formatVersion append disk)).2

/-- Some log file on the disk holds a record that adds the block. -/
def Recorded (log : DeduplicationLog) (blockId : String) : Prop :=
  ∃ file ∈ log.disk.toList, ∃ record ∈ readRecords file.text.length file.text,
    record.operation = .add ∧ record.blockId = blockId

instance (log : DeduplicationLog) (blockId : String) : Decidable (log.Recorded blockId) :=
  inferInstanceAs (Decidable (∃ file ∈ log.disk.toList, ∃ record ∈ readRecords file.text.length file.text, _))

/-- A new log over the same files, loaded. -/
def reload (log : DeduplicationLog) : DeduplicationLog :=
  opened log.logsDir log.deduplicationWindow log.formatVersion log.diskSupportsWritingWithAppend log.disk

end DeduplicationLog

end MergeTree
