import MergeTree.Spec.MarkRanges

/-!
# The read pools of a replica

`MergeTreeReadPoolParallelReplicas` and `MergeTreeReadPoolParallelReplicasInOrder`: a replica asks
the coordinator for ranges (`sendReadRequest`) when a thread wants a task and nothing is buffered. The
first pool cuts the front of the buffer, the second one has a buffer for every part and cuts it at the
end where reading goes on.

A call of `getTask` holds the mutex, so the calls of all threads are one sequence. It is given what
`sendReadRequest` would do. Marks are natural numbers; the two settings of the block size are 64-bit.
-/

namespace MergeTree

namespace ParallelReplicas

/-- A part of the pool; `parentInfo` is the one of `parent_part` of a projection part. -/
structure Part where
  info : PartInfo
  name : String
  parentInfo : Option PartInfo := none
  minMarksPerTask : ℕ
deriving DecidableEq, Repr

def Part.isProjectionPart (part : Part) : Bool := part.parentInfo.isSome

def Part.partInfo (part : Part) : PartInfo := part.parentInfo.getD part.info

def Part.projectionName (part : Part) : String := if part.isProjectionPart then part.name else ""

/-- What `sendReadRequest` does. -/
inductive Reply
  | exception (message : String)
  | noResponse
  | response (response : ParallelReadResponse)
deriving DecidableEq, Repr

/-- What `getTask` does. -/
inductive Answer
  | task (partIdx : ℕ) (ranges : MarkRanges)
  | null
  | exception (message : String)
deriving DecidableEq, Repr

/-- A call of `getTask`: the reply if it sent a request, and the answer. -/
structure Call where
  taskIdx : ℕ
  asked : Option Reply
  answer : Answer
deriving DecidableEq, Repr

/-- The exception on a step of no marks. -/
def zeroMarks : String := "Chosen number of marks to read is zero (likely because of weird interference of settings)"

/-- Calls in order, each with what `sendReadRequest` would do, from a pool on. -/
def run {σ : Type} (getTask : σ → ℕ → Reply → Call × σ) (pool : σ) (requests : List (ℕ × Reply)) : List Call × σ :=
  requests.foldl (fun s r => let (call, pool) := getTask s.2 r.1 r.2; (s.1 ++ [call], pool)) ([], pool)

/-! ## `MergeTreeReadPoolParallelReplicasInOrder` -/

/-- The constant members. -/
structure InOrderConfig where
  parts : List Part
  mode : CoordinationMode
  hasLimitBelowOneBlock : Bool
  minMarksForConcurrentRead : ℕ
  maxBlockSizeRows : UInt64
  indexGranularity : UInt64

/-- The other members. -/
structure InOrderPool where
  bufferedTasks : RangesInDataPartsDescription
  perPartMarksInRange : List ℕ
  noMoreTasks : Bool := false
  failedToGetTask : Bool := false
deriving DecidableEq, Repr

/-- The exception on an index that no part has. -/
def noSuchPart (taskIdx parts : ℕ) : String :=
  "Requested task with idx " ++ toString taskIdx ++ ", but there are only " ++ toString parts ++ " parts"

namespace InOrderConfig

def minMarksPerTask (cfg : InOrderConfig) : ℕ :=
  cfg.parts.foldl (fun minMarks part => max minMarks part.minMarksPerTask) cfg.minMarksForConcurrentRead

/-- `max_marks_in_range`, of 64-bit numbers. -/
def maxMarksInRange (cfg : InOrderConfig) : ℕ :=
  ((cfg.maxBlockSizeRows + cfg.indexGranularity - 1) / cfg.indexGranularity).toNat

/-- The constructor. -/
def make (cfg : InOrderConfig) : Except String InOrderPool :=
  if cfg.minMarksPerTask = 0 then .error zeroMarks
  else .ok
    { bufferedTasks := cfg.parts.map fun part => { info := part.partInfo, projectionName := part.projectionName },
      perPartMarksInRange := List.replicate cfg.parts.length 1 }

end InOrderConfig

/-- What is cut off the ranges of a part, what is left of them, and the new `marks_in_range`. -/
structure Piece where
  result : MarkRanges
  left : MarkRanges
  marksInRange : ℕ
deriving DecidableEq, Repr

/-- One range from the front. -/
def takeFront (marksInRange : ℕ) : MarkRanges → Piece
  | [] => ⟨[], [], marksInRange⟩
  | range :: rest =>
    if range.beginMark + marksInRange < range.endMark then
      ⟨[⟨range.beginMark, range.beginMark + marksInRange⟩], ⟨range.beginMark + marksInRange, range.endMark⟩ :: rest,
        marksInRange * 2⟩
    else ⟨[range], rest, marksInRange⟩

/-- The `while` loop that splits a range. The range gets shorter, so it is done `end - begin` times at
most. -/
def splitLoop (maxMarksInRange : ℕ) : ℕ → ℕ → ℕ → ℕ → MarkRanges × ℕ
  | 0, marksInRange, beginMark, endMark => ([⟨beginMark, endMark⟩], marksInRange)
  | fuel + 1, marksInRange, beginMark, endMark =>
    if marksInRange ≤ maxMarksInRange ∧ beginMark + marksInRange < endMark then
      let (result, marksInRange') := splitLoop maxMarksInRange fuel (marksInRange * 2) (beginMark + marksInRange) endMark
      (⟨beginMark, beginMark + marksInRange⟩ :: result, marksInRange')
    else ([⟨beginMark, endMark⟩], marksInRange)

/-- All ranges, split. -/
def splitRanges (maxMarksInRange : ℕ) : ℕ → MarkRanges → MarkRanges × ℕ
  | marksInRange, [] => ([], marksInRange)
  | marksInRange, range :: rest =>
    let (result, marksInRange) :=
      splitLoop maxMarksInRange (range.endMark - range.beginMark) marksInRange range.beginMark range.endMark
    let (results, marksInRange) := splitRanges maxMarksInRange marksInRange rest
    (result ++ results, marksInRange)

/-- One range from the back. -/
def takeBack (maxMarksInRange marksInRange : ℕ) (ranges : MarkRanges) : Piece :=
  match ranges.getLast? with
  | none => ⟨[], [], marksInRange⟩
  | some range =>
    if range.beginMark + marksInRange < range.endMark then
      ⟨[⟨range.endMark - marksInRange, range.endMark⟩],
        ranges.dropLast ++ [⟨range.beginMark, range.endMark - marksInRange⟩], min (marksInRange * 2) maxMarksInRange⟩
    else ⟨[range], ranges.dropLast, marksInRange⟩

/-- What `get_from_buffer` makes of the ranges of a part. -/
def cutRanges (cfg : InOrderConfig) (marksInRange : ℕ) (ranges : MarkRanges) : Piece :=
  if cfg.mode = .withOrder then
    if cfg.maxMarksInRange < marksInRange then ⟨ranges, [], marksInRange⟩ -- already split
    else if cfg.hasLimitBelowOneBlock then takeFront marksInRange ranges
    else
      let (result, marksInRange) := splitRanges cfg.maxMarksInRange marksInRange ranges
      ⟨result, [], marksInRange⟩
  else takeBack cfg.maxMarksInRange marksInRange ranges

/-- The loop of `get_from_buffer` through `buffered_tasks`. -/
def cutBuffer (cfg : InOrderConfig) (part : Part) (marksInRange : ℕ) :
    RangesInDataPartsDescription → Option (Piece × RangesInDataPartsDescription)
  | [] => none
  | desc :: rest =>
    if desc.info.toTuple = part.partInfo.toTuple ∧ desc.projectionName = part.projectionName ∧ desc.ranges ≠ [] then
      let piece := cutRanges cfg marksInRange desc.ranges
      some (piece, { desc with ranges := piece.left } :: rest)
    else (cutBuffer cfg part marksInRange rest).map fun cut => (cut.1, desc :: cut.2)

def getFromBuffer (cfg : InOrderConfig) (part : Part) (taskIdx : ℕ) (pool : InOrderPool) : Option (MarkRanges × InOrderPool) :=
  (cutBuffer cfg part (pool.perPartMarksInRange.getD taskIdx 0) pool.bufferedTasks).map fun cut =>
    (cut.1.result,
      { pool with
        bufferedTasks := cut.2
        perPartMarksInRange := pool.perPartMarksInRange.set taskIdx cut.1.marksInRange })

/-- "Fill the buffer": a response has a description for each requested part. -/
def fillBuffer (mode : CoordinationMode) : RangesInDataPartsDescription → RangesInDataPartsDescription → RangesInDataPartsDescription
  | desc :: rest, received :: more =>
    { desc with ranges := if mode = .withOrder then desc.ranges ++ received.ranges else received.ranges ++ desc.ranges } ::
      fillBuffer mode rest more
  | buffered, _ => buffered

/-- `getTask`. -/
def getTaskInOrder (cfg : InOrderConfig) (pool : InOrderPool) (taskIdx : ℕ) (reply : Reply) : Call × InOrderPool :=
  match cfg.parts[taskIdx]? with
  | none => (⟨taskIdx, none, .exception (noSuchPart taskIdx cfg.parts.length)⟩, pool)
  | some part =>
    match getFromBuffer cfg part taskIdx pool with
    | some (result, pool) => (⟨taskIdx, none, .task taskIdx result⟩, pool)
    | none =>
      if pool.noMoreTasks then (⟨taskIdx, none, .null⟩, pool)
      else if pool.failedToGetTask then (⟨taskIdx, none, .null⟩, pool)
      else
        match reply with
        | .exception message => (⟨taskIdx, some reply, .exception message⟩, { pool with failedToGetTask := true })
        | .noResponse => (⟨taskIdx, some reply, .null⟩, { pool with noMoreTasks := true })
        | .response response =>
          if response.description = [] ∨ response.finish then (⟨taskIdx, some reply, .null⟩, { pool with noMoreTasks := true })
          else
            let pool := { pool with bufferedTasks := fillBuffer cfg.mode pool.bufferedTasks response.description }
            match getFromBuffer cfg part taskIdx pool with
            | some (result, pool) => (⟨taskIdx, some reply, .task taskIdx result⟩, pool)
            | none => (⟨taskIdx, some reply, .null⟩, pool)

/-! ## `MergeTreeReadPoolParallelReplicas` -/

/-- The members that change. -/
structure DefaultPool where
  bufferedRanges : RangesInDataPartsDescription := []
  noMoreTasksAvailable : Bool := false
  failedToGetTask : Bool := false
deriving DecidableEq, Repr

/-- The exception on an empty buffer. -/
def noTasksToRead : String := "No tasks to read. This is a bug"

/-- The exception on a part that the pool does not have. -/
def unknownPart : String := "Assignment contains an unknown part"

/-- Is the description one of the part? -/
def Part.matches (part : Part) (desc : RangesInDataPartDescription) : Bool :=
  match part.parentInfo with
  | none => part.info.toTuple = desc.info.toTuple
  | some parentInfo => parentInfo.toTuple = desc.info.toTuple && desc.projectionName = part.name

def effectiveMinMarksPerTask (part : Part) (desc : RangesInDataPartDescription) : ℕ :=
  if 0 < desc.minMarksPerTask then desc.minMarksPerTask else part.minMarksPerTask

/-- The loop that fills `ranges_to_read` until it has enough marks: what it takes, and what is left. -/
def takeRanges : ℕ → MarkRanges → MarkRanges × MarkRanges
  | _, [] => ([], [])
  | 0, ranges => ([], ranges)
  | diff + 1, range :: rest =>
    if diff + 1 < range.getNumberOfMarks then
      ([⟨range.beginMark, range.beginMark + (diff + 1)⟩], ⟨range.beginMark + (diff + 1), range.endMark⟩ :: rest)
    else
      let (taken, left) := takeRanges (diff + 1 - range.getNumberOfMarks) rest
      (range :: taken, left)

/-- The task that is made of the front of the buffer. -/
def takeTask (parts : List Part) (pool : DefaultPool) : Answer × DefaultPool :=
  match pool.bufferedRanges with
  | [] => (.exception noTasksToRead, pool)
  | currentTask :: rest =>
    match parts.zipIdx.find? fun part => part.1.matches currentTask with
    | none => (.exception unknownPart, pool)
    | some (part, partIdx) =>
      let (rangesToRead, left) := takeRanges (effectiveMinMarksPerTask part currentTask) currentTask.ranges
      (.task partIdx rangesToRead,
        { pool with bufferedRanges := if left = [] then rest else { currentTask with ranges := left } :: rest })

/-- `getTask`; it does not use `task_idx`. -/
def getTaskDefault (parts : List Part) (pool : DefaultPool) (taskIdx : ℕ) (reply : Reply) : Call × DefaultPool :=
  if pool.noMoreTasksAvailable then (⟨taskIdx, none, .null⟩, pool)
  else if pool.failedToGetTask then (⟨taskIdx, none, .null⟩, pool)
  else if pool.bufferedRanges = [] then
    match reply with
    | .exception message => (⟨taskIdx, some reply, .exception message⟩, { pool with failedToGetTask := true })
    | .noResponse => (⟨taskIdx, some reply, .null⟩, { pool with noMoreTasksAvailable := true })
    | .response response =>
      if response.description = [] ∨ response.finish then
        (⟨taskIdx, some reply, .null⟩, { pool with noMoreTasksAvailable := true })
      else
        let (answer, pool) := takeTask parts { pool with bufferedRanges := response.description }
        (⟨taskIdx, some reply, answer⟩, pool)
  else
    let (answer, pool) := takeTask parts pool
    (⟨taskIdx, none, answer⟩, pool)

end ParallelReplicas

end MergeTree
