import MergeTree.Lib.SizeT
import MergeTree.Spec.Messages

/-!
# The thread read pool

`MergeTreeReadPool` (`MergeTreeReadPool.cpp`): the marks of all parts are spread among the
threads (`fillPerThreadInfo`); a thread asks for tasks one by one (`getTask`) and, once it
has none left, takes the tasks of others; slow reads lower the number of threads
(`profileFeedback`).

The lists of the source that are only used at their back (`parts_and_ranges`,
`sum_marks_in_parts` and the parts of a disk) have it first here. Elapsed times are inputs.
-/

namespace MergeTree

/-- A part to read: its ranges, its disk and what `MergeTreeReadTaskInfo` says about its tasks. -/
structure PoolPart where
  ranges : MarkRanges := []
  diskName : String := ""
  minMarksPerTask : ℕ := 0
  isOnRemoteDisk : Bool := false
deriving DecidableEq, Repr

/-- `PoolSettings`. -/
structure PoolSettings where
  threads : ℕ
  sumMarks : ℕ
  doNotStealTasks : Bool := false
  useConstSizeTasksForRemoteReading : Bool := false
deriving DecidableEq, Repr

/-- `BackoffSettings`. -/
structure BackoffSettings where
  minReadLatencyMs : ℕ := 0
  maxThroughput : ℕ := 1048576
  minIntervalBetweenEventsMs : ℕ := 1000
  minEvents : ℕ := 2
  minConcurrency : ℕ := 1
deriving DecidableEq, Repr

/-- `BackoffState`. -/
structure BackoffState where
  currentThreads : ℕ
  numEvents : ℕ := 0
deriving DecidableEq, Repr

/-- `PartIndexAndRange`; a task has the same data. -/
structure PartIndexAndRange where
  partIdx : ℕ
  ranges : MarkRanges
deriving DecidableEq, Repr

/-- `ThreadTask`. -/
structure ThreadTask where
  partsAndRanges : List PartIndexAndRange := []
  sumMarksInParts : List ℕ := []
deriving DecidableEq, Repr

/-- `PartInfo` of `fillPerThreadInfo`. -/
structure PoolPartInfo where
  ranges : MarkRanges
  sumMarks : ℕ
  partIdx : ℕ
deriving DecidableEq, Repr

/-- The number of marks in ranges. -/
def sumMarks (ranges : MarkRanges) : ℕ := (ranges.map fun range => range.endMark - range.beginMark).sum

/-- The loop through part ranges: the marks that are taken, the ranges left, and what is still needed. -/
def takeMarks : ℕ → MarkRanges → MarkRanges × MarkRanges × ℕ
  | 0, ranges => ([], ranges, 0)
  | needMarks + 1, [] => ([], [], needMarks + 1)
  | needMarks + 1, range :: ranges =>
    let marksToGetFromRange := min (range.endMark - range.beginMark) (needMarks + 1)
    let taken : MarkRange := ⟨range.beginMark, range.beginMark + marksToGetFromRange⟩
    if range.beginMark + marksToGetFromRange = range.endMark then
      let rest := takeMarks (needMarks + 1 - marksToGetFromRange) ranges
      (taken :: rest.1, rest.2)
    else ([taken], { range with beginMark := range.beginMark + marksToGetFromRange } :: ranges,
      -- the range is longer than what is needed, so nothing more is
      needMarks + 1 - marksToGetFromRange)

/-! ## `fillPerThreadInfo` -/

/-- The exception on too many threads. -/
def tooManyThreads (threads : ℕ) : String := "Too many threads (" ++ toString threads ++ ") requested"

/-- The exception on a zero task size. -/
def zeroMarksToRead : String := "Chosen number of marks to read is zero (likely because of weird interference of settings)"

/-- The exception on ranges with fewer marks than counted. -/
def unexpectedEndOfRanges : String := "Unexpected end of ranges while spreading marks among threads"

/-- `parts_per_disk[name].push_back`, in the order of disk names. -/
def pushPart (diskName : String) (part : PoolPartInfo) : List (String × List PoolPartInfo) → List (String × List PoolPartInfo)
  | [] => [(diskName, [part])]
  | disk :: disks =>
    if diskName = disk.1 then (disk.1, part :: disk.2) :: disks
    else if diskName < disk.1 then (diskName, [part]) :: disk :: disks
    else disk :: pushPart diskName part disks

/-- `parts_per_disk`: the parts from index `i` on are added. -/
def partsPerDisk : ℕ → List PoolPart → List (String × List PoolPartInfo) → List (String × List PoolPartInfo)
  | _, [], disks => disks
  | i, part :: parts, disks => partsPerDisk (i + 1) parts (pushPart part.diskName ⟨part.ranges, sumMarks part.ranges, i⟩ disks)

/-- The state of `fillPerThreadInfo`. -/
structure PoolFill where
  partsQueue : List (List PoolPartInfo)
  threadsTasks : ℕ → ThreadTask := fun _ => {}
  remainingThreadTasks : Finset ℕ := ∅

/-- What a thread needs from a part: not too few marks, and not so many that too few are left. -/
def adjustNeedMarks (marksInPart minMarksPerTask needMarks : ℕ) : ℕ :=
  let needMarks := if minMarksPerTask ≤ marksInPart ∧ needMarks < minMarksPerTask then minMarksPerTask else needMarks
  if needMarks < marksInPart ∧ marksInPart - needMarks < minMarksPerTask then marksInPart else needMarks

/-- `threads_tasks[i]` and `remaining_thread_tasks` after ranges were added. -/
def PoolFill.assign (fill : PoolFill) (i partIdx : ℕ) (ranges : MarkRanges) (marksInRanges : ℕ) : PoolFill :=
  { fill with
    threadsTasks := Function.update fill.threadsTasks i
      ⟨⟨partIdx, ranges⟩ :: (fill.threadsTasks i).partsAndRanges, marksInRanges :: (fill.threadsTasks i).sumMarksInParts⟩
    remainingThreadTasks :=
      if marksInRanges ≠ 0 then insert i fill.remainingThreadTasks else fill.remainingThreadTasks }

/-- The parts in the queue. -/
def PoolFill.queuedParts (fill : PoolFill) : ℕ := (fill.partsQueue.map List.length).sum

/-- The loop that gives marks to thread `i`. No list in the queue is empty. -/
def fillThread (minMarksPerTask : ℕ → ℕ) (i needMarks : ℕ) (fill : PoolFill) : Except String PoolFill :=
  if needMarks = 0 then .ok fill
  else
    match _h : fill.partsQueue with
    | [] => .ok fill
    | [] :: _ => .ok fill
    | (part :: currentParts) :: disks =>
      if minMarksPerTask part.partIdx = 0 then .error zeroMarksToRead
      else
        let needMarks := adjustNeedMarks part.sumMarks (minMarksPerTask part.partIdx) needMarks
        if part.sumMarks ≤ needMarks then
          fillThread minMarksPerTask i (needMarks - part.sumMarks)
            ({ fill with partsQueue := if currentParts.isEmpty then disks else currentParts :: disks }.assign i part.partIdx
              part.ranges part.sumMarks)
        else
          match takeMarks needMarks part.ranges with
          | (taken, ranges, 0) =>
            -- nothing more is needed
            .ok ({ fill with
              partsQueue := (⟨ranges, part.sumMarks - needMarks, part.partIdx⟩ :: currentParts) :: disks }.assign i part.partIdx
              taken needMarks)
          | _ => .error unexpectedEndOfRanges
termination_by fill.queuedParts
decreasing_by
  simp only [PoolFill.queuedParts, PoolFill.assign, _h]
  cases currentParts <;> simp

/-- Before the next thread, the disk is changed if possible. -/
def PoolFill.changeDisk (fill : PoolFill) : PoolFill :=
  match fill.partsQueue with
  | first :: second :: rest => { fill with partsQueue := second :: rest ++ [first] }
  | _ => fill

/-- The loop over the threads, from thread `i` on, with so many left. -/
def fillThreads (minMarksPerTask : ℕ → ℕ) (minMarksPerThread : ℕ) : ℕ → ℕ → PoolFill → Except String PoolFill
  | 0, _, fill => .ok fill
  | left + 1, i, fill =>
    if fill.partsQueue.isEmpty then .ok fill
    else do
      let fill ← fillThread minMarksPerTask i minMarksPerThread fill
      fillThreads minMarksPerTask minMarksPerThread left (i + 1) fill.changeDisk

/-- `MergeTreeReadPool`. -/
structure MergeTreeReadPool where
  partsRanges : List PoolPart
  poolSettings : PoolSettings
  backoffSettings : BackoffSettings
  backoffState : BackoffState
  threadsTasks : ℕ → ThreadTask
  remainingThreadTasks : Finset ℕ

/-- `min_marks_per_task` of a part. -/
def minMarksPerTaskOf (parts : List PoolPart) (partIdx : ℕ) : ℕ := (parts.getD partIdx {}).minMarksPerTask

/-- `fillPerThreadInfo`, called by the constructor. -/
def fillPerThreadInfo (parts : List PoolPart) (settings : PoolSettings) : Except String PoolFill :=
  if 1000000 < settings.threads then .error (tooManyThreads settings.threads)
  else if parts.isEmpty then .ok ⟨[], fun _ => {}, ∅⟩
  else
    fillThreads (minMarksPerTaskOf parts) ((settings.sumMarks - 1) / settings.threads + 1) settings.threads 0
      ⟨(partsPerDisk 0 parts []).map Prod.snd, fun _ => {}, ∅⟩

namespace MergeTreeReadPool

/-- The constructor. -/
def make (parts : List PoolPart) (settings : PoolSettings) (backoffSettings : BackoffSettings) :
    Except String MergeTreeReadPool := do
  let fill ← fillPerThreadInfo parts settings
  return ⟨parts, settings, backoffSettings, { currentThreads := settings.threads }, fill.threadsTasks, fill.remainingThreadTasks⟩

/-! ## `getTask` -/

/-- `lower_bound` of a set. -/
def lowerBound (s : Finset ℕ) (k : ℕ) : Option ℕ :=
  if h : (s.filter fun i => k ≤ i).Nonempty then some ((s.filter fun i => k ≤ i).min' h) else none

/-- The thread from which a task is taken; the tasks of a thread that was killed are moved first. -/
def chooseThread (pool : MergeTreeReadPool) (taskIdx : ℕ) : MergeTreeReadPool × ℕ :=
  if !(pool.threadsTasks taskIdx).sumMarksInParts.isEmpty then (pool, taskIdx)
  else
    match lowerBound pool.remainingThreadTasks pool.backoffState.currentThreads with
    | some killed =>
      ({ pool with
          threadsTasks := Function.update (Function.update pool.threadsTasks taskIdx (pool.threadsTasks killed)) killed {}
          remainingThreadTasks := insert taskIdx (pool.remainingThreadTasks.erase killed) }, taskIdx)
    | none =>
      match lowerBound pool.remainingThreadTasks (taskIdx + 1) with
      | some next => (pool, next)
      | none => (pool, (lowerBound pool.remainingThreadTasks 0).getD 0)

/-- The number of marks to take from the last part of a thread. -/
def needMarks (pool : MergeTreeReadPool) (partIdx marksInPart : ℕ) : ℕ :=
  let part := pool.partsRanges.getD partIdx {}
  let needMarks :=
    if part.isOnRemoteDisk ∧ ¬ pool.poolSettings.useConstSizeTasksForRemoteReading then marksInPart
    else min marksInPart part.minMarksPerTask
  if needMarks < marksInPart ∧ marksInPart - needMarks < part.minMarksPerTask / 2 then marksInPart else needMarks

/-- A task is taken from a thread. -/
def takeTask (pool : MergeTreeReadPool) (threadIdx : ℕ) : MergeTreeReadPool × Option PartIndexAndRange :=
  match (pool.threadsTasks threadIdx).partsAndRanges, (pool.threadsTasks threadIdx).sumMarksInParts with
  | threadTask :: partsAndRanges, marksInPart :: sumMarksInParts =>
    let needMarks := pool.needMarks threadTask.partIdx marksInPart
    if marksInPart ≤ needMarks then
      ({ pool with
          threadsTasks := Function.update pool.threadsTasks threadIdx ⟨partsAndRanges, sumMarksInParts⟩
          remainingThreadTasks :=
            if sumMarksInParts.isEmpty then pool.remainingThreadTasks.erase threadIdx else pool.remainingThreadTasks },
        some threadTask)
    else
      let taken := takeMarks needMarks threadTask.ranges
      ({ pool with
          threadsTasks := Function.update pool.threadsTasks threadIdx
            ⟨{ threadTask with ranges := taken.2.1 } :: partsAndRanges,
              (marksInPart - (needMarks - taken.2.2)) :: sumMarksInParts⟩ },
        some { threadTask with ranges := taken.1 })
  | _, _ => (pool, none) -- a thread that is chosen has a part

/-- `getTask`: the part and the ranges of the task, or null. -/
def getTask (pool : MergeTreeReadPool) (taskIdx : ℕ) : MergeTreeReadPool × Option PartIndexAndRange :=
  if pool.backoffState.currentThreads ≤ taskIdx then (pool, none)
  else if pool.remainingThreadTasks = ∅ then (pool, none)
  else if (pool.threadsTasks taskIdx).sumMarksInParts.isEmpty ∧ pool.poolSettings.doNotStealTasks then (pool, none)
  else
    let chosen := pool.chooseThread taskIdx
    chosen.1.takeTask chosen.2

/-! ## `profileFeedback` -/

/-- `profileFeedback`, with the time since the previous event. -/
def profileFeedback (pool : MergeTreeReadPool) (bytesRead nanoseconds sincePrevEvent : ℕ) : MergeTreeReadPool :=
  if pool.backoffSettings.minReadLatencyMs = 0 ∨ pool.poolSettings.doNotStealTasks then pool
  else if nanoseconds < mulSize pool.backoffSettings.minReadLatencyMs 1000000 then pool
  else if pool.backoffState.currentThreads ≤ pool.backoffSettings.minConcurrency then pool
  else if pool.backoffSettings.maxThroughput ≤ mulSize bytesRead 1000000000 / nanoseconds then pool
  else if sincePrevEvent < mulSize pool.backoffSettings.minIntervalBetweenEventsMs 1000000 then pool
  else if pool.backoffState.numEvents + 1 < pool.backoffSettings.minEvents then
    { pool with backoffState := { pool.backoffState with numEvents := pool.backoffState.numEvents + 1 } }
  else { pool with backoffState := ⟨pool.backoffState.currentThreads - 1, 0⟩ }

/-! ## Threads that read -/

/-- The pool, the tasks it returned, and the threads that received null. -/
structure Reading where
  pool : MergeTreeReadPool
  tasks : List PartIndexAndRange := []
  finished : Finset ℕ := ∅

/-- What a thread does with the answer of `getTask`. -/
def Reading.received (reading : Reading) (taskIdx : ℕ) : MergeTreeReadPool × Option PartIndexAndRange → Reading
  | (pool, some task) => { reading with pool, tasks := reading.tasks ++ [task] }
  | (pool, none) => { reading with pool, finished := insert taskIdx reading.finished }

/-- A thread that has not received null asks for a task, or a read is reported. -/
inductive Reading.Step : Reading → Reading → Prop
  | getTask {reading : Reading} {taskIdx : ℕ} (hthread : taskIdx < reading.pool.poolSettings.threads)
      (hreading : taskIdx ∉ reading.finished) : Step reading (reading.received taskIdx (reading.pool.getTask taskIdx))
  | profileFeedback {reading : Reading} (bytesRead nanoseconds sincePrevEvent : ℕ) :
      Step reading { reading with pool := reading.pool.profileFeedback bytesRead nanoseconds sincePrevEvent }

/-- The states that threads can reach with a pool. -/
def Reading.Reachable (pool : MergeTreeReadPool) : Reading → Prop := Relation.ReflTransGen Reading.Step ⟨pool, [], ∅⟩

end MergeTreeReadPool

end MergeTree
