import MergeTree.Spec.MarkRanges

/-!
# The read pool with prefetches

`MergeTreePrefetchedReadPool`: the constructor cuts the parts into tasks and gives every thread
its share of them (`fillPerThreadTasks`). Prefetches start with the first `getTask`. A thread
without tasks steals: a task with a prefetch if there is one, else half of the tasks of the thread
that has most.

Counters of marks are natural numbers. Ranges of patch parts are left out.
-/

namespace MergeTree

namespace PrefetchedReadPool

/-- A part to read with its `PartStatistic` after `fillPerPartStatistics`. -/
structure Part where
  ranges : MarkRanges
  minMarksPerTask : ℕ
  approxSizeOfMark : ℕ
  estimatedMemoryUsageForSinglePrefetch : ℕ
  requiredReadersNum : ℕ

/-- The settings. `roundedQuotient` is `std::round` of the quotient of two `double`. -/
structure Settings where
  threads : ℕ
  filesystemPrefetchStepMarks : ℕ
  filesystemPrefetchStepBytes : ℕ
  filesystemPrefetchMaxMemoryUsage : ℕ
  filesystemPrefetchesLimit : ℕ
  readPriority : ℤ
  roundedQuotient : ℕ → ℕ → ℕ

/-- `ThreadTask`; `number` stands for its address. -/
structure ThreadTask where
  number : ℕ
  partIdx : ℕ
  ranges : MarkRanges
  priority : ℤ
deriving DecidableEq, Repr

/-- `TasksPerThread`, in the order of threads. -/
abbrev TasksPerThread : Type := List (ℕ × List ThreadTask)

/-- The exception on a zero step. -/
def chosenZeroMarks : String := "Chosen number of marks to read is zero (likely because of weird interference of settings)"

/-- The exception on more marks than the part has. -/
def requestedTooManyMarks (marksToGet partIdx sumMarks : ℕ) : String :=
  "Requested " ++ toString marksToGet ++ " marks from part " ++ toString partIdx ++ ", but part has only " ++
    toString sumMarks ++ " marks"

/-- The exception of `MarkRange::operator<`. -/
def intersectingRanges (a b : MarkRange) : String :=
  "Intersecting mark ranges are not allowed, it is a bug! First range (" ++ toString a.beginMark ++ ", " ++
    toString a.endMark ++ "), second range (" ++ toString b.beginMark ++ ", " ++ toString b.endMark ++ ")"

/-- `front` of an empty deque, which has no defined behaviour. -/
def emptyFront : String := "front of an empty deque"

/-- A loop that does not end. -/
def endlessLoop : String := "endless loop"

/-! ## `fillPerThreadTasks` -/

/-- `is_intersection` of `MarkRange::operator<`. -/
def isIntersection (a b : MarkRange) : Bool :=
  a ≠ b && ((a.beginMark ≤ b.beginMark && b.beginMark < a.endMark) || (b.beginMark ≤ a.beginMark && a.beginMark < b.endMark))

/-- `MarkRange::operator<`, of ranges that do not intersect. -/
def rangeLess (a b : MarkRange) : Bool := a.beginMark < b.beginMark && a.endMark ≤ b.beginMark

/-- `std::sort` of the ranges of a part. -/
def sortRanges (ranges : MarkRanges) : Except String MarkRanges :=
  match (ranges.product ranges).find? fun p => isIntersection p.1 p.2 with
  | some p => .error (intersectingRanges p.1 p.2)
  | none => .ok (ranges.mergeSort fun a b => !rangeLess b a)

/-- The marks of ranges, counted. -/
def countMarks (ranges : MarkRanges) : ℕ := (ranges.map fun range => range.endMark - range.beginMark).sum

def prefetchStepMarks (settings : Settings) (part : Part) : ℕ :=
  max
    (if settings.filesystemPrefetchStepMarks ≠ 0 then settings.filesystemPrefetchStepMarks
    else if settings.filesystemPrefetchStepBytes ≠ 0 ∧ part.approxSizeOfMark ≠ 0 then
      max 1 (settings.roundedQuotient settings.filesystemPrefetchStepBytes part.approxSizeOfMark)
    else 0)
    part.minMarksPerTask

/-- A part while it is cut: `sum_marks` that are left, and `per_part_ranges`. -/
structure PartLeft where
  partIdx : ℕ
  sumMarks : ℕ
  prefetchStepMarks : ℕ
  estimatedMemoryUsageForSinglePrefetch : ℕ
  requiredReadersNum : ℕ
  ranges : MarkRanges
deriving DecidableEq, Repr

/-- The first loop: no step is zero. -/
def checkStep (settings : Settings) (part : Part) : Except String Unit :=
  if prefetchStepMarks settings part = 0 then .error chosenZeroMarks else .ok ()

/-- A part with a sorted copy of its ranges. -/
def preparePart (settings : Settings) (part : Part × ℕ) : Except String PartLeft := do
  let ranges ← sortRanges part.1.ranges
  return ⟨part.2, countMarks part.1.ranges, prefetchStepMarks settings part.1,
    part.1.estimatedMemoryUsageForSinglePrefetch, part.1.requiredReadersNum, ranges⟩

/-- The loop that gets marks from ranges: `ranges_to_get_from_part`, the marks got beyond those asked
for, and the ranges that are left. A small rest of the last range is got too. -/
def getMarks (prefetchStepMarks : ℕ) : ℕ → MarkRanges → Except String (MarkRanges × ℕ × MarkRanges)
  | 0, ranges => .ok ([], 0, ranges)
  | _ + 1, [] => .error emptyFront
  | numMarks + 1, range :: rest =>
    let marksToGetFromRange := min (range.endMark - range.beginMark) (numMarks + 1)
    let numMarksToGet := numMarks + 1 - marksToGetFromRange
    let taken : MarkRange := ⟨range.beginMark, range.beginMark + marksToGetFromRange⟩
    let left : MarkRange := ⟨range.beginMark + marksToGetFromRange, range.endMark⟩
    if left.beginMark = left.endMark then do
      let (ranges, extra, rest) ← getMarks prefetchStepMarks numMarksToGet rest
      return (taken :: ranges, extra, rest)
    else if numMarksToGet = 0 ∧ prefetchStepMarks ≠ 0 ∧ left.endMark - left.beginMark < prefetchStepMarks then
      .ok ([taken, left], left.endMark - left.beginMark, rest)
    else .ok ([taken], 0, left :: rest) -- the range is longer than what was needed

/-- The variables of `fillPerThreadTasks`: the parts from `part_idx` on, what prefetches are still
allowed, the queue of prefetches and the tasks. -/
structure Filling where
  parts : List PartLeft
  allowedMemoryUsage : ℕ
  allowedPrefetchesNum : Option ℕ
  prefetchQueue : List ℕ := []
  totalTasks : ℕ := 0
  perThreadTasks : TasksPerThread := []

def allowPrefetch (fill : Filling) (part : PartLeft) : Bool :=
  fill.allowedMemoryUsage ≠ 0 && (fill.allowedPrefetchesNum.all fun num => 0 < num) &&
    (part.estimatedMemoryUsageForSinglePrefetch ≤ fill.allowedMemoryUsage &&
      (fill.allowedPrefetchesNum.all fun num => part.requiredReadersNum ≤ num))

/-- `per_thread_tasks[thread].push_back`. -/
def pushTask (thread : ℕ) (task : ThreadTask) : TasksPerThread → TasksPerThread
  | [] => [(thread, [task])]
  | entry :: rest =>
    if thread = entry.1 then (entry.1, entry.2 ++ [task]) :: rest
    else if thread < entry.1 then (thread, [task]) :: entry :: rest
    else entry :: pushTask thread task rest

/-- A turn of the inner loop that makes a task of the first part: the new state and the marks of the task. -/
def addTask (thread : ℕ) (needMarks priority : ℤ) (part : PartLeft) (rest : List PartLeft) (fill : Filling) :
    Except String (Filling × ℕ) := do
  let marksToGet := min needMarks.toNat part.sumMarks
  let marksToGet := if part.prefetchStepMarks ≠ 0 then min marksToGet part.prefetchStepMarks else marksToGet
  let (ranges, extra, left) ← (if part.sumMarks = marksToGet then .ok (part.ranges, 0, part.ranges)
    else if part.sumMarks < marksToGet then .error (requestedTooManyMarks marksToGet part.partIdx part.sumMarks)
    else getMarks part.prefetchStepMarks marksToGet part.ranges : Except String (MarkRanges × ℕ × MarkRanges))
  let marksToGet := marksToGet + extra
  let allow := allowPrefetch fill part
  let task : ThreadTask := ⟨fill.totalTasks, part.partIdx, ranges, priority⟩
  return ({
    parts := { part with sumMarks := part.sumMarks - marksToGet, ranges := left } :: rest
    allowedMemoryUsage :=
      if allow then fill.allowedMemoryUsage - part.estimatedMemoryUsageForSinglePrefetch else fill.allowedMemoryUsage
    allowedPrefetchesNum :=
      if allow then fill.allowedPrefetchesNum.map fun num => num - part.requiredReadersNum else fill.allowedPrefetchesNum
    prefetchQueue := if allow then fill.prefetchQueue ++ [task.number] else fill.prefetchQueue
    totalTasks := fill.totalTasks + 1
    perThreadTasks := pushTask thread task fill.perThreadTasks }, marksToGet)

/-- The inner loop. Every turn goes to the next part or makes a task. -/
def fillThread (thread : ℕ) : ℕ → ℤ → ℤ → Filling → Except String Filling
  | 0, _, _, _ => .error endlessLoop
  | fuel + 1, needMarks, priority, fill =>
    if 0 < needMarks then
      match fill.parts with
      | [] => .ok fill
      | part :: rest =>
        if part.sumMarks = 0 then fillThread thread fuel needMarks priority { fill with parts := rest }
        else do
          let (fill, marks) ← addTask thread needMarks priority part rest fill
          fillThread thread fuel (needMarks - marks) (priority + 1) fill
    else .ok fill

/-- One thread of the outer loop, which ends when no part is left. -/
def fillNext (settings : Settings) (minMarksPerThread fuel : ℕ) (fill : Filling) (thread : ℕ) : Except String Filling :=
  if fill.parts.isEmpty then .ok fill
  else fillThread thread fuel minMarksPerThread (settings.readPriority + 1) fill

/-- `MergeTreePrefetchedReadPool`. `validFutures` are the tasks with a valid `readers_future`. -/
structure Pool where
  perThreadTasks : TasksPerThread := []
  prefetchQueue : List ℕ := []
  startedPrefetches : Bool := false
  validFutures : List ℕ := []
deriving DecidableEq, Repr

/-- `fillPerThreadTasks`, called by the constructor. -/
def fillPerThreadTasks (settings : Settings) (parts : List Part) (sumMarks : ℕ) : Except String Pool :=
  if parts.isEmpty then .ok {}
  else do
    parts.forM (checkStep settings)
    let left ← parts.zipIdx.mapM (preparePart settings)
    -- without marks no thread gets a task, whatever `sum_marks - 1` is then
    let minMarksPerThread := (sumMarks - 1) / settings.threads + 1
    let fuel := (left.map PartLeft.sumMarks).sum + parts.length + 1
    let fill ← (List.range settings.threads).foldlM (fillNext settings minMarksPerThread fuel)
      { parts := left
        allowedMemoryUsage := settings.filesystemPrefetchMaxMemoryUsage
        allowedPrefetchesNum :=
          if settings.filesystemPrefetchesLimit ≠ 0 then some settings.filesystemPrefetchesLimit else none }
    return { perThreadTasks := fill.perThreadTasks, prefetchQueue := fill.prefetchQueue }

/-! ## `getTask` -/

namespace Pool

variable (pool : Pool)

def isValidReadersFuture (task : ThreadTask) : Bool := task.number ∈ pool.validFutures

/-- `createPrefetchedReadersForTask`; the prefetch future is created or not. -/
def createPrefetchedReadersForTask (created : ℕ → Bool) (pool : Pool) (number : ℕ) : Except String Pool :=
  if number ∈ pool.validFutures then .error "Task already has a reader"
  else if created number then .ok { pool with validFutures := pool.validFutures ++ [number] }
  else .ok pool

def startPrefetches (created : ℕ → Bool) : Except String Pool := do
  let pool' ← pool.prefetchQueue.foldlM (createPrefetchedReadersForTask created) pool
  return { pool' with prefetchQueue := [] }

/-- `per_thread_tasks.find`. -/
def find (thread : ℕ) : Option (List ThreadTask) := pool.perThreadTasks.lookup thread

/-- The tasks of a thread are replaced; an emptied list is erased. -/
def setTasks (thread : ℕ) (tasks : List ThreadTask) : Pool :=
  { pool with
    perThreadTasks :=
      if tasks.isEmpty then pool.perThreadTasks.filter fun entry => entry.1 ≠ thread
      else pool.perThreadTasks.map fun entry => if entry.1 = thread then (entry.1, tasks) else entry }

/-- `prefetched_tasks_to_steal`: the first task with a valid future of every thread, of these the first with
the best priority. -/
def prefetchedTasksToSteal : Option (ℕ × ThreadTask) :=
  pool.perThreadTasks.foldl
    (fun best entry =>
      match entry.2.find? pool.isValidReadersFuture, best with
      | none, _ => best
      | some task, none => some (entry.1, task)
      | some task, some (thread, bestTask) =>
        if task.priority < bestTask.priority then some (entry.1, task) else some (thread, bestTask)) none

/-- `non_prefetched_tasks_to_steal`: of the threads without such a task the first with most tasks. -/
def nonPrefetchedTasksToSteal : Option (ℕ × List ThreadTask) :=
  pool.perThreadTasks.foldl
    (fun best entry =>
      match entry.2.find? pool.isValidReadersFuture, best with
      | some _, _ => best
      | none, none => some entry
      | none, some most => if most.2.length < entry.2.length then some entry else some most) none

/-- `per_thread_tasks[thread]` of a thread without tasks gets some. -/
def insertTasks (thread : ℕ) (tasks : List ThreadTask) : Pool :=
  { pool with perThreadTasks := tasks.foldl (fun perThreadTasks task => pushTask thread task perThreadTasks) pool.perThreadTasks }

def stealTask (thread : ℕ) : Option ThreadTask × Pool :=
  match pool.prefetchedTasksToSteal with
  | some (victim, task) =>
    let threadTasks := (pool.find victim).getD []
    (some task, pool.setTasks victim (threadTasks.eraseP pool.isValidReadersFuture))
  | none =>
    match pool.nonPrefetchedTasksToSteal with
    | some (victim, threadTasks) =>
      let half := threadTasks.length / 2
      -- the second half goes to the current thread, whose list is empty
      let pool := (pool.insertTasks thread (threadTasks.drop half)).setTasks victim (threadTasks.take half)
      match pool.find thread with
      | some (task :: tasks) => (some task, pool.setTasks thread tasks)
      | _ => (none, pool)
    | none => (none, pool)

def getTask (created : ℕ → Bool) (taskIdx : ℕ) : Except String (Option ThreadTask × Pool) :=
  if pool.perThreadTasks.isEmpty then .ok (none, pool)
  else do
    let pool ← (if pool.startedPrefetches then .ok pool
      else ({ pool with startedPrefetches := true } : Pool).startPrefetches created : Except String Pool)
    match pool.find taskIdx with
    | some (task :: tasks) => return (some task, pool.setTasks taskIdx tasks)
    | some [] => .error emptyFront
    | none => return pool.stealTask taskIdx

/-- Calls of `getTask` by threads, one after another: the answers in order, and the pool. -/
def run (created : ℕ → Bool) : List ℕ → Pool → Except String (List (ℕ × Option ThreadTask) × Pool)
  | [], pool => .ok ([], pool)
  | thread :: threads, pool => do
    let (answer, pool) ← pool.getTask created thread
    let (answers, pool) ← run created threads pool
    return ((thread, answer) :: answers, pool)

end Pool

end PrefetchedReadPool

end MergeTree
