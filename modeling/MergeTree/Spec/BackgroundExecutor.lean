import Mathlib

/-!
# The background executor

`MergeTreeBackgroundExecutor` (`MergeTreeBackgroundExecutor.h`, `.cpp`): threads take tasks from the
queue `pending`, execute one step of them and put them back, until a step says that the task is
finished or throws. A storage that goes away removes its tasks from `pending` and waits for those
that are in `active`.

A step of the model is one critical section under the mutex, or one call into a task between two of
them. Tasks, storages, threads and calls of `removeTasksCorrespondingToStorage` are elements of
arbitrary types.
-/

namespace MergeTree

/-! ## Queues -/

/-- `push_back` of a circular buffer, which overwrites the front of a full one. -/
def pushBack {T : Type} (capacity : ℕ) (buffer : List T) (item : T) : List T :=
  if buffer.length < capacity then buffer ++ [item]
  else if capacity = 0 then buffer
  else buffer.tail ++ [item]

/-- The queue types: `RoundRobinRuntimeQueue` and `PriorityRuntimeQueue`. -/
inductive QueuePolicy
  | roundRobin
  | shortestTaskFirst
deriving DecidableEq, Repr

namespace QueuePolicy

variable {T : Type}

/-- `push`: a circular buffer, or a heap in a vector. -/
def push (capacity : ℕ) (queue : List T) (item : T) : QueuePolicy → List T
  | roundRobin => pushBack capacity queue item
  | shortestTaskFirst => queue ++ [item]

/-- **`pop`** takes an item out of a queue: the front, or one of the least priority value. A heap may
order its items anew. -/
inductive Pops (priority : T → ℤ) : QueuePolicy → List T → T → List T → Prop
  | front (item : T) (rest : List T) : Pops priority roundRobin (item :: rest) item rest
  | least {queue : List T} {item : T} {rest : List T} (hperm : queue.Perm (item :: rest))
      (hleast : ∀ other ∈ queue, priority item ≤ priority other) : Pops priority shortestTaskFirst queue item rest

/-- Everything is popped, as `updatePolicy` does. -/
inductive Drains (priority : T → ℤ) (policy : QueuePolicy) : List T → List T → Prop
  | empty : Drains priority policy [] []
  | pop {queue : List T} {item : T} {rest popped : List T} (hpop : Pops priority policy queue item rest)
      (hrest : Drains priority policy rest popped) : Drains priority policy queue (item :: popped)

end QueuePolicy

/-! ## Tasks -/

/-- What `executeStep` did. -/
inductive StepOutcome
  /-- It returned true: the task needs another step. -/
  | again
  /-- It returned false. -/
  | finished
  | threw
deriving DecidableEq, Repr

/-- `TaskRuntimeData`, with what has happened to its task. -/
structure TaskRuntimeData where
  /-- `trySchedule` has taken the task. -/
  accepted : Bool := false
  /-- The task object is there: `resetTask` has not been called. -/
  task : Bool := false
  isCurrentlyDeleting : Bool := false
  isDone : Bool := false
  /-- `cancel` has been called. -/
  cancelled : Bool := false
  /-- The outcomes of the calls of `executeStep`. -/
  outcomes : List StepOutcome := []
deriving DecidableEq, Repr

/-- Where `routine` stands. -/
inductive Stage
  /-- About to execute a step. -/
  | executing
  /-- In `restart_task`, before its critical section. -/
  | restarting
  /-- In `restart_task` of a task whose storage is being deleted, before `cancel`. -/
  | cancelling
  /-- In `complete_task`, before `onCompleted`. -/
  | completing
  /-- In the handler of exceptions, before `cancel`. -/
  | failing
  /-- In `release_task`, before `resetTask`. -/
  | releasing
  /-- In `release_task`, before its critical section. -/
  | erasing
deriving DecidableEq, Repr

/-- A thread of the executor. -/
inductive Worker (T : Type)
  | idle
  | busy (stage : Stage) (item : T)
  | stopped

/-- A call of `removeTasksCorrespondingToStorage`. -/
inductive Remover (T S : Type)
  | notStarted
  /-- About to cancel the next task. -/
  | removing (id : S) (tasksToCancel tasksToWait : List T)
  /-- It has cancelled `item` and is about to reset it. -/
  | resetting (id : S) (item : T) (tasksToCancel tasksToWait : List T)
  | returned

/-! ## The executor -/

/-- `MergeTreeBackgroundExecutor`, its threads `W` and the calls `R` of
`removeTasksCorrespondingToStorage`. -/
structure Executor (T S W R : Type) where
  policy : QueuePolicy
  maxTasksCount : ℕ
  /-- The capacity of both queues. -/
  capacity : ℕ
  shutdown : Bool
  pending : List T
  active : List T
  /-- The items that exist; their number is the value of the metric. -/
  objects : List T
  data : T → TaskRuntimeData
  worker : W → Worker T
  remover : R → Remover T S

namespace Executor

variable {T S W R : Type} [DecidableEq T] [DecidableEq S] [DecidableEq W] [DecidableEq R]

/-- Before any task. -/
def initial (policy : QueuePolicy) (maxTasksCount : ℕ) : Executor T S W R where
  policy := policy
  maxTasksCount := maxTasksCount
  capacity := maxTasksCount
  shutdown := false
  pending := []
  active := []
  objects := []
  data := fun _ => {}
  worker := fun _ => .idle
  remover := fun _ => .notStarted

variable (s : Executor T S W R)

def setData (item : T) (d : TaskRuntimeData) : Executor T S W R := { s with data := Function.update s.data item d }

def setWorker (w : W) (state : Worker T) : Executor T S W R := { s with worker := Function.update s.worker w state }

def setRemover (r : R) (state : Remover T S) : Executor T S W R := { s with remover := Function.update s.remover r state }

def cancel (item : T) : Executor T S W R := s.setData item { s.data item with cancelled := true }

/-- `resetTask`, or the end of an item together with its task. -/
def resetTask (item : T) : Executor T S W R := s.setData item { s.data item with task := false }

/-- The call of `executeStep` is over. -/
def stepDone (item : T) (outcome : StepOutcome) : Executor T S W R :=
  s.setData item { s.data item with outcomes := (s.data item).outcomes ++ [outcome] }

/-- The critical section of `trySchedule`, when there is room. -/
def schedule (item : T) : Executor T S W R :=
  { s with
    pending := s.policy.push s.capacity s.pending item
    objects := s.objects ++ [item] }.setData item { accepted := true, task := true }

/-- The critical section of `threadFunction`, after `pop`. -/
def take (w : W) (item : T) (rest : List T) : Executor T S W R :=
  { s with pending := rest, active := pushBack s.capacity s.active item }.setWorker w (.busy .executing item)

/-- `restart_task`: the task goes back to the queue. -/
def restart (w : W) (item : T) : Executor T S W R :=
  { s with
    active := s.active.erase item
    pending := s.policy.push s.capacity s.pending item }.setWorker w .idle

/-- The critical section of `release_task`. -/
def erase (w : W) (item : T) : Executor T S W R :=
  ({ s with active := s.active.erase item }.setData item { s.data item with isDone := true }).setWorker w .idle

/-- The critical section of `removeTasksCorrespondingToStorage`. -/
def remove (storage : T → S) (r : R) (id : S) : Executor T S W R :=
  { s with
    pending := s.pending.filter fun item => storage item ≠ id
    data := fun item =>
      if item ∈ s.active ∧ storage item = id then { s.data item with isCurrentlyDeleting := true } else s.data item
      }.setRemover r (.removing id (s.pending.filter fun item => storage item = id)
        (s.active.filter fun item => storage item = id))

/-- Somebody holds a pointer to the item. -/
def Referenced (item : T) : Prop :=
  item ∈ s.pending ∨ item ∈ s.active ∨ (∃ w stage, s.worker w = .busy stage item) ∨
    ∃ r id tasksToCancel tasksToWait, (s.remover r = .removing id tasksToCancel tasksToWait ∧
        (item ∈ tasksToCancel ∨ item ∈ tasksToWait)) ∨
      ∃ other, s.remover r = .resetting id other tasksToCancel tasksToWait ∧
        (item = other ∨ item ∈ tasksToCancel ∨ item ∈ tasksToWait)

variable (storage : T → S) (priority : T → ℤ)

/-- **One step** of a thread, of a caller or of the executor. -/
inductive Step : Executor T S W R → Executor T S W R → Prop
  | schedule (s : Executor T S W R) (item : T) (hnew : (s.data item).accepted = false) (hshutdown : s.shutdown = false)
      (hroom : s.objects.length < s.maxTasksCount) : Step s (s.schedule item)
  -- `threadFunction`
  | take (s : Executor T S W R) (w : W) {item : T} {rest : List T} (hidle : s.worker w = .idle) (hshutdown : s.shutdown = false)
      (hpop : QueuePolicy.Pops priority s.policy s.pending item rest) : Step s (s.take w item rest)
  | stop (s : Executor T S W R) (w : W) (hidle : s.worker w = .idle) (hshutdown : s.shutdown = true) :
      Step s (s.setWorker w .stopped)
  -- `routine`
  | again (s : Executor T S W R) (w : W) {item : T} (h : s.worker w = .busy .executing item) :
      Step s ((s.stepDone item .again).setWorker w (.busy .restarting item))
  | finished (s : Executor T S W R) (w : W) {item : T} (h : s.worker w = .busy .executing item) :
      Step s ((s.stepDone item .finished).setWorker w (.busy .completing item))
  | threw (s : Executor T S W R) (w : W) {item : T} (h : s.worker w = .busy .executing item) :
      Step s ((s.stepDone item .threw).setWorker w (.busy .failing item))
  | restart (s : Executor T S W R) (w : W) {item : T} (h : s.worker w = .busy .restarting item)
      (hdeleting : (s.data item).isCurrentlyDeleting = false) : Step s (s.restart w item)
  | restartDeleting (s : Executor T S W R) (w : W) {item : T} (h : s.worker w = .busy .restarting item)
      (hdeleting : (s.data item).isCurrentlyDeleting = true) : Step s (s.setWorker w (.busy .cancelling item))
  | cancel (s : Executor T S W R) (w : W) {item : T} (h : s.worker w = .busy .cancelling item) :
      Step s ((s.cancel item).setWorker w (.busy .releasing item))
  | onCompleted (s : Executor T S W R) (w : W) {item : T} (h : s.worker w = .busy .completing item) :
      Step s (s.setWorker w (.busy .releasing item))
  | onCompletedThrew (s : Executor T S W R) (w : W) {item : T} (h : s.worker w = .busy .completing item) :
      Step s (s.setWorker w (.busy .failing item))
  | cancelFailed (s : Executor T S W R) (w : W) {item : T} (h : s.worker w = .busy .failing item) :
      Step s ((s.cancel item).setWorker w (.busy .releasing item))
  | resetTask (s : Executor T S W R) (w : W) {item : T} (h : s.worker w = .busy .releasing item) :
      Step s ((s.resetTask item).setWorker w (.busy .erasing item))
  | erase (s : Executor T S W R) (w : W) {item : T} (h : s.worker w = .busy .erasing item) : Step s (s.erase w item)
  -- `removeTasksCorrespondingToStorage`
  | remove (s : Executor T S W R) (r : R) (id : S) (h : s.remover r = .notStarted) : Step s (s.remove storage r id)
  | removerCancel (s : Executor T S W R) (r : R) {id : S} {item : T} {tasksToCancel tasksToWait : List T}
      (h : s.remover r = .removing id (item :: tasksToCancel) tasksToWait) :
      Step s ((s.cancel item).setRemover r (.resetting id item tasksToCancel tasksToWait))
  | removerReset (s : Executor T S W R) (r : R) {id : S} {item : T} {tasksToCancel tasksToWait : List T}
      (h : s.remover r = .resetting id item tasksToCancel tasksToWait) :
      Step s ((s.resetTask item).setRemover r (.removing id tasksToCancel tasksToWait))
  | removerWait (s : Executor T S W R) (r : R) {id : S} {item : T} {tasksToWait : List T}
      (h : s.remover r = .removing id [] (item :: tasksToWait)) (hdone : (s.data item).isDone = true) :
      Step s (s.setRemover r (.removing id [] tasksToWait))
  | removerReturn (s : Executor T S W R) (r : R) {id : S} (h : s.remover r = .removing id [] []) :
      Step s (s.setRemover r .returned)
  /-- The last pointer to an item is gone: `~TaskRuntimeData`. -/
  | destroy (s : Executor T S W R) (item : T) (h : ¬ s.Referenced item) : Step s { s with objects := s.objects.erase item }
  -- the executor
  | shutdown (s : Executor T S W R) : Step s { s with shutdown := true }
  | increaseMaxTasksCount (s : Executor T S W R) (newMaxTasksCount : ℕ) (h : s.maxTasksCount ≤ newMaxTasksCount) :
      Step s { s with maxTasksCount := newMaxTasksCount, capacity := newMaxTasksCount }
  | updatePolicy (s : Executor T S W R) (policy : QueuePolicy) {popped : List T} (hpolicy : policy ≠ s.policy)
      (hpopped : QueuePolicy.Drains priority s.policy s.pending popped) :
      Step s { s with policy := policy, pending := popped.foldl (fun queue item => policy.push s.capacity queue item) [] }

/-- **The states that can be reached** from an executor without tasks. -/
def Reachable (s : Executor T S W R) : Prop :=
  ∃ policy maxTasksCount, Relation.ReflTransGen (Step storage priority) (initial policy maxTasksCount) s

end Executor

end MergeTree
