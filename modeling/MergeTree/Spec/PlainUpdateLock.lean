import MergeTree.Lib.CountedMap
import MergeTree.Spec.PatchPartsLock

/-!
# The lock of lightweight updates in a plain table

`PlainLightweightUpdatesSync` (`PatchParts/PatchPartsLock.h`, `.cpp`): counters of the columns
of all updates in progress under one mutex, and a condition variable for the updates that
wait. An update that conflicts sleeps until it is notified, wakes up for no reason, or runs
out of time; an update that ends takes its columns away and notifies one sleeper.

A step is what one thread does while it holds the mutex, or a change of the condition
variable's queue.
-/

namespace MergeTree

/-- The message before `std::terminate`. -/
def cannotRemoveColumn (column : String) : String :=
  "Cannot remove column " ++ column ++ " from map. The state of affected columns became inconsistent"

/-- `UpdateAffectedColumnsWithCounters`. -/
structure UpdateAffectedColumnsWithCounters where
  used : CountedMap.Counters String := ∅
  updated : CountedMap.Counters String := ∅

namespace UpdateAffectedColumnsWithCounters

variable (counters : UpdateAffectedColumnsWithCounters) (other : UpdateAffectedColumns)

def add : UpdateAffectedColumnsWithCounters where
  used := CountedMap.increment counters.used other.used.names
  updated := CountedMap.increment counters.updated other.updated.names

/-- `remove`. An error is the branch that terminates the process. -/
def remove : Except String UpdateAffectedColumnsWithCounters := do
  let used ← CountedMap.decrement cannotRemoveColumn counters.used other.used.names
  let updated ← CountedMap.decrement cannotRemoveColumn counters.updated other.updated.names
  return { used, updated }

def hasConflict : Bool :=
  counters.updated.keys.any other.used.contains || other.updated.names.any fun column => decide (column ∈ counters.used)

end UpdateAffectedColumnsWithCounters

/-- Where an update stands. -/
inductive UpdateStatus
  | idle
  /-- It sleeps on the condition variable. -/
  | asleep
  /-- It was notified, or woke up for no reason, and will take the mutex. -/
  | notified
  /-- Its time is over, and it will take the mutex. -/
  | timedOut
  /-- `lockColumns` has returned. -/
  | inProgress
  /-- `lockColumns` has thrown `TIMEOUT_EXCEEDED`. -/
  | failed
  /-- `releaseColumns` has returned. -/
  | released
deriving DecidableEq, Repr

/-- The state of `PlainLightweightUpdatesSync` and of all updates. -/
structure PlainLightweightUpdatesSync (U : Type) where
  inProgressColumns : UpdateAffectedColumnsWithCounters
  status : U → UpdateStatus

namespace PlainLightweightUpdatesSync

/-- What happens in a step. -/
inductive Event (U : Type)
  /-- `lockColumns` is called: the predicate is checked for the first time. -/
  | lockColumns (u : U)
  /-- A sleeper wakes up without a notification. -/
  | wakeUp (u : U)
  /-- A sleeper that was notified checks the predicate again. -/
  | recheck (u : U)
  /-- The time of a sleeper is over. -/
  | expire (u : U)
  /-- A sleeper whose time is over checks the predicate for the last time. -/
  | lastCheck (u : U)
  /-- `releaseColumns`: one sleeper is notified if there is one. -/
  | releaseColumns (u : U) (notified : Option U)

section

variable {U : Type} [DecidableEq U] (affectedColumns : U → UpdateAffectedColumns)

/-- The update goes on as `status`. -/
def setStatus (s : PlainLightweightUpdatesSync U) (u : U) (status : UpdateStatus) : PlainLightweightUpdatesSync U :=
  { s with status := Function.update s.status u status }

/-- After a check of the predicate: the columns are locked, or the update goes on as `otherwise`. -/
def check (s : PlainLightweightUpdatesSync U) (u : U) (otherwise : UpdateStatus) : PlainLightweightUpdatesSync U :=
  if s.inProgressColumns.hasConflict (affectedColumns u) then s.setStatus u otherwise
  else { s with inProgressColumns := s.inProgressColumns.add (affectedColumns u) }.setStatus u .inProgress

/-- `notify_one` picks this sleeper; none if nobody sleeps. -/
def Notifies (s : PlainLightweightUpdatesSync U) : Option U → Prop
  | some v => s.status v = .asleep
  | none => ∀ v, s.status v ≠ .asleep

/-- The sleeper that was picked is no longer asleep. -/
def notifyOne (s : PlainLightweightUpdatesSync U) : Option U → PlainLightweightUpdatesSync U
  | some v => s.setStatus v .notified
  | none => s

/-- **One step.** -/
inductive Step (s : PlainLightweightUpdatesSync U) : Event U → PlainLightweightUpdatesSync U → Prop
  | lockColumns (u : U) (h : s.status u = .idle) : Step s (.lockColumns u) (s.check affectedColumns u .asleep)
  | wakeUp (u : U) (h : s.status u = .asleep) : Step s (.wakeUp u) (s.setStatus u .notified)
  | recheck (u : U) (h : s.status u = .notified) : Step s (.recheck u) (s.check affectedColumns u .asleep)
  | expire (u : U) (h : s.status u = .asleep ∨ s.status u = .notified) : Step s (.expire u) (s.setStatus u .timedOut)
  | lastCheck (u : U) (h : s.status u = .timedOut) : Step s (.lastCheck u) (s.check affectedColumns u .failed)
  | releaseColumns (u : U) (notified : Option U) {columns : UpdateAffectedColumnsWithCounters} (h : s.status u = .inProgress)
      (hremove : s.inProgressColumns.remove (affectedColumns u) = .ok columns) (hnotified : s.Notifies notified) :
    Step s (.releaseColumns u notified) (({ s with inProgressColumns := columns }.setStatus u .released).notifyOne notified)

/-- Before any update. -/
def initial : PlainLightweightUpdatesSync U := ⟨{}, fun _ => .idle⟩

/-- **A run** of any updates, with the states and events on the way. -/
inductive Run : List (PlainLightweightUpdatesSync U × Event U) → PlainLightweightUpdatesSync U → Prop
  | nil : Run [] initial
  | snoc {trace : List (PlainLightweightUpdatesSync U × Event U)} {s s' : PlainLightweightUpdatesSync U} {e : Event U} :
      Run trace s → s.Step affectedColumns e s' → Run (trace ++ [(s, e)]) s'

end

end PlainLightweightUpdatesSync

end MergeTree
