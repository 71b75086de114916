import MergeTree.Spec.NumberText

/-!
# The lock of lightweight updates

`UpdateAffectedColumns` and `getLockForAutoMode` (`PatchParts/PatchPartsLock.h`, `.cpp`): updates
whose columns do not conflict run at the same time. An update lists the nodes of the updates in
progress, reads their columns one by one, and then creates its own node with a check that the
parent has not changed since the list.

The state is the part of Keeper under `in_progress` and, for every update, where its call of
`getLockForAutoMode` stands. A step is one Keeper request or one decision between two requests.
-/

namespace MergeTree

/-- The quoted column names of the IO library. -/
class ColumnText extends NumberText where
  writeBackQuotedString : String → String
  readBackQuotedString : TextReader String

/-- `NameSet`, in the order in which it is iterated. -/
structure NameSet where
  names : List String := []
  nodup : names.Nodup := by simp
deriving DecidableEq

namespace NameSet

def contains (s : NameSet) (name : String) : Bool := name ∈ s.names

def insert (s : NameSet) (name : String) : NameSet :=
  if h : name ∈ s.names then s
  else ⟨s.names ++ [name], List.nodup_append_comm.1 (List.nodup_cons.2 ⟨h, s.nodup⟩)⟩

end NameSet

/-- `UpdateAffectedColumns`. -/
structure UpdateAffectedColumns where
  used : NameSet := {}
  updated : NameSet := {}
deriving DecidableEq

namespace UpdateAffectedColumns

def version : ℕ := 0

/-- `hasConflict`: one update uses what the other one updates. -/
def hasConflict (a other : UpdateAffectedColumns) : Bool :=
  a.updated.names.any other.used.contains || other.updated.names.any a.used.contains

open IntText NumberText ColumnText TextReader

variable [ColumnText]

def writeColumns (columns : NameSet) (suffix : String) : String :=
  writeIntText columns.names.length ++ " " ++ suffix ++ "\n" ++
    String.join (columns.names.map fun column => writeBackQuotedString column ++ "\n")

def toString (a : UpdateAffectedColumns) : String :=
  "format version: " ++ writeIntText version ++ "\n" ++ writeColumns a.used "used columns:" ++
    writeColumns a.updated "updated columns:"

/-- `count` lines with a column name each. -/
def readNames : ℕ → NameSet → TextReader NameSet
  | 0, columns => return columns
  | count + 1, columns => do
    let columnName ← readBackQuotedString
    assertString "\n"
    readNames count (columns.insert columnName)

def readColumns (columns : NameSet) (suffix : String) : TextReader NameSet := do
  let count ← readIntText .uint64
  assertString " "
  assertString suffix
  assertString "\n"
  readNames count.toNat columns

/-- `fromString`, into an empty set of columns. What follows the columns is not looked at. -/
def fromString (str : String) : Except String UpdateAffectedColumns :=
  let read : TextReader UpdateAffectedColumns := do
    assertString "format version: "
    let v ← readIntText .uint64
    assertString "\n"
    if v ≠ version then throw s!"Unknown version of affected columns serializaiton: {v}"
    else
      let used ← readColumns {} "used columns:"
      let updated ← readColumns {} "updated columns:"
      return { used, updated }
  (read.run str.toList).map Prod.fst

end UpdateAffectedColumns

/-! ## Keeper -/

/-- A node `update-` under `in_progress`, with the number that Keeper appended to its name. -/
structure InProgressNode (U : Type) where
  id : ℕ
  data : String
  owner : U

/-- The node `in_progress`, its data version and its children. -/
structure InProgress (U : Type) where
  version : ℕ
  nextId : ℕ
  nodes : List (InProgressNode U)

namespace InProgress

variable {U : Type}

/-- The data of a node, if it is there. -/
def tryGet (k : InProgress U) (id : ℕ) : Option String :=
  (k.nodes.find? fun n => n.id = id).map InProgressNode.data

/-- The multi of `getLockForAutoMode`: the node is created and the parent is set. -/
def multi (k : InProgress U) (u : U) (data : String) : InProgress U where
  version := k.version + 1
  nextId := k.nextId + 1
  nodes := k.nodes ++ [{ id := k.nextId, data := data, owner := u }]

def remove (k : InProgress U) (id : ℕ) : InProgress U := { k with nodes := k.nodes.filter fun n => n.id ≠ id }

end InProgress

/-! ## `getLockForAutoMode` -/

def maxTries : ℕ := 100

/-- Where a call of `getLockForAutoMode` stands. -/
inductive LockState
  /-- It is about to list the updates in progress. -/
  | trying (numTry : ℕ)
  /-- It has listed `ids` and read the contents of some of them: `none` for a node that was gone. -/
  | reading (numTry : ℕ) (parentVersion : ℕ) (ids : List ℕ) (contents : ℕ → Option (Option String))
  /-- It has found no conflict. -/
  | committing (numTry : ℕ) (parentVersion : ℕ)
  /-- It has returned the holder of its node. -/
  | locked (id : ℕ)
  /-- It has thrown. -/
  | failed

/-- The state of all replicas and of Keeper. -/
structure LightweightUpdates (U : Type) where
  inProgress : InProgress U
  lock : U → LockState

namespace LightweightUpdates

variable [ColumnText] {U : Type}

/-- The next try, after a wait, or the timeout. -/
def retry (numTry : ℕ) : LockState := if numTry + 1 < maxTries then .trying (numTry + 1) else .failed

/-- `has_dependency_in_progress`, from the contents in the order of the list. -/
def hasDependencyInProgress (affectedColumns : UpdateAffectedColumns) : List (Option String) → Except String Bool
  | [] => .ok false
  -- the update has already finished
  | none :: contents => hasDependencyInProgress affectedColumns contents
  | some data :: contents =>
    match UpdateAffectedColumns.fromString data with
    | .error e => .error e
    | .ok inProgressAffected =>
      if inProgressAffected.hasConflict affectedColumns then .ok true
      else hasDependencyInProgress affectedColumns contents

/-- What follows when all contents are there. -/
def afterContents (affectedColumns : UpdateAffectedColumns) (numTry parentVersion : ℕ)
    (contents : List (Option String)) : LockState :=
  match hasDependencyInProgress affectedColumns contents with
  | .error _ => .failed
  | .ok true => retry numTry
  | .ok false => .committing numTry parentVersion

/-- The call of the update `u` goes on as `state`. -/
def setLock [DecidableEq U] (s : LightweightUpdates U) (u : U) (state : LockState) : LightweightUpdates U :=
  { s with lock := Function.update s.lock u state }

variable [DecidableEq U] (affectedColumns : U → UpdateAffectedColumns)

/-- **One step**: a Keeper request of some update, a decision, or the removal of a node, whose update
has finished or whose session has expired. -/
inductive Step : LightweightUpdates U → LightweightUpdates U → Prop
  | getChildren (s : LightweightUpdates U) (u : U) {numTry : ℕ} (h : s.lock u = .trying numTry) :
    Step s (s.setLock u (.reading numTry s.inProgress.version (s.inProgress.nodes.map InProgressNode.id) fun _ => none))
  | tryGet (s : LightweightUpdates U) (u : U) (id : ℕ) {numTry parentVersion : ℕ} {ids : List ℕ}
      {contents : ℕ → Option (Option String)} (h : s.lock u = .reading numTry parentVersion ids contents) (hid : id ∈ ids) :
    Step s (s.setLock u (.reading numTry parentVersion ids (Function.update contents id (some (s.inProgress.tryGet id)))))
  | check (s : LightweightUpdates U) (u : U) {numTry parentVersion : ℕ} {ids : List ℕ}
      {contents : ℕ → Option (Option String)} {read : List (Option String)}
      (h : s.lock u = .reading numTry parentVersion ids contents) (hread : ids.map contents = read.map some) :
    Step s (s.setLock u (afterContents (affectedColumns u) numTry parentVersion read))
  | commit (s : LightweightUpdates U) (u : U) {numTry parentVersion : ℕ} (h : s.lock u = .committing numTry parentVersion)
      (hversion : parentVersion = s.inProgress.version) :
    Step s ({ s with inProgress := s.inProgress.multi u (affectedColumns u).toString }.setLock u
      (.locked s.inProgress.nextId))
  /-- The multi was applied, but its response was lost. -/
  | commitLost (s : LightweightUpdates U) (u : U) {numTry parentVersion : ℕ}
      (h : s.lock u = .committing numTry parentVersion) (hversion : parentVersion = s.inProgress.version) :
    Step s ({ s with inProgress := s.inProgress.multi u (affectedColumns u).toString }.setLock u .failed)
  | badVersion (s : LightweightUpdates U) (u : U) {numTry parentVersion : ℕ}
      (h : s.lock u = .committing numTry parentVersion) (hversion : parentVersion ≠ s.inProgress.version) :
    Step s (s.setLock u (retry numTry))
  /-- Any request may end in an exception. -/
  | fail (s : LightweightUpdates U) (u : U) : Step s (s.setLock u .failed)
  | remove (s : LightweightUpdates U) (id : ℕ) : Step s { s with inProgress := s.inProgress.remove id }

/-- Before any update: no node is in progress. -/
def initial (version nextId : ℕ) : LightweightUpdates U where
  inProgress := { version, nextId, nodes := [] }
  lock := fun _ => .trying 0

/-- **The states that any number of updates can reach.** -/
def Reachable (s : LightweightUpdates U) : Prop :=
  ∃ version nextId, Relation.ReflTransGen (Step affectedColumns) (initial version nextId) s

end LightweightUpdates

end MergeTree
