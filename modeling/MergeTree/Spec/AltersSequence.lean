import MergeTree.Lib.KeyedSet

/-!
# The order of alters

`ReplicatedMergeTreeAltersSequence`: for each alter version that is not over yet,
whether its metadata and its data part are finished. `queue_state[version]` inserts a
default state for a version that is absent.
-/

namespace MergeTree

/-- `ReplicatedMergeTreeAltersSequence::AlterState`. -/
structure AlterState where
  metadataFinished : Bool := false
  dataFinished : Bool := false
deriving DecidableEq, Repr

/-- `ReplicatedMergeTreeAltersSequence`: a map from alter versions. -/
structure AltersSequence where
  queueState : KeyedSet (Prod.fst : ℤ × AlterState → ℤ) := .empty

namespace AltersSequence

/-- `queue_state[alter_version]`, for a version that may be absent. -/
def stateOf (A : AltersSequence) (alterVersion : ℤ) : AlterState :=
  ((A.queueState.find alterVersion).map Prod.snd).getD {}

/-- Writes `queue_state[alter_version]`. -/
def setState (A : AltersSequence) (alterVersion : ℤ) (state : AlterState) : AltersSequence :=
  { queueState := (A.queueState.erase alterVersion).emplace (alterVersion, state) }

/-- `addMetadataAlter`. The data alter was added before or does not exist. -/
def addMetadataAlter (A : AltersSequence) (alterVersion : ℤ) : AltersSequence :=
  if (A.queueState.find alterVersion).isNone then
    A.setState alterVersion { metadataFinished := false, dataFinished := true }
  else
    A.setState alterVersion { A.stateOf alterVersion with metadataFinished := false }

def finishMetadataAlter (A : AltersSequence) (alterVersion : ℤ) : AltersSequence :=
  if (A.stateOf alterVersion).dataFinished then { queueState := A.queueState.erase alterVersion }
  else A.setState alterVersion { A.stateOf alterVersion with metadataFinished := true }

/-- `queue_state.begin()->first`, of a sequence that is not empty. -/
def head (A : AltersSequence) : Option ℤ := A.queueState.toList.head?.map Prod.fst

def getHeadAlterVersion (A : AltersSequence) : ℤ := A.head.getD (-1)

/-- `addMutationForAlter`. The metadata alter comes later, or was finished before a restart. -/
def addMutationForAlter (A : AltersSequence) (alterVersion : ℤ) : AltersSequence :=
  if (A.queueState.find alterVersion).isNone then
    A.setState alterVersion { metadataFinished := true, dataFinished := false }
  else
    A.setState alterVersion { A.stateOf alterVersion with dataFinished := false }

/-- The assertions of `finishMetadataAlter`: the sequence is not empty and the version is its head. -/
def finishMetadataAlterAsserts (A : AltersSequence) (alterVersion : ℤ) : Bool := A.head = some alterVersion

def finishDataAlter (A : AltersSequence) (alterVersion : ℤ) : AltersSequence :=
  match A.head with
  | none => A
  | some first =>
    if alterVersion < first then A
    else if (A.stateOf alterVersion).metadataFinished then { queueState := A.queueState.erase alterVersion }
    else A.setState alterVersion { A.stateOf alterVersion with dataFinished := true }

/-- The assertion of `finishDataAlter`: a version that is not before the head is in the sequence. -/
def finishDataAlterAsserts (A : AltersSequence) (alterVersion : ℤ) : Bool :=
  match A.head with
  | none => true
  | some first => alterVersion < first || (A.queueState.find alterVersion).isSome

/-- `canExecuteDataAlter`. `map::at` throws on a version that is absent. -/
def canExecuteDataAlter (A : AltersSequence) (alterVersion : ℤ) : Except String Bool :=
  match A.head with
  | none => .ok true
  | some first =>
    if alterVersion < first then .ok true
    else
      match A.queueState.find alterVersion with
      | some entry => .ok entry.2.metadataFinished
      | none => .error "map::at"

/-- `canExecuteMetaAlter`. Its assertion, too, is that the sequence is not empty. -/
def canExecuteMetaAlter (A : AltersSequence) (alterVersion : ℤ) : Bool := A.head = some alterVersion

end AltersSequence

/-! ## Histories of alters -/

/-- A stage of an alter: nobody introduced it, it has to be done, it is done. -/
inductive AlterStage
  | absent
  | pending
  | finished
deriving DecidableEq, Repr

/-- **What happened to the alters so far**: the stages of every version, and the versions
whose metadata alter finished, in that order. -/
structure AltersHistory where
  metadata : ℤ → AlterStage := fun _ => .absent
  data : ℤ → AlterStage := fun _ => .absent
  finished : List ℤ := []

/-- A call of the queue to its alters. -/
inductive AlterCall
  | addMutationForAlter (alterVersion : ℤ)
  | addMetadataAlter (alterVersion : ℤ)
  | finishMetadataAlter (alterVersion : ℤ)
  | finishDataAlter (alterVersion : ℤ)
deriving DecidableEq, Repr

/-- What a call makes of the sequence. -/
def AltersSequence.apply (A : AltersSequence) : AlterCall → AltersSequence
  | .addMutationForAlter v => A.addMutationForAlter v
  | .addMetadataAlter v => A.addMetadataAlter v
  | .finishMetadataAlter v => A.finishMetadataAlter v
  | .finishDataAlter v => A.finishDataAlter v

namespace AltersHistory

/-- A call finishes a stage only once. -/
def apply (H : AltersHistory) : AlterCall → AltersHistory
  | .addMutationForAlter v => { H with data := Function.update H.data v .pending }
  | .addMetadataAlter v => { H with metadata := Function.update H.metadata v .pending }
  | .finishMetadataAlter v =>
    if H.metadata v = .pending then
      { H with metadata := Function.update H.metadata v .finished, finished := H.finished ++ [v] }
    else H
  | .finishDataAlter v =>
    if H.data v = .pending then { H with data := Function.update H.data v .finished } else H

/-- A stage of the version was introduced. -/
def Introduced (H : AltersHistory) (v : ℤ) : Prop := H.metadata v ≠ .absent ∨ H.data v ≠ .absent

/-- A stage of the version is introduced and not finished. -/
def Pending (H : AltersHistory) (v : ℤ) : Prop := H.metadata v = .pending ∨ H.data v = .pending

instance (H : AltersHistory) (v : ℤ) : Decidable (H.Pending v) := inferInstanceAs (Decidable (_ ∨ _))

end AltersHistory

end MergeTree
