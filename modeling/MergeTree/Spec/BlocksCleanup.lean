import Mathlib.Algebra.Order.Ring.Int
import Mathlib.Data.Fintype.Defs
import Mathlib.Data.Int.Init
import Mathlib.Data.List.Perm.Basic
import Mathlib.Data.Prod.Lex
import Mathlib.Logic.Function.Basic

/-!
# Cleaning of deduplication nodes

`ReplicatedMergeTreeCleanupThread::clearOldBlocks`: a pass of a replica lists the nodes of a
directory, takes their times from its cache or asks for them, and removes the nodes outside of
the deduplication window (`ReplicatedMergeTreeCleanupThread.cpp`).

A directory of Keeper is used by several replicas at once. A step is one request to Keeper, or
what a replica does by itself between two requests.
-/

namespace MergeTree

/-! ## Nodes -/

/-- A node of a deduplication directory. -/
structure BlockNode where
  name : String
  ctime : ℕ
  czxid : ℕ
  version : ℕ
  /-- It is left over from a previous server version. -/
  hasChildren : Bool := false
deriving DecidableEq, Repr

/-- `NodeCacheEntry`. -/
structure NodeCacheEntry where
  ctime : ℕ
  czxid : ℕ
  version : ℕ
deriving DecidableEq, Repr

/-- `NodeCTimeAndVersionCache`. -/
abbrev NodeCTimeAndVersionCache := String → Option NodeCacheEntry

/-- `NodeWithStat`. -/
structure NodeWithStat where
  node : String
  ctime : ℕ
  czxid : ℕ
  version : ℕ
deriving DecidableEq, Repr

/-- The stat of a node, as it is cached. -/
def BlockNode.stat (node : BlockNode) : NodeCacheEntry := ⟨node.ctime, node.czxid, node.version⟩

def NodeCacheEntry.withStat (entry : NodeCacheEntry) (node : String) : NodeWithStat := ⟨node, entry.ctime, entry.czxid, entry.version⟩

def BlockNode.withStat (node : BlockNode) : NodeWithStat := node.stat.withStat node.name

/-- What nodes are ordered by, `(ctime, czxid)`. -/
def NodeWithStat.createdKey (block : NodeWithStat) : ℕ ×ₗ ℕ := toLex (block.ctime, block.czxid)

def NodeWithStat.greaterByTime (lhs rhs : NodeWithStat) : Bool := rhs.createdKey < lhs.createdKey

/-- The settings of a replica. -/
structure DeduplicationWindow where
  windowSeconds : ℕ
  windowSize : ℕ
deriving DecidableEq, Repr

/-- `static_cast<Int64>(1000 * window_seconds)`. -/
def DeduplicationWindow.milliseconds (window : DeduplicationWindow) : ℤ := Int.bmod (1000 * window.windowSeconds) (2 ^ 64)

/-- The blocks from `first_outdated_block` on. -/
def firstOutdatedBlock (window : DeduplicationWindow) (timedBlocks : List NodeWithStat) : List NodeWithStat :=
  match timedBlocks with
  | [] => []
  | front :: _ =>
    let timeThreshold := max 0 ((front.ctime : ℤ) - window.milliseconds)
    let blockThreshold : NodeWithStat := ⟨"", timeThreshold.toNat, 0, 0⟩
    let currentDeduplicationWindow := min timedBlocks.length window.windowSize
    -- `upper_bound`
    let firstOutdatedBlockTimeThreshold := timedBlocks.findIdx blockThreshold.greaterByTime
    timedBlocks.drop (min currentDeduplicationWindow firstOutdatedBlockTimeThreshold)

/-! ## A replica -/

/-- The answer to `tryRemove`. -/
inductive RemoveError
  | ok
  | noNode
  | badVersion
  | notEmpty
  /-- Keeper may still remove the node, or has done so. -/
  | other
deriving DecidableEq, Repr

/-- `tryRemove` of a node of the version. -/
def tryRemove (nodes : List BlockNode) (name : String) (version : ℕ) : RemoveError × List BlockNode :=
  match nodes.find? fun node => node.name = name with
  | none => (.noNode, nodes)
  | some node =>
    if node.version ≠ version then (.badVersion, nodes)
    else if node.hasChildren then (.notEmpty, nodes)
    else (.ok, nodes.filter fun node => node.name ≠ name)

/-- Where the pass of a replica stands. `listed` are the nodes when the directory was listed: the pass has only
their names. -/
inductive CleanupPass
  | idle
  /-- `getBlocksSortedByTime` asks for the stats that are not cached. -/
  | fetching (listed : List BlockNode) (timedBlocks : List NodeWithStat) (existsPaths : List String) (existsResults : List NodeWithStat)
  /-- Nodes are removed: requests that Keeper has not handled, answers that the replica has not handled, and the
  blocks that `first_outdated_block` has not passed. -/
  | removing (listed : List BlockNode) (tryRemoveFutures : List NodeWithStat) (answers : List (String × RemoveError))
      (firstOutdatedBlock : List NodeWithStat)

/-- The nodes when the directory was listed. -/
def CleanupPass.listed : CleanupPass → List BlockNode
  | .idle => []
  | .fetching listed _ _ _ => listed
  | .removing listed _ _ _ => listed

/-- A removal that Keeper may still handle while no pass waits for it: a `tryRemove` of a version, or `removeRecursive`. -/
structure LateRemoval where
  /-- The nodes that the pass had listed. -/
  listed : List BlockNode
  path : String
  version : Option ℕ
deriving DecidableEq, Repr

def LateRemoval.run (removal : LateRemoval) (nodes : List BlockNode) : List BlockNode :=
  match removal.version with
  | some version => (tryRemove nodes removal.path version).2
  | none => nodes.filter fun node => node.name ≠ removal.path

/-- What a pass leaves to Keeper that ends with an exception: the removals that it has sent, and the `removeRecursive` that
may have thrown. -/
def CleanupPass.late : CleanupPass → List LateRemoval
  | .removing listed tryRemoveFutures answers _ =>
    (tryRemoveFutures.map fun block => ⟨listed, block.node, some block.version⟩) ++
      ((answers.take 1).filter fun answer => answer.2 = .notEmpty).map fun answer => ⟨listed, answer.1, none⟩
  | _ => []

/-- A replica. -/
structure CleanupReplica where
  cachedBlockStats : NodeCTimeAndVersionCache := fun _ => none
  pass : CleanupPass := .idle
  late : List LateRemoval := []

/-- `emplace` of fetched stats. -/
def putStats (results : List NodeWithStat) (cache : NodeCTimeAndVersionCache) : NodeCTimeAndVersionCache :=
  results.foldl (fun cache block => Function.update cache block.node
    (some ((cache block.node).getD ⟨block.ctime, block.czxid, block.version⟩))) cache

/-! ## The directory and its replicas -/

/-- A deduplication directory and the replicas that clean it. -/
structure BlocksDirectory (ι : Type) where
  nodes : List BlockNode
  /-- The latest creation. -/
  lastCtime : ℕ
  lastCzxid : ℕ
  replicas : ι → CleanupReplica

/-- What can happen to a directory. -/
inductive CleanupAction (ι : Type)
  /-- An insert creates a node. -/
  | create (name : String) (ctime czxid : ℕ)
  /-- A node is removed by something else than a pass. -/
  | drop (name : String)
  | list (replica : ι)
  | fetch (replica : ι)
  /-- The stats are there: the blocks are sorted, and the removals are sent. -/
  | plan (replica : ι) (timedBlocks : List NodeWithStat)
  | remove (replica : ι)
  /-- A removal is answered with another error. -/
  | fail (replica : ι)
  | finish (replica : ι)
  /-- The pass ends with an exception. -/
  | abort (replica : ι)
  /-- Keeper handles a late removal. -/
  | removeLate (replica : ι) (i : ℕ)

variable {ι : Type} [DecidableEq ι]

namespace BlocksDirectory

variable (s : BlocksDirectory ι)

def setReplica (r : ι) (replica : CleanupReplica) : BlocksDirectory ι := { s with replicas := Function.update s.replicas r replica }

def setPass (r : ι) (pass : CleanupPass) : BlocksDirectory ι := s.setReplica r { s.replicas r with pass := pass }

/-- A node is created with version 0, if there is none of the name. Times do not decrease. -/
def create (name : String) (ctime czxid : ℕ) : Option (BlocksDirectory ι) :=
  if name ∈ s.nodes.map BlockNode.name ∨ ctime < s.lastCtime ∨ czxid < s.lastCzxid then none
  else some { s with nodes := s.nodes ++ [⟨name, ctime, czxid, 0, false⟩], lastCtime := ctime, lastCzxid := czxid }

/-- `tryGetChildren`, and what follows from it: names that are not listed leave the cache, listed ones are taken from the cache
or asked for. -/
def list (r : ι) : Option (BlocksDirectory ι) :=
  match (s.replicas r).pass with
  | .idle =>
    let blocks := s.nodes.map BlockNode.name
    let cachedBlockStats : NodeCTimeAndVersionCache := fun block => if block ∈ blocks then (s.replicas r).cachedBlockStats block else none
    let timedBlocks := blocks.filterMap fun block => (cachedBlockStats block).map fun entry => entry.withStat block
    let existsPaths := blocks.filter fun block => (cachedBlockStats block).isNone
    some (s.setReplica r ⟨cachedBlockStats, .fetching s.nodes timedBlocks existsPaths [], (s.replicas r).late⟩)
  | _ => none

/-- `exists` of one path. -/
def fetch (r : ι) : Option (BlocksDirectory ι) :=
  match (s.replicas r).pass with
  | .fetching listed timedBlocks (path :: existsPaths) existsResults =>
    some (s.setPass r (.fetching listed timedBlocks existsPaths
      (existsResults ++ ((s.nodes.find? fun node => node.name = path).map BlockNode.withStat).toList)))
  | _ => none

/-- `timed_blocks` are sorted, and the removals of the outdated ones are sent. -/
def plan (window : DeduplicationWindow) (r : ι) (timedBlocks : List NodeWithStat) : Option (BlocksDirectory ι) :=
  match (s.replicas r).pass with
  | .fetching listed timedBlocks' [] existsResults =>
    if timedBlocks.Perm (timedBlocks' ++ existsResults) ∧ timedBlocks.Pairwise (fun lhs rhs => !rhs.greaterByTime lhs) then
      some (s.setReplica r ⟨putStats existsResults (s.replicas r).cachedBlockStats,
        match firstOutdatedBlock window timedBlocks with
        | [] => .idle
        | outdated => .removing listed outdated [] outdated,
        (s.replicas r).late⟩)
    else none
  | _ => none

/-- Keeper handles the first removal. -/
def remove (r : ι) : Option (BlocksDirectory ι) :=
  match (s.replicas r).pass with
  | .removing listed (block :: tryRemoveFutures) answers outdated =>
    let answer := tryRemove s.nodes block.node block.version
    some ({ s with nodes := answer.2 }.setPass r (.removing listed tryRemoveFutures (answers ++ [(block.node, answer.1)]) outdated))
  | _ => none

/-- The first removal is answered with an error that does not say what becomes of the node. -/
def fail (r : ι) : Option (BlocksDirectory ι) :=
  match (s.replicas r).pass with
  | .removing listed (block :: tryRemoveFutures) answers outdated =>
    some (s.setReplica r ⟨(s.replicas r).cachedBlockStats, .removing listed tryRemoveFutures (answers ++ [(block.node, .other)]) outdated,
      (s.replicas r).late ++ [⟨listed, block.node, some block.version⟩]⟩)
  | _ => none

/-- The replica handles the first answer: a node with children is removed with them, and the block leaves the cache unless the
error is another one. -/
def finish (r : ι) : Option (BlocksDirectory ι) :=
  match (s.replicas r).pass with
  | .removing listed tryRemoveFutures ((path, rc) :: answers) (block :: outdated) =>
    -- `removeRecursive`
    let nodes := if rc = .notEmpty then s.nodes.filter fun node => node.name ≠ path else s.nodes
    let cache := (s.replicas r).cachedBlockStats
    let cachedBlockStats := if rc = .other then cache else Function.update cache block.node none
    some ({ s with nodes := nodes }.setReplica r ⟨cachedBlockStats,
      match outdated with
      | [] => .idle
      | outdated => .removing listed tryRemoveFutures answers outdated,
      (s.replicas r).late⟩)
  | _ => none

def abort (r : ι) : BlocksDirectory ι :=
  s.setReplica r ⟨(s.replicas r).cachedBlockStats, .idle, (s.replicas r).late ++ (s.replicas r).pass.late⟩

def removeLate (r : ι) (i : ℕ) : Option (BlocksDirectory ι) :=
  (s.replicas r).late[i]?.map fun removal =>
    { s with nodes := removal.run s.nodes }.setReplica r { s.replicas r with late := (s.replicas r).late.eraseIdx i }

/-- One step. -/
def step (window : ι → DeduplicationWindow) : CleanupAction ι → Option (BlocksDirectory ι)
  | .create name ctime czxid => s.create name ctime czxid
  | .drop name => some { s with nodes := s.nodes.filter fun node => node.name ≠ name }
  | .list r => s.list r
  | .fetch r => s.fetch r
  | .plan r timedBlocks => s.plan (window r) r timedBlocks
  | .remove r => s.remove r
  | .fail r => s.fail r
  | .finish r => s.finish r
  | .abort r => some (s.abort r)
  | .removeLate r i => s.removeLate r i

/-- No replica has begun. -/
structure Starts : Prop where
  nodup : (s.nodes.map BlockNode.name).Nodup
  ctime_le : ∀ node ∈ s.nodes, node.ctime ≤ s.lastCtime ∧ node.czxid ≤ s.lastCzxid
  replicas : ∀ r, s.replicas r = {}

/-- The states that steps lead to, each of which is allowed in the state before it. -/
inductive Reached (window : ι → DeduplicationWindow) (allowed : BlocksDirectory ι → CleanupAction ι → Prop) (start : BlocksDirectory ι) :
    BlocksDirectory ι → Prop
  | start : Reached window allowed start start
  | step {s s' : BlocksDirectory ι} {action : CleanupAction ι} : Reached window allowed start s → allowed s action →
      s.step window action = some s' → Reached window allowed start s'

end BlocksDirectory

/-! ## The deduplication window -/

/-- **The node is outside of the window**: it is not among the most recently created nodes, or it was created too long before the most
recently created one. -/
def DeduplicationWindow.Outdated (window : DeduplicationWindow) (listed : List BlockNode) (node : BlockNode) : Prop :=
  window.windowSize ≤ (listed.filter fun other => other ≠ node ∧ node.withStat.createdKey ≤ other.withStat.createdKey).length ∨
    ∃ newest ∈ listed, (∀ other ∈ listed, other.ctime ≤ newest.ctime) ∧ node.ctime + 1000 * window.windowSeconds < newest.ctime

/-- The replica whose pass removes in a step, and the nodes that this pass has listed. -/
def CleanupAction.removesFor (s : BlocksDirectory ι) : CleanupAction ι → Option (ι × List BlockNode)
  | .remove r => some (r, (s.replicas r).pass.listed)
  | .finish r => some (r, (s.replicas r).pass.listed)
  | .removeLate r i => (s.replicas r).late[i]?.map fun removal => (r, removal.listed)
  | _ => none

/-- What a pass removes in a step was there when the directory was listed, and was outside of the window. -/
def RespectsWindow (window : ι → DeduplicationWindow) (s : BlocksDirectory ι) (action : CleanupAction ι) (s' : BlocksDirectory ι) : Prop :=
  ∀ r listed, action.removesFor s = some (r, listed) → ∀ node ∈ s.nodes, node ∉ s'.nodes →
    node ∈ listed ∧ (window r).Outdated listed node

/-- **A replica sees no predecessor of a node**: a node is not created under a name that a pass under way has listed or that a late
removal is for, and when the directory is listed, what is cached of a listed node is its own stat. -/
def SeesPresent (s : BlocksDirectory ι) : CleanupAction ι → Prop
  | .create name _ _ => ∀ r, name ∉ (s.replicas r).pass.listed.map BlockNode.name ∧ name ∉ (s.replicas r).late.map LateRemoval.path
  | .list r => ∀ node ∈ s.nodes, ∀ entry ∈ (s.replicas r).cachedBlockStats node.name, entry = node.stat
  | _ => True

instance [Fintype ι] (s : BlocksDirectory ι) : DecidablePred (SeesPresent s)
  | .create .. => Fintype.decidableForallFintype
  | .list _ => List.decidableBAll _ _
  | .drop _ | .fetch _ | .plan .. | .remove _ | .fail _ | .finish _ | .abort _ | .removeLate .. => .isTrue trivial

end MergeTree
