import MergeTree.Spec.Queue

/-!
# Entries that are being executed

`ReplicatedMergeTreeQueue::CurrentlyExecuting` and the checks of `shouldExecuteLogEntry`
that keep entries apart: while an entry is executed, the parts it will produce are
tagged in `future_parts`, and the range it drops is in
`currently_executing_drop_replace_ranges`. The texts that say why an entry was
postponed are left out.
-/

namespace MergeTree

namespace Queue

variable [IntText]

/-- The loop of `isCoveredByFuturePartsImpl` over the tagged parts. A drop range may
start over the parts it contains. With a list of entries to wait for, an older part that
is not disjoint is waited for instead. -/
def isCoveredByFutureParts (formatVersion : ℕ) (entry : LogEntry) (resultPart : PartInfo) :
    List (String × LogEntry) → Option (List LogEntry) → Except String (Bool × Option (List LogEntry))
  | [], entriesToWait => .ok (false, entriesToWait)
  | (partName, other) :: rest, entriesToWait =>
    match fromPartName partName formatVersion with
    | .error e => .error e
    | .ok futurePart =>
      if futurePart.IsDisjoint resultPart then
        isCoveredByFutureParts formatVersion entry resultPart rest entriesToWait
      else if resultPart.isFakeDropRangePart ∧ resultPart.Contains futurePart then
        isCoveredByFutureParts formatVersion entry resultPart rest entriesToWait
      else
        match entriesToWait with
        | some entries =>
          if entry.znodeName < other.znodeName then .ok (true, some entries)
          else isCoveredByFutureParts formatVersion entry resultPart rest (some (entries ++ [other]))
        | none => .ok (true, none)

def isCoveredByFuturePartsImpl (s : Queue) (entry : LogEntry) (newPartName : String)
    (coveredEntriesToWait : Option (List LogEntry)) : Except String (Bool × Option (List LogEntry)) :=
  if (s.futureParts.find newPartName).isSome then .ok (true, coveredEntriesToWait)
  else
    match fromPartName newPartName s.formatVersion with
    | .error e => .error e
    | .ok resultPart =>
      isCoveredByFutureParts s.formatVersion entry resultPart s.futureParts.toList coveredEntriesToWait

/-- No virtual part of the entry is in the way of a tagged part. -/
def futurePartsAllow (s : Queue) (entry : LogEntry) : List String → Except String Bool
  | [] => .ok true
  | newPartName :: rest =>
    match s.isCoveredByFuturePartsImpl entry newPartName none with
    | .error e => .error e
    | .ok (true, _) => .ok false
    | .ok (false, _) => s.futurePartsAllow entry rest

/-- The drop range of the entry is disjoint from those of the executing ones. -/
def dropRangesAllow (s : Queue) (entry : LogEntry) : Except String Bool :=
  match entry.getDropRange s.formatVersion with
  | .error e => .error e
  | .ok none => .ok true
  | .ok (some dropRange) =>
    match fromPartName dropRange s.formatVersion with
    | .error e => .error e
    | .ok dropRangeInfo =>
      .ok (s.currentlyExecutingDropReplaceRanges.toList.all fun info => dropRangeInfo.IsDisjoint info)

/-- The checks of `shouldExecuteLogEntry` on future parts and on drop ranges. -/
def mayExecute (s : Queue) (entry : LogEntry) : Except String Bool :=
  match entry.getVirtualPartNames s.formatVersion with
  | .error e => .error e
  | .ok names =>
    match s.futurePartsAllow entry names with
    | .error e => .error e
    | .ok false => .ok false
    | .ok true => s.dropRangesAllow entry

/-- Changes the queued entry of this znode. -/
def markEntry (entry : LogEntry) (f : LogEntry → LogEntry) : QueueM Unit :=
  modify fun s =>
    { s with queue := s.queue.map fun other => if other.znodeName = entry.znodeName then f other else other }

/-- Registers the drop range of the entry and tells whether it was new. -/
def registerDropRange (entry : LogEntry) : QueueM Bool := do
  let dropRange ← orThrow (entry.getDropRange (← get).formatVersion)
  match dropRange with
  | none => pure true
  | some dropRange => do
    let dropRangeInfo ← parse dropRange
    let inserted := ((← get).currentlyExecutingDropReplaceRanges.find dropRangeInfo.toTuple).isNone
    modify fun s => { s with
      currentlyExecutingDropReplaceRanges := s.currentlyExecutingDropReplaceRanges.emplace dropRangeInfo }
    pure inserted

/-- Tags a part that the entry will produce. -/
def tagFuturePart (entry : LogEntry) (newPartName : String) : QueueM Unit := do
  if ((← get).futureParts.find newPartName).isSome then
    throw (.other s!"Tagging already tagged future part {newPartName}. This is a bug.")
  else
    modify fun s => { s with futureParts := s.futureParts.emplace (newPartName, entry) }

/-- `CurrentlyExecuting::CurrentlyExecuting`. It returns whether its assertion on the drop
range holds. -/
def currentlyExecuting (entry : LogEntry) : QueueM Bool := do
  let inserted ← registerDropRange entry
  markEntry entry fun e => { e with currentlyExecuting := true, numTries := e.numTries + 1 }
  let names ← orThrow (entry.getVirtualPartNames (← get).formatVersion)
  names.forM (tagFuturePart entry)
  pure inserted

/-- Takes the drop range of the entry out and tells whether it was there. -/
def unregisterDropRange (entry : LogEntry) : QueueM Bool := do
  let dropRange ← orThrow (entry.getDropRange (← get).formatVersion)
  match dropRange with
  | none => pure true
  | some dropRange => do
    let dropRangeInfo ← parse dropRange
    let removed := ((← get).currentlyExecutingDropReplaceRanges.find dropRangeInfo.toTuple).isSome
    modify fun s => { s with
      currentlyExecutingDropReplaceRanges :=
        s.currentlyExecutingDropReplaceRanges.erase dropRangeInfo.toTuple }
    pure removed

/-- `erase_and_check`: takes a tagged part out and tells whether it was there. -/
def eraseAndCheck (partName : String) : QueueM Bool := do
  let erased := ((← get).futureParts.find partName).isSome
  modify fun s => { s with futureParts := s.futureParts.erase partName }
  pure erased

/-- `CurrentlyExecuting::~CurrentlyExecuting`. It returns whether its assertions hold. -/
def endExecuting (entry : LogEntry) : QueueM Bool := do
  let removed ← unregisterDropRange entry
  let names ← orThrow (entry.getVirtualPartNames (← get).formatVersion)
  let actual := if entry.actualNewPartName = "" then [] else [entry.actualNewPartName]
  let erased ← (names ++ actual ++ entry.replaceRangeActualNewPartNames).mapM eraseAndCheck
  markEntry entry fun e =>
    { e with currentlyExecuting := false, actualNewPartName := "", replaceRangeActualNewPartNames := [] }
  pure (removed && erased.all id)

end Queue

end MergeTree
