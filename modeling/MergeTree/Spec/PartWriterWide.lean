import MergeTree.Spec.IndexGranularity

/-!
# The writer of wide parts

`MergeTreeDataPartWriterWide` with what it takes from `MergeTreeDataPartWriterOnDisk`: a
block is cut into granules, and every granule goes to the streams of all columns, to the
primary index and to the skip indexes. A granule may be opened by one block and continued
by the next ones.

Serializations, compressed buffers and skip index aggregators are parameters. Counters of
marks are natural numbers; row counts wrap around like `size_t`.
-/

namespace MergeTree

/-! ## Index granularity -/

namespace GranularityConstant

variable (c : GranularityConstant)

def appendMark (rowsCount : ℕ) : Except String GranularityConstant :=
  if c.hasFinalMark then .error "Cannot append mark after final"
  else if rowsCount = 0 then .ok { c with hasFinalMark := true }
  else if rowsCount ≠ c.constantGranularity then
    .error ("Cannot append mark with " ++ toString rowsCount ++ " rows. Granularity is constant (" ++
      toString c.constantGranularity ++ ")")
  else .ok { c with numMarksWithoutFinal := c.numMarksWithoutFinal + 1 }

def adjustLastMark (rowsCount : ℕ) : Except String GranularityConstant :=
  if c.hasFinalMark then .error "Cannot adjust final mark"
  else .ok { c with
    numMarksWithoutFinal := if c.numMarksWithoutFinal = 0 then 1 else c.numMarksWithoutFinal
    lastMarkGranularity := rowsCount }

end GranularityConstant

/-- `MergeTreeIndexGranularity`. -/
inductive IndexGranularity
  | adaptive (a : GranularityAdaptive)
  | constant (c : GranularityConstant)
deriving DecidableEq, Repr

/-- The exceptions of the writer, and a loop of it that does not end. -/
inductive WriterException
  | logicalError (message : String)
  | endlessLoop
deriving DecidableEq, Repr

/-- The exceptions of the granularity. -/
def logical {A : Type} : Except String A → Except WriterException A := Except.mapError .logicalError

namespace IndexGranularity

def getConstantGranularity : IndexGranularity → Option ℕ
  | adaptive _ => none
  | constant c => some c.constantGranularity

def getMarksCount : IndexGranularity → ℕ
  | adaptive a => a.getMarksCount
  | constant c => c.getMarksCount

def empty (g : IndexGranularity) : Bool := g.getMarksCount = 0

def getMarkRows (g : IndexGranularity) (mark : ℕ) : Except WriterException ℕ :=
  match g with
  | adaptive a => logical (a.getMarkRows mark)
  | constant c => logical (c.getMarkRows mark)

def getLastMarkRows (g : IndexGranularity) : Except WriterException ℕ := g.getMarkRows (g.getMarksCount - 1)

def appendMark (g : IndexGranularity) (rowsCount : ℕ) : Except WriterException IndexGranularity :=
  match g with
  | adaptive a => (logical (a.appendMark rowsCount)).map adaptive
  | constant c => (logical (c.appendMark rowsCount)).map constant

def adjustLastMark (g : IndexGranularity) (rowsCount : ℕ) : Except WriterException IndexGranularity :=
  match g with
  | adaptive a => (logical (a.adjustLastMark rowsCount)).map adaptive
  | constant c => (logical (c.adjustLastMark rowsCount)).map constant

end IndexGranularity

/-! ## Granules of a block -/

/-- `Granule`. -/
structure Granule where
  startRow : ℕ
  rowsToWrite : ℕ
  markNumber : ℕ
  markOnStart : Bool
  isComplete : Bool
deriving DecidableEq, Repr

/-- The second loop of `getGranulesToWrite`. Every turn goes to the next mark, and past the
last one `getMarkRows` throws. -/
def normalGranules (g : IndexGranularity) (blockRows : ℕ) : ℕ → ℕ → ℕ → Except WriterException (List Granule)
  | 0, _, _ => .error .endlessLoop
  | fuel + 1, currentRow, currentMark =>
    if currentRow < blockRows then do
      let expectedRowsInMark ← g.getMarkRows currentMark
      let rowsLeftInBlock := blockRows - currentRow
      let granule : Granule :=
        { startRow := currentRow
          rowsToWrite := min rowsLeftInBlock expectedRowsInMark
          markNumber := currentMark
          markOnStart := true
          isComplete := expectedRowsInMark ≤ rowsLeftInBlock }
      let rest ← normalGranules g blockRows fuel (currentRow + granule.rowsToWrite) (currentMark + 1)
      return granule :: rest
    else .ok []

def getGranulesToWrite (g : IndexGranularity) (blockRows currentMark rowsWrittenInLastMark : ℕ) :
    Except WriterException (List Granule) :=
  if g.getMarksCount ≤ currentMark then
    .error (.logicalError ("Request to get granules from mark " ++ toString currentMark ++
      " but index granularity size is " ++ toString g.getMarksCount))
  else if 0 < rowsWrittenInLastMark then do
    let markRows ← g.getMarkRows currentMark
    let rowsLeftInLastMark := subSize markRows rowsWrittenInLastMark
    let granule : Granule :=
      { startRow := 0
        rowsToWrite := min blockRows rowsLeftInLastMark
        markNumber := currentMark
        markOnStart := false
        isComplete := rowsLeftInLastMark ≤ blockRows }
    let rest ← normalGranules g blockRows (g.getMarksCount + 1) granule.rowsToWrite (currentMark + 1)
    return granule :: rest
  else normalGranules g blockRows (g.getMarksCount + 1) 0 currentMark

/-! ## Streams -/

/-- `MarkInCompressedFile`. -/
structure MarkInCompressedFile where
  offsetInCompressedFile : ℕ
  offsetInDecompressedBlock : ℕ
deriving DecidableEq, Repr

/-- A compressed buffer over a file: `plain_hashing.count()`, and `offset()`, `next()` and
`nextIfAtEnd()` of `compressed_hashing`. -/
structure BufferOps (σ : Type) where
  fresh : σ
  count : σ → ℕ
  offset : σ → ℕ
  next : σ → σ
  nextIfAtEnd : σ → σ

/-- The position a mark points to. -/
def BufferOps.position {σ : Type} (ops : BufferOps σ) (buffer : σ) : MarkInCompressedFile :=
  ⟨ops.count buffer, ops.offset buffer⟩

/-- Before a mark is taken: there could already be enough data to compress into the new block. -/
def BufferOps.startMark {σ : Type} (ops : BufferOps σ) (minCompressBlockSize : ℕ) (buffer : σ) : σ :=
  if minCompressBlockSize ≤ ops.offset buffer then ops.next buffer else buffer

/-- A stream with its mark file. A mark has its rows only in the files of adaptive granularity. -/
structure WriterStream (σ : Type) where
  buffer : σ
  marks : List (MarkInCompressedFile × Option ℕ) := []

/-- `column_streams`, or the streams of one skip index. -/
abbrev Streams (σ : Type) : Type := String → WriterStream σ

/-- `StreamNameAndMark`. -/
structure StreamNameAndMark where
  streamName : String
  mark : MarkInCompressedFile
deriving DecidableEq, Repr

namespace Streams

variable {σ : Type} (streams : Streams σ)

/-- `createStreamGetter`: the streams with these names, and none for the others. -/
def getter (names : List String) : String → Option σ := fun name =>
  if name ∈ names then some (streams name).buffer else none

/-- The streams after a serialization wrote to those it got. -/
def written (names : List String) (result : String → Option σ) : Streams σ := fun name =>
  if name ∈ names then { streams name with buffer := (result name).getD (streams name).buffer } else streams name

/-- `nextIfAtEnd` on the streams with these names. -/
def nextIfAtEnd (ops : BufferOps σ) (names : List String) : Streams σ := fun name =>
  if name ∈ names then { streams name with buffer := ops.nextIfAtEnd (streams name).buffer } else streams name

/-- One stream of `getCurrentMarksForColumn`. -/
def takeMark (ops : BufferOps σ) (minCompressBlockSize : ℕ) (result : Streams σ × List StreamNameAndMark)
    (streamName : String) : Streams σ × List StreamNameAndMark :=
  let buffer := ops.startMark minCompressBlockSize (result.1 streamName).buffer
  (Function.update result.1 streamName { result.1 streamName with buffer := buffer },
    result.2 ++ [⟨streamName, ops.position buffer⟩])

/-- `getCurrentMarksForColumn`. -/
def getCurrentMarks (ops : BufferOps σ) (minCompressBlockSize : ℕ) (names : List String) :
    Streams σ × List StreamNameAndMark :=
  names.foldl (takeMark ops minCompressBlockSize) (streams, [])

def flushMarkToFile (canUseAdaptiveGranularity : Bool) (rowsInMark : ℕ) (streams : Streams σ)
    (m : StreamNameAndMark) : Streams σ :=
  Function.update streams m.streamName { streams m.streamName with
    marks := (streams m.streamName).marks ++ [(m.mark, if canUseAdaptiveGranularity then some rowsInMark else none)] }

/-- `flushMarkToFile`, mark by mark. -/
def flushMarks (canUseAdaptiveGranularity : Bool) (rowsInMark : ℕ) (marks : List StreamNameAndMark) : Streams σ :=
  marks.foldl (flushMarkToFile canUseAdaptiveGranularity rowsInMark) streams

end Streams

/-! ## The writer -/

/-- A stream of a column; `isOffsets` when its path ends with `ArraySizes`. -/
structure Substream where
  streamName : String
  isOffsets : Bool
deriving DecidableEq, Repr

/-- The serialization of a column. It writes to the streams that the getter gives it. -/
structure Serialization (ρ σ τ : Type) where
  serializeBinaryBulkStatePrefix : (String → Option σ) → τ × (String → Option σ)
  serializeBinaryBulk : (String → Option σ) → List ρ → τ → τ × (String → Option σ)
  serializeBinaryBulkStateSuffix : (String → Option σ) → τ → τ × (String → Option σ)

/-- A column with the streams that `enumerateStreams` finds, without ephemeral ones. -/
structure WriterColumn (ρ σ τ : Type) where
  name : String
  minCompressBlockSize : ℕ
  substreams : List Substream
  serialization : Serialization ρ σ τ

/-- `IMergeTreeIndex` with its aggregators: `getGranuleAndReset` returns the granule and
what is left of the aggregator, `serializeBinaryWithMultipleStreams` writes a granule. -/
structure WriterSkipIndex (ρ σ α γ : Type) where
  granularity : ℕ
  substreams : List String
  createIndexAggregator : α
  empty : α → Bool
  update : α → List ρ → α
  getGranuleAndReset : α → γ × α
  serializeBinaryWithMultipleStreams : (String → Option σ) → γ → (String → Option σ)

/-- What the writer is given. -/
structure WriterConfig (ρ κ σ τ α γ : Type) where
  canUseAdaptiveGranularity : Bool
  blocksAreGranulesSize : Bool
  rewritePrimaryKey : Bool
  hasPrimaryKey : Bool
  minCompressBlockSize : ℕ
  columnsList : List (WriterColumn ρ σ τ)
  skipIndices : List (WriterSkipIndex ρ σ α γ)
  writtenOffsetSubstreams : List String
  primaryKey : ρ → κ
  bufferOps : BufferOps σ

/-- A skip index that is being built. -/
structure SkipIndexState (σ α : Type) where
  aggregator : α
  accumulatedMarks : ℕ := 0
  streams : Streams σ

/-- The writer. The final mark and `last_index_block` are there with adaptive mark files. -/
structure Writer (ρ κ σ τ α : Type) where
  indexGranularity : IndexGranularity
  computeGranularity : Bool
  currentMark : ℕ := 0
  rowsWrittenInLastMark : ℕ := 0
  dataWritten : Bool := false
  serializationStates : String → Option τ := fun _ => none
  lastNonWrittenMarks : String → Option (List StreamNameAndMark) := fun _ => none
  columnStreams : Streams σ
  primaryIndex : List κ := []
  lastIndexBlock : List ρ := []
  skipIndices : List (SkipIndexState σ α)

/-- The arguments of `write`, and what `computeIndexGranularity` says for the block. -/
structure WriterBlock (ρ : Type) where
  rows : List ρ
  permutation : Option (List ℕ) := none
  granularity : ℕ
  permutes : ∀ p ∈ permutation, p.Perm (List.range rows.length)

/-- The rows in the order they are written. -/
def WriterBlock.permuted {ρ : Type} (block : WriterBlock ρ) : List ρ :=
  match block.permutation with
  | none => block.rows
  | some p => p.filterMap fun i => block.rows[i]?

namespace Granule

/-- The rows of a granule. -/
def rows {ρ : Type} (granule : Granule) (block : List ρ) : List ρ := (block.drop granule.startRow).take granule.rowsToWrite

end Granule

namespace WriterColumn

variable {ρ σ τ : Type} (c : WriterColumn ρ σ τ)

/-- The streams the column writes: offsets are not written more than one time for a Nested type. -/
def streamNames (offsetSubstreams : List String) : List String :=
  (c.substreams.filter fun s => !(s.isOffsets && decide (s.streamName ∈ offsetSubstreams))).map Substream.streamName

/-- The offsets of the column, which the columns after it do not write. -/
def offsetNames : List String := (c.substreams.filter Substream.isOffsets).map Substream.streamName

end WriterColumn

namespace Writer

variable {ρ κ σ τ α γ : Type} (cfg : WriterConfig ρ κ σ τ α γ)

/-- The writer before the first block. -/
def create (g : IndexGranularity) : Writer ρ κ σ τ α where
  indexGranularity := g
  computeGranularity := g.empty
  columnStreams := fun _ => { buffer := cfg.bufferOps.fresh }
  skipIndices := cfg.skipIndices.map fun idx =>
    { aggregator := idx.createIndexAggregator, streams := fun _ => { buffer := cfg.bufferOps.fresh } }

/-- `last_non_written_marks.empty()`. -/
def noSavedMarks (w : Writer ρ κ σ τ α) : Bool := cfg.columnsList.all fun c => (w.lastNonWrittenMarks c.name).isNone

/-- The loop of `adjustLastMarkIfNeedAndFlushToDisk` over the saved marks. -/
def flushSavedMarks (w : Writer ρ κ σ τ α) (rowsInMark : ℕ) : Writer ρ κ σ τ α :=
  { w with
    columnStreams := cfg.columnsList.foldl
      (fun streams c => streams.flushMarks cfg.canUseAdaptiveGranularity rowsInMark ((w.lastNonWrittenMarks c.name).getD []))
      w.columnStreams
    lastNonWrittenMarks := fun _ => none }

def adjustLastMarkIfNeedAndFlushToDisk (w : Writer ρ κ σ τ α) (newRowsInLastMark : ℕ) :
    Except WriterException (Writer ρ κ σ τ α) :=
  if newRowsInLastMark < w.rowsWrittenInLastMark then
    .error (.logicalError ("Tryin to make mark #" ++ toString w.currentMark ++ " smaller (" ++ toString newRowsInLastMark ++
      " rows) then it already has " ++ toString w.rowsWrittenInLastMark))
  else do
    let w ← (if w.computeGranularity && cfg.canUseAdaptiveGranularity then
        if w.currentMark ≠ w.indexGranularity.getMarksCount - 1 then do
          let rows ← w.indexGranularity.getMarkRows w.currentMark
          .error (.logicalError ("Non last mark " ++ toString w.currentMark ++ " (with " ++ toString rows ++
            " rows) having rows offset " ++ toString w.rowsWrittenInLastMark ++ ", total marks " ++
            toString w.indexGranularity.getMarksCount))
        else do
          let g ← w.indexGranularity.adjustLastMark newRowsInLastMark
          return { w with indexGranularity := g }
      else .ok w : Except WriterException (Writer ρ κ σ τ α))
    if w.noSavedMarks cfg then
      .error (.logicalError ("No saved marks for last mark " ++ toString w.currentMark ++ " having rows offset " ++
        toString w.rowsWrittenInLastMark ++ ", total marks " ++ toString w.indexGranularity.getMarksCount))
    else if w.rowsWrittenInLastMark = newRowsInLastMark then do
      let rows ← w.indexGranularity.getMarkRows w.currentMark
      let w := w.flushSavedMarks cfg rows
      if w.computeGranularity && cfg.canUseAdaptiveGranularity then
        return { w with
          skipIndices := w.skipIndices.map fun s => { s with accumulatedMarks := s.accumulatedMarks + 1 }
          currentMark := w.currentMark + 1
          rowsWrittenInLastMark := 0 }
      else return w
    else return w

/-- `fillIndexGranularityImpl`. A row that comes back after `2 ^ 64` turns comes back for ever. -/
def fillIndexGranularityImpl (indexGranularityForBlock rowsInBlock : ℕ) :
    ℕ → ℕ → IndexGranularity → Except WriterException IndexGranularity
  | 0, _, _ => .error .endlessLoop
  | fuel + 1, currentRow, g =>
    if currentRow < rowsInBlock then do
      let g ← g.appendMark indexGranularityForBlock
      fillIndexGranularityImpl indexGranularityForBlock rowsInBlock fuel (addSize currentRow indexGranularityForBlock) g
    else .ok g

def fillIndexGranularity (w : Writer ρ κ σ τ α) (indexGranularityForBlock rowsInBlock : ℕ) :
    Except WriterException (Writer ρ κ σ τ α) :=
  if w.currentMark < w.indexGranularity.getMarksCount ∧ w.currentMark ≠ w.indexGranularity.getMarksCount - 1 then
    .error (.logicalError ("Trying to add marks, while current mark " ++ toString w.currentMark ++ ", but total marks " ++
      toString w.indexGranularity.getMarksCount))
  else do
    let indexOffset ← (if w.rowsWrittenInLastMark ≠ 0 then do
        let rows ← w.indexGranularity.getLastMarkRows
        return subSize rows w.rowsWrittenInLastMark
      else .ok 0 : Except WriterException ℕ)
    let g ← fillIndexGranularityImpl indexGranularityForBlock rowsInBlock (2 ^ 64) indexOffset w.indexGranularity
    return { w with indexGranularity := g }

/-- Where `write` adjusts the last mark: the previous granularity was much bigger than that of the new block. -/
def adjustForBlock (w : Writer ρ κ σ τ α) (indexGranularityForBlock : ℕ) : Except WriterException (Writer ρ κ σ τ α) :=
  if 0 < w.rowsWrittenInLastMark then do
    let rows ← w.indexGranularity.getMarkRows w.currentMark
    let rowsLeftInLastMark := subSize rows w.rowsWrittenInLastMark
    if indexGranularityForBlock < rowsLeftInLastMark then
      if indexGranularityForBlock ≤ w.rowsWrittenInLastMark then
        w.adjustLastMarkIfNeedAndFlushToDisk cfg w.rowsWrittenInLastMark
      else w.adjustLastMarkIfNeedAndFlushToDisk cfg indexGranularityForBlock
    else .ok w
  else .ok w

/-- `index_granularity_for_block`. -/
def granularityForBlock (w : Writer ρ κ σ τ α) (block : WriterBlock ρ) : ℕ :=
  w.indexGranularity.getConstantGranularity.getD block.granularity

/-- What `write` does when it computes the granularity. -/
def computeMarks (w : Writer ρ κ σ τ α) (block : WriterBlock ρ) : Except WriterException (Writer ρ κ σ τ α) := do
  let indexGranularityForBlock := w.granularityForBlock block
  let w ← w.adjustForBlock cfg indexGranularityForBlock
  w.fillIndexGranularity indexGranularityForBlock block.rows.length

/-- What `writeColumn` changes. -/
structure ColumnState (σ τ : Type) where
  serializationState : τ
  lastNonWrittenMarks : Option (List StreamNameAndMark)
  streams : Streams σ

def writeSingleGranule (c : WriterColumn ρ σ τ) (names : List String) (rows : List ρ) (s : ColumnState σ τ) :
    ColumnState σ τ :=
  let result := c.serialization.serializeBinaryBulk (s.streams.getter names) rows s.serializationState
  { s with
    serializationState := result.1
    streams := (s.streams.written names result.2).nextIfAtEnd cfg.bufferOps names }

/-- The start of a granule in `writeColumn`: a new mark is saved. -/
def saveMark (w : Writer ρ κ σ τ α) (c : WriterColumn ρ σ τ) (names : List String) (granule : Granule)
    (s : ColumnState σ τ) : Except WriterException (ColumnState σ τ) :=
  if granule.markOnStart then
    if s.lastNonWrittenMarks.isSome then
      .error (.logicalError ("We have to add new mark for column, but already have non written mark. Current mark " ++
        toString w.currentMark ++ ", total marks " ++ toString w.indexGranularity.getMarksCount ++ ", offset " ++
        toString w.rowsWrittenInLastMark))
    else
      let marks := s.streams.getCurrentMarks cfg.bufferOps c.minCompressBlockSize names
      .ok { s with lastNonWrittenMarks := some marks.2, streams := marks.1 }
  else .ok s

/-- The end of a granule in `writeColumn`: the saved mark of a complete one is flushed. -/
def flushSavedMark (w : Writer ρ κ σ τ α) (c : WriterColumn ρ σ τ) (granule : Granule) (s : ColumnState σ τ) :
    Except WriterException (ColumnState σ τ) :=
  if granule.isComplete then
    match s.lastNonWrittenMarks with
    | none => .error (.logicalError ("No mark was saved for incomplete granule for column " ++ c.name))
    | some marks => do
      let rows ← w.indexGranularity.getMarkRows granule.markNumber
      return { s with
        streams := s.streams.flushMarks cfg.canUseAdaptiveGranularity rows marks
        lastNonWrittenMarks := none }
  else .ok s

/-- One granule of `writeColumn`. -/
def writeGranule (w : Writer ρ κ σ τ α) (c : WriterColumn ρ σ τ) (names : List String) (block : List ρ)
    (s : ColumnState σ τ) (granule : Granule) : Except WriterException (ColumnState σ τ) := do
  let s ← w.saveMark cfg c names granule s
  w.flushSavedMark cfg c granule (writeSingleGranule cfg c names (granule.rows block) s)

/-- The state of a column before its granules are written: the first time with the state prefix. -/
def columnState (w : Writer ρ κ σ τ α) (c : WriterColumn ρ σ τ) (names : List String) : ColumnState σ τ :=
  match w.serializationStates c.name with
  | some state => ⟨state, w.lastNonWrittenMarks c.name, w.columnStreams⟩
  | none =>
    let result := c.serialization.serializeBinaryBulkStatePrefix (w.columnStreams.getter names)
    ⟨result.1, w.lastNonWrittenMarks c.name, w.columnStreams.written names result.2⟩

def writeColumn (granules : List Granule) (block : List ρ) (s : Writer ρ κ σ τ α × List String)
    (c : WriterColumn ρ σ τ) : Except WriterException (Writer ρ κ σ τ α × List String) :=
  let w := s.1
  let names := c.streamNames s.2
  if granules.isEmpty then
    .error (.logicalError ("Empty granules for column " ++ c.name ++ ", current mark " ++ toString w.currentMark))
  else do
    let result ← granules.foldlM (w.writeGranule cfg c names block) (w.columnState c names)
    return ({ w with
        dataWritten := true
        serializationStates := Function.update w.serializationStates c.name (some result.serializationState)
        lastNonWrittenMarks := Function.update w.lastNonWrittenMarks c.name result.lastNonWrittenMarks
        columnStreams := result.streams },
      s.2 ++ c.offsetNames)

def calculateAndSerializePrimaryIndex (w : Writer ρ κ σ τ α) (block : List ρ) (granules : List Granule) : Writer ρ κ σ τ α :=
  if cfg.hasPrimaryKey then
    { w with
      primaryIndex := w.primaryIndex ++ granules.flatMap fun granule =>
        if granule.markOnStart then (block[granule.startRow]?.map cfg.primaryKey).toList else []
      lastIndexBlock := if cfg.canUseAdaptiveGranularity then block else w.lastIndexBlock }
  else w

/-- The granule of the aggregator, written to the streams of the index. -/
def writeIndexGranule (idx : WriterSkipIndex ρ σ α γ) (s : SkipIndexState σ α) : SkipIndexState σ α :=
  let result := idx.getGranuleAndReset s.aggregator
  { s with
    aggregator := result.2
    streams := s.streams.written idx.substreams
      (idx.serializeBinaryWithMultipleStreams (s.streams.getter idx.substreams) result.1) }

/-- One granule of `calculateAndSerializeSkipIndices`. -/
def updateSkipIndex (idx : WriterSkipIndex ρ σ α γ) (block : List ρ) (s : SkipIndexState σ α) (granule : Granule) :
    SkipIndexState σ α :=
  let s := if s.accumulatedMarks = idx.granularity then { writeIndexGranule idx s with accumulatedMarks := 0 } else s
  let s :=
    if idx.empty s.aggregator && granule.markOnStart then
      let marks := s.streams.getCurrentMarks cfg.bufferOps cfg.minCompressBlockSize idx.substreams
      { s with
        aggregator := idx.createIndexAggregator
        streams := marks.1.flushMarks cfg.canUseAdaptiveGranularity 1 marks.2 }
    else s
  { s with
    aggregator := idx.update s.aggregator (granule.rows block)
    accumulatedMarks := if granule.isComplete then s.accumulatedMarks + 1 else s.accumulatedMarks }

def calculateAndSerializeSkipIndices (w : Writer ρ κ σ τ α) (block : List ρ) (granules : List Granule) : Writer ρ κ σ τ α :=
  { w with skipIndices := List.zipWith (fun idx s => granules.foldl (updateSkipIndex cfg idx block) s) cfg.skipIndices w.skipIndices }

def shiftCurrentMark (w : Writer ρ κ σ τ α) (granulesWritten : List Granule) : Except WriterException (Writer ρ κ σ τ α) :=
  match granulesWritten.getLast? with
  | none => .ok w
  | some lastGranule =>
    if lastGranule.isComplete then
      .ok { w with currentMark := w.currentMark + granulesWritten.length, rowsWrittenInLastMark := 0 }
    else if cfg.canUseAdaptiveGranularity && cfg.blocksAreGranulesSize then do
      let rows ← w.indexGranularity.getMarkRows lastGranule.markNumber
      .error (.logicalError ("Incomplete granules are not allowed while blocks are granules size. Mark number " ++
        toString lastGranule.markNumber ++ " (rows " ++ toString rows ++ "), rows written in last mark " ++
        toString w.rowsWrittenInLastMark ++ ", rows to write in last mark from block " ++ toString lastGranule.rowsToWrite ++
        " (from row " ++ toString lastGranule.startRow ++ "), total marks currently " ++
        toString w.indexGranularity.getMarksCount))
    else
      .ok { w with
        currentMark := w.currentMark + granulesWritten.length - 1
        rowsWrittenInLastMark :=
          if granulesWritten.length = 1 then addSize w.rowsWrittenInLastMark lastGranule.rowsToWrite
          else lastGranule.rowsToWrite }

def write (w : Writer ρ κ σ τ α) (block : WriterBlock ρ) : Except WriterException (Writer ρ κ σ τ α) := do
  let w ← (if w.computeGranularity then w.computeMarks cfg block else .ok w : Except WriterException (Writer ρ κ σ τ α))
  let granulesToWrite ← getGranulesToWrite w.indexGranularity block.rows.length w.currentMark w.rowsWrittenInLastMark
  let result ← cfg.columnsList.foldlM (writeColumn cfg granulesToWrite block.permuted) (w, cfg.writtenOffsetSubstreams)
  let w := result.1
  let w := if cfg.rewritePrimaryKey then w.calculateAndSerializePrimaryIndex cfg block.permuted granulesToWrite else w
  let w := w.calculateAndSerializeSkipIndices cfg block.permuted granulesToWrite
  w.shiftCurrentMark cfg granulesToWrite

/-- `write_final_mark`. -/
def writeFinalMarks (w : Writer ρ κ σ τ α) : Bool := cfg.canUseAdaptiveGranularity && w.dataWritten

/-- One column of `finalizeIndexGranularity`: its state suffix and its final mark. -/
def finalizeColumn (writeFinalMark hasStates : Bool) (s : Writer ρ κ σ τ α × List String) (c : WriterColumn ρ σ τ) :
    Writer ρ κ σ τ α × List String :=
  let w := s.1
  let names := c.streamNames s.2
  let w := match hasStates, w.serializationStates c.name with
    | true, some state =>
      let result := c.serialization.serializeBinaryBulkStateSuffix (w.columnStreams.getter names) state
      { w with
        serializationStates := Function.update w.serializationStates c.name (some result.1)
        columnStreams := w.columnStreams.written names result.2 }
    | _, _ => w
  if writeFinalMark then
    let marks := w.columnStreams.getCurrentMarks cfg.bufferOps c.minCompressBlockSize names
    ({ w with columnStreams := marks.1.flushMarks cfg.canUseAdaptiveGranularity 0 marks.2 }, s.2 ++ c.offsetNames)
  else (w, s.2)

def finalizeIndexGranularity (w : Writer ρ κ σ τ α) : Except WriterException (Writer ρ κ σ τ α) := do
  let w ← (if 0 < w.rowsWrittenInLastMark then
      if cfg.canUseAdaptiveGranularity && cfg.blocksAreGranulesSize then do
        let rows ← w.indexGranularity.getMarkRows w.currentMark
        .error (.logicalError ("Incomplete granule is not allowed while blocks are granules size even for last granule. " ++
          "Mark number " ++ toString w.currentMark ++ " (rows " ++ toString rows ++ "), rows written for last mark " ++
          toString w.rowsWrittenInLastMark ++ ", total marks " ++ toString w.indexGranularity.getMarksCount))
      else w.adjustLastMarkIfNeedAndFlushToDisk cfg w.rowsWrittenInLastMark
    else .ok w : Except WriterException (Writer ρ κ σ τ α))
  let hasStates := cfg.columnsList.any fun c => (w.serializationStates c.name).isSome
  return (cfg.columnsList.foldl (finalizeColumn cfg (w.writeFinalMarks cfg) hasStates) (w, cfg.writtenOffsetSubstreams)).1

def fillPrimaryIndexChecksums (w : Writer ρ κ σ τ α) : Except WriterException (Writer ρ κ σ τ α) := do
  let w ← (if w.writeFinalMarks cfg && w.computeGranularity then do
      let g ← w.indexGranularity.appendMark 0
      return { w with indexGranularity := g }
    else .ok w : Except WriterException (Writer ρ κ σ τ α))
  if cfg.hasPrimaryKey then
    return { w with
      primaryIndex := w.primaryIndex ++
        (if w.writeFinalMarks cfg then (w.lastIndexBlock.getLast?.map cfg.primaryKey).toList else [])
      lastIndexBlock := [] }
  else return w

def fillSkipIndicesChecksums (w : Writer ρ κ σ τ α) : Writer ρ κ σ τ α :=
  { w with
    skipIndices := List.zipWith (fun idx s => if idx.empty s.aggregator then s else writeIndexGranule idx s)
      cfg.skipIndices w.skipIndices }

def fillChecksums (w : Writer ρ κ σ τ α) : Except WriterException (Writer ρ κ σ τ α) := do
  let w ← (if cfg.rewritePrimaryKey then w.fillPrimaryIndexChecksums cfg else .ok w : Except WriterException (Writer ρ κ σ τ α))
  return w.fillSkipIndicesChecksums cfg

/-- All blocks, `finalizeIndexGranularity` and `fillChecksums`. -/
def writePart (g : IndexGranularity) (blocks : List (WriterBlock ρ)) : Except WriterException (Writer ρ κ σ τ α) := do
  let w ← blocks.foldlM (fun w block => w.write cfg block) (create cfg g)
  let w ← w.finalizeIndexGranularity cfg
  w.fillChecksums cfg

end Writer

end MergeTree
