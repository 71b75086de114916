import MergeTree.Spec.PartWriterWide

/-!
# The writer of compact parts

`MergeTreeDataPartWriterCompact`. The granularity is planned when a block comes, but its rows
wait in a buffer until they cover the current mark; then all granules of the buffer go to
the data file, and the rows of each granule to the mark file.

Compact parts cannot work without adaptive granularity. Serializations, compressed streams
and `addRowsToLastMark` are parameters. Row counts wrap around like `size_t`.
-/

namespace MergeTree

/-- The exceptions of the writer by the function that throws, and a loop of it that does not end. -/
inductive CompactException
  | getGranulesToWrite (message : String)
  | granularity (message : String)
  | addRowsToLastMark (message : String)
  | endlessLoop
deriving DecidableEq, Repr

/-- A block for `write`. Its rows are in memory, so there are less than `2 ^ 62` of them. -/
structure CompactBlock (ρ : Type) extends WriterBlock ρ where
  nonempty : rows ≠ []
  rows_lt : rows.length < 2 ^ 62
  granularity_pos : 0 < granularity
  granularity_lt : granularity < 2 ^ 64

/-- A column: `writeColumnSingleGranule` serializes rows of it into the compressed streams, and
returns the marks that the stream getter writes, one for the column or one for each substream. -/
structure CompactColumn (ρ σ : Type) where
  name : String
  writeColumnSingleGranule : σ → List ρ → Bool → σ × List MarkInCompressedFile

/-- What the writer is given: `next` flushes the stream written last, `count` is the size of
the data file, `marksInGranule` the number of columns or of their substreams. -/
structure CompactConfig (ρ σ : Type) where
  columnsList : List (CompactColumn ρ σ)
  compressPerColumnInCompactParts : Bool
  withFinalMark : Bool
  marksInGranule : ℕ
  fresh : σ
  next : σ → σ
  count : σ → ℕ
  addRowsToLastMark : GranularityAdaptive → ℕ → Except String Unit × GranularityAdaptive

/-- The data file with its streams, the mark file (the marks of a granule and its rows) and
`data_written`. -/
structure CompactOutput (σ : Type) where
  data : σ
  marksOut : List (List MarkInCompressedFile × ℕ) := []
  dataWritten : Bool := false

/-- The writer. -/
structure CompactWriter (ρ σ : Type) where
  indexGranularity : GranularityAdaptive
  computeGranularity : Bool
  currentMark : ℕ := 0
  columnsBuffer : List ρ := []
  output : CompactOutput σ

namespace CompactWriter

variable {ρ σ : Type} (cfg : CompactConfig ρ σ)

/-- The exceptions of the granularity. -/
def ofGranularity {A : Type} : Except String A → Except CompactException A := Except.mapError .granularity

/-- The writer before the first block. -/
def create (g : GranularityAdaptive) : CompactWriter ρ σ where
  indexGranularity := g
  computeGranularity := g.getMarksCount = 0
  output := { data := cfg.fresh }

/-! ## Granules of a block -/

/-- The loop of `getGranulesToWrite`. Every turn goes to the next mark, and past the last one
`getMarkRows` throws. -/
def granulesFrom (g : GranularityAdaptive) (blockRows : ℕ) (lastBlock : Bool) :
    ℕ → ℕ → ℕ → Except CompactException (List Granule)
  | 0, _, _ => .error .endlessLoop
  | fuel + 1, currentRow, currentMark =>
    if currentRow < blockRows then do
      let expectedRowsInMark ← ofGranularity (g.getMarkRows currentMark)
      let rowsLeftInBlock := blockRows - currentRow
      if rowsLeftInBlock < expectedRowsInMark ∧ !lastBlock then
        .error (.getGranulesToWrite ("Required to write " ++ toString expectedRowsInMark ++ " rows, but only " ++
          toString rowsLeftInBlock ++ " rows was written for the non last granule"))
      else do
        let granule : Granule :=
          { startRow := currentRow
            rowsToWrite := min rowsLeftInBlock expectedRowsInMark
            markNumber := currentMark
            markOnStart := true
            isComplete := expectedRowsInMark ≤ rowsLeftInBlock }
        let rest ← granulesFrom g blockRows lastBlock fuel (currentRow + granule.rowsToWrite) (currentMark + 1)
        return granule :: rest
    else .ok []

def getGranulesToWrite (g : GranularityAdaptive) (blockRows currentMark : ℕ) (lastBlock : Bool) :
    Except CompactException (List Granule) :=
  if g.getMarksCount ≤ currentMark then
    .error (.getGranulesToWrite ("Request to get granules from mark " ++ toString currentMark ++
      " but index granularity size is " ++ toString g.getMarksCount))
  else granulesFrom g blockRows lastBlock (g.getMarksCount + 1) 0 currentMark

/-! ## Files -/

/-- One column of a granule in `writeDataBlock`. -/
def writeColumn (rows : List ρ) (isFirstGranule : Bool) (result : σ × List MarkInCompressedFile)
    (column : CompactColumn ρ σ) : σ × List MarkInCompressedFile :=
  let (data, marks) := column.writeColumnSingleGranule result.1 rows isFirstGranule
  (if cfg.compressPerColumnInCompactParts then cfg.next data else data, result.2 ++ marks)

/-- One granule of `writeDataBlock`, with its rows. -/
def writeGranule (out : CompactOutput σ) (rows : List ρ) (rowsToWrite : ℕ) : CompactOutput σ :=
  let (data, marks) := cfg.columnsList.foldl (writeColumn cfg rows !out.dataWritten) (out.data, [])
  { data := if cfg.compressPerColumnInCompactParts then data else cfg.next data
    marksOut := out.marksOut ++ [(marks, rowsToWrite)]
    dataWritten := true }

def writeDataBlock (out : CompactOutput σ) (block : List ρ) (granules : List Granule) : CompactOutput σ :=
  granules.foldl (fun out granule => writeGranule cfg out (granule.rows block) granule.rowsToWrite) out

/-- The final mark of `finalizeIndexGranularity`. -/
def writeFinalMark (out : CompactOutput σ) : CompactOutput σ :=
  if cfg.withFinalMark && out.dataWritten then
    { out with marksOut := out.marksOut ++ [(List.replicate cfg.marksInGranule ⟨cfg.count out.data, 0⟩, 0)] }
  else out

/-! ## Granularity of a block -/

/-- `addRowsToLastMark` of the granularity. -/
def addRows (g : GranularityAdaptive) (rowsCount : ℕ) : Except CompactException GranularityAdaptive :=
  match cfg.addRowsToLastMark g rowsCount with
  | (.ok (), g') => .ok g'
  | (.error e, _) => .error (.addRowsToLastMark e)

/-- One turn of the loop of `fillIndexGranularityImpl`. -/
def planGranule (indexOffset indexGranularityForBlock rowsInBlock currentRow : ℕ) (g : GranularityAdaptive) :
    Except CompactException GranularityAdaptive :=
  let rowsLeftInBlock := rowsInBlock - currentRow
  -- the last granule is extended if the block is large enough or if it is not the first in its granule
  if rowsLeftInBlock < indexGranularityForBlock ∧ (indexGranularityForBlock ≤ rowsInBlock ∨ indexOffset ≠ 0) then
    if indexGranularityForBlock ≤ mulSize rowsLeftInBlock 2 then ofGranularity (g.appendMark rowsLeftInBlock)
    else addRows cfg g rowsLeftInBlock
  else ofGranularity (g.appendMark indexGranularityForBlock)

/-- `fillIndexGranularityImpl`. A row that comes back after `2 ^ 64` turns comes back for ever. -/
def fillIndexGranularityImpl (indexOffset indexGranularityForBlock rowsInBlock : ℕ) :
    ℕ → ℕ → GranularityAdaptive → Except CompactException GranularityAdaptive
  | 0, _, _ => .error .endlessLoop
  | fuel + 1, currentRow, g =>
    if currentRow < rowsInBlock then do
      let g ← planGranule cfg indexOffset indexGranularityForBlock rowsInBlock currentRow g
      fillIndexGranularityImpl indexOffset indexGranularityForBlock rowsInBlock fuel
        (addSize currentRow indexGranularityForBlock) g
    else .ok g

def fillIndexGranularity (w : CompactWriter ρ σ) (indexGranularityForBlock rowsInBlock : ℕ) :
    Except CompactException (CompactWriter ρ σ) := do
  let indexOffset ← (if w.currentMark < w.indexGranularity.getMarksCount then do
      let rows ← ofGranularity (w.indexGranularity.getMarkRows w.currentMark)
      return subSize rows w.columnsBuffer.length
    else .ok 0 : Except CompactException ℕ)
  let g ← fillIndexGranularityImpl cfg indexOffset indexGranularityForBlock rowsInBlock (2 ^ 64) indexOffset
    w.indexGranularity
  return { w with indexGranularity := g }

/-! ## The calls -/

/-- The flushed block of `write`, when there is one, and what is buffered then. -/
def accumulate (columnsBuffer resultBlock : List ρ) (currentMarkRows : ℕ) : Option (List ρ) × List ρ :=
  if columnsBuffer.length = 0 ∧ currentMarkRows ≤ resultBlock.length then (some resultBlock, columnsBuffer)
  else
    let columnsBuffer := columnsBuffer ++ resultBlock
    if currentMarkRows ≤ columnsBuffer.length then (some columnsBuffer, []) else (none, columnsBuffer)

/-- The end of `write`. -/
def flush (w : CompactWriter ρ σ) (flushedBlock : List ρ) : Except CompactException (CompactWriter ρ σ) := do
  let granulesToWrite ← getGranulesToWrite w.indexGranularity flushedBlock.length w.currentMark false
  return { w with
    output := writeDataBlock cfg w.output flushedBlock granulesToWrite
    currentMark := w.currentMark + granulesToWrite.length }

def write (w : CompactWriter ρ σ) (block : CompactBlock ρ) : Except CompactException (CompactWriter ρ σ) := do
  let w ← (if w.computeGranularity then w.fillIndexGranularity cfg block.granularity block.rows.length else .ok w :
    Except CompactException (CompactWriter ρ σ))
  let currentMarkRows ← ofGranularity (w.indexGranularity.getMarkRows w.currentMark)
  match accumulate w.columnsBuffer block.permuted currentMarkRows with
  | (some flushedBlock, columnsBuffer) => flush cfg { w with columnsBuffer := columnsBuffer } flushedBlock
  | (none, columnsBuffer) => return { w with columnsBuffer := columnsBuffer }

def finalizeIndexGranularity (w : CompactWriter ρ σ) : Except CompactException (CompactWriter ρ σ) := do
  let w ← (if w.columnsBuffer.length ≠ 0 then do
      let block := w.columnsBuffer
      let granulesToWrite ← getGranulesToWrite w.indexGranularity block.length w.currentMark true
      -- the last mark should contain the exact amount of rows
      let g ← (match granulesToWrite.getLast? with
        | some granule =>
          if granule.isComplete then .ok w.indexGranularity
          else ofGranularity (w.indexGranularity.adjustLastMark granule.rowsToWrite)
        | none => .ok w.indexGranularity : Except CompactException GranularityAdaptive)
      return { w with
        indexGranularity := g
        columnsBuffer := []
        output := writeDataBlock cfg w.output block granulesToWrite }
    else .ok w : Except CompactException (CompactWriter ρ σ))
  return { w with output := writeFinalMark cfg w.output }

/-- The calls of `write` for the blocks of a part. -/
def writeBlocks (blocks : List (CompactBlock ρ)) : Except CompactException (CompactWriter ρ σ) :=
  blocks.foldlM (write cfg) (create cfg {})

/-- A part: its blocks, then `finalizeIndexGranularity`. -/
def writePart (blocks : List (CompactBlock ρ)) : Except CompactException (CompactWriter ρ σ) := do
  let w ← writeBlocks cfg blocks
  w.finalizeIndexGranularity cfg

end CompactWriter

end MergeTree
