import MergeTree.Lib.Codec

/-!
# Granules of a set index

`MergeTreeIndexGranuleSet` holds the distinct tuples of a granule by columns, with the
extremes of every column. A granule with more than `max_rows` of them is written as an empty
one. `MergeTreeIndexReader` reads marks out of one stream into one granule object: it seeks
only when the mark is not the next one.

The column types are parameters: their serialization and `getExtremes`.
-/

namespace MergeTree

/-- The type of an index column: its values, its serialization and the extremes of a column. -/
structure SetColumn (V : Type) where
  holds : V → Prop
  serialize : List V → List UInt8
  deserialize : ℕ → Reader (List V)
  getExtremes : List V → V × V

/-- `MergeTreeIndexSet` with the types of its sample block. -/
structure MergeTreeIndexSet (V : Type) where
  indexName : String
  maxRows : ℕ
  columns : List (SetColumn V)

/-- `MergeTreeIndexGranuleSet`: the columns of its block, and `set_hyperrectangle` with closed ranges. -/
structure SetGranule (V : Type) where
  block : List (List V)
  setHyperrectangle : List (V × V) := []
deriving DecidableEq, Repr

/-- The exception on an empty granule. -/
def writeEmptySet (indexName : String) : String := "Attempt to write empty set index " ++ indexName ++ "."

/-- The exception on a version of the index file. -/
def unknownIndexVersion (version : ℕ) : String := "Unknown index version " ++ toString version ++ "."

/-- The exception on a mark that the file does not have. -/
def noMarkInIndex (mark : ℕ) : String := "Mark " ++ toString mark ++ " is not in the marks file"

/-- `size`: the rows of the block, which are those of its first column. -/
def SetGranule.size {V : Type} (granule : SetGranule V) : ℕ := (granule.block.headD []).length

namespace MergeTreeIndexSet

variable {V : Type} (idx : MergeTreeIndexSet V)

def createIndexGranule : SetGranule V where
  block := idx.columns.map fun _ => []

def serializeBinary (granule : SetGranule V) : Except String (List UInt8) :=
  if granule.size = 0 then .error (writeEmptySet idx.indexName)
  else if idx.maxRows ≠ 0 ∧ idx.maxRows < granule.size then .ok (writeLittleEndian 8 0)
  else
    .ok (writeLittleEndian 8 granule.size ++
      (idx.columns.zip granule.block).flatMap fun (column, values) => column.serialize values)

/-- The extremes of columns. -/
def extremes (block : List (List V)) : List (V × V) :=
  (idx.columns.zip block).map fun (column, values) => column.getExtremes values

/-- `deserializeBinary` into a granule. `Block::clear` leaves a block without columns, and as many
columns are read as the block has. -/
def deserializeBinary (version : ℕ) (granule : SetGranule V) : Reader (SetGranule V) := do
  Reader.check (version = 1) (unknownIndexVersion version)
  let rowsToRead ← readLittleEndian 8
  if rowsToRead = 0 then return { granule with block := [] }
  else
    let numColumns := granule.block.length
    let block ← Reader.each (fun column => column.deserialize rowsToRead) (idx.columns.take numColumns)
    return { block, setHyperrectangle := idx.extremes block }

end MergeTreeIndexSet

/-! ## Files -/

/-- An index file: its data, and where each mark points to in it. -/
structure IndexFile where
  data : List UInt8 := []
  marks : List ℕ := []
deriving DecidableEq, Repr

/-- A granule is written, with its mark before it. -/
def IndexFile.write (file : IndexFile) (granule : List UInt8) : IndexFile :=
  { data := file.data ++ granule, marks := file.marks ++ [file.data.length] }

/-- `seekToMark`: what the stream has to read then. -/
def IndexFile.seekToMark (file : IndexFile) (mark : ℕ) : Except String (List UInt8) :=
  match file.marks[mark]? with
  | some offset => .ok (file.data.drop offset)
  | none => .error (noMarkInIndex mark)

/-- `MergeTreeIndexReader`: what is left of its stream, once that is open, and `stream_mark`. -/
structure IndexReader where
  stream : Option (List UInt8) := none
  streamMark : ℕ := 0
deriving DecidableEq, Repr

/-- `MergeTreeIndexReader::read` with the granule pointer. -/
def IndexReader.read {G : Type} (file : IndexFile) (createIndexGranule : G) (deserializeBinary : G → Reader G)
    (reader : IndexReader) (mark : ℕ) (granule : Option G) : Except String (G × IndexReader) := do
  let stream := reader.stream.getD file.data
  let stream ← (if reader.streamMark ≠ mark then file.seekToMark mark else .ok stream : Except String (List UInt8))
  let (granule, rest) ← (deserializeBinary (granule.getD createIndexGranule)).run stream
  return (granule, { stream := some rest, streamMark := mark + 1 })

namespace MergeTreeIndexSet

variable {V : Type} (idx : MergeTreeIndexSet V)

/-- The granules of an index, written one after another. -/
def writeGranules (granules : List (SetGranule V)) : Except String IndexFile :=
  granules.foldlM (fun file granule => (idx.serializeBinary granule).map file.write) {}

/-- Marks read through one reader with one granule pointer, as `filterMarksUsingIndex` does: the
granule and the reader after each read. The version of a set index is 1. -/
def readMarks (file : IndexFile) : List ℕ → IndexReader → Option (SetGranule V) →
    Except String (List (SetGranule V × IndexReader))
  | [], _, _ => .ok []
  | mark :: marks, reader, granule => do
    let (granule, reader) ← reader.read file idx.createIndexGranule (idx.deserializeBinary 1) mark granule
    let rest ← readMarks file marks reader (some granule)
    return (granule, reader) :: rest

end MergeTreeIndexSet

end MergeTree
