import MergeTree.Lib.SizeT
import MergeTree.Spec.BitpackingBlockCodec

/-!
# Posting lists in blocks and segments

`PostingListCodecBitpackingImpl` (`MergeTreeIndexTextPostingListCodec.h`, `.cpp`) writes the
row ids of a token as differences, packed in blocks. Blocks are grouped in segments, and a
segment is read back alone.

`PostingList` (a Roaring bitmap) is its row ids in ascending order; what `decode` adds to
one is the list of the row ids that it passes to `addMany`.
-/

namespace MergeTree

open BitpackingBlockCodec

/-- The difference of two `uint32_t`. -/
def sub32 (a b : ℕ) : ℕ := (a + 2 ^ 32 - b) % 2 ^ 32

/-- `std::adjacent_difference` from a value on. -/
def differencesFrom (prev : ℕ) : List ℕ → List ℕ
  | [] => []
  | x :: xs => sub32 x prev :: differencesFrom x xs

/-- `std::adjacent_difference`, which copies the first value. -/
def adjacentDifference : List ℕ → List ℕ
  | [] => []
  | x :: xs => x :: differencesFrom x xs

/-- `std::inclusive_scan` with the sum of `uint32_t`. -/
def inclusiveScan (prev : ℕ) : List ℕ → List ℕ
  | [] => []
  | d :: ds => (prev + d) % 2 ^ 32 :: inclusiveScan ((prev + d) % 2 ^ 32) ds

/-- What `TokenPostingsInfo` records of the segments. -/
structure TokenPostingsInfo where
  offsets : List ℕ := []
  ranges : List (ℕ × ℕ) := []
deriving DecidableEq, Repr

/-- `SegmentDescriptor`. -/
structure SegmentDescriptor where
  cardinality : ℕ := 0
  compressedDataOffset : ℕ := 0
  compressedDataSize : ℕ := 0
  rowIdBegin : ℕ := 0
  rowIdEnd : ℕ := 0
deriving DecidableEq, Repr

/-- `Header`. -/
structure PostingListHeader where
  payloadBytes : ℕ
  cardinality : ℕ
  firstRowId : ℕ
deriving DecidableEq, Repr

namespace PostingListHeader

/-- `IPostingListCodec::Type::Bitpacking`. -/
def bitpacking : ℕ := 1

def write (header : PostingListHeader) : List UInt8 :=
  writeVarUInt bitpacking ++ (writeVarUInt header.payloadBytes ++
    (writeVarUInt header.cardinality ++ writeVarUInt header.firstRowId))

def read : Reader PostingListHeader := do
  let v ← Codec.varUInt.read
  Reader.check (v = bitpacking) ("Corrupted data: expected codec type Bitpacking, got " ++ toString v)
  let payloadBytes ← Codec.varUInt.read
  let cardinality ← Codec.varUInt.read
  let firstRowId ← Codec.varUInt.read
  return { payloadBytes := payloadBytes, cardinality := cardinality % 2 ^ 32, firstRowId := firstRowId % 2 ^ 32 }

end PostingListHeader

/-- `PostingListCodecBitpackingImpl`, as it encodes. -/
structure PostingListCodecImpl where
  compressedData : List UInt8 := []
  prevRowId : ℕ := 0
  currentSegment : List ℕ := []
  segmentDescriptors : List SegmentDescriptor := []
  totalRowIds : ℕ := 0
  rowIdsInCurrentSegment : ℕ := 0
  maxRowidsInSegment : ℕ
deriving DecidableEq, Repr

namespace PostingListCodecImpl

/-- The requested block size, rounded up: `& ~(BLOCK_SIZE - 1)` clears the low bits. -/
def roundUp (postingsListBlockSize : ℕ) : ℕ :=
  addSize postingsListBlockSize (blockSize - 1) / blockSize * blockSize

/-- The constructor. -/
def make (postingsListBlockSize : ℕ) : PostingListCodecImpl where
  maxRowidsInSegment := roundUp postingsListBlockSize

/-- The exception of `encodeBlock`. -/
def encodeSizeMismatch (needed maxBits size used remaining : ℕ) : String :=
  "Bitpacking encode size mismatch: expected " ++ toString needed ++ " bytes payload with " ++ toString maxBits ++
    " bits encoding for " ++ toString size ++ " integers, but actually used " ++ toString used ++ " bytes with " ++
    toString remaining ++ " bytes remaining in buffer"

/-- Changes `segment_descriptors.back()`. -/
def setBack (impl : PostingListCodecImpl) (f : SegmentDescriptor → SegmentDescriptor) : PostingListCodecImpl :=
  { impl with segmentDescriptors :=
      impl.segmentDescriptors.dropLast ++ (impl.segmentDescriptors.getLast?.map f).toList }

/-- `encodeBlock`: a byte with the width, then the packed values. -/
def encodeBlock (impl : PostingListCodecImpl) (segment : List ℕ) : Except String PostingListCodecImpl := do
  let impl := impl.setBack fun d => { d with
    cardinality := (d.cardinality + segment.length) % 2 ^ 32
    rowIdEnd := impl.prevRowId }
  let (needed, maxBits) := calculateNeededBytesAndMaxBits segment
  let payload ← BitpackingBlockCodec.encode segment maxBits
  if payload.length ≠ needed then
    throw (encodeSizeMismatch needed maxBits segment.length payload.length (needed - payload.length))
  let compressedData := impl.compressedData ++ UInt8.ofNat maxBits :: payload
  return { impl with compressedData := compressedData }.setBack fun d => { d with
    compressedDataSize := compressedData.length - d.compressedDataOffset }

def flushCurrentSegment (impl : PostingListCodecImpl) : Except String PostingListCodecImpl := do
  let impl ← if impl.currentSegment ≠ [] then impl.encodeBlock impl.currentSegment else pure impl
  return { impl with currentSegment := [], rowIdsInCurrentSegment := 0, prevRowId := 0 }

/-- Starts a segment at a row id. -/
def startSegment (impl : PostingListCodecImpl) (rowId : ℕ) : PostingListCodecImpl :=
  { impl with
    segmentDescriptors := impl.segmentDescriptors ++
      [{ rowIdBegin := rowId, compressedDataOffset := impl.compressedData.length }]
    prevRowId := rowId }

/-- `insert(uint32_t)`. -/
def insertRowId (impl : PostingListCodecImpl) (rowId : ℕ) : Except String PostingListCodecImpl :=
  if impl.rowIdsInCurrentSegment = 0 then
    let impl := impl.startSegment rowId
    return { impl with
      currentSegment := impl.currentSegment ++ [sub32 rowId impl.prevRowId]
      rowIdsInCurrentSegment := impl.rowIdsInCurrentSegment + 1
      totalRowIds := impl.totalRowIds + 1 }
  else do
    let impl := { impl with
      currentSegment := impl.currentSegment ++ [sub32 rowId impl.prevRowId]
      prevRowId := rowId
      rowIdsInCurrentSegment := impl.rowIdsInCurrentSegment + 1
      totalRowIds := impl.totalRowIds + 1 }
    let impl ←
      if impl.currentSegment.length = blockSize then do
        let impl ← impl.encodeBlock impl.currentSegment
        pure { impl with currentSegment := [] }
      else pure impl
    if impl.rowIdsInCurrentSegment = impl.maxRowidsInSegment then impl.flushCurrentSegment else pure impl

/-- `insert(std::span<uint32_t>)`: a whole block. -/
def insertBlock (impl : PostingListCodecImpl) (rowIds : List ℕ) : Except String PostingListCodecImpl := do
  let impl := if impl.rowIdsInCurrentSegment = 0 then impl.startSegment (rowIds.headD 0) else impl
  let lastRow := rowIds.getLastD 0
  let differences := adjacentDifference rowIds
  let differences := differences.set 0 (sub32 (differences.getD 0 0) impl.prevRowId)
  let impl := { impl with
    rowIdsInCurrentSegment := impl.rowIdsInCurrentSegment + blockSize
    totalRowIds := impl.totalRowIds + blockSize
    prevRowId := lastRow }
  let impl ← impl.encodeBlock differences
  if impl.rowIdsInCurrentSegment = impl.maxRowidsInSegment then impl.flushCurrentSegment else return impl

/-- One segment of `serializeTo`. -/
def serializeSegment (impl : PostingListCodecImpl) (s : List UInt8 × TokenPostingsInfo)
    (descriptor : SegmentDescriptor) : List UInt8 × TokenPostingsInfo :=
  let header : PostingListHeader := {
    payloadBytes := descriptor.compressedDataSize
    cardinality := descriptor.cardinality
    firstRowId := descriptor.rowIdBegin }
  (s.1 ++ (header.write ++
      (impl.compressedData.drop descriptor.compressedDataOffset).take descriptor.compressedDataSize),
    { offsets := s.2.offsets ++ [s.1.length]
      ranges := s.2.ranges ++ [(descriptor.rowIdBegin, descriptor.rowIdEnd)] })

def serializeTo (impl : PostingListCodecImpl) (out : List UInt8) (info : TokenPostingsInfo) :
    List UInt8 × TokenPostingsInfo :=
  impl.segmentDescriptors.foldl impl.serializeSegment (out, info)

/-- `PostingListCodecBitpackingImpl::encode`. -/
def encode (impl : PostingListCodecImpl) (out : List UInt8) (info : TokenPostingsInfo) :
    Except String (List UInt8 × TokenPostingsInfo) := do
  let impl ← if impl.currentSegment ≠ [] then impl.encodeBlock impl.currentSegment else pure impl
  return impl.serializeTo out info

/-- The blocks that `rowids_view` is inserted in, and then the rest one by one. -/
def insertAll : ℕ → List ℕ → PostingListCodecImpl → Except String PostingListCodecImpl
  | 0, rowidsView, impl => rowidsView.foldlM insertRowId impl
  | blocks + 1, rowidsView, impl => do
    let impl ← impl.insertBlock (rowidsView.take blockSize)
    insertAll blocks (rowidsView.drop blockSize) impl

/-- The vector after `resize`: new places are zero. -/
def resizeSegment (currentSegment : List ℕ) (count : ℕ) : List ℕ :=
  currentSegment.take count ++ List.replicate (count - currentSegment.length) 0

/-- What is left of the input. -/
def inputSize : Reader ℕ := do
  let input ← get
  return input.length

/-- `decodeBlock`, with the previous row id and the buffer. -/
def decodeBlock (count prevRowId : ℕ) (currentSegment : List ℕ) : Reader (ℕ × List ℕ) := do
  Reader.check (0 < (← inputSize)) "Corrupted data: expected at least 1 bytes, but got 0"
  let bits ← Codec.byte.read
  Reader.check (bits ≤ 32) ("Corrupted data: expected bits <= 32, but got " ++ toString bits)
  let currentSegment := resizeSegment currentSegment count
  let requiredSize := bitpackingCompressedBytes count bits
  let size ← inputSize
  Reader.check (requiredSize ≤ size) ("Corrupted data: expected data size " ++ toString requiredSize ++
    ", but got " ++ toString size)
  let (consumedSize, currentSegment) ← BitpackingBlockCodec.decode count bits currentSegment
  Reader.check (requiredSize = consumedSize) ("Bitpacking decode size mismatch: expected to consume " ++
    toString requiredSize ++ " bytes for " ++ toString count ++ " integers with " ++ toString bits ++
    " bits, but actually consumed " ++ toString consumedSize ++ " bytes")
  let currentSegment := inclusiveScan prevRowId currentSegment
  return (currentSegment.getLastD prevRowId, currentSegment)

/-- The loop of `decode` over the blocks, with the row ids that were added. -/
def decodeBlocks : List ℕ → ℕ → List ℕ → Reader (List ℕ)
  | [], _, _ => return []
  | count :: counts, prevRowId, currentSegment => do
    let (prevRowId, currentSegment) ← decodeBlock count prevRowId currentSegment
    let postings ← decodeBlocks counts prevRowId currentSegment
    return currentSegment ++ postings

/-- The sizes of the blocks of a segment: `num_blocks` whole ones, then the tail. -/
def blockCounts (cardinality : ℕ) : List ℕ :=
  let numBlocks := cardinality / blockSize
  let tailSize := cardinality % blockSize
  List.replicate numBlocks blockSize ++ if tailSize ≠ 0 then [tailSize] else []

/-- `decode`, of a codec that was just made: the row ids that it adds to the postings. -/
def decode : Reader (List ℕ) := do
  let header ← PostingListHeader.read
  let compressedData ← Reader.bytes header.payloadBytes
  match decodeBlocks (blockCounts header.cardinality) header.firstRowId [] compressedData with
  | .ok (postings, _) => return postings
  | .error e => throw e

end PostingListCodecImpl

/-- `PostingListCodecBitpacking::encode`. -/
def encodePostingList (rowids : List ℕ) (postingsListBlockSize : ℕ) (info : TokenPostingsInfo) (out : List UInt8) :
    Except String (List UInt8 × TokenPostingsInfo) := do
  let impl ← PostingListCodecImpl.insertAll (rowids.length / blockSize) rowids
    (PostingListCodecImpl.make postingsListBlockSize)
  impl.encode out info

end MergeTree
