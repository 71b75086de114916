import MergeTree.Lib.Codec
import MergeTree.Spec.Messages

/-!
# The wire format of parallel reading

`serialize` and `deserialize` of the messages (`RequestResponse.cpp`) and of what they
contain (`RangesInDataPart.cpp`, `MarkRange.cpp`, `MergeTreePartInfo.cpp`). The readers and
writers of numbers and strings belong to the IO library and are the parameter `io`; the
protocol versions are the parameter `D`.
-/

namespace MergeTree

/-- The readers and writers of the IO library. `ReadsString` says which strings are read
back: `readStringBinary` has a limit on their size. -/
structure BinaryIO where
  ReadsString : String → Prop
  -- `writeIntBinary` and `readIntBinary`, by width
  uint8 : Codec ℕ (· < 2 ^ 8)
  uint32 : Codec ℕ (· < 2 ^ 32)
  uint64 : Codec ℕ (· < 2 ^ 64)
  int64 : Codec ℤ (fun n => -(2 ^ 63) ≤ n ∧ n < 2 ^ 63)
  -- `writeBinaryLittleEndian` and `readBinaryLittleEndian` of a `size_t`
  littleEndian : Codec ℕ (· < 2 ^ 64)
  varUInt : Codec ℕ (· < 2 ^ 64)
  stringBinary : Codec String ReadsString
  boolText : Codec Bool (fun _ => True)

/-- The usual encodings: an instance of the library for concrete inputs. -/
def BinaryIO.plain : BinaryIO where
  ReadsString s := s.utf8ByteSize < 2 ^ 64
  uint8 := Codec.byte
  uint32 := (Codec.littleEndian 4).restrict (fun _ h => lt_of_lt_of_eq h (by decide))
  uint64 := (Codec.littleEndian 8).restrict (fun _ h => lt_of_lt_of_eq h (by decide))
  int64 := (Codec.signedLittleEndian 8).restrict (fun n h => by norm_num at h ⊢; omega)
  littleEndian := (Codec.littleEndian 8).restrict (fun _ h => lt_of_lt_of_eq h (by decide))
  varUInt := Codec.varUInt
  stringBinary := Codec.string
  boolText := Codec.boolText

/-- The revisions and versions of `Core/ProtocolDefines.h`. -/
structure ProtocolDefines where
  minRevisionWithVersionedProtocol : ℕ
  protocolVersion : ℕ
  minSupportedProtocolVersion : ℕ
  minVersionWithMarkSegmentSizeField : ℕ
  minVersionWithProjection : ℕ
  minVersionWithMinMarksPerTask : ℕ
  minVersionWithStreamId : ℕ
  mergeTreePartInfoVersion : ℕ
  supported : minSupportedProtocolVersion ≤ protocolVersion
  protocolVersion_lt : protocolVersion < 2 ^ 64
  mergeTreePartInfoVersion_lt : mergeTreePartInfoVersion < 2 ^ 64

variable (io : BinaryIO) (D : ProtocolDefines)

/-! ## Part infos -/

/-- `MergeTreePartInfo::serialize`. -/
def PartInfo.serialize (p : PartInfo) : List UInt8 :=
  io.uint64.write D.mergeTreePartInfoVersion ++ (io.stringBinary.write p.partitionId ++
    (io.int64.write p.minBlock ++ (io.int64.write p.maxBlock ++ (io.uint32.write p.level ++
      (io.int64.write p.mutation ++ io.boolText.write p.useLegacyMaxLevel)))))

/-- `MergeTreePartInfo::deserialize`, into `self`. The kind stays what it is. -/
def PartInfo.deserialize (self : PartInfo) : Reader PartInfo := do
  let version ← io.uint64.read
  let _ ← Reader.check (version = D.mergeTreePartInfoVersion) ("Version for MergeTreePart info mismatched. Got: " ++
    toString version ++ ", supported version: " ++ toString D.mergeTreePartInfoVersion)
  let partitionId ← io.stringBinary.read
  let minBlock ← io.int64.read
  let maxBlock ← io.int64.read
  let level ← io.uint32.read
  let mutation ← io.int64.read
  let useLegacyMaxLevel ← io.boolText.read
  return { self with
    partitionId := partitionId
    minBlock := minBlock
    maxBlock := maxBlock
    level := level
    mutation := mutation
    useLegacyMaxLevel := useLegacyMaxLevel }

/-! ## Mark ranges -/

/-- The body of the loop of `MarkRanges::serialize`. -/
def MarkRange.serialize (r : MarkRange) : List UInt8 :=
  io.littleEndian.write r.beginMark ++ io.littleEndian.write r.endMark

/-- The body of the loop of `MarkRanges::deserialize`. -/
def MarkRange.deserialize : Reader MarkRange := do
  let beginMark ← io.littleEndian.read
  let endMark ← io.littleEndian.read
  return { beginMark := beginMark, endMark := endMark }

def MarkRanges.serialize (ranges : MarkRanges) : List UInt8 :=
  io.littleEndian.write ranges.length ++ ranges.flatMap (MarkRange.serialize io)

/-- `resize`: new places hold the default value. -/
def resize {α : Type} (l : List α) (n : ℕ) (a : α) : List α := l.take n ++ List.replicate (n - l.length) a

/-- `MarkRanges::deserialize`: every place is overwritten. -/
def MarkRanges.deserialize (self : MarkRanges) : Reader MarkRanges := do
  let size ← io.littleEndian.read
  Reader.each (fun _ => MarkRange.deserialize io) (resize self size { beginMark := 0, endMark := 0 })

/-! ## Descriptions -/

def RangesInDataPartDescription.serialize (version : ℕ) (d : RangesInDataPartDescription) : List UInt8 :=
  d.info.serialize io D ++ (MarkRanges.serialize io d.ranges ++ (io.varUInt.write d.rows ++
    ((if D.minVersionWithProjection ≤ version then io.stringBinary.write d.projectionName else []) ++
      (if D.minVersionWithMinMarksPerTask ≤ version then io.varUInt.write d.minMarksPerTask else []))))

/-- `RangesInDataPartDescription::deserialize`, into `self`. -/
def RangesInDataPartDescription.deserialize (version : ℕ) (self : RangesInDataPartDescription) :
    Reader RangesInDataPartDescription := do
  let info ← self.info.deserialize io D
  let ranges ← MarkRanges.deserialize io self.ranges
  let rows ← io.varUInt.read
  let projectionName ← Reader.optional (D.minVersionWithProjection ≤ version) io.stringBinary.read self.projectionName
  let minMarksPerTask ← Reader.optional (D.minVersionWithMinMarksPerTask ≤ version) io.varUInt.read
    self.minMarksPerTask
  return { info := info
           ranges := ranges
           rows := rows
           projectionName := projectionName
           minMarksPerTask := minMarksPerTask }

/-- The limit of `RangesInDataPartsDescription::deserialize`. -/
def maxDescriptions : ℕ := 100000000000

/-- What it throws above the limit. -/
def suspiciouslyLarge (newSize : ℕ) : String :=
  "The size of serialized parts description is suspiciously large: " ++ toString newSize

def RangesInDataPartsDescription.serialize (version : ℕ) (description : RangesInDataPartsDescription) : List UInt8 :=
  io.varUInt.write description.length ++ description.flatMap (RangesInDataPartDescription.serialize io D version)

/-- `RangesInDataPartsDescription::deserialize`, into `self`. -/
def RangesInDataPartsDescription.deserialize (version : ℕ) (self : RangesInDataPartsDescription) :
    Reader RangesInDataPartsDescription := do
  let newSize ← io.varUInt.read
  let _ ← Reader.check (newSize ≤ maxDescriptions) (suspiciouslyLarge newSize)
  Reader.each (RangesInDataPartDescription.deserialize io D version) (resize self newSize {})

/-! ## Messages -/

/-- The version that a message starts with: older servers are lied to about it. -/
def ProtocolDefines.writtenVersion (tcpProtocolVersion : ℕ) : ℕ :=
  if D.minRevisionWithVersionedProtocol ≤ tcpProtocolVersion then D.protocolVersion
  else D.minSupportedProtocolVersion

/-- The check that every message begins with. -/
def ProtocolDefines.checkVersion (version : ℕ) : Reader Unit :=
  Reader.check (D.minSupportedProtocolVersion ≤ version) ("Parallel replicas protocol version is too old. Got: " ++
    toString version ++ ", min supported version: " ++ toString D.minSupportedProtocolVersion)

/-- The value of a mode. -/
def CoordinationMode.toNat : CoordinationMode → ℕ
  | .default => 0
  | .withOrder => 1
  | .reverseOrder => 2

def validateAndGet (candidate : ℕ) : Reader CoordinationMode :=
  match candidate with
  | 0 => return .default
  | 1 => return .withOrder
  | 2 => return .reverseOrder
  | n => throw ("Unknown reading mode: " ++ toString n)

def ParallelReadRequest.serialize (version tcpProtocolVersion : ℕ) (x : ParallelReadRequest) : List UInt8 :=
  io.uint64.write (D.writtenVersion tcpProtocolVersion) ++ (io.uint8.write x.mode.toNat ++
    (io.uint64.write x.replicaNum ++ (io.uint64.write x.minMarksPerRequest ++
      (RangesInDataPartsDescription.serialize io D version x.description ++
        (if D.minVersionWithStreamId ≤ version then io.stringBinary.write x.streamId else [])))))

def ParallelReadRequest.deserialize (version : ℕ) : Reader ParallelReadRequest := do
  let writtenVersion ← io.uint64.read
  let _ ← D.checkVersion writtenVersion
  let modeCandidate ← io.uint8.read
  let mode ← validateAndGet modeCandidate
  let replicaNum ← io.uint64.read
  let minMarksPerRequest ← io.uint64.read
  let description ← RangesInDataPartsDescription.deserialize io D version []
  let streamId ← Reader.optional (D.minVersionWithStreamId ≤ version) io.stringBinary.read ""
  return { mode := mode
           replicaNum := replicaNum
           minMarksPerRequest := minMarksPerRequest
           description := description
           streamId := streamId }

def ParallelReadResponse.serialize (version tcpProtocolVersion : ℕ) (x : ParallelReadResponse) : List UInt8 :=
  io.uint64.write (D.writtenVersion tcpProtocolVersion) ++ (io.boolText.write x.finish ++
    (RangesInDataPartsDescription.serialize io D version x.description ++
      (if D.minVersionWithStreamId ≤ version then io.stringBinary.write x.streamId else [])))

/-- `ParallelReadResponse::deserialize`, into `self`. -/
def ParallelReadResponse.deserialize (version : ℕ) (self : ParallelReadResponse) : Reader ParallelReadResponse := do
  let writtenVersion ← io.uint64.read
  let _ ← D.checkVersion writtenVersion
  let finish ← io.boolText.read
  let description ← RangesInDataPartsDescription.deserialize io D version self.description
  let streamId ← Reader.optional (D.minVersionWithStreamId ≤ version) io.stringBinary.read self.streamId
  return { finish := finish, description := description, streamId := streamId }

def InitialAllRangesAnnouncement.serialize (version tcpProtocolVersion : ℕ) (x : InitialAllRangesAnnouncement) :
    List UInt8 :=
  io.uint64.write (D.writtenVersion tcpProtocolVersion) ++ (io.uint8.write x.mode.toNat ++
    (RangesInDataPartsDescription.serialize io D version x.description ++ (io.uint64.write x.replicaNum ++
      ((if D.minVersionWithMarkSegmentSizeField ≤ version then io.uint64.write x.markSegmentSize else []) ++
        ((if D.minVersionWithMinMarksPerTask ≤ version then io.uint64.write x.minMarksPerRequest else []) ++
          (if D.minVersionWithStreamId ≤ version then io.stringBinary.write x.streamId else []))))))

def InitialAllRangesAnnouncement.deserialize (version : ℕ) : Reader InitialAllRangesAnnouncement := do
  let writtenVersion ← io.uint64.read
  let _ ← D.checkVersion writtenVersion
  let modeCandidate ← io.uint8.read
  let mode ← validateAndGet modeCandidate
  let description ← RangesInDataPartsDescription.deserialize io D version []
  let replicaNum ← io.uint64.read
  let markSegmentSize ← Reader.optional (D.minVersionWithMarkSegmentSizeField ≤ version) io.uint64.read 128
  let minMarksPerRequest ← Reader.optional (D.minVersionWithMinMarksPerTask ≤ version) io.uint64.read 0
  let streamId ← Reader.optional (D.minVersionWithStreamId ≤ version) io.stringBinary.read ""
  return { mode := mode
           description := description
           replicaNum := replicaNum
           markSegmentSize := markSegmentSize
           minMarksPerRequest := minMarksPerRequest
           streamId := streamId }

end MergeTree
