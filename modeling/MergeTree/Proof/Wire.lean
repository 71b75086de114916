import MergeTree.Proof.PartInfo
import MergeTree.Spec.Wire

/-!
# Messages are read back, but for the kind of patch parts

Every reader consumes what its writer wrote. `MergeTreePartInfo::deserialize` restores all
fields but `kind`, which stays the one of a default part, so a message comes back with
regular parts only.

* `reads_serialize`: what a message with any parts is read as.
* `roundTrip_iff`: a message is read back as itself exactly when it describes no patch part,
  and not more parts than the reader allows.
-/

namespace MergeTree

variable {io : BinaryIO} {D : ProtocolDefines} {version tcpProtocolVersion : ℕ}
variable {bytes : List UInt8}

/-! ## Values of their types -/

/-- The numbers of a part info fit their types. -/
structure PartInfo.Fits (io : BinaryIO) (p : PartInfo) : Prop where
  partitionId : io.ReadsString p.partitionId
  minBlock : -(2 ^ 63) ≤ p.minBlock ∧ p.minBlock < 2 ^ 63
  maxBlock : -(2 ^ 63) ≤ p.maxBlock ∧ p.maxBlock < 2 ^ 63
  level : p.level < 2 ^ 32
  mutation : -(2 ^ 63) ≤ p.mutation ∧ p.mutation < 2 ^ 63

/-- The numbers of a description fit their types. -/
structure RangesInDataPartDescription.Fits (io : BinaryIO) (d : RangesInDataPartDescription) : Prop where
  info : d.info.Fits io
  ranges : ∀ r ∈ d.ranges, r.beginMark < 2 ^ 64 ∧ r.endMark < 2 ^ 64
  ranges_length : d.ranges.length < 2 ^ 64
  rows : d.rows < 2 ^ 64
  projectionName : io.ReadsString d.projectionName
  minMarksPerTask : d.minMarksPerTask < 2 ^ 64

/-- What the version does not carry has its default value. -/
structure RangesInDataPartDescription.Carried (D : ProtocolDefines) (version : ℕ)
    (d : RangesInDataPartDescription) : Prop where
  projectionName : ¬ D.minVersionWithProjection ≤ version → d.projectionName = ""
  minMarksPerTask : ¬ D.minVersionWithMinMarksPerTask ≤ version → d.minMarksPerTask = 0

/-- The descriptions of a message that `version` carries. -/
structure RangesInDataPartsDescription.Sendable (io : BinaryIO) (D : ProtocolDefines) (version : ℕ)
    (description : RangesInDataPartsDescription) : Prop where
  fits : ∀ d ∈ description, d.Fits io
  carried : ∀ d ∈ description, d.Carried D version
  length : description.length < 2 ^ 64

/-! ## What comes back -/

/-- A part info as it comes back: a regular one. -/
def PartInfo.received (p : PartInfo) : PartInfo := { p with kind := .regular }

/-- A description as it comes back. -/
def RangesInDataPartDescription.received (d : RangesInDataPartDescription) : RangesInDataPartDescription :=
  { d with info := d.info.received }

theorem PartInfo.received_eq_iff {p : PartInfo} : p.received = p ↔ p.kind = .regular := by
  constructor
  · intro h
    rw [← h]
    rfl
  · intro h
    cases p
    simp only at h
    rw [h]
    rfl

theorem RangesInDataPartDescription.received_eq_iff {d : RangesInDataPartDescription} :
    d.received = d ↔ d.info.kind = .regular := by
  rw [← PartInfo.received_eq_iff]
  constructor
  · intro h
    exact congrArg RangesInDataPartDescription.info h
  · intro h
    unfold received
    rw [h]

theorem map_received_eq_iff {description : RangesInDataPartsDescription} :
    description.map RangesInDataPartDescription.received = description ↔
      ∀ d ∈ description, d.info.kind = .regular := by
  simp only [← RangesInDataPartDescription.received_eq_iff]
  have h := List.map_inj_left (l := description) (f := RangesInDataPartDescription.received) (g := id)
  rw [List.map_id] at h
  exact h

/-! ## Part infos, ranges and descriptions -/

theorem PartInfo.reads_serialize {p : PartInfo} (h : p.Fits io) :
    Reads (PartInfo.deserialize io D {}) (p.serialize io D) p.received := by
  refine (io.uint64.reads _ D.mergeTreePartInfoVersion_lt).bind ?_
  refine (Reads.check rfl).nil_bind ?_
  refine (io.stringBinary.reads _ h.partitionId).bind ?_
  refine (io.int64.reads _ h.minBlock).bind ?_
  refine (io.int64.reads _ h.maxBlock).bind ?_
  refine (io.uint32.reads _ h.level).bind ?_
  refine (io.int64.reads _ h.mutation).bind ?_
  exact (io.boolText.reads _ trivial).bind_pure

theorem MarkRange.reads_serialize {r : MarkRange} (h : r.beginMark < 2 ^ 64 ∧ r.endMark < 2 ^ 64) :
    Reads (MarkRange.deserialize io) (r.serialize io) r :=
  (io.littleEndian.reads _ h.1).bind (io.littleEndian.reads _ h.2).bind_pure

theorem length_resize {α : Type} (l : List α) (n : ℕ) (a : α) : (resize l n a).length = n := by
  unfold resize
  rw [List.length_append, List.length_take, List.length_replicate]
  omega

theorem MarkRanges.reads_serialize {ranges : MarkRanges} (self : MarkRanges)
    (h : ∀ r ∈ ranges, r.beginMark < 2 ^ 64 ∧ r.endMark < 2 ^ 64) (hlen : ranges.length < 2 ^ 64) :
    Reads (MarkRanges.deserialize io self) (MarkRanges.serialize io ranges) ranges := by
  refine (io.littleEndian.reads _ hlen).bind ?_
  have hrange : ∀ place ∈ resize self ranges.length { beginMark := 0, endMark := 0 }, ∀ r ∈ ranges,
      Reads (MarkRange.deserialize io) (r.serialize io) (id r) := fun _ _ r hr => MarkRange.reads_serialize (h r hr)
  have heach := Reads.each (length_resize self ranges.length { beginMark := 0, endMark := 0 }) hrange
  rw [List.map_id] at heach
  exact heach

theorem RangesInDataPartDescription.reads_serialize {d : RangesInDataPartDescription} (h : d.Fits io)
    (hc : d.Carried D version) :
    Reads (RangesInDataPartDescription.deserialize io D version {}) (d.serialize io D version) d.received := by
  refine (PartInfo.reads_serialize h.info).bind ?_
  refine (MarkRanges.reads_serialize _ h.ranges h.ranges_length).bind ?_
  refine (io.varUInt.reads _ h.rows).bind ?_
  refine (Reads.optional (io.stringBinary.reads _ h.projectionName) hc.projectionName).bind ?_
  exact (Reads.optional (io.varUInt.reads _ h.minMarksPerTask) hc.minMarksPerTask).bind_pure

namespace RangesInDataPartsDescription

variable {description : RangesInDataPartsDescription}

theorem reads_serialize (h : Sendable io D version description) (hmax : description.length ≤ maxDescriptions) :
    Reads (deserialize io D version []) (serialize io D version description)
      (description.map RangesInDataPartDescription.received) := by
  refine (io.varUInt.reads _ h.length).bind ?_
  refine (Reads.check hmax).nil_bind ?_
  refine Reads.each (length_resize _ _ _) ?_
  intro place hplace d hd
  -- the list was empty, so every place holds a default description
  have hdefault : place = {} := by
    unfold resize at hplace
    rw [List.take_nil, List.nil_append] at hplace
    exact List.eq_of_mem_replicate hplace
  rw [hdefault]
  exact RangesInDataPartDescription.reads_serialize (h.fits d hd) (h.carried d hd)

theorem throws_serialize (h : Sendable io D version description) (hmax : ¬ description.length ≤ maxDescriptions) :
    Throws (deserialize io D version []) (serialize io D version description)
      (suspiciouslyLarge description.length) := by
  refine Throws.bind_right (io.varUInt.reads _ h.length) ?_
  exact ((Throws.check hmax).bind).append _

/-- **The descriptions that come back as they were.** -/
def Plain (description : RangesInDataPartsDescription) : Prop :=
  (∀ d ∈ description, d.info.kind = .regular) ∧ description.length ≤ maxDescriptions

end RangesInDataPartsDescription

/-! ## Messages -/

theorem reads_checkVersion (D : ProtocolDefines) (tcpProtocolVersion : ℕ) :
    Reads (D.checkVersion (D.writtenVersion tcpProtocolVersion)) [] () := by
  refine Reads.check ?_
  unfold ProtocolDefines.writtenVersion
  split
  · exact D.supported
  · exact le_rfl

theorem writtenVersion_lt (D : ProtocolDefines) (tcpProtocolVersion : ℕ) :
    D.writtenVersion tcpProtocolVersion < 2 ^ 64 := by
  unfold ProtocolDefines.writtenVersion
  split
  · exact D.protocolVersion_lt
  · exact lt_of_le_of_lt D.supported D.protocolVersion_lt

theorem Reads.message {α : Type} {f : Unit → Reader α} {a : α} (h : Reads (f ()) bytes a) : Reads (do
      let writtenVersion ← io.uint64.read
      let u ← D.checkVersion writtenVersion
      f u) (io.uint64.write (D.writtenVersion tcpProtocolVersion) ++ bytes) a :=
  (io.uint64.reads _ (writtenVersion_lt D tcpProtocolVersion)).bind ((reads_checkVersion D tcpProtocolVersion).nil_bind h)

theorem Throws.message {α : Type} {f : Unit → Reader α} {e : String} (h : Throws (f ()) bytes e) : Throws (do
      let writtenVersion ← io.uint64.read
      let u ← D.checkVersion writtenVersion
      f u) (io.uint64.write (D.writtenVersion tcpProtocolVersion) ++ bytes) e :=
  Throws.bind_right (io.uint64.reads _ (writtenVersion_lt D tcpProtocolVersion))
    (Throws.bind_right (reads_checkVersion D tcpProtocolVersion) h)

theorem CoordinationMode.reads_validateAndGet (mode : CoordinationMode) : Reads (validateAndGet mode.toNat) [] mode := by
  cases mode <;> exact Reads.pure _

theorem CoordinationMode.toNat_lt (mode : CoordinationMode) : mode.toNat < 2 ^ 8 := by
  cases mode <;> decide

theorem CoordinationMode.reads {α : Type} {f : CoordinationMode → Reader α} {a : α}
    (mode : CoordinationMode) (h : Reads (f mode) bytes a) : Reads (do
      let modeCandidate ← io.uint8.read
      let mode ← validateAndGet modeCandidate
      f mode) (io.uint8.write mode.toNat ++ bytes) a :=
  (io.uint8.reads _ mode.toNat_lt).bind (mode.reads_validateAndGet.nil_bind h)

theorem CoordinationMode.throws {α : Type} {f : CoordinationMode → Reader α} {e : String}
    (mode : CoordinationMode) (h : Throws (f mode) bytes e) : Throws (do
      let modeCandidate ← io.uint8.read
      let mode ← validateAndGet modeCandidate
      f mode) (io.uint8.write mode.toNat ++ bytes) e :=
  Throws.bind_right (io.uint8.reads _ mode.toNat_lt) (Throws.bind_right mode.reads_validateAndGet h)

theorem roundTrip_iff_of {α : Type} {r : Reader α} {x received : α} {description : RangesInDataPartsDescription}
    (hreads : description.length ≤ maxDescriptions → Reads r bytes received)
    (hthrows : ¬ description.length ≤ maxDescriptions → Throws r bytes (suspiciouslyLarge description.length))
    (heq : received = x ↔ description.map RangesInDataPartDescription.received = description) :
    Reads r bytes x ↔ description.Plain := by
  unfold RangesInDataPartsDescription.Plain
  rw [← map_received_eq_iff, ← heq]
  constructor
  · intro h
    have hmax : description.length ≤ maxDescriptions := by
      by_contra hmax
      exact (hthrows hmax).not_reads x h
    exact ⟨(hreads hmax).unique h, hmax⟩
  · rintro ⟨rfl, hmax⟩
    exact hreads hmax

namespace ParallelReadRequest

variable {x : ParallelReadRequest}

/-- A request that `version` carries. -/
structure Sendable (io : BinaryIO) (D : ProtocolDefines) (version : ℕ) (x : ParallelReadRequest) : Prop where
  replicaNum : x.replicaNum < 2 ^ 64
  minMarksPerRequest : x.minMarksPerRequest < 2 ^ 64
  description : x.description.Sendable io D version
  streamId : io.ReadsString x.streamId
  streamId_carried : ¬ D.minVersionWithStreamId ≤ version → x.streamId = ""

/-- A request as it comes back. -/
def received (x : ParallelReadRequest) : ParallelReadRequest :=
  { x with description := x.description.map RangesInDataPartDescription.received }

theorem reads_serialize (h : x.Sendable io D version) (hmax : x.description.length ≤ maxDescriptions) :
    Reads (deserialize io D version) (x.serialize io D version tcpProtocolVersion) x.received := by
  refine Reads.message ?_
  refine x.mode.reads ?_
  refine (io.uint64.reads _ h.replicaNum).bind ?_
  refine (io.uint64.reads _ h.minMarksPerRequest).bind ?_
  refine (RangesInDataPartsDescription.reads_serialize h.description hmax).bind ?_
  exact (Reads.optional (io.stringBinary.reads _ h.streamId) h.streamId_carried).bind_pure

theorem throws_serialize (h : x.Sendable io D version) (hmax : ¬ x.description.length ≤ maxDescriptions) :
    Throws (deserialize io D version) (x.serialize io D version tcpProtocolVersion)
      (suspiciouslyLarge x.description.length) := by
  refine Throws.message (x.mode.throws ?_)
  refine Throws.bind_right (io.uint64.reads _ h.replicaNum) ?_
  refine Throws.bind_right (io.uint64.reads _ h.minMarksPerRequest) ?_
  exact ((RangesInDataPartsDescription.throws_serialize h.description hmax).bind).append _

theorem reads_serialize_iff (h : x.Sendable io D version) :
    Reads (deserialize io D version) (x.serialize io D version tcpProtocolVersion) x ↔ x.description.Plain := by
  refine roundTrip_iff_of (reads_serialize h) (throws_serialize h) ?_
  constructor
  · intro heq
    exact congrArg description heq
  · intro heq
    unfold received
    rw [heq]

end ParallelReadRequest

namespace ParallelReadResponse

variable {x : ParallelReadResponse}

/-- A response that `version` carries. -/
structure Sendable (io : BinaryIO) (D : ProtocolDefines) (version : ℕ) (x : ParallelReadResponse) : Prop where
  description : x.description.Sendable io D version
  streamId : io.ReadsString x.streamId
  streamId_carried : ¬ D.minVersionWithStreamId ≤ version → x.streamId = ""

/-- A response as it comes back. -/
def received (x : ParallelReadResponse) : ParallelReadResponse :=
  { x with description := x.description.map RangesInDataPartDescription.received }

theorem reads_serialize (h : x.Sendable io D version) (hmax : x.description.length ≤ maxDescriptions) :
    Reads (deserialize io D version {}) (x.serialize io D version tcpProtocolVersion) x.received := by
  refine Reads.message ?_
  refine (io.boolText.reads _ trivial).bind ?_
  refine (RangesInDataPartsDescription.reads_serialize h.description hmax).bind ?_
  exact (Reads.optional (io.stringBinary.reads _ h.streamId) h.streamId_carried).bind_pure

theorem throws_serialize (h : x.Sendable io D version) (hmax : ¬ x.description.length ≤ maxDescriptions) :
    Throws (deserialize io D version {}) (x.serialize io D version tcpProtocolVersion)
      (suspiciouslyLarge x.description.length) := by
  refine Throws.message ?_
  refine Throws.bind_right (io.boolText.reads _ trivial) ?_
  exact ((RangesInDataPartsDescription.throws_serialize h.description hmax).bind).append _

theorem reads_serialize_iff (h : x.Sendable io D version) :
    Reads (deserialize io D version {}) (x.serialize io D version tcpProtocolVersion) x ↔ x.description.Plain := by
  refine roundTrip_iff_of (reads_serialize h) (throws_serialize h) ?_
  constructor
  · intro heq
    exact congrArg description heq
  · intro heq
    unfold received
    rw [heq]

end ParallelReadResponse

namespace InitialAllRangesAnnouncement

variable {x : InitialAllRangesAnnouncement}

/-- An announcement that `version` carries. -/
structure Sendable (io : BinaryIO) (D : ProtocolDefines) (version : ℕ) (x : InitialAllRangesAnnouncement) : Prop where
  description : x.description.Sendable io D version
  replicaNum : x.replicaNum < 2 ^ 64
  markSegmentSize : x.markSegmentSize < 2 ^ 64
  markSegmentSize_carried : ¬ D.minVersionWithMarkSegmentSizeField ≤ version → x.markSegmentSize = 128
  minMarksPerRequest : x.minMarksPerRequest < 2 ^ 64
  minMarksPerRequest_carried : ¬ D.minVersionWithMinMarksPerTask ≤ version → x.minMarksPerRequest = 0
  streamId : io.ReadsString x.streamId
  streamId_carried : ¬ D.minVersionWithStreamId ≤ version → x.streamId = ""

/-- An announcement as it comes back. -/
def received (x : InitialAllRangesAnnouncement) : InitialAllRangesAnnouncement :=
  { x with description := x.description.map RangesInDataPartDescription.received }

theorem reads_serialize (h : x.Sendable io D version) (hmax : x.description.length ≤ maxDescriptions) :
    Reads (deserialize io D version) (x.serialize io D version tcpProtocolVersion) x.received := by
  refine Reads.message ?_
  refine x.mode.reads ?_
  refine (RangesInDataPartsDescription.reads_serialize h.description hmax).bind ?_
  refine (io.uint64.reads _ h.replicaNum).bind ?_
  refine (Reads.optional (io.uint64.reads _ h.markSegmentSize) h.markSegmentSize_carried).bind ?_
  refine (Reads.optional (io.uint64.reads _ h.minMarksPerRequest) h.minMarksPerRequest_carried).bind ?_
  exact (Reads.optional (io.stringBinary.reads _ h.streamId) h.streamId_carried).bind_pure

theorem throws_serialize (h : x.Sendable io D version) (hmax : ¬ x.description.length ≤ maxDescriptions) :
    Throws (deserialize io D version) (x.serialize io D version tcpProtocolVersion)
      (suspiciouslyLarge x.description.length) := by
  refine Throws.message (x.mode.throws ?_)
  exact ((RangesInDataPartsDescription.throws_serialize h.description hmax).bind).append _

theorem reads_serialize_iff (h : x.Sendable io D version) :
    Reads (deserialize io D version) (x.serialize io D version tcpProtocolVersion) x ↔ x.description.Plain := by
  refine roundTrip_iff_of (reads_serialize h) (throws_serialize h) ?_
  constructor
  · intro heq
    exact congrArg description heq
  · intro heq
    unfold received
    rw [heq]

end InitialAllRangesAnnouncement

/-- **Messages are read back exactly when they describe regular parts**, not too many. -/
theorem roundTrip_iff (io : BinaryIO) (D : ProtocolDefines) (version tcpProtocolVersion : ℕ) :
    (∀ x : InitialAllRangesAnnouncement, x.Sendable io D version →
      (Reads (InitialAllRangesAnnouncement.deserialize io D version)
        (x.serialize io D version tcpProtocolVersion) x ↔ x.description.Plain)) ∧
    (∀ x : ParallelReadRequest, x.Sendable io D version →
      (Reads (ParallelReadRequest.deserialize io D version)
        (x.serialize io D version tcpProtocolVersion) x ↔ x.description.Plain)) ∧
    (∀ x : ParallelReadResponse, x.Sendable io D version →
      (Reads (ParallelReadResponse.deserialize io D version {})
        (x.serialize io D version tcpProtocolVersion) x ↔ x.description.Plain)) :=
  ⟨fun _ h => InitialAllRangesAnnouncement.reads_serialize_iff h,
    fun _ h => ParallelReadRequest.reads_serialize_iff h, fun _ h => ParallelReadResponse.reads_serialize_iff h⟩

/-! ## Concrete messages -/

/-- Some versions, every field being carried from version 7 on. -/
def someDefines : ProtocolDefines where
  minRevisionWithVersionedProtocol := 54471
  protocolVersion := 7
  minSupportedProtocolVersion := 3
  minVersionWithMarkSegmentSizeField := 4
  minVersionWithProjection := 5
  minVersionWithMinMarksPerTask := 6
  minVersionWithStreamId := 7
  mergeTreePartInfoVersion := 1
  supported := by decide
  protocolVersion_lt := by decide
  mergeTreePartInfoVersion_lt := by decide

/-- An announcement of one part. -/
def announcementOf (info : PartInfo) : InitialAllRangesAnnouncement where
  mode := .default
  description := [{ info := info, ranges := [⟨0, 8⟩, ⟨16, 20⟩], rows := 98304 }]
  replicaNum := 1
  markSegmentSize := 128
  minMarksPerRequest := 24
  streamId := "default.hits"

theorem sendable_announcementOf {info : PartInfo} (h : info.Fits .plain) :
    (announcementOf info).Sendable .plain someDefines 7 := by
  have hstring : BinaryIO.plain.ReadsString "" := by
    change "".utf8ByteSize < 2 ^ 64
    decide +kernel
  have hstream : BinaryIO.plain.ReadsString "default.hits" := by
    change "default.hits".utf8ByteSize < 2 ^ 64
    decide +kernel
  have hranges : ∀ r ∈ [(⟨0, 8⟩ : MarkRange), ⟨16, 20⟩], r.beginMark < 2 ^ 64 ∧ r.endMark < 2 ^ 64 := by decide
  have hdescription : (announcementOf info).description.Sendable .plain someDefines 7 := by
    refine ⟨?_, ?_, by simp [announcementOf]⟩
    · intro d hd
      obtain rfl := List.mem_singleton.1 hd
      exact ⟨h, hranges, by simp, by simp, hstring, by simp⟩
    · intro d hd
      obtain rfl := List.mem_singleton.1 hd
      exact ⟨fun _ => rfl, fun _ => rfl⟩
  exact ⟨hdescription, by simp [announcementOf], by simp [announcementOf], fun h => absurd (by decide) h,
    by simp [announcementOf], fun h => absurd (by decide) h, hstream, fun h => absurd (by decide) h⟩

theorem fits_make {partitionId : String} (h : partitionId.utf8ByteSize < 2 ^ 64) :
    (PartInfo.make partitionId 1 4 1 0).Fits .plain := by
  refine ⟨h, ?_, ?_, ?_, ?_⟩ <;> simp [PartInfo.make]

/-- A regular part is read back. -/
theorem roundTrip_iff_regular_part :
    Reads (InitialAllRangesAnnouncement.deserialize .plain someDefines 7)
      ((announcementOf (.make "all" 1 4 1 0)).serialize .plain someDefines 7 54471)
      (announcementOf (.make "all" 1 4 1 0)) := by
  refine ((roundTrip_iff .plain someDefines 7 54471).1 _ (sendable_announcementOf (fits_make ?_))).2 ?_
  · decide +kernel
  · refine ⟨?_, by change 1 ≤ maxDescriptions; decide⟩
    intro d hd
    obtain rfl := List.mem_singleton.1 hd
    decide +kernel

/-- **A patch part is not read back**: it comes back as a regular one. -/
theorem patch_part_not_read_back :
    (announcementOf (.make "patch-0123456789abcdef0123456789abcdef-all" 1 4 1 0)).Sendable .plain someDefines 7 ∧
    ¬ Reads (InitialAllRangesAnnouncement.deserialize .plain someDefines 7)
      ((announcementOf (.make "patch-0123456789abcdef0123456789abcdef-all" 1 4 1 0)).serialize .plain
        someDefines 7 54471)
      (announcementOf (.make "patch-0123456789abcdef0123456789abcdef-all" 1 4 1 0)) := by
  have hsend : (announcementOf (.make "patch-0123456789abcdef0123456789abcdef-all" 1 4 1 0)).Sendable .plain
      someDefines 7 := sendable_announcementOf (fits_make (by decide +kernel))
  refine ⟨hsend, ?_⟩
  rw [InitialAllRangesAnnouncement.reads_serialize_iff hsend]
  rintro ⟨hregular, -⟩
  have hkind := hregular _ (List.mem_singleton.2 rfl)
  revert hkind
  decide +kernel

/-- **A patch part and its copy from the wire contain each other and are not equal**: they differ in the
kind alone, which `contains` does not look at. -/
theorem PartInfo.not_containmentLaws_received :
    let p := PartInfo.make "patch-0123456789abcdef0123456789abcdef-all" 1 4 1 0
    Reads (PartInfo.deserialize .plain someDefines {}) (p.serialize .plain someDefines) p.received ∧
      p.minBlock ≤ p.maxBlock ∧ ¬ PartInfo.ContainmentLaws p p.received p := by
  refine ⟨PartInfo.reads_serialize (fits_make (by decide +kernel)), by decide +kernel, fun h => ?_⟩
  have heqv := h.antisymm (by decide +kernel) (by decide +kernel)
  revert heqv
  decide +kernel

end MergeTree
