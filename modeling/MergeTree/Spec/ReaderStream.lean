import MergeTree.Spec.PartWriterWide
import MergeTree.Spec.Messages
import MergeTree.Lib.SizeT

/-!
# The right bound of a reader stream

`getRightOffset` is the offset up to which a stream reads its file to get the rows of all marks
below the right mark, and `adjustRightMark` limits the reading to it
(`MergeTreeReaderStream.cpp`). `MergeTreeReaderStreamSingleColumn` reads a file of one column,
`MergeTreeReaderStreamMultipleColumns` a column of a compact part.

The marks count as loaded. The buffer is the bound that is set on it.
-/

namespace MergeTree

namespace MarkInCompressedFile

/-- `operator<`: marks are compared as tuples. -/
instance : LinearOrder MarkInCompressedFile where
  le m m' := m.offsetInCompressedFile < m'.offsetInCompressedFile ∨
    m.offsetInCompressedFile = m'.offsetInCompressedFile ∧ m.offsetInDecompressedBlock ≤ m'.offsetInDecompressedBlock
  lt m m' := m.offsetInCompressedFile < m'.offsetInCompressedFile ∨
    m.offsetInCompressedFile = m'.offsetInCompressedFile ∧ m.offsetInDecompressedBlock < m'.offsetInDecompressedBlock
  le_refl _ := Or.inr ⟨rfl, le_rfl⟩
  le_trans _ _ _ := by omega
  lt_iff_le_not_ge _ _ := by omega
  le_antisymm
    | ⟨a, b⟩, ⟨a', b'⟩ => by
      intro h h'
      rw [MarkInCompressedFile.mk.injEq]
      dsimp only at h h'
      omega
  le_total _ _ := by omega
  toDecidableLE _ _ := inferInstanceAs (Decidable (_ ∨ _))
  toDecidableLT _ _ := inferInstanceAs (Decidable (_ ∨ _))

theorem lt_def (m m' : MarkInCompressedFile) : m < m' ↔ m.offsetInCompressedFile < m'.offsetInCompressedFile ∨
    m.offsetInCompressedFile = m'.offsetInCompressedFile ∧ m.offsetInDecompressedBlock < m'.offsetInDecompressedBlock :=
  Iff.rfl

theorem le_def (m m' : MarkInCompressedFile) : m ≤ m' ↔ m.offsetInCompressedFile < m'.offsetInCompressedFile ∨
    m.offsetInCompressedFile = m'.offsetInCompressedFile ∧ m.offsetInDecompressedBlock ≤ m'.offsetInDecompressedBlock :=
  Iff.rfl

end MarkInCompressedFile

/-! ## Searches over marks -/

/-- The first number of `[start, stop)` that satisfies `p`, or `stop`. -/
def firstMark (p : ℕ → Bool) (start stop : ℕ) : ℕ := start + (List.range' start (stop - start)).findIdx p

/-- The numbers below `stop` are tried from the last one down while `p` holds. The result is one more
than where the search stops. -/
def lastMarkEnd (p : ℕ → Bool) : ℕ → ℕ
  | 0 => 0
  | stop + 1 => if p stop then lastMarkEnd p stop else stop + 1

/-! ## The stream -/

/-- A stream, its marks and the settings that its right bound depends on. -/
structure ReaderStream where
  marksCount : ℕ
  fileSize : ℕ
  numColumns : ℕ := 1
  getMark : ℕ → ℕ → MarkInCompressedFile
  isLowCardinalityDictionary : Bool := false
  isMetadataFile : Bool := false

/-- The bytes of one more range: the maximum and the sum. There is no result when the larger
offset would be subtracted from the smaller one. -/
def addRangeBytes (bytes : ℕ × ℕ) (rightOffset leftOffset : ℕ) : Option (ℕ × ℕ) :=
  if leftOffset ≤ rightOffset then
    some (max bytes.1 (rightOffset - leftOffset), addSize bytes.2 (rightOffset - leftOffset))
  else none

namespace ReaderStream

variable (s : ReaderStream)

/-- The end of the file as a mark. -/
def endMark : MarkInCompressedFile := ⟨s.fileSize, 0⟩

/-! ### One column -/

/-- The mark up to which the dictionary of LowCardinality is read: the next one that differs from the
right mark. -/
def dictionaryRightMark (rightMark : ℕ) : ℕ :=
  if s.isLowCardinalityDictionary then
    firstMark (fun mark => s.getMark rightMark 0 < s.getMark mark 0) rightMark s.marksCount
  else rightMark

/-- `MergeTreeReaderStreamSingleColumn::getRightOffset`. -/
def getRightOffset (rightMark : ℕ) : ℕ :=
  if s.marksCount = 0 then 0
  else if rightMark = 0 then (s.getMark rightMark 0).offsetInCompressedFile
  else if rightMark = s.marksCount then s.fileSize
  else
    let rightMark := s.dictionaryRightMark rightMark
    if rightMark = s.marksCount then s.fileSize
    else if s.isMetadataFile then s.fileSize
    -- the compressed block is finished within the right mark, and the previous mark was different
    else if (s.getMark rightMark 0).offsetInDecompressedBlock = 0 ∧ s.getMark rightMark 0 ≠ s.getMark (rightMark - 1) 0 then
      (s.getMark rightMark 0).offsetInCompressedFile
    else
      let next := firstMark (fun mark => (s.getMark rightMark 0).offsetInCompressedFile <
        (s.getMark mark 0).offsetInCompressedFile) rightMark s.marksCount
      if next < s.marksCount then (s.getMark next 0).offsetInCompressedFile else s.fileSize

/-- `MergeTreeReaderStreamSingleColumn::estimateMarkRangeBytes`. -/
def estimateMarkRangeBytes (markRanges : List MarkRange) : Option (ℕ × ℕ) :=
  markRanges.foldlM (fun bytes range => addRangeBytes bytes (s.getRightOffset range.endMark)
    (if range.beginMark < s.marksCount then (s.getMark range.beginMark 0).offsetInCompressedFile else 0)) (0, 0)

/-! ### A column of several -/

def getStartOfNextStripeMark (rowIndex columnPosition : ℕ) : MarkInCompressedFile :=
  let current := s.getMark rowIndex columnPosition
  if s.numColumns = 1 then s.endMark
  else if columnPosition + 1 = s.numColumns then
    let markIndex := firstMark (fun mark => ¬s.getMark mark 0 ≤ current) (rowIndex + 1) s.marksCount
    if markIndex = s.marksCount then s.endMark else s.getMark markIndex 0
  else
    s.getMark (lastMarkEnd (fun mark => current ≤ s.getMark mark (columnPosition + 1)) (rowIndex + 1)) (columnPosition + 1)

/-- `getRightOffsetOneColumn` from the last mark that is read. -/
def rightOffsetFrom (rightMarkIncluded columnPosition : ℕ) : ℕ :=
  let rightMarkInFile := s.getMark rightMarkIncluded columnPosition
  let nextStripe := s.getStartOfNextStripeMark rightMarkIncluded columnPosition
  -- the first mark that starts from the new compressed block
  let mark := firstMark (fun mark => rightMarkInFile.offsetInCompressedFile <
    (s.getMark mark columnPosition).offsetInCompressedFile) (rightMarkIncluded + 1) s.marksCount
  if mark < s.marksCount ∧ s.getMark mark columnPosition < nextStripe then
    (s.getMark mark columnPosition).offsetInCompressedFile
  else nextStripe.offsetInCompressedFile

/-- The last mark that is read: the right one too when it begins inside of a block. -/
def rightMarkIncluded (rightMarkNonIncluded columnPosition : ℕ) : ℕ :=
  if rightMarkNonIncluded ≠ s.marksCount ∧
      (s.getMark rightMarkNonIncluded columnPosition).offsetInDecompressedBlock ≠ 0 then
    rightMarkNonIncluded - 1 + 1
  else rightMarkNonIncluded - 1

def getRightOffsetOneColumn (rightMarkNonIncluded columnPosition : ℕ) : ℕ :=
  if s.marksCount = 0 then 0
  else if rightMarkNonIncluded = 0 then (s.getMark rightMarkNonIncluded columnPosition).offsetInCompressedFile
  else s.rightOffsetFrom (s.rightMarkIncluded rightMarkNonIncluded columnPosition) columnPosition

/-- The bytes so far, and the stripe of `estimateMarkRangeBytesOneColumn`. -/
structure StripeScan where
  bytes : ℕ × ℕ
  startOfStripeMark : MarkInCompressedFile
  startOfNextStripeMark : MarkInCompressedFile

/-- One mark of a range: a new stripe starts when the mark is behind the start of the next one. -/
def scanMark (columnPosition : ℕ) (scan : StripeScan) (mark : ℕ) : Option StripeScan :=
  if scan.startOfNextStripeMark < s.getMark mark columnPosition then do
    let bytes ← addRangeBytes scan.bytes (s.getRightOffsetOneColumn mark columnPosition)
      scan.startOfStripeMark.offsetInCompressedFile
    some ⟨bytes, s.getMark mark columnPosition, s.getStartOfNextStripeMark mark columnPosition⟩
  else some scan

/-- The stripes of one range. -/
def estimateRange (columnPosition : ℕ) (bytes : ℕ × ℕ) (range : MarkRange) : Option (ℕ × ℕ) := do
  let scan ← (List.range' range.beginMark (range.endMark - range.beginMark)).foldlM (s.scanMark columnPosition)
    ⟨bytes, s.getMark range.beginMark columnPosition, s.getStartOfNextStripeMark range.beginMark columnPosition⟩
  addRangeBytes scan.bytes (s.getRightOffsetOneColumn range.endMark columnPosition)
    scan.startOfStripeMark.offsetInCompressedFile

def estimateMarkRangeBytesOneColumn (markRanges : List MarkRange) (columnPosition : ℕ) : Option (ℕ × ℕ) :=
  markRanges.foldlM (s.estimateRange columnPosition) (0, 0)

end ReaderStream

/-! ## Limiting the reading -/

/-- The bound that was set on the data buffer: none yet, the end, or a position. -/
inductive ReadUntil where
  | unset
  | toEnd
  | position (offset : ℕ)
deriving DecidableEq, Repr

/-- `last_right_offset` and the buffer. -/
structure ReadLimit where
  lastRightOffset : Option ℕ := none
  readUntil : ReadUntil := .unset
deriving DecidableEq, Repr

/-- `adjustRightMark`, with what `getRightOffset` returns for the right mark. The offset 0 means the
end of the file. -/
def ReadLimit.adjustRightMark (limit : ReadLimit) (rightOffset : ℕ) : ReadLimit :=
  if rightOffset = 0 then
    if limit.lastRightOffset = some 0 then limit else ⟨some 0, .toEnd⟩
  else if limit.lastRightOffset.any fun last => rightOffset ≤ last then limit
  else ⟨some rightOffset, .position rightOffset⟩

/-! ## Layouts of the files -/

/-- The compressed blocks of a file, one after another: where they start, and how many bytes each of
them has decompressed. -/
structure CompressedFile where
  starts : List ℕ
  fileSize : ℕ
  blockBytes : ℕ → ℕ
  ascending : starts.Pairwise (· < ·)
  zero_mem : 0 < fileSize → 0 ∈ starts
  lt_fileSize : ∀ start ∈ starts, start < fileSize

namespace CompressedFile

variable (file : CompressedFile)

/-- Where the block at `start` ends: at the next block, or at the end of the file. -/
def blockEnd (start : ℕ) : ℕ := (file.starts.find? fun next => start < next).getD file.fileSize

/-- The start of a block, or the file size. -/
def IsBoundary (offset : ℕ) : Prop := offset ∈ file.starts ∨ offset = file.fileSize

/-- A mark points into a block (or behind its last byte), or to the end of the file. -/
def ValidMark (m : MarkInCompressedFile) : Prop :=
  m.offsetInCompressedFile ∈ file.starts ∧ m.offsetInDecompressedBlock ≤ file.blockBytes m.offsetInCompressedFile ∨
    m = ⟨file.fileSize, 0⟩

/-- The block at `start` has a byte between the two marks. -/
def HoldsBetween (start : ℕ) (m m' : MarkInCompressedFile) : Prop :=
  start ∈ file.starts ∧ ∃ offset < file.blockBytes start, m ≤ ⟨start, offset⟩ ∧ (⟨start, offset⟩ : MarkInCompressedFile) < m'

end CompressedFile

namespace ReaderStream

variable (s : ReaderStream) (file : CompressedFile)

/-- **A file of one column**: the marks do not decrease. -/
structure SingleColumnLayout : Prop where
  fileSize_eq : s.fileSize = file.fileSize
  valid : ∀ i < s.marksCount, file.ValidMark (s.getMark i 0)
  sorted : ∀ i j, i ≤ j → j < s.marksCount → s.getMark i 0 ≤ s.getMark j 0

/-- Where the data of mark `i` ends. -/
def markEnd (i : ℕ) : MarkInCompressedFile := if i + 1 < s.marksCount then s.getMark (i + 1) 0 else s.endMark

/-- Where the dictionary of mark `i` ends: at the next different mark. -/
def dictionaryEnd (i : ℕ) : MarkInCompressedFile :=
  let next := firstMark (fun mark => s.getMark i 0 < s.getMark mark 0) i s.marksCount
  if next < s.marksCount then s.getMark next 0 else s.endMark

/-- The next mark that differs from mark `i` is `j`. -/
def NextDifferent (i j : ℕ) : Prop := j < s.marksCount ∧ s.getMark i 0 < s.getMark j 0 ∧ ∀ k < j, s.getMark k 0 ≤ s.getMark i 0

/-- The block holds data of a mark below the right one. The dictionary of LowCardinality is also needed
for the right mark itself. -/
def Needs (rightMark start : ℕ) : Prop :=
  (∃ i < rightMark, file.HoldsBetween start (s.getMark i 0) (s.markEnd i)) ∨
    s.isLowCardinalityDictionary ∧ 0 < rightMark ∧ ∃ i ≤ rightMark, i < s.marksCount ∧
      file.HoldsBetween start (s.getMark i 0) (s.dictionaryEnd i)

/-- **A file of several columns**: stripes of granules, in which the columns follow one another, each
from a new block. Marks from `dataRows` on are final ones. -/
structure CompactLayout where
  dataRows : ℕ
  stripeBegin : ℕ → ℕ
  stripeEnd : ℕ → ℕ
  fileSize_eq : s.fileSize = file.fileSize
  dataRows_le : dataRows ≤ s.marksCount
  final : ∀ i, dataRows ≤ i → i < s.marksCount → ∀ c < s.numColumns, s.getMark i c = s.endMark
  stripe : ∀ i < dataRows, stripeBegin i ≤ i ∧ i < stripeEnd i ∧ stripeEnd i ≤ dataRows
  stripe_eq : ∀ i < dataRows, ∀ j, stripeBegin i ≤ j → j < stripeEnd i → stripeBegin j = stripeBegin i ∧ stripeEnd j = stripeEnd i
  mem_starts : ∀ i < dataRows, ∀ c < s.numColumns, (s.getMark i c).offsetInCompressedFile ∈ file.starts
  inBlock : ∀ i < dataRows, ∀ c < s.numColumns,
    (s.getMark i c).offsetInDecompressedBlock ≤ file.blockBytes (s.getMark i c).offsetInCompressedFile
  newBlock : ∀ i < dataRows, ∀ c < s.numColumns, (s.getMark (stripeBegin i) c).offsetInDecompressedBlock = 0
  sorted : ∀ i < dataRows, ∀ j, i ≤ j → j < stripeEnd i → ∀ c < s.numColumns, s.getMark i c ≤ s.getMark j c
  column_lt : ∀ i < dataRows, ∀ j, stripeBegin i ≤ j → j < stripeEnd i → ∀ c c', c < c' → c' < s.numColumns →
    s.getMark i c < s.getMark j c'
  stripe_lt : ∀ i < dataRows, ∀ j, stripeEnd i ≤ j → j < dataRows → ∀ c < s.numColumns, ∀ c' < s.numColumns,
    s.getMark i c < s.getMark j c'

namespace CompactLayout

variable {s file} (layout : s.CompactLayout file)

/-- Where the column ends in the stripe of mark `i`. -/
def columnEnd (i c : ℕ) : MarkInCompressedFile :=
  if c + 1 < s.numColumns then s.getMark (layout.stripeBegin i) (c + 1)
  else if layout.stripeEnd i < s.marksCount then s.getMark (layout.stripeEnd i) 0
  else s.endMark

/-- Where the data of mark `i` ends in a column. -/
def markEnd (i c : ℕ) : MarkInCompressedFile :=
  if i + 1 < layout.stripeEnd i then s.getMark (i + 1) c else layout.columnEnd i c

/-- The block holds data of the column that belongs to a mark below the right one. -/
def Needs (c rightMark start : ℕ) : Prop :=
  ∃ i < rightMark, i < layout.dataRows ∧ file.HoldsBetween start (s.getMark i c) (layout.markEnd i c)

end CompactLayout

end ReaderStream

/-! ## What the bound promises -/

/-- **A right bound that cuts nothing**: it is at least the end of each block that is needed, a
boundary of blocks, and does not decrease. -/
structure RightBound (file : CompressedFile) (marksCount : ℕ) (rightOffset : ℕ → ℕ) (needs : ℕ → ℕ → Prop) : Prop where
  covers : ∀ r ≤ marksCount, ∀ start, needs r start → file.blockEnd start ≤ rightOffset r
  boundary : ∀ r ≤ marksCount, file.IsBoundary (rightOffset r)
  mono : ∀ r r', r ≤ r' → r' ≤ marksCount → rightOffset r ≤ rightOffset r'

/-- Non-empty, sorted and disjoint ranges of marks. -/
def SortedRanges (marksCount : ℕ) (markRanges : List MarkRange) : Prop :=
  (∀ range ∈ markRanges, range.beginMark < range.endMark ∧ range.endMark ≤ marksCount) ∧
    markRanges.Pairwise fun range range' => range.endMark ≤ range'.beginMark

/-- The bound on the buffer reaches the offset. -/
def ReadUntil.Reaches : ReadUntil → ℕ → Prop
  | .unset, _ => False
  | .toEnd, _ => True
  | .position stop, offset => offset ≤ stop

/-- The limit after calls of `adjustRightMark`. -/
def limitAfter (rightOffset : ℕ → ℕ) (rightMarks : List ℕ) : ReadLimit :=
  (rightMarks.map rightOffset).foldl ReadLimit.adjustRightMark {}

/-- **Reading never stops too early**: after any calls of `adjustRightMark` the reading reaches the end
of each block that the last right mark needs, and when none of the right marks is 0, of each block that
one of them needs. -/
structure NeverCuts (file : CompressedFile) (marksCount : ℕ) (rightOffset : ℕ → ℕ) (needs : ℕ → ℕ → Prop) : Prop where
  last : ∀ rightMarks : List ℕ, ∀ r ≤ marksCount, ∀ start, needs r start →
    (limitAfter rightOffset (rightMarks ++ [r])).readUntil.Reaches (file.blockEnd start)
  all : ∀ rightMarks : List ℕ, (∀ r ∈ rightMarks, 0 < r ∧ r ≤ marksCount) → ∀ r ∈ rightMarks, ∀ start, needs r start →
    (limitAfter rightOffset rightMarks).readUntil.Reaches (file.blockEnd start)

end MergeTree
