import MergeTree.Lib.ComparisonSet
import MergeTree.Lib.Sorting
import MergeTree.Spec.ApplyPatchMerge
import MergeTree.Spec.MarkRanges
import MergeTree.Spec.PartWriterWide

/-!
# Ranges to read in patch parts

`RangesInPatchParts` collects, for the parts that are read and their patches, the ranges of marks that are to be read in
each patch part, and cuts them into pieces. `getRanges` then finds the pieces for the ranges of one task.

The index of a patch part has the key of the first row of each granule and of the last row. `std::sort` compares begins of
ranges only; `std::set` compares with the operator `<` of ranges, which throws on different ranges that intersect.
-/

namespace MergeTree

def IndexGranularity.getMarkStartingRow : IndexGranularity → ℕ → Except String ℕ
  | adaptive a, mark => a.getMarkStartingRow mark
  | constant c, mark => c.getMarkStartingRow mark

/-- The index of a patch part: without columns, with the columns `_part` and `_part_offset`, or with another number of
columns. -/
inductive PatchIndex
  | empty
  | keys (rows : List PatchRow)
  | other (columns : ℕ) (not_two : columns ≠ 0 ∧ columns ≠ 2)
deriving DecidableEq, Repr

/-- A patch part: its name and its index. -/
structure IndexedPatchPart where
  name : String
  index : PatchIndex
deriving DecidableEq, Repr

/-- The part whose rows are patched. -/
structure OriginalPart where
  name : String
  indexGranularity : IndexGranularity
deriving DecidableEq, Repr

/-- The body of the loop of `optimizeRanges`, and the first range. -/
def optimizeStep (resultRanges : MarkRanges) (range : MarkRange) : Except String MarkRanges :=
  match resultRanges.getLast? with
  | none => .ok [range]
  | some lastRange =>
    if range.beginMark < lastRange.beginMark then .error "Ranges for patch parts must be sorted"
    else if range.beginMark > lastRange.endMark then .ok (resultRanges ++ [range])
    else .ok (resultRanges.dropLast ++ [⟨lastRange.beginMark, max lastRange.endMark range.endMark⟩])

def optimizeRanges (ranges : MarkRanges) : Except String MarkRanges := ranges.foldlM optimizeStep []

/-- The comparator of the sorts. -/
def beginLess (lhs rhs : MarkRange) : Bool := lhs.beginMark < rhs.beginMark

/-- The range of granules for a range of the index, if there is one. -/
def granulesOfRange (size : ℕ) (range : ℕ × ℕ) : MarkRanges :=
  let (beginRange, endRange) := range
  if beginRange = size ∨ endRange = 0 then []
  else [⟨if beginRange ≠ 0 then beginRange - 1 else beginRange, endRange⟩]

/-- The exception on an index of another shape. -/
def wrongIndex (columns : ℕ) : String := "Index of patch part must have 2 columns, got " ++ toString columns

def getRangesInPatchPartMerge (std : StdSort) (originalPart : OriginalPart) (patch : PatchPartInfo IndexedPatchPart)
    (originalRanges : MarkRanges) : Except String MarkRanges :=
  match patch.sourceParts with
  | [sourcePart] =>
    if sourcePart ≠ originalPart.name then .error ("Expected " ++ originalPart.name ++ " source part, got: " ++ sourcePart)
    else
      match patch.part.index with
      | .empty => .ok []
      | .other columns _ => .error (wrongIndex columns)
      | .keys rows => do
        let patchPartRanges ← originalRanges.mapM fun range => do
          let beginRow ← originalPart.indexGranularity.getMarkStartingRow range.beginMark
          let endRow ← originalPart.indexGranularity.getMarkStartingRow range.endMark
          return granulesOfRange rows.length (getPartNameOffsetRange rows originalPart.name beginRow endRow)
        optimizeRanges (std.sort beginLess patchPartRanges.flatten)
  | _ => .error ("Applying patch parts with mode " ++ PatchMode.merge.text ++ " requires only one part")

def getRangesInPatchPartJoin (std : StdSort) (patch : PatchPartInfo IndexedPatchPart) : Except String MarkRanges :=
  match patch.part.index with
  | .empty => .ok []
  | .other columns _ => .error (wrongIndex columns)
  | .keys rows =>
    optimizeRanges (std.sort beginLess (patch.sourceParts.flatMap fun sourcePartName =>
      granulesOfRange rows.length (getPartNameRange (rows.map PatchRow.part) sourcePartName)))

def getRangesInPatchPart (std : StdSort) (originalPart : OriginalPart) (patch : PatchPartInfo IndexedPatchPart) (ranges : MarkRanges) :
    Except String MarkRanges :=
  match patch.mode with
  | .merge => getRangesInPatchPartMerge std originalPart patch ranges
  | .join => getRangesInPatchPartJoin std patch

/-- The pieces of a range, of at most `max_granules_in_range` granules. -/
def splitRange (maxGranulesInRange : ℕ) (range : MarkRange) : MarkRanges :=
  let numFullSplits := (range.endMark - range.beginMark) / maxGranulesInRange
  (List.range numFullSplits).map (fun i =>
      ⟨range.beginMark + maxGranulesInRange * i, range.beginMark + maxGranulesInRange * (i + 1)⟩) ++
    if (range.endMark - range.beginMark) % maxGranulesInRange ≠ 0 then
      [⟨range.beginMark + maxGranulesInRange * numFullSplits, range.endMark⟩]
    else []

/-- `RangesInPatchParts`. The setting for the size of the pieces is not zero. -/
structure RangesInPatchParts where
  maxGranulesInRange : ℕ
  maxGranules_pos : 0 < maxGranulesInRange
  rangesByName : KeyedSet (Prod.fst : String × MarkRanges → String) := .empty

namespace RangesInPatchParts

variable (s : RangesInPatchParts)

/-- The ranges of a patch part. -/
def ranges (patchName : String) : MarkRanges := ((s.rangesByName.find patchName).map Prod.snd).getD []

/-- The body of the loop of `addPart`. -/
def addPatch (std : StdSort) (originalPart : OriginalPart) (originalRanges : MarkRanges) (s : RangesInPatchParts)
    (patchPart : PatchPartInfo IndexedPatchPart) : Except String RangesInPatchParts := do
  let patchRanges ← getRangesInPatchPart std originalPart patchPart originalRanges
  if patchRanges.isEmpty then return s
  else
    let name := patchPart.part.name
    return { s with rangesByName := (s.rangesByName.erase name).emplace (name, s.ranges name ++ patchRanges) }

def addPart (std : StdSort) (originalPart : OriginalPart) (patchParts : List (PatchPartInfo IndexedPatchPart)) (originalRanges : MarkRanges) :
    Except String RangesInPatchParts :=
  patchParts.foldlM (addPatch std originalPart originalRanges) s

/-- The body of the loop of `optimize`. -/
def optimizePatch (std : StdSort) (rangesByName : KeyedSet (Prod.fst : String × MarkRanges → String)) (entry : String × MarkRanges) :
    Except String (KeyedSet (Prod.fst : String × MarkRanges → String)) := do
  let optimizedRanges ← optimizeRanges (std.sort beginLess entry.2)
  return (rangesByName.erase entry.1).emplace (entry.1, optimizedRanges.flatMap (splitRange s.maxGranulesInRange))

def optimize (std : StdSort) : Except String RangesInPatchParts := do
  let rangesByName ← s.rangesByName.toList.foldlM (s.optimizePatch std) s.rangesByName
  return { s with rangesByName }

/-- The pieces that meet or touch a range: `std::lower_bound` and `std::upper_bound`. -/
def intersecting (patchRanges : MarkRanges) (range : MarkRange) : MarkRanges :=
  let left := patchRanges.findIdx fun r => ¬ r.endMark < range.beginMark
  let right := patchRanges.findIdx fun r => range.endMark < r.beginMark
  (patchRanges.take right).drop left

def getIntersectingRanges (set : ComparisonSet) (patchName : String) (ranges : MarkRanges) : Except String MarkRanges :=
  match s.rangesByName.find patchName with
  | none => .ok []
  | some entry => ranges.foldlM (fun res range => set.insertAll MarkRange.less res (intersecting entry.2 range)) []

def getRanges (std : StdSort) (set : ComparisonSet) (originalPart : OriginalPart) (patchParts : List (PatchPartInfo IndexedPatchPart))
    (ranges : MarkRanges) : Except String (List MarkRanges) := do
  let rawRanges ← patchParts.mapM fun patchPart => getRangesInPatchPart std originalPart patchPart ranges
  (patchParts.zip rawRanges).mapM fun patch => s.getIntersectingRanges set patch.1.part.name patch.2

end RangesInPatchParts

end MergeTree
