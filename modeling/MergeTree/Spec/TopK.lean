import MergeTree.Lib.Heaps
import MergeTree.Lib.Sorting
import MergeTree.Spec.BulkFiltering

/-!
# The best marks by a minmax index

`MergeTreeIndexBulkGranulesMinMax`: for `ORDER BY ... LIMIT n` the marks of a part are taken
with the extremes stored for their index granules, and the best of them are kept, first in
every part and then over all parts. A bounded heap keeps `n` marks; when ties are to be
kept, `n` times the granularity of the index are popped from a heap with all marks, and
those that tie with the last one.
-/

namespace MergeTree

/-- `MinMaxGranule`. -/
structure MinMaxGranule (V : Type) where
  granuleNum : ℕ
  minOrMaxValue : V
deriving DecidableEq, Repr

/-- `MinMaxGranuleItem`. -/
structure MinMaxGranuleItem (V : Type) where
  direction : ℤ
  partIndex : ℕ
  granuleNum : ℕ
  minOrMaxValue : V
deriving DecidableEq, Repr

section TopK

variable {V : Type} [LinearOrder V]

/-- `operator <`. -/
def MinMaxGranuleItem.less (a b : MinMaxGranuleItem V) : Bool :=
  if a.direction = 1 then decide (a.minOrMaxValue < b.minOrMaxValue) else decide (b.minOrMaxValue < a.minOrMaxValue)

/-! ## Reading granules -/

/-- `deserializeBinary`: the granules of an index mark. The minimum is stored before the maximum. -/
def deserializeMinMax (direction : ℤ) (indexGranularity lastPartGranule granuleNum : ℕ) (stored : V × V) :
    List (MinMaxGranule V) :=
  let value := if direction = 1 then stored.1 else stored.2
  (((List.range indexGranularity).map fun i => addSize (mulSize granuleNum indexGranularity) i).takeWhile
    fun partGranuleNum => decide (partGranuleNum < lastPartGranule)).map fun partGranuleNum => ⟨partGranuleNum, value⟩

/-- A part: the rows of its marks, the ranges to read, and what is stored for its index marks. -/
structure TopKPart (V : Type) where
  marks : List (List V)
  ranges : MarkRanges
  stored : ℕ → V × V

def getMinMaxIndexGranules (direction : ℤ) (skipIndexGranularity : ℕ) (part : TopKPart V) : List (MinMaxGranule V) :=
  (part.ranges.flatMap fun range => range.indexMarks skipIndexGranularity).foldl (fun granules indexMark =>
    granules ++ deserializeMinMax direction skipIndexGranularity part.marks.length indexMark (part.stored indexMark)) []

/-! ## Selecting granules -/

variable (heap : StdHeap)

/-- The loop body without ties: the queue keeps the best `n`. -/
def pushBounded (n : ℕ) (queue : List (MinMaxGranuleItem V)) (item : MinMaxGranuleItem V) : List (MinMaxGranuleItem V) :=
  if queue.length < n then heap.push MinMaxGranuleItem.less item queue
  else
    match heap.pop MinMaxGranuleItem.less queue with
    | some (top, rest) =>
      if item.direction = 1 ∧ item.minOrMaxValue < top.minOrMaxValue ∨ item.direction = -1 ∧ top.minOrMaxValue < item.minOrMaxValue then
        heap.push MinMaxGranuleItem.less item rest
      else queue
    | none => queue

/-- Both loops with ties over what a queue pops: so many, and those that tie with the last one, or with the first if
none was taken. -/
def takeWithTies (minGranulesToSelect : ℕ) (popped : List (MinMaxGranuleItem V)) : List (MinMaxGranuleItem V) :=
  match popped with
  | [] => []
  | top :: _ =>
    let selected := popped.take minGranulesToSelect
    let threshold := selected.getLastD top
    selected ++ (popped.drop minGranulesToSelect).takeWhile fun item => decide (item.minOrMaxValue = threshold.minOrMaxValue)

/-- The items a queue selects, in the order they are popped. With ties the direction is negated, so that the
best item is on top. -/
def selectItems (direction : ℤ) (n indexGranularity : ℕ) (handleTies : Bool) (items : List (MinMaxGranuleItem V)) :
    List (MinMaxGranuleItem V) :=
  if handleTies then
    let queue := heap.pushAll MinMaxGranuleItem.less (items.map fun item => { item with direction := -direction })
    takeWithTies (mulSize n indexGranularity) (heap.drain MinMaxGranuleItem.less queue.length queue)
  else
    let queue := (items.map fun item => { item with direction }).foldl (pushBounded heap n) []
    heap.drain MinMaxGranuleItem.less queue.length queue

/-- `getTopKMarks` of a part. -/
def getTopKMarksOfPart (direction : ℤ) (indexGranularity n : ℕ) (handleTies : Bool) (granules : List (MinMaxGranule V)) :
    List (MinMaxGranule V) :=
  if n = 0 then []
  else if granules.length ≤ n then granules
  else
    (selectItems heap direction n indexGranularity handleTies
      (granules.map fun granule => ⟨direction, 0, granule.granuleNum, granule.minOrMaxValue⟩)).map
        fun item => ⟨item.granuleNum, item.minOrMaxValue⟩

/-- The static `getTopKMarks`: the ranges of every part, or nothing at all if there is no granule. -/
def getTopKMarks (std : StdSort) (direction : ℤ) (n indexGranularity : ℕ) (handleTies : Bool)
    (parts : List (List (MinMaxGranule V))) : List MarkRanges :=
  if n = 0 then []
  else
    let items : List (MinMaxGranuleItem V) := parts.zipIdx.flatMap fun (granules, partIndex) =>
      granules.map fun granule => ⟨direction, partIndex, granule.granuleNum, granule.minOrMaxValue⟩
    let selected := selectItems heap direction n indexGranularity handleTies items
    if items.isEmpty then []
    else
      (List.range parts.length).map fun partIndex =>
        std.sort (fun a b : MarkRange => decide (a.beginMark < b.beginMark ∧ a.endMark ≤ b.beginMark))
          ((selected.filter fun item => item.partIndex = partIndex).map fun item =>
            ⟨item.granuleNum, addSize item.granuleNum 1⟩)

/-- The whole selection: all granules of the ranges, the best of every part, the best of all. -/
def topKMarks (std : StdSort) (direction : ℤ) (n indexGranularity : ℕ) (handleTies : Bool) (parts : List (TopKPart V)) :
    List MarkRanges :=
  getTopKMarks heap std direction n indexGranularity handleTies
    (parts.map fun part =>
      getTopKMarksOfPart heap direction indexGranularity n handleTies (getMinMaxIndexGranules direction indexGranularity part))

/-! ## What the selection is for -/

/-- A row with its mark. -/
structure TopKRow (V : Type) where
  partIndex : ℕ
  mark : ℕ
  value : V
deriving DecidableEq, Repr

/-- The rows of a mark. -/
def TopKPart.rowsOfMark (part : TopKPart V) (partIndex mark : ℕ) : List (TopKRow V) :=
  (part.marks.getD mark []).map fun value => ⟨partIndex, mark, value⟩

/-- The rows of the ranges of all parts. -/
def rowsOfRanges (parts : List (TopKPart V)) : List (TopKRow V) :=
  parts.zipIdx.flatMap fun (part, partIndex) => part.ranges.marks.flatMap fun mark => part.rowsOfMark partIndex mark

/-- In this direction the first value is not after the second one. -/
def NotWorse (direction : ℤ) (a b : V) : Prop := if direction = 1 then a ≤ b else b ≤ a

instance (direction : ℤ) (a b : V) : Decidable (NotWorse direction a b) :=
  inferInstanceAs (Decidable (if direction = 1 then a ≤ b else b ≤ a))

/-- How many rows of the ranges are better. -/
def betterRows (direction : ℤ) (parts : List (TopKPart V)) (value : V) : ℕ :=
  (rowsOfRanges parts).countP fun row => !decide (NotWorse direction value row.value)

/-- The mark is in the returned ranges. -/
def Returned (returned : List MarkRanges) (row : TopKRow V) : Prop :=
  ∃ ranges, returned[row.partIndex]? = some ranges ∧ ranges.Covers row.mark

/-- **The answer is kept**: the returned ranges of every part are sorted and disjoint; a choice of the `n` best rows is in them, and
with ties every row with fewer than `n` better ones. -/
structure KeepsAnswer (direction : ℤ) (n : ℕ) (handleTies : Bool) (parts : List (TopKPart V)) (returned : List MarkRanges) :
    Prop where
  sorted : ∀ ranges ∈ returned, ranges.SortedDisjoint
  best : handleTies = false → ∃ best others, (rowsOfRanges parts).Perm (best ++ others) ∧
    best.length = min n (rowsOfRanges parts).length ∧ (∀ r ∈ best, ∀ z ∈ others, NotWorse direction r.value z.value) ∧
      ∀ r ∈ best, Returned returned r
  ties : handleTies = true → ∀ row ∈ rowsOfRanges parts,
    betterRows direction parts row.value < n → Returned returned row

/-- The marks of an index granule. -/
def TopKPart.granuleMarks (part : TopKPart V) (skipIndexGranularity indexMark : ℕ) : List ℕ :=
  List.range' (indexMark * skipIndexGranularity)
    (min skipIndexGranularity (part.marks.length - indexMark * skipIndexGranularity))

/-- The index marks that are read. -/
def TopKPart.indexMarks (part : TopKPart V) (skipIndexGranularity : ℕ) : List ℕ :=
  part.ranges.flatMap fun range => range.indexMarks skipIndexGranularity

/-- The ranges are sorted and disjoint and in the part, no mark is empty, and the index granules hold the minimum and the
maximum of their rows. -/
structure TopKPart.WellFormed (part : TopKPart V) (skipIndexGranularity : ℕ) : Prop where
  sorted : part.ranges.Sorted
  inPart : ∀ range ∈ part.ranges, range.endMark ≤ part.marks.length
  nonempty : ∀ rows ∈ part.marks, rows ≠ []
  minimum : ∀ indexMark, indexMark * skipIndexGranularity < part.marks.length →
    (∃ mark ∈ part.granuleMarks skipIndexGranularity indexMark, (part.stored indexMark).1 ∈ part.marks.getD mark []) ∧
      ∀ mark ∈ part.granuleMarks skipIndexGranularity indexMark, ∀ v ∈ part.marks.getD mark [], (part.stored indexMark).1 ≤ v
  maximum : ∀ indexMark, indexMark * skipIndexGranularity < part.marks.length →
    (∃ mark ∈ part.granuleMarks skipIndexGranularity indexMark, (part.stored indexMark).2 ∈ part.marks.getD mark []) ∧
      ∀ mark ∈ part.granuleMarks skipIndexGranularity indexMark, ∀ v ∈ part.marks.getD mark [], v ≤ (part.stored indexMark).2
  fits : part.marks.length + skipIndexGranularity < 2 ^ 64

/-- The extreme that is kept of an index granule. -/
def TopKPart.extreme (part : TopKPart V) (direction : ℤ) (indexMark : ℕ) : V :=
  if direction = 1 then (part.stored indexMark).1 else (part.stored indexMark).2

/-- The extremes of the index granules that are read, one for each of their marks. -/
def extremesRead (direction : ℤ) (skipIndexGranularity : ℕ) (parts : List (TopKPart V)) : List V :=
  parts.flatMap fun part => (part.indexMarks skipIndexGranularity).flatMap fun indexMark =>
    (part.granuleMarks skipIndexGranularity indexMark).map fun _ => part.extreme direction indexMark

/-- How many marks are read with a better extreme. -/
def betterRead (direction : ℤ) (skipIndexGranularity : ℕ) (parts : List (TopKPart V)) (value : V) : ℕ :=
  (extremesRead direction skipIndexGranularity parts).countP fun extreme => !decide (NotWorse direction value extreme)

/-- No index granule is read for two ranges. -/
def TopKPart.ReadOnce (part : TopKPart V) (skipIndexGranularity : ℕ) : Prop := (part.indexMarks skipIndexGranularity).Nodup

/-- Every index granule that is read is one mark. -/
def TopKPart.Single (part : TopKPart V) (skipIndexGranularity : ℕ) : Prop :=
  ∀ indexMark ∈ part.indexMarks skipIndexGranularity, (part.granuleMarks skipIndexGranularity indexMark).length ≤ 1

/-- **When a stored extreme may stand for its marks**, where so many marks are selected with ties: not so many marks have a better
extreme than the index granule of a row with few better rows, and so many have one than an index granule that is read for
several ranges. -/
structure TiesSuffice (direction : ℤ) (n skipIndexGranularity places : ℕ) (parts : List (TopKPart V)) : Prop where
  rows : ∀ x ∈ parts.zipIdx, ∀ mark ∈ x.1.ranges.marks, ∀ row ∈ x.1.rowsOfMark x.2 mark, betterRows direction parts row.value < n →
    betterRead direction skipIndexGranularity parts (x.1.extreme direction (mark / skipIndexGranularity)) < places
  once : ∀ part ∈ parts, ∀ indexMark ∈ part.indexMarks skipIndexGranularity,
    1 < (part.indexMarks skipIndexGranularity).count indexMark →
      places ≤ betterRead direction skipIndexGranularity parts (part.extreme direction indexMark)

/-- **When a stored extreme may stand for its marks.** Without ties no index granule is read twice, and all marks that are
read fit into the limit, or every index granule is one mark. -/
def ExtremesSuffice (direction : ℤ) (n skipIndexGranularity : ℕ) (handleTies : Bool) (parts : List (TopKPart V)) : Prop :=
  if handleTies then TiesSuffice direction n skipIndexGranularity (max 1 (mulSize n skipIndexGranularity)) parts
  else (∀ part ∈ parts, part.ReadOnce skipIndexGranularity) ∧
    ((extremesRead direction skipIndexGranularity parts).length ≤ n ∨ ∀ part ∈ parts, part.Single skipIndexGranularity)

end TopK

end MergeTree
