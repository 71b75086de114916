import MergeTree.Spec.SkipIndexes

/-!
# Filtering by a skip index in bulk

`filterMarksUsingIndex` without disjunctions has two ways through the index granules of the
ranges. The one of `granuleRange` asks about every granule after it was read. The bulk one
reads all granules first, numbered from zero over all ranges, asks once for the positions
that are possible, and walks over the granules a second time with a cursor in these
positions.
-/

namespace MergeTree

/-- The index marks that a range needs. -/
def MarkRange.indexMarks (range : MarkRange) (skipIndexGranularity : ℕ) : List ℕ :=
  let indexRange := range.indexRange skipIndexGranularity
  List.range' indexRange.beginMark (indexRange.endMark - indexRange.beginMark)

/-- The marks of a range that an index mark stands for. -/
def MarkRange.dataRange (range : MarkRange) (skipIndexGranularity indexMark : ℕ) : MarkRange :=
  ⟨max range.beginMark (mulSize indexMark skipIndexGranularity),
    min range.endMark (mulSize (addSize indexMark 1) skipIndexGranularity)⟩

/-- The positions of the elements that are accepted, from a first position on. -/
def acceptedFrom {A : Type} (accept : A → Bool) : ℕ → List A → List ℕ
  | _, [] => []
  | position, a :: rest =>
    if accept a then position :: acceptedFrom accept (position + 1) rest else acceptedFrom accept (position + 1) rest

/-- `getPossibleGranules`, of a condition that accepts these granules: their positions, ascending. -/
def getPossibleGranules {Granule : Type} (accept : Granule → Bool) (granules : List Granule) : List ℕ :=
  acceptedFrom accept 0 granules

/-- The state of the second walk; `it` is what is left of the positions. -/
structure BulkState where
  res : MarkRanges := []
  it : List ℕ
  currentGranuleNum : ℕ := 0
deriving DecidableEq, Repr

section Bulk

variable (minMarksForSeek skipIndexGranularity : ℕ)

/-- The index marks of one range. The loop ends when no position is left. -/
def bulkRange (range : MarkRange) : List ℕ → BulkState → BulkState
  | [], st => st
  | indexMark :: rest, st =>
    match st.it with
    | [] => st
    | position :: later =>
      if st.currentGranuleNum = position then
        let res := MarkRanges.pushRange minMarksForSeek st.res (range.dataRange skipIndexGranularity indexMark)
        if later.isEmpty then { st with res, it := later }
        else bulkRange range rest ⟨res, later, st.currentGranuleNum + 1⟩
      else bulkRange range rest { st with currentGranuleNum := st.currentGranuleNum + 1 }

/-- All ranges, as long as there are positions. -/
def bulkRanges : MarkRanges → BulkState → BulkState
  | [], st => st
  | range :: ranges, st =>
    let st := bulkRange minMarksForSeek skipIndexGranularity range (range.indexMarks skipIndexGranularity) st
    if st.it.isEmpty then st else bulkRanges ranges st

/-- The bulk path of `filterMarksUsingIndex`. -/
def filterMarksInBulk {Granule : Type} (read : ℕ → Granule) (accept : Granule → Bool) (ranges : MarkRanges) : MarkRanges :=
  let granules := ranges.flatMap fun range => (range.indexMarks skipIndexGranularity).map read
  let filteredGranules := getPossibleGranules accept granules
  if filteredGranules.isEmpty then []
  else (bulkRanges minMarksForSeek skipIndexGranularity ranges { it := filteredGranules }).res

end Bulk

/-- A skip index whose condition accepts these granules and reports on no atom. -/
def plainIndex {Granule : Type} (skipIndexGranularity : ℕ) (read : ℕ → Granule) (accept : Granule → Bool) : SkipIndex :=
  ⟨true, skipIndexGranularity, .granules Granule read fun granule => ([], accept granule)⟩

end MergeTree
