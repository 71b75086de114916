import MergeTree.Lib.ComparisonSort
import MergeTree.Lib.SizeT
import MergeTree.Spec.Messages

/-!
# Ranges of marks

What ranges of marks cover, and how the ranges to read are collected: a range next to the
last one, or close to it, extends it.
-/

namespace MergeTree

/-- A range after the ranges found so far: it extends the last one if the gap is at most
`min_marks_for_seek`. -/
def MarkRanges.pushRange (minMarksForSeek : ℕ) (res : MarkRanges) (dataRange : MarkRange) : MarkRanges :=
  match res.getLast? with
  | none => [dataRange]
  | some back =>
    if minMarksForSeek < subSize dataRange.beginMark back.endMark then res ++ [dataRange]
    else res.dropLast ++ [⟨back.beginMark, dataRange.endMark⟩]

/-- `toString`, for messages. -/
def MarkRanges.toString (ranges : MarkRanges) : String :=
  ranges.foldl (fun result range => (if result = "" then result else result ++ ", ") ++
    "(" ++ ToString.toString range.beginMark ++ ", " ++ ToString.toString range.endMark ++ ")") ""

/-- `assertSortedAndNonIntersecting`. The sort throws on the first comparison of different ranges that intersect. -/
def assertSortedAndNonIntersecting (std : ComparisonSort) (ranges : MarkRanges) : Except String Unit := do
  let rangesCopy ← std.sort MarkRange.less ranges
  if rangesCopy ≠ ranges then
    throw ("Expected sorted and non intersecting ranges. Ranges: " ++ ranges.toString)

/-- The marks of a range. -/
def MarkRange.marks (range : MarkRange) : List ℕ := List.range' range.beginMark (range.endMark - range.beginMark)

/-- The marks of ranges, in order. -/
def MarkRanges.marks (ranges : MarkRanges) : List ℕ :=
  ranges.flatMap fun range => List.range' range.beginMark (range.endMark - range.beginMark)

/-- The mark is in one of the ranges. -/
def MarkRanges.Covers (ranges : MarkRanges) (mark : ℕ) : Prop :=
  ∃ range ∈ ranges, range.beginMark ≤ mark ∧ mark < range.endMark

/-- The ranges are in order and do not overlap. -/
structure MarkRanges.SortedDisjoint (ranges : MarkRanges) : Prop where
  begin_le : ∀ range ∈ ranges, range.beginMark ≤ range.endMark
  disjoint : ranges.Pairwise fun r s => r.endMark ≤ s.beginMark

/-- The ranges of a part: not empty, in order and disjoint. -/
structure MarkRanges.Sorted (ranges : MarkRanges) : Prop where
  nonempty : ∀ range ∈ ranges, range.beginMark < range.endMark
  sorted : ranges.Pairwise fun r s => r.endMark ≤ s.beginMark

theorem MarkRange.mem_marks {range : MarkRange} {m : ℕ} : m ∈ range.marks ↔ range.beginMark ≤ m ∧ m < range.endMark := by
  unfold marks
  rw [List.mem_range'_1]
  omega

namespace MarkRanges

variable {ranges : MarkRanges} {mark : ℕ}

theorem mem_marks : mark ∈ ranges.marks ↔ ranges.Covers mark := by
  unfold marks Covers
  rw [List.mem_flatMap]
  refine exists_congr fun range => and_congr_right fun _ => ?_
  rw [List.mem_range'_1]
  omega

theorem covers_append {a b : MarkRanges} {m : ℕ} : MarkRanges.Covers (a ++ b) m ↔ MarkRanges.Covers a m ∨ MarkRanges.Covers b m := by
  simp only [Covers, List.mem_append, or_and_right, exists_or]

theorem covers_singleton {range : MarkRange} {m : ℕ} :
    MarkRanges.Covers [range] m ↔ range.beginMark ≤ m ∧ m < range.endMark := by
  simp only [Covers, List.mem_singleton, exists_eq_left]

theorem SortedDisjoint.pairwise_marks (h : ranges.SortedDisjoint) : ranges.marks.Pairwise (· < ·) := by
  refine List.pairwise_flatMap.2 ⟨fun range _ => List.pairwise_lt_range', ?_⟩
  refine h.disjoint.imp fun {r s} hrs m hm m' hm' => ?_
  rw [List.mem_range'_1] at hm hm'
  omega

end MarkRanges

end MergeTree
