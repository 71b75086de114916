import MergeTree.Spec.PartName

/-!
# Messages of parallel reading

Mark ranges (`MarkRange.h`), descriptions of the ranges of parts (`RangesInDataPart.h`) and
the three messages between the replicas and the initiator (`RequestResponse.h`). Marks,
rows and counters are `size_t` in the source and `ℕ` here.
-/

namespace MergeTree

/-- `MarkRange`: the marks from `beginMark` up to `endMark`, exclusive. -/
structure MarkRange where
  beginMark : ℕ
  endMark : ℕ
deriving DecidableEq, Repr

namespace MarkRange

/-- `getNumberOfMarks`, a difference of two `size_t`. -/
def getNumberOfMarks (r : MarkRange) : ℕ :=
  if r.beginMark ≤ r.endMark then r.endMark - r.beginMark else 2 ^ 64 - (r.beginMark - r.endMark)

/-- `is_intersection` of `operator<`: the beginning of one range lies inside the other. -/
def Intersects (r s : MarkRange) : Prop :=
  (r.beginMark ≤ s.beginMark ∧ s.beginMark < r.endMark) ∨ (s.beginMark ≤ r.beginMark ∧ r.beginMark < s.endMark)

instance (r s : MarkRange) : Decidable (r.Intersects s) := inferInstanceAs (Decidable (_ ∨ _))

/-- `operator<`, which throws on different ranges that intersect. -/
def less (r s : MarkRange) : Except String Bool :=
  if r ≠ s ∧ r.Intersects s then
    .error ("Intersecting mark ranges are not allowed, it is a bug! First range (" ++ toString r.beginMark ++ ", " ++
      toString r.endMark ++ "), second range (" ++ toString s.beginMark ++ ", " ++ toString s.endMark ++ ")")
  else .ok (r.beginMark < s.beginMark ∧ r.endMark ≤ s.beginMark)

end MarkRange

/-- `MarkRanges`. -/
abbrev MarkRanges : Type := List MarkRange

/-- `RangesInDataPartDescription`. -/
structure RangesInDataPartDescription where
  info : PartInfo := {}
  ranges : MarkRanges := []
  rows : ℕ := 0
  projectionName : String := ""
  minMarksPerTask : ℕ := 0
deriving DecidableEq, Repr

def RangesInDataPartDescription.getPartOrProjectionName [IntText] (d : RangesInDataPartDescription) : String :=
  if d.projectionName = "" then d.info.getPartNameV1 else d.info.getPartNameV1 ++ "." ++ d.projectionName

/-- `RangesInDataPartsDescription`. -/
abbrev RangesInDataPartsDescription : Type := List RangesInDataPartDescription

/-- `CoordinationMode`. -/
inductive CoordinationMode
  | default
  | withOrder
  | reverseOrder
deriving DecidableEq, Repr

/-- `ParallelReadRequest`. -/
structure ParallelReadRequest where
  mode : CoordinationMode
  replicaNum : ℕ
  minMarksPerRequest : ℕ
  description : RangesInDataPartsDescription
  streamId : String
deriving DecidableEq, Repr

/-- `ParallelReadResponse`. -/
structure ParallelReadResponse where
  finish : Bool := false
  description : RangesInDataPartsDescription := []
  streamId : String := ""
deriving DecidableEq, Repr

/-- `InitialAllRangesAnnouncement`. -/
structure InitialAllRangesAnnouncement where
  mode : CoordinationMode
  description : RangesInDataPartsDescription
  replicaNum : ℕ
  markSegmentSize : ℕ
  minMarksPerRequest : ℕ
  streamId : String
deriving DecidableEq, Repr

end MergeTree
