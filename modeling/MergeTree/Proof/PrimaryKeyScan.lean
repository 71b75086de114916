import MergeTree.Proof.BinarySearch
import MergeTree.Proof.KeyCondition
import MergeTree.Spec.PrimaryKeyScan

/-!
# No matching row is skipped

The fields of the index at the ends of a range of marks are bounds of the keys of its rows
(`index_bounds`). So every range around a row that may match can be true, and both searches
keep its mark, though no test is asked to be monotone (`markRangesFromPKRange_keepsRows`).
-/

namespace MergeTree

variable {F D : Type} [LinearOrder F] [BoundedOrder F]

/-! ## Bounds of keys -/

omit [BoundedOrder F] in
theorem LexLe.of_first {n k : ℕ} {a b a' b' : ℕ → F} (h : LexLe 0 n a b) (heq : ∀ i < k, a' i = a i ∧ b' i = b i)
    (hle : ∀ i, k ≤ i → a' i ≤ b' i) : LexLe 0 n a' b' := by
  intro j h0 hj hbefore
  rcases Nat.lt_or_ge j k with hjk | hkj
  · rw [(heq j hjk).1, (heq j hjk).2]
    refine h j h0 hj fun i hi hij => ?_
    rw [← (heq i (hij.trans hjk)).1, ← (heq i (hij.trans hjk)).2]
    exact hbefore i hi hij
  · exact hle j hkj

namespace PrimaryKeyScan

variable {scan : PrimaryKeyScan F D} {inSet : SetIndex F D → (ℕ → F) → Prop} {rows : ℕ → ℕ → F} {ranges : MarkRanges}
  {range : MarkRange} {mark row : ℕ}

/-! ## Rows and marks -/

omit [LinearOrder F] [BoundedOrder F] in
theorem markStartingRow_mono (scan : PrimaryKeyScan F D) {a b : ℕ} (h : a ≤ b) : scan.markStartingRow a ≤ scan.markStartingRow b :=
  (List.take_sublist_take_left h).sum_le_sum fun _ _ => Nat.zero_le _

omit [LinearOrder F] [BoundedOrder F] in
theorem markStartingRow_le (scan : PrimaryKeyScan F D) (mark : ℕ) : scan.markStartingRow mark ≤ scan.markRows.sum :=
  (List.take_sublist mark scan.markRows).sum_le_sum fun _ _ => Nat.zero_le _

omit [LinearOrder F] [BoundedOrder F] in
theorem InMark.bounds (h : scan.InMark mark row) (hmark : mark ∈ range.marks) :
    scan.markStartingRow range.beginMark ≤ row ∧ row < scan.markStartingRow range.endMark ∧ row < scan.markRows.sum := by
  obtain ⟨hbegin, hend⟩ := MarkRange.mem_marks.1 hmark
  have hfirst := scan.markStartingRow_mono hbegin
  have hlast := scan.markStartingRow_mono (show mark + 1 ≤ range.endMark from hend)
  have hsum := scan.markStartingRow_le range.endMark
  obtain ⟨hle, hlt⟩ := h
  omega

/-! ## The index -/

/-- The bounds of the columns in memory are fields of rows, the other columns have none. -/
theorem indexBounds_eq (h : scan.Indexed inSet rows ranges) (hlt : range.beginMark < range.endMark)
    (hcount : range.endMark ≤ scan.marksCount) (i : ℕ) :
    let first := rows (scan.indexRow range.beginMark) i
    let last := if range.endMark = scan.marksCount then ⊤ else rows (scan.indexRow range.endMark) i
    (i < scan.index.length → scan.indexBounds range i = if scan.reverseFlags.getD i false then (last, first) else (first, last)) ∧
      (scan.index.length ≤ i → scan.indexBounds range i = (⊥, ⊤)) := by
  unfold indexBounds
  constructor
  · intro hi
    have hfields := List.getElem?_eq_getElem hi
    simp only [hfields, h.index i _ hfields range.beginMark (by omega)]
    by_cases hend : range.endMark = scan.marksCount
    · simp only [hend, if_true]
    · simp only [hend, if_false, h.index i _ hfields range.endMark (by omega)]
  · intro hi
    rw [List.getElem?_eq_none hi]

/-- The fields of the index at the ends of a range are bounds of the keys of its rows. -/
theorem index_bounds (h : scan.Indexed inSet rows ranges) {partRange : MarkRange} (hpart : partRange ∈ ranges)
    (hend : range.endMark ≤ partRange.endMark) (hmark : mark ∈ range.marks) (hrow : scan.InMark mark row) :
    LexLe 0 scan.usedKeySize (fun i => (scan.indexBounds range i).1) (rows row) ∧
      LexLe 0 scan.usedKeySize (rows row) fun i => (scan.indexBounds range i).2 := by
  obtain ⟨hbegin, hbefore, hlt⟩ := hrow.bounds hmark
  have hmarks := MarkRange.mem_marks.1 hmark
  have hfirst : scan.indexRow range.beginMark ≤ row := (min_le_left _ _).trans hbegin
  have hnext : row ≤ scan.indexRow range.endMark := le_min hbefore.le (Nat.le_sub_one_of_lt hlt)
  have hbefore : scan.indexRow range.endMark < scan.markRows.sum := (min_le_right _ _).trans_lt (Nat.sub_one_lt_of_lt hlt)
  have hbounds := indexBounds_eq h (by omega) (hend.trans (h.inPart partRange hpart))
  have hbot : ∀ i, scan.index.length ≤ i → (scan.indexBounds range i).1 ≤ rows row i := fun i hi => by
    rw [(hbounds i).2 hi]
    exact bot_le
  have htop : ∀ i, scan.index.length ≤ i → rows row i ≤ (scan.indexBounds range i).2 := fun i hi => by
    rw [(hbounds i).2 hi]
    exact le_top
  rcases h.ordered with ⟨hforward, hsorted⟩ | ⟨hbackward, hfinal, hsorted⟩
  · refine ⟨(hsorted _ _ hfirst hlt).of_first (fun i hi => ⟨?_, rfl⟩) hbot, ?_⟩
    · simp only [(hbounds i).1 hi, hforward i hi, Bool.false_eq_true, if_false]
    by_cases hlast : range.endMark = scan.marksCount
    · refine fun i _ _ _ => (Nat.lt_or_ge i scan.index.length).elim (fun hi => ?_) (htop i)
      simp only [(hbounds i).1 hi, hforward i hi, hlast, Bool.false_eq_true, if_true, if_false, le_top]
    · refine LexLe.of_first (hsorted _ _ hnext hbefore) (fun i hi => ⟨rfl, ?_⟩) htop
      simp only [(hbounds i).1 hi, hforward i hi, hlast, Bool.false_eq_true, if_false]
  · have hlast : range.endMark ≠ scan.marksCount := (hend.trans_lt (hfinal partRange hpart)).ne
    refine ⟨LexLe.of_first (hsorted _ _ hnext hbefore) (fun i hi => ⟨?_, rfl⟩) hbot,
      (hsorted _ _ hfirst hlt).of_first (fun i hi => ⟨rfl, ?_⟩) htop⟩
    · simp only [(hbounds i).1 hi, hbackward i hi, hlast, if_true, if_false]
    · simp only [(hbounds i).1 hi, hbackward i hi, if_true]

/-! ## The test of a range -/

/-- **A test of a range can be true if one of its rows may match.** It never throws. -/
theorem exists_checkInRange (h : scan.Indexed inSet rows ranges) (range : MarkRange) (initialMask : BoolMask) :
    ∃ mask, scan.checkInRange range initialMask = .ok mask ∧
      ∀ partRange ∈ ranges, range.endMark ≤ partRange.endMark → ∀ mark ∈ range.marks, ∀ row, scan.InMark mark row →
        (∀ condition ∈ scan.keyCondition, condition.MayBe (scan.meaning inSet) (rows row) true) → mask.canBeTrue = true := by
  unfold checkInRange
  cases hcondition : scan.keyCondition with
  | none => exact ⟨_, rfl, fun _ _ _ _ _ _ _ _ => rfl⟩
  | some condition =>
    obtain ⟨hwell, hsingle, hnan⟩ := h.condition condition hcondition
    have hcheck : ∀ row < scan.markRows.sum, _ := fun row hrow => KeyCondition.exists_checkInRange_keys h.sound hwell hsingle
      (h.keys row hrow) (fun column => (scan.indexBounds range column).1) (fun column => (scan.indexBounds range column).2) initialMask
    obtain ⟨mask, hmask, -⟩ := hcheck 0 h.rows_pos
    have hrun : scan.checkKeyCondition condition range initialMask = .ok mask := hmask
    dsimp only
    rw [hrun]
    refine ⟨_, rfl, fun partRange hpart hend mark hmark row hrow hmay => ?_⟩
    have hlt := (hrow.bounds hmark).2.2
    -- the mask is the same for every row
    obtain ⟨mask', hmask', hcovers⟩ := hcheck row hlt
    obtain rfl := Except.ok.inj (hmask.symm.trans hmask')
    obtain ⟨hleft, hright⟩ := index_bounds h hpart hend hmark hrow
    exact (hcovers (hnan row hlt) hleft hright).true_of_mem (hmay condition rfl)

/-! ## The searches -/

/-- **Every row that may match is in a mark that is selected**, whatever the search, and no test throws. -/
theorem markRangesFromPKRange_keepsRows (h : scan.Indexed inSet rows ranges) (hcoarse : 2 ≤ scan.coarseIndexGranularity)
    (hranges : ranges.Sorted) (hcount : scan.marksCount < 2 ^ 64) (findExactRanges : Bool) :
    ∃ test, scan.Answers test ∧ ∃ (res : MarkRanges) (exactRanges : Option MarkRanges) (enough : ℕ),
      (∀ steps, enough ≤ steps → scan.markRangesFromPKRange test steps ranges findExactRanges = .ok (some (res, exactRanges))) ∧
      ∀ mark row, ranges.Covers mark → scan.InMark mark row →
        (∀ condition ∈ scan.keyCondition, condition.MayBe (scan.meaning inSet) (rows row) true) → res.Covers mark := by
  choose test hanswers htrue using exists_checkInRange h
  refine ⟨test, hanswers, ?_⟩
  unfold markRangesFromPKRange
  by_cases hmarks : scan.marksCount = 0
  · refine ⟨[], none, 0, fun _ _ => if_pos hmarks, fun mark row hcovers => ?_⟩
    obtain ⟨range, hrange, hmark⟩ := hcovers
    have hend := h.inPart range hrange
    omega
  simp only [if_neg hmarks]
  split
  · exact ⟨ranges, none, 0, fun _ _ => rfl, fun mark _ hcovers _ _ => hcovers⟩
  split
  · obtain ⟨s, hrun, hres⟩ := BinarySearch.exists_markRanges_release test (findExactRanges && !scan.isRelaxed) ranges
    refine ⟨s.1, s.2, 0, fun _ _ => by rw [hrun]; rfl, fun mark row hcovers hrow hmay => ?_⟩
    obtain ⟨partRange, hpart, hbegin, hend⟩ := hcovers
    obtain ⟨hle, hlt⟩ := BinarySearch.resultRange_of_around hbegin hend fun around haround hle =>
      htrue around _ partRange hpart hle mark haround row hrow hmay
    refine ⟨BinarySearch.resultRange test partRange, ?_, hle, hlt⟩
    rw [hres]
    refine List.mem_flatMap.2 ⟨partRange, hpart, ?_⟩
    unfold BinarySearch.found
    rw [if_pos (hle.trans_lt hlt)]
    exact List.mem_cons_self
  · obtain ⟨res, exactRanges, hrun, hres, -⟩ := ExclusionSearch.markRanges_spec scan.minMarksForSeek hcoarse
      hranges (fun range hrange => (h.inPart range hrange).trans_lt hcount)
      (rfl : ExclusionSearch.testRange test (findExactRanges && !scan.isRelaxed) = _)
    refine ⟨res, _, _, hrun, fun mark row hcovers hrow hmay => ?_⟩
    obtain ⟨partRange, hpart, hmark⟩ := hcovers
    refine (hres.covers mark).2 (.inl (ExclusionSearch.mem_foundAll.2 ⟨partRange, hpart, MarkRange.mem_marks.2 hmark, ?_⟩))
    exact ExclusionSearch.reached_of_around hcoarse
      (fun around haround hle => htrue around _ partRange hpart hle mark haround row hrow hmay) (MarkRange.mem_marks.2 hmark) le_rfl

/-! ## An instance -/

/-- Four marks of two rows; the key of a row is its number and 0. -/
def eightRows : PrimaryKeyScan IntField Unit where
  env := integerKeys.env
  markRows := [2, 2, 2, 2]
  index := [fun mark => intField (2 * mark), fun _ => intField 0]
  usedKeySize := 2
  keyTypes := integerKeys.dataTypes
  keyCondition := some negatedAndNotNull

theorem eightRows_indexed : eightRows.Indexed integerKeys.inSet (fun row => intPair row 0) [⟨0, 4⟩] where
  rows_pos := by decide
  index := by
    intro i fields hi mark hmark
    have hmark : mark < 4 := hmark
    match i, hi with
    | 0, hi =>
      cases hi
      interval_cases mark <;> rfl
    | 1, hi =>
      cases hi
      rfl
  ordered := by
    refine .inl ⟨by decide, fun r r' hle _ j _ _ _ => ?_⟩
    unfold intPair
    split
    · exact WithBot.coe_le_coe.2 (WithTop.coe_le_coe.2 (Int.ofNat_le.2 hle))
    · exact le_rfl
  inPart := by decide
  sound := integerKeys_sound
  keys := by
    intro row _ i hi
    have hi : i < 2 := hi
    interval_cases i <;> exact ⟨nofun, nofun⟩
  condition := by
    rintro condition ⟨⟩
    exact ⟨negatedAndNotNull_wellFormed, rfl, fun _ _ _ _ _ _ => rfl⟩

/-- Row 5 is in mark 2. -/
theorem markRangesFromPKRange_keepsRows_fifth : ∃ test, eightRows.Answers test ∧ ∃ (res : MarkRanges) (exactRanges : Option MarkRanges)
    (enough : ℕ), (∀ steps, enough ≤ steps → eightRows.markRangesFromPKRange test steps [⟨0, 4⟩] false = .ok (some (res, exactRanges))) ∧
      res.Covers 2 := by
  obtain ⟨test, hanswers, res, exactRanges, enough, hrun, hkeeps⟩ := markRangesFromPKRange_keepsRows eightRows_indexed (by decide)
    ⟨by decide, List.pairwise_singleton _ _⟩ (by decide) false
  refine ⟨test, hanswers, res, exactRanges, enough, hrun, hkeeps 2 5 ⟨_, List.mem_cons_self, by decide⟩ (And.intro (by decide) (by decide)) ?_⟩
  rintro condition ⟨⟩
  refine ⟨_, rfl, true, ⟨fun _ => ⟨1, rfl, nofun⟩, fun _ _ => rfl⟩, true, ⟨fun _ => ?_, fun _ _ => rfl⟩, rfl⟩
  exact ⟨0, _, rfl, rfl, nofun, rfl, (Range.contains_value (by nofun)).2 (by decide)⟩

end PrimaryKeyScan

end MergeTree
