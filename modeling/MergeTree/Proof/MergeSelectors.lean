import MergeTree.Lib.Lists
import MergeTree.Spec.MergeSelectors

/-!
# Merge selectors return legal merges

What a selector takes is disjoint from what it took before, since it is added to the set of
disjoint ranges (`selectRanges_spec`). The simple selector sums up a slice while it grows and
subtracts what it trims, so the sums it checks are those of the slice (`candidates_scored`); a TTL
selector pays for every part from one budget (`rangeAround_spec`).
-/

namespace MergeTree

variable {partsRanges : List (List SelectorPart)}
variable {constraint : MergeConstraint} {rangeFilter : RangeFilter}

/-! ## One slice for each constraint -/

theorem of_addRangeIfPossible {disjoint disjoint' : DisjointPartsRangesSet} {slice : PartsSlice}
    (h : disjoint.addRangeIfPossible slice = some disjoint') :
    (∀ a ∈ disjoint slice.rangeIt, slice.bounds.Disjoint a) ∧
      ∀ rangeIt a, a ∈ disjoint' rangeIt ↔ (rangeIt = slice.rangeIt ∧ a = slice.bounds) ∨ a ∈ disjoint rangeIt := by
  obtain ⟨intervals, hadd, rfl⟩ := Option.map_eq_some_iff.1 h
  obtain ⟨hdisjoint, hmem⟩ := DisjointIntervals.mem_of_addIfPossible hadd
  refine ⟨hdisjoint, fun rangeIt a => ?_⟩
  by_cases hrange : rangeIt = slice.rangeIt
  · subst hrange
    rw [Function.update_self, hmem]
    simp
  · rw [Function.update_of_ne hrange]
    simp [hrange]

section Select

variable {C : Type} {buildRange : C → MergeConstraint → DisjointPartsRangesSet → Option (PartsSlice × DisjointPartsRangesSet)}

theorem exists_of_buildMergeRange {disjoint disjoint' : DisjointPartsRangesSet} {slice : PartsSlice} {rest : List C} :
    ∀ {candidates : List C}, buildMergeRange buildRange constraint candidates disjoint = some (slice, rest, disjoint') →
      ∃ candidate ∈ candidates, buildRange candidate constraint disjoint = some (slice, disjoint') ∧ rest ⊆ candidates := by
  intro candidates
  induction candidates with
  | nil => exact fun h => nomatch h
  | cons candidate candidates ih =>
    intro h
    rw [buildMergeRange] at h
    split at h
    · next hbuilt =>
      cases h
      exact ⟨candidate, List.mem_cons_self, hbuilt, List.subset_cons_self _ _⟩
    · obtain ⟨candidate', hmem, hbuilt, hsubset⟩ := ih h
      exact ⟨candidate', List.mem_cons_of_mem _ hmem, hbuilt, fun c hc => List.mem_cons_of_mem _ (hsubset hc)⟩

/-- **What is selected is disjoint**, and each slice is what the build of a candidate promises. -/
theorem selectRanges_spec {P : PartsSlice → MergeConstraint → Prop} : ∀ {constraints : List MergeConstraint} {candidates : List C}
    {disjoint : DisjointPartsRangesSet},
    (∀ candidate ∈ candidates, ∀ constraint ∈ constraints, ∀ disjoint slice disjoint',
      buildRange candidate constraint disjoint = some (slice, disjoint') →
        P slice constraint ∧ disjoint.addRangeIfPossible slice = some disjoint') →
    (selectRanges buildRange constraints candidates disjoint).Pairwise PartsSlice.Disjoint ∧
      (∀ slice ∈ selectRanges buildRange constraints candidates disjoint, ∀ a ∈ disjoint slice.rangeIt, slice.bounds.Disjoint a) ∧
      List.Forall₂ P (selectRanges buildRange constraints candidates disjoint)
        (constraints.take (selectRanges buildRange constraints candidates disjoint).length) := by
  intro constraints
  induction constraints with
  | nil => exact fun _ => ⟨List.Pairwise.nil, List.forall_mem_nil _, List.Forall₂.nil⟩
  | cons constraint constraints ih =>
    intro candidates disjoint hbuild
    rw [selectRanges]
    split
    · next slice rest disjoint' hbuilt =>
      obtain ⟨candidate, hcandidate, hrange, hsubset⟩ := exists_of_buildMergeRange hbuilt
      obtain ⟨hP, hadd⟩ := hbuild candidate hcandidate constraint List.mem_cons_self _ _ _ hrange
      obtain ⟨hdisjoint, hmem⟩ := of_addRangeIfPossible hadd
      obtain ⟨hpairwise, hfresh, hforall⟩ := @ih rest disjoint'
        fun c hc constraint' hconstraint => hbuild c (hsubset hc) constraint' (List.mem_cons_of_mem _ hconstraint)
      refine ⟨List.pairwise_cons.2 ⟨fun later hlater hrange => ?_, hpairwise⟩, ?_, ?_⟩
      · exact (hfresh later hlater slice.bounds ((hmem _ _).2 (.inl ⟨hrange.symm, rfl⟩))).symm
      · rintro later hlater a ha
        rcases List.mem_cons.1 hlater with rfl | hlater
        · exact hdisjoint a ha
        · exact hfresh later hlater a ((hmem _ _).2 (.inr ha))
      · rw [List.length_cons, List.take_succ_cons]
        exact List.Forall₂.cons hP hforall
    · exact ⟨List.Pairwise.nil, List.forall_mem_nil _, List.Forall₂.nil⟩

end Select

/-! ## Sums over slices -/

namespace SelectorPart

@[simp] theorem totalSize_append (a b : List SelectorPart) : totalSize (a ++ b) = totalSize a + totalSize b := by
  simp [totalSize]

@[simp] theorem totalRows_append (a b : List SelectorPart) : totalRows (a ++ b) = totalRows a + totalRows b := by
  simp [totalRows]

end SelectorPart

/-- A sum is kept by a `size_t` up to a multiple of `2 ^ 64`. -/
def SizeIs (computed total : ℕ) : Prop := computed % 2 ^ 64 = total % 2 ^ 64

theorem SizeIs.add {computed total : ℕ} (h : SizeIs computed total) (n : ℕ) : SizeIs (addSize computed n) (total + n) := by
  unfold SizeIs addSize at *
  omega

theorem SizeIs.addSize_eq {computed total : ℕ} (h : SizeIs computed total) (n : ℕ) : addSize computed n = (total + n) % 2 ^ 64 := by
  unfold SizeIs addSize at *
  omega

theorem SizeIs.sub {computed removed kept total : ℕ} (h : SizeIs computed (kept + total)) (hremoved : SizeIs removed total) :
    subSize computed removed = kept % 2 ^ 64 := by
  unfold SizeIs subSize at *
  omega

/-! ## The simple selector -/

namespace SimpleMergeSelector

variable {settings : Settings} {estimates : Estimates} {parts : List SelectorPart}

theorem removeSmallParts_spec (sumSize rangeBegin : ℕ) : ∀ {rangeEnd sizeDelta rowsDelta : ℕ} {removed : List SelectorPart},
    SizeIs sizeDelta (SelectorPart.totalSize removed) → SizeIs rowsDelta (SelectorPart.totalRows removed) →
    rangeBegin ≤ rangeEnd → ∃ removed',
      parts.extract rangeBegin (removeSmallParts estimates parts sumSize rangeBegin rangeEnd sizeDelta rowsDelta).1 ++ removed' =
        parts.extract rangeBegin rangeEnd ++ removed ∧
      (removeSmallParts estimates parts sumSize rangeBegin rangeEnd sizeDelta rowsDelta).1 ≤ rangeEnd ∧
      SizeIs (removeSmallParts estimates parts sumSize rangeBegin rangeEnd sizeDelta rowsDelta).2.1 (SelectorPart.totalSize removed') ∧
      SizeIs (removeSmallParts estimates parts sumSize rangeBegin rangeEnd sizeDelta rowsDelta).2.2 (SelectorPart.totalRows removed') := by
  intro rangeEnd
  induction rangeEnd with
  | zero => exact fun {_ _ removed} hsize hrows _ => ⟨removed, rfl, le_rfl, hsize, hrows⟩
  | succ last ih =>
    intro sizeDelta rowsDelta removed hsize hrows hle
    rw [removeSmallParts]
    split
    · next part hpart =>
      split
      · next hsmall =>
        have hlast : rangeBegin ≤ last := by
          have hthree := hsmall.1
          omega
        have hsize' : SizeIs (addSize sizeDelta part.size) (SelectorPart.totalSize (part :: removed)) := by
          have hadd := hsize.add part.size
          rwa [Nat.add_comm] at hadd
        have hrows' : SizeIs (addSize rowsDelta part.rows) (SelectorPart.totalRows (part :: removed)) := by
          have hadd := hrows.add part.rows
          rwa [Nat.add_comm] at hadd
        obtain ⟨removed', hparts, hend, hspec⟩ := ih hsize' hrows' hlast
        refine ⟨removed', ?_, hend.trans (Nat.le_succ last), hspec⟩
        rw [hparts, extract_succ hpart hlast, List.append_assoc]
        rfl
      · exact ⟨removed, rfl, le_rfl, hsize, hrows⟩
    · exact ⟨removed, rfl, le_rfl, hsize, hrows⟩

/-- What the selector knows of a slice that it scores. -/
structure IsScored (constraint : MergeConstraint) (maxParts : ℕ) (parts : List SelectorPart) (candidate : ScoredRange) : Prop where
  two_le : candidate.slice.bounds.left + 2 ≤ candidate.slice.bounds.right
  le_length : candidate.slice.bounds.right ≤ parts.length
  few : maxParts ≠ 0 → candidate.slice.count ≤ maxParts
  bytes : candidate.bytes = SelectorPart.totalSize (parts.extract candidate.slice.bounds.left candidate.slice.bounds.right) % 2 ^ 64
  rows : candidate.rows = SelectorPart.totalRows (parts.extract candidate.slice.bounds.left candidate.slice.bounds.right) % 2 ^ 64
  grown : ∃ rangeEnd, candidate.slice.bounds.right ≤ rangeEnd ∧ rangeEnd ≤ parts.length ∧
    SelectorPart.totalSize (parts.extract candidate.slice.bounds.left rangeEnd) % 2 ^ 64 ≤ constraint.maxSizeBytes ∧
    SelectorPart.totalRows (parts.extract candidate.slice.bounds.left rangeEnd) % 2 ^ 64 ≤ constraint.maxSizeRows

/-- **A trimmed slice keeps its sums right.** -/
theorem isScored_consider {maxParts rangeIt rangeBegin rangeEnd sumSize sumRows : ℕ} (h : rangeBegin + 2 ≤ rangeEnd)
    (hlength : rangeEnd ≤ parts.length) (hfew : maxParts ≠ 0 → rangeEnd - rangeBegin ≤ maxParts)
    (hsize : sumSize = SelectorPart.totalSize (parts.extract rangeBegin rangeEnd) % 2 ^ 64)
    (hrows : sumRows = SelectorPart.totalRows (parts.extract rangeBegin rangeEnd) % 2 ^ 64)
    (hbytes : ¬constraint.maxSizeBytes < sumSize) (hmaxRows : ¬constraint.maxSizeRows < sumRows) :
    IsScored constraint maxParts parts (consider settings estimates rangeIt parts rangeBegin rangeEnd sumSize sumRows h) := by
  have htwo : rangeBegin + 2 ≤ (considered settings estimates parts rangeBegin rangeEnd sumSize sumRows).1 := le_considered settings estimates sumSize sumRows h
  have hspec : (considered settings estimates parts rangeBegin rangeEnd sumSize sumRows).1 ≤ rangeEnd ∧
      (considered settings estimates parts rangeBegin rangeEnd sumSize sumRows).2.1 =
        SelectorPart.totalSize (parts.extract rangeBegin (considered settings estimates parts rangeBegin rangeEnd sumSize sumRows).1) % 2 ^ 64 ∧
      (considered settings estimates parts rangeBegin rangeEnd sumSize sumRows).2.2 =
        SelectorPart.totalRows (parts.extract rangeBegin (considered settings estimates parts rangeBegin rangeEnd sumSize sumRows).1) % 2 ^ 64 := by
    unfold considered
    split
    · obtain ⟨removed, hparts, hend, hsizes, hrowss⟩ := @removeSmallParts_spec estimates parts sumSize rangeBegin
        rangeEnd 0 0 [] rfl rfl (by omega)
      rw [List.append_nil] at hparts
      refine ⟨hend, SizeIs.sub ?_ hsizes, SizeIs.sub ?_ hrowss⟩
      · rw [← SelectorPart.totalSize_append, hparts, hsize]
        exact Nat.mod_mod _ _
      · rw [← SelectorPart.totalRows_append, hparts, hrows]
        exact Nat.mod_mod _ _
    · exact ⟨le_rfl, hsize, hrows⟩
  exact
    { two_le := htwo
      le_length := hspec.1.trans hlength
      few := fun hne => (Nat.sub_le_sub_right hspec.1 _).trans (hfew hne)
      bytes := hspec.2.1
      rows := hspec.2.2
      grown := ⟨rangeEnd, hspec.1, hlength, hsize ▸ not_lt.1 hbytes, hrows ▸ not_lt.1 hmaxRows⟩ }

theorem sums_extract_succ {rangeBegin count sumSize sumRows : ℕ} {part : SelectorPart} (hpart : parts[rangeBegin + count + 1]? = some part)
    (hsize : SizeIs sumSize (SelectorPart.totalSize (parts.extract rangeBegin (rangeBegin + count + 1))))
    (hrows : SizeIs sumRows (SelectorPart.totalRows (parts.extract rangeBegin (rangeBegin + count + 1)))) :
    addSize sumSize part.size = SelectorPart.totalSize (parts.extract rangeBegin (rangeBegin + count + 2)) % 2 ^ 64 ∧
      addSize sumRows part.rows = SelectorPart.totalRows (parts.extract rangeBegin (rangeBegin + count + 2)) % 2 ^ 64 := by
  have hextract := extract_succ hpart (show rangeBegin ≤ rangeBegin + count + 1 by omega)
  rw [show rangeBegin + count + 2 = rangeBegin + count + 1 + 1 from rfl, hextract, SelectorPart.totalSize_append,
    SelectorPart.totalRows_append]
  exact ⟨hsize.addSize_eq part.size, hrows.addSize_eq part.rows⟩

theorem growRange_scored {maxParts rangeIt rangeBegin : ℕ} :
    ∀ {rest : List SelectorPart} {count sumSize sumRows minAge : ℕ}, parts.drop (rangeBegin + count + 1) = rest →
      rangeBegin + count + 1 ≤ parts.length →
      SizeIs sumSize (SelectorPart.totalSize (parts.extract rangeBegin (rangeBegin + count + 1))) →
      SizeIs sumRows (SelectorPart.totalRows (parts.extract rangeBegin (rangeBegin + count + 1))) →
      ∀ candidate ∈ growRange settings estimates constraint rangeFilter maxParts rangeIt parts rangeBegin rest count sumSize sumRows minAge,
        IsScored constraint maxParts parts candidate ∧ candidate.slice.rangeIt = rangeIt := by
  intro rest
  induction rest with
  | nil =>
    intro count sumSize sumRows minAge _ _ _ _ candidate hcandidate
    exact absurd hcandidate (List.not_mem_nil)
  | cons part rest ih =>
    intro count sumSize sumRows minAge hrest hle hsize hrows candidate hcandidate
    have hpart : parts[rangeBegin + count + 1]? = some part := getElem?_of_drop hrest
    have hlt : rangeBegin + count + 1 < parts.length := (List.getElem?_eq_some_iff.1 hpart).1
    obtain ⟨hsize', hrows'⟩ := sums_extract_succ hpart hsize hrows
    have hlonger := @ih (count + 1) (addSize sumSize part.size) (addSize sumRows part.rows) (min minAge part.age)
      (by
        rw [show rangeBegin + (count + 1) + 1 = rangeBegin + count + 1 + 1 from rfl, ← List.tail_drop, hrest]
        rfl)
      (by omega) (by rw [hsize']; exact Nat.mod_mod _ _) (by rw [hrows']; exact Nat.mod_mod _ _)
    rw [growRange] at hcandidate
    split at hcandidate
    · exact absurd hcandidate List.not_mem_nil
    · next hmax =>
      dsimp only at hcandidate
      split at hcandidate
      · exact absurd hcandidate List.not_mem_nil
      · next hbytes =>
        split at hcandidate
        · exact absurd hcandidate List.not_mem_nil
        · next hmaxRows =>
          split at hcandidate
          · rcases List.mem_cons.1 hcandidate with rfl | hcandidate
            · exact ⟨isScored_consider (by omega) hlt (fun hne => by omega) hsize' hrows' hbytes hmaxRows, rfl⟩
            · exact hlonger candidate hcandidate
          · exact hlonger candidate hcandidate

theorem selectWithinPartsRange_scored {rangeIt : ℕ} :
    ∀ candidate ∈ selectWithinPartsRange settings estimates constraint rangeFilter rangeIt parts,
      IsScored constraint (maxPartsToMergeAtOnce settings estimates rangeIt) parts candidate ∧ candidate.slice.rangeIt = rangeIt := by
  intro candidate hcandidate
  unfold selectWithinPartsRange at hcandidate
  split at hcandidate
  · exact absurd hcandidate List.not_mem_nil
  · obtain ⟨rangeBegin, -, hcandidate⟩ := List.mem_flatMap.1 hcandidate
    split at hcandidate
    · exact absurd hcandidate List.not_mem_nil
    · next part rest hdrop =>
      have hpart := getElem?_of_drop hdrop
      have hone : parts.extract rangeBegin (rangeBegin + 0 + 1) = [part] := extract_one hpart
      refine growRange_scored ?_ (List.getElem?_eq_some_iff.1 hpart).1 ?_ ?_ candidate hcandidate
      · rw [Nat.add_zero, ← List.tail_drop, hdrop]
        rfl
      · rw [hone]
        simp [SizeIs, SelectorPart.totalSize]
      · rw [hone]
        simp [SizeIs, SelectorPart.totalRows]

/-- **Every candidate is a slice of an input range with the sums it claims.** -/
theorem candidates_scored :
    ∀ candidate ∈ candidates settings estimates constraint rangeFilter partsRanges,
      IsScored constraint (maxPartsToMergeAtOnce settings estimates candidate.slice.rangeIt) (partsRanges.getD candidate.slice.rangeIt []) candidate := by
  intro candidate hcandidate
  obtain ⟨⟨parts, rangeIt⟩, hrange, hcandidate⟩ := List.mem_flatMap.1 hcandidate
  obtain ⟨hscored, heq⟩ := selectWithinPartsRange_scored candidate hcandidate
  have hparts : partsRanges.getD rangeIt [] = parts := by
    rw [List.getD_eq_getElem?_getD, List.mem_zipIdx_iff_getElem?.1 hrange]
    rfl
  rw [heq, hparts]
  exact hscored

theorem drained_perm (heap : StdHeap) (ranges : List ScoredRange) :
    (heap.drain (rangeCompare estimates) ranges.length ranges).Perm ranges := by
  refine (heap.drain_spec (fun candidate : ScoredRange =>
    toLex (-candidate.score, estimates.address candidate.slice.rangeIt candidate.slice.bounds.left)) ?_).1
  intro a _ b _
  rw [rangeCompare, Bool.eq_iff_iff, decide_eq_true_iff, Prod.Lex.toLex_lt_toLex]
  simp

theorem buildRange_eq_some {candidate : ScoredRange} {disjoint disjoint' : DisjointPartsRangesSet}
    {slice : PartsSlice} (h : buildRange candidate constraint disjoint = some (slice, disjoint')) :
    slice = candidate.slice ∧ candidate.bytes ≤ constraint.maxSizeBytes ∧ candidate.rows ≤ constraint.maxSizeRows ∧
      disjoint.addRangeIfPossible candidate.slice = some disjoint' := by
  unfold buildRange at h
  split at h
  · next hwithin =>
    obtain ⟨added, hadd, heq⟩ := Option.map_eq_some_iff.1 h
    cases heq
    exact ⟨rfl, hwithin.1, hwithin.2, hadd⟩
  · cases h

/-- **What the simple selector selects**: candidates with no part in common, each within its constraint. -/
theorem select_spec (heap : StdHeap) (constraint : MergeConstraint) (constraints : List MergeConstraint) (rangeFilter : RangeFilter) :
    (select settings estimates heap partsRanges constraint constraints rangeFilter).Pairwise PartsSlice.Disjoint ∧
      List.Forall₂ (fun slice within => ∃ candidate ∈ candidates settings estimates constraint rangeFilter partsRanges,
          slice = candidate.slice ∧ candidate.bytes ≤ within.maxSizeBytes ∧ candidate.rows ≤ within.maxSizeRows)
        (select settings estimates heap partsRanges constraint constraints rangeFilter)
        ((constraint :: constraints).take (select settings estimates heap partsRanges constraint constraints rangeFilter).length) := by
  have hspec := @selectRanges_spec ScoredRange buildRange
    (fun slice within => ∃ candidate ∈ candidates settings estimates constraint rangeFilter partsRanges,
      slice = candidate.slice ∧ candidate.bytes ≤ within.maxSizeBytes ∧ candidate.rows ≤ within.maxSizeRows)
    (constraint :: constraints)
    (heap.drain (rangeCompare estimates) (candidates settings estimates constraint rangeFilter partsRanges).length
      (candidates settings estimates constraint rangeFilter partsRanges))
    (fun _ => .empty) fun candidate hcandidate within _ disjoint slice disjoint' hbuilt => by
      obtain ⟨rfl, hbytes, hrows, hadd⟩ := buildRange_eq_some hbuilt
      exact ⟨⟨candidate, (drained_perm heap _).mem_iff.1 hcandidate, rfl, hbytes, hrows⟩, hadd⟩
  exact ⟨hspec.1, hspec.2.2⟩

end SimpleMergeSelector

/-! ## The TTL selectors -/

namespace ITTLMergeSelector

variable {selector : ITTLMergeSelector} {parts : List SelectorPart}

theorem tryInclude_eq_some {part : SelectorPart} {isCovered : Bool} {usable usable' : Usable}
    (h : selector.tryInclude part isCovered usable = some usable') :
    selector.Expired part ∧ usable'.memory + part.size = usable.memory ∧ usable'.rows + part.rows = usable.rows ∧
      usable'.parts + 1 = usable.parts := by
  unfold tryInclude at h
  split at h
  · cases h
  · next hparts =>
    split at h
    · cases h
    · next hconsider =>
      split at h
      · cases h
      · split at h
        · cases h
        · next hinclude =>
          cases h
          simp only [canIncludeToRange, Bool.and_eq_true, decide_eq_true_eq, Bool.not_eq_true', Bool.not_eq_false] at hinclude hconsider
          obtain ⟨⟨⟨hpos, hle⟩, hsize⟩, hrows⟩ := hinclude
          exact ⟨⟨hconsider, hpos.ne', hle⟩, Nat.sub_add_cancel hsize, Nat.sub_add_cancel hrows,
            Nat.sub_add_cancel (Nat.one_le_iff_ne_zero.2 hparts)⟩

theorem findLeftRangeBorder_spec (isCovered : ℕ → Bool) : ∀ (before : List SelectorPart) (usable : Usable),
    (∀ part ∈ before.reverse.drop (selector.findLeftRangeBorder isCovered before usable).1, selector.Expired part) ∧
      (selector.findLeftRangeBorder isCovered before usable).2.memory +
        SelectorPart.totalSize (before.reverse.drop (selector.findLeftRangeBorder isCovered before usable).1) = usable.memory ∧
      (selector.findLeftRangeBorder isCovered before usable).2.rows +
        SelectorPart.totalRows (before.reverse.drop (selector.findLeftRangeBorder isCovered before usable).1) = usable.rows ∧
      (selector.findLeftRangeBorder isCovered before usable).2.parts +
        (before.reverse.drop (selector.findLeftRangeBorder isCovered before usable).1).length = usable.parts := by
  intro before
  induction before with
  | nil => exact fun usable => ⟨List.forall_mem_nil _, rfl, rfl, rfl⟩
  | cons part before ih =>
    intro usable
    rw [findLeftRangeBorder]
    split
    · next usable' hinclude =>
      obtain ⟨hexpired, hmemory, hrows, hparts⟩ := tryInclude_eq_some hinclude
      obtain ⟨hall, hmemory', hrows', hparts'⟩ := ih usable'
      have hle : (selector.findLeftRangeBorder isCovered before usable').1 ≤ before.reverse.length := by
        rw [List.length_reverse]
        exact selector.findLeftRangeBorder_le isCovered before usable'
      rw [List.reverse_cons, List.drop_append_of_le_length hle]
      refine ⟨fun a ha => ?_, ?_, ?_, ?_⟩
      · rcases List.mem_append.1 ha with ha | ha
        · exact hall a ha
        · exact List.mem_singleton.1 ha ▸ hexpired
      · rw [SelectorPart.totalSize_append, ← hmemory, ← hmemory', Nat.add_assoc]
        rfl
      · rw [SelectorPart.totalRows_append, ← hrows, ← hrows', Nat.add_assoc]
        rfl
      · rw [List.length_append, ← hparts, ← hparts', Nat.add_assoc]
        rfl
    · rw [List.drop_of_length_le (by rw [List.length_reverse]; exact le_rfl)]
      exact ⟨List.forall_mem_nil _, rfl, rfl, rfl⟩

theorem findRightRangeBorder_spec (isCovered : ℕ → Bool) : ∀ (after : List SelectorPart) (right : ℕ) (usable : Usable),
    ∃ count ≤ after.length, selector.findRightRangeBorder isCovered after right usable = right + count ∧
      (∀ part ∈ after.take count, selector.Expired part) ∧ SelectorPart.totalSize (after.take count) ≤ usable.memory ∧
      SelectorPart.totalRows (after.take count) ≤ usable.rows ∧ count ≤ usable.parts := by
  intro after
  induction after with
  | nil => exact fun _ _ => ⟨0, le_rfl, rfl, List.forall_mem_nil _, Nat.zero_le _, Nat.zero_le _, Nat.zero_le _⟩
  | cons part after ih =>
    intro right usable
    rw [findRightRangeBorder]
    split
    · next usable' hinclude =>
      obtain ⟨hexpired, hmemory, hrows, hparts⟩ := tryInclude_eq_some hinclude
      obtain ⟨count, hlength, hright, hall, hmemory', hrows', hparts'⟩ := ih (right + 1) usable'
      refine ⟨count + 1, Nat.succ_le_succ hlength, ?_, ?_, ?_, ?_, ?_⟩
      · rw [hright, Nat.add_assoc, Nat.add_comm 1]
      · rw [List.take_succ_cons]
        exact List.forall_mem_cons.2 ⟨hexpired, hall⟩
      · rw [List.take_succ_cons, ← hmemory, Nat.add_comm]
        exact Nat.add_le_add_left hmemory' part.size
      · rw [List.take_succ_cons, ← hrows, Nat.add_comm]
        exact Nat.add_le_add_left hrows' part.rows
      · exact hparts ▸ Nat.succ_le_succ hparts'
    · exact ⟨0, Nat.zero_le _, rfl, List.forall_mem_nil _, Nat.zero_le _, Nat.zero_le _, Nat.zero_le _⟩

/-- What a TTL selector promises of a slice. -/
structure IsTTLSlice (selector : ITTLMergeSelector) (parts : List SelectorPart) (slice : PartsSlice) (constraint : MergeConstraint) : Prop where
  le_length : slice.bounds.right ≤ parts.length
  expired : ∀ part ∈ parts.extract slice.bounds.left slice.bounds.right, selector.Expired part
  size : SelectorPart.totalSize (parts.extract slice.bounds.left slice.bounds.right) ≤ constraint.maxSizeBytes
  rows : SelectorPart.totalRows (parts.extract slice.bounds.left slice.bounds.right) ≤ constraint.maxSizeRows
  few : selector.maxPartsToMergeAtOnce ≠ 0 → slice.count ≤ selector.maxPartsToMergeAtOnce

/-- **The slice around a center stays within the budget.** -/
theorem rangeAround_spec {position : CenterPosition} {part : SelectorPart}
    {disjoint : DisjointPartsRangesSet} (hpart : parts[position.center]? = some part) (hexpired : selector.Expired part)
    (hsize : part.size ≤ constraint.maxSizeBytes) (hrows : part.rows ≤ constraint.maxSizeRows) :
    selector.IsTTLSlice parts (selector.rangeAround parts position part constraint disjoint) constraint := by
  obtain ⟨hlt, -⟩ := List.getElem?_eq_some_iff.1 hpart
  set slice := selector.rangeAround parts position part constraint disjoint with hslice
  obtain ⟨hleft, hmemoryLeft, hrowsLeft, hpartsLeft⟩ := @findLeftRangeBorder_spec selector
    (disjoint.isCovered position.rangeIt) (parts.take position.center).reverse (selector.usableAround part constraint)
  set left := selector.findLeftRangeBorder (disjoint.isCovered position.rangeIt) (parts.take position.center).reverse
    (selector.usableAround part constraint) with hdef
  obtain ⟨count, hcount, hright, hallRight, hmemoryRight, hrowsRight, hpartsRight⟩ := @findRightRangeBorder_spec selector
    (disjoint.isCovered position.rangeIt) (parts.drop (position.center + 1)) (position.center + 1) left.2
  have hbegin : slice.bounds.left = left.1 := rfl
  have hend : slice.bounds.right = position.center + 1 + count := hright
  have hle : left.1 ≤ position.center := by
    have hborder := selector.findLeftRangeBorder_le (disjoint.isCovered position.rangeIt) (parts.take position.center).reverse
      (selector.usableAround part constraint)
    rw [List.length_reverse, List.length_take] at hborder
    exact hborder.trans (min_le_left _ _)
  rw [List.length_drop] at hcount
  rw [List.reverse_reverse] at hleft hmemoryLeft hrowsLeft hpartsLeft
  have hlength : ((parts.take position.center).drop left.1).length = position.center - left.1 := by
    rw [List.length_drop, List.length_take, min_eq_left hlt.le]
  have hsplit : parts.extract slice.bounds.left slice.bounds.right =
      (parts.take position.center).drop left.1 ++ part :: (parts.drop (position.center + 1)).take count := by
    rw [hbegin, hend, ← extract_append_extract parts hle (show position.center ≤ position.center + 1 + count by omega),
      ← extract_append_extract parts (Nat.le_succ position.center) (show position.center + 1 ≤ position.center + 1 + count by omega),
      extract_succ hpart le_rfl, List.extract_eq_take_drop, List.extract_eq_take_drop, List.extract_eq_take_drop, Nat.sub_self,
      Nat.add_sub_cancel_left, List.drop_take]
    rfl
  refine ⟨?_, ?_, ?_, ?_, ?_⟩
  · rw [hend]
    omega
  · rw [hsplit]
    rintro a ha
    rcases List.mem_append.1 ha with ha | ha
    · exact hleft a ha
    · rcases List.mem_cons.1 ha with rfl | ha
      · exact hexpired
      · exact hallRight a ha
  · have hbudget : (selector.usableAround part constraint).memory + part.size = constraint.maxSizeBytes := Nat.sub_add_cancel hsize
    rw [hsplit, SelectorPart.totalSize_append]
    change _ + (part.size + SelectorPart.totalSize _) ≤ _
    omega
  · have hbudget : (selector.usableAround part constraint).rows + part.rows = constraint.maxSizeRows := Nat.sub_add_cancel hrows
    rw [hsplit, SelectorPart.totalRows_append]
    change _ + (part.rows + SelectorPart.totalRows _) ≤ _
    omega
  · intro hne
    have hbudget : (selector.usableAround part constraint).parts = selector.maxPartsToMergeAtOnce - 1 := if_pos hne
    rw [PartsSlice.count, hbegin, hend]
    omega

/-- **A center is an expired part of a partition that is not postponed.** -/
theorem of_mem_findCenters {position : CenterPosition} (h : position ∈ selector.findCenters partsRanges) :
    selector.needToPostponePartition (partitionOf (partsRanges.getD position.rangeIt [])) = false ∧
      ∃ part, (partsRanges.getD position.rangeIt [])[position.center]? = some part ∧ selector.Expired part := by
  obtain ⟨⟨parts, rangeIt⟩, hrange, hposition⟩ := List.mem_flatMap.1 h
  dsimp only at hposition
  split at hposition
  · exact absurd hposition List.not_mem_nil
  · next hpostpone =>
    obtain ⟨⟨part, center⟩, hcenter, hsome⟩ := List.mem_filterMap.1 hposition
    dsimp only at hsome
    split at hsome
    · cases hsome
    · next hconsider =>
      split at hsome
      · cases hsome
      · next httl =>
        cases hsome
        have hparts : partsRanges.getD rangeIt [] = parts := by
          rw [List.getD_eq_getElem?_getD, List.mem_zipIdx_iff_getElem?.1 hrange]
          rfl
        obtain ⟨hne, hle⟩ := not_or.1 httl
        rw [hparts]
        exact ⟨by simpa using hpostpone, part, List.mem_zipIdx_iff_getElem?.1 hcenter, by simpa using hconsider, hne, not_lt.1 hle⟩

theorem drained_perm (heap : StdHeap) (centers : List CenterPosition) :
    (heap.drain rangeCompare centers.length centers).Perm centers := by
  refine (heap.drain_spec (fun center : CenterPosition => -center.ttl) ?_).1
  intro a _ b _
  rw [rangeCompare]
  simp

theorem of_buildRange {position : CenterPosition}
    {disjoint disjoint' : DisjointPartsRangesSet} {slice : PartsSlice} (hposition : position ∈ selector.findCenters partsRanges)
    (h : selector.buildRange partsRanges rangeFilter position constraint disjoint = some (slice, disjoint')) :
    (slice.rangeIt = position.rangeIt ∧ selector.IsTTLSlice (partsRanges.getD slice.rangeIt []) slice constraint ∧
        rangeFilter.accepts (slice.parts partsRanges)) ∧
      disjoint.addRangeIfPossible slice = some disjoint' := by
  obtain ⟨-, part, hpart, hexpired⟩ := of_mem_findCenters hposition
  unfold buildRange at h
  rw [hpart] at h
  dsimp only at h
  split at h
  · cases h
  · next hsize =>
    split at h
    · cases h
    · next hrows =>
      split at h
      · cases h
      · split at h
        · cases h
        · next hfilter =>
          obtain ⟨added, hadd, heq⟩ := Option.map_eq_some_iff.1 h
          cases heq
          exact ⟨⟨rfl, rangeAround_spec hpart hexpired (not_lt.1 hsize) (not_lt.1 hrows), by simpa using hfilter⟩, hadd⟩

/-- **What a TTL selector selects.** -/
theorem select_spec (heap : StdHeap) (constraints : List MergeConstraint) (rangeFilter : RangeFilter) :
    (selector.select heap partsRanges constraints rangeFilter).Pairwise PartsSlice.Disjoint ∧
      List.Forall₂ (fun slice within =>
          selector.needToPostponePartition (partitionOf (partsRanges.getD slice.rangeIt [])) = false ∧
            selector.IsTTLSlice (partsRanges.getD slice.rangeIt []) slice within ∧ rangeFilter.accepts (slice.parts partsRanges))
        (selector.select heap partsRanges constraints rangeFilter)
        (constraints.take (selector.select heap partsRanges constraints rangeFilter).length) := by
  have hspec := @selectRanges_spec CenterPosition (selector.buildRange partsRanges rangeFilter)
    (fun slice within => selector.needToPostponePartition (partitionOf (partsRanges.getD slice.rangeIt [])) = false ∧
      selector.IsTTLSlice (partsRanges.getD slice.rangeIt []) slice within ∧ rangeFilter.accepts (slice.parts partsRanges))
    constraints (heap.drain rangeCompare (selector.findCenters partsRanges).length (selector.findCenters partsRanges))
    (fun _ => .empty) fun center hcenter within _ disjoint slice disjoint' hbuilt => by
      have hposition := (drained_perm heap _).mem_iff.1 hcenter
      obtain ⟨⟨hrange, hslice, haccepts⟩, hadd⟩ := of_buildRange hposition hbuilt
      exact ⟨⟨hrange ▸ (of_mem_findCenters hposition).1, hslice, haccepts⟩, hadd⟩
  exact ⟨hspec.1, hspec.2.2⟩

end ITTLMergeSelector

/-! ## Legal merges -/

theorem totals_lt {parts : List SelectorPart} (h : SelectorPart.totalSize parts < 2 ^ 64 ∧ SelectorPart.totalRows parts < 2 ^ 64)
    (left right : ℕ) : SelectorPart.totalSize (parts.extract left right) < 2 ^ 64 ∧
      SelectorPart.totalRows (parts.extract left right) < 2 ^ 64 := by
  have hsublist : (parts.extract left right).Sublist parts := by
    rw [List.extract_eq_take_drop]
    exact (List.take_sublist _ _).trans (List.drop_sublist _ _)
  exact ⟨(hsublist.map _).sum_le_sum (fun _ _ => Nat.zero_le _) |>.trans_lt h.1,
    (hsublist.map _).sum_le_sum (fun _ _ => Nat.zero_le _) |>.trans_lt h.2⟩

theorem totals_lt_of_getD (h : ∀ parts ∈ partsRanges, SelectorPart.totalSize parts < 2 ^ 64 ∧ SelectorPart.totalRows parts < 2 ^ 64)
    (rangeIt left right : ℕ) : SelectorPart.totalSize ((partsRanges.getD rangeIt []).extract left right) < 2 ^ 64 ∧
      SelectorPart.totalRows ((partsRanges.getD rangeIt []).extract left right) < 2 ^ 64 := by
  refine totals_lt ?_ left right
  rw [List.getD_eq_getElem?_getD]
  cases hparts : partsRanges[rangeIt]? with
  | none => exact ⟨by decide, by decide⟩
  | some parts => exact h parts (List.mem_of_getElem? hparts)

theorem totals_le (parts : List SelectorPart) {left right rangeEnd : ℕ} (hleft : left ≤ right) (hright : right ≤ rangeEnd) :
    SelectorPart.totalSize (parts.extract left right) ≤ SelectorPart.totalSize (parts.extract left rangeEnd) ∧
      SelectorPart.totalRows (parts.extract left right) ≤ SelectorPart.totalRows (parts.extract left rangeEnd) := by
  rw [← extract_append_extract parts hleft hright, SelectorPart.totalSize_append, SelectorPart.totalRows_append]
  exact ⟨Nat.le_add_right _ _, Nat.le_add_right _ _⟩

theorem legalMerges_simple (settings : SimpleMergeSelector.Settings) (estimates : SimpleMergeSelector.Estimates) (heap : StdHeap)
    (partsRanges : List (List SelectorPart)) (constraint : MergeConstraint) (constraints : List MergeConstraint) (rangeFilter : RangeFilter) :
    LegalMerges partsRanges (constraint :: constraints) 2 (SimpleMergeSelector.maxPartsToMergeAtOnce settings estimates)
      SelectorPart.WithinSizeT (SimpleMergeSelector.select settings estimates heap partsRanges constraint constraints rangeFilter) := by
  obtain ⟨hdisjoint, hall⟩ := @SimpleMergeSelector.select_spec partsRanges settings estimates heap
    constraint constraints rangeFilter
  obtain ⟨hslices, hwithin⟩ := (List.forall₂_and_left (p := fun slice : PartsSlice =>
      (slice.bounds.left + 2 ≤ slice.bounds.right ∧ slice.bounds.right ≤ (partsRanges.getD slice.rangeIt []).length) ∧
        (SimpleMergeSelector.maxPartsToMergeAtOnce settings estimates slice.rangeIt ≠ 0 →
          slice.count ≤ SimpleMergeSelector.maxPartsToMergeAtOnce settings estimates slice.rangeIt))
      (R := fun slice within => SelectorPart.WithinSizeT (slice.parts partsRanges) within) _ _).1 (hall.imp fun slice within h => by
    obtain ⟨candidate, hcandidate, rfl, hbytes, hrows⟩ := h
    have hscored := SimpleMergeSelector.candidates_scored candidate hcandidate
    exact ⟨⟨⟨hscored.two_le, hscored.le_length⟩, hscored.few⟩, hscored.bytes ▸ hbytes, hscored.rows ▸ hrows⟩)
  exact ⟨fun slice h => (hslices slice h).1, hdisjoint, hwithin, fun slice h => (hslices slice h).2⟩

theorem legalMerges_ttl (selector : ITTLMergeSelector) (heap : StdHeap) (partsRanges : List (List SelectorPart))
    (constraints : List MergeConstraint) (rangeFilter : RangeFilter) :
    LegalMerges partsRanges constraints 1 (fun _ => selector.maxPartsToMergeAtOnce) SelectorPart.Within
        (selector.select heap partsRanges constraints rangeFilter) ∧
      ∀ slice ∈ selector.select heap partsRanges constraints rangeFilter,
        selector.needToPostponePartition (ITTLMergeSelector.partitionOf (partsRanges.getD slice.rangeIt [])) = false ∧
          ∀ part ∈ slice.parts partsRanges, selector.Expired part := by
  obtain ⟨hdisjoint, hall⟩ := @ITTLMergeSelector.select_spec partsRanges selector heap constraints rangeFilter
  obtain ⟨hslices, hwithin⟩ := (List.forall₂_and_left (p := fun slice : PartsSlice =>
      (slice.bounds.right ≤ (partsRanges.getD slice.rangeIt []).length ∧
          (selector.maxPartsToMergeAtOnce ≠ 0 → slice.count ≤ selector.maxPartsToMergeAtOnce)) ∧
        selector.needToPostponePartition (ITTLMergeSelector.partitionOf (partsRanges.getD slice.rangeIt [])) = false ∧
          ∀ part ∈ slice.parts partsRanges, selector.Expired part)
      (R := fun slice within => SelectorPart.Within (slice.parts partsRanges) within) _ _).1 (hall.imp fun slice within h => by
    obtain ⟨hpostpone, hslice, -⟩ := h
    exact ⟨⟨⟨hslice.le_length, hslice.few⟩, hpostpone, hslice.expired⟩, hslice.size, hslice.rows⟩)
  exact ⟨⟨fun slice h => ⟨slice.bounds.left_lt_right, (hslices slice h).1.1⟩, hdisjoint, hwithin, fun slice h => (hslices slice h).1.2⟩,
    fun slice h => (hslices slice h).2⟩

/-- **Merge selectors return legal merges**: slices of the input ranges with no part in common, the
`i`-th one within the `i`-th constraint and none of more parts than allowed; the simple selector takes
at least two parts, a TTL selector only expired ones of partitions that are not postponed. The simple
selector checks sums of `size_t`, which are the sums of the slice when those of the ranges fit. -/
theorem select_legalMerges (settings : SimpleMergeSelector.Settings) (estimates : SimpleMergeSelector.Estimates)
    (selector : ITTLMergeSelector) (heap : StdHeap) (partsRanges : List (List SelectorPart)) (constraint : MergeConstraint)
    (constraints : List MergeConstraint) (rangeFilter : RangeFilter) :
    LegalMerges partsRanges (constraint :: constraints) 2 (SimpleMergeSelector.maxPartsToMergeAtOnce settings estimates)
        SelectorPart.WithinSizeT (SimpleMergeSelector.select settings estimates heap partsRanges constraint constraints rangeFilter) ∧
      ((∀ parts ∈ partsRanges, SelectorPart.totalSize parts < 2 ^ 64 ∧ SelectorPart.totalRows parts < 2 ^ 64) →
        LegalMerges partsRanges (constraint :: constraints) 2 (SimpleMergeSelector.maxPartsToMergeAtOnce settings estimates)
          SelectorPart.Within (SimpleMergeSelector.select settings estimates heap partsRanges constraint constraints rangeFilter)) ∧
      LegalMerges partsRanges (constraint :: constraints) 1 (fun _ => selector.maxPartsToMergeAtOnce) SelectorPart.Within
        (selector.select heap partsRanges (constraint :: constraints) rangeFilter) ∧
      ∀ slice ∈ selector.select heap partsRanges (constraint :: constraints) rangeFilter,
        selector.needToPostponePartition (ITTLMergeSelector.partitionOf (partsRanges.getD slice.rangeIt [])) = false ∧
          ∀ part ∈ slice.parts partsRanges, selector.Expired part := by
  have hsimple := legalMerges_simple settings estimates heap partsRanges constraint constraints rangeFilter
  refine ⟨hsimple, fun hfits => ?_, legalMerges_ttl selector heap partsRanges (constraint :: constraints) rangeFilter⟩
  refine ⟨hsimple.isSlice, hsimple.disjoint, hsimple.within.imp fun slice within h => ?_, hsimple.few⟩
  obtain ⟨hsize, hrows⟩ := totals_lt_of_getD hfits slice.rangeIt slice.bounds.left slice.bounds.right
  exact ⟨Nat.mod_eq_of_lt hsize ▸ h.1, Nat.mod_eq_of_lt hrows ▸ h.2⟩

/-- Parts of two partitions. The rows of a part without a TTL do not expire. -/
def expiringParts : List (List SelectorPart) :=
  let part := fun (name partitionId : String) (size : ℕ) (ttl : ℤ) =>
    ({ name, info := { partitionId }, size, rows := size, generalTTLInfo := some ⟨true, ttl, ttl⟩ } : SelectorPart)
  [[part "a" "p" 30 5, part "b" "p" 20 0, part "c" "p" 10 3], [part "d" "q" 15 9, part "e" "q" 5 7]]

/-- Longer slices are better. -/
def eagerEstimates : SimpleMergeSelector.Estimates where
  calculateRangeWithStochasticSliding _ := 0
  loweredMaxPartsToMergeAtOnce _ := 0
  fitsBase _ := true
  isSmall _ _ := false
  score slice := -slice.count
  address _ part := part

/-- All parts are merged, partition by partition, or those that have expired. -/
theorem select_legalMerges_twoPartitions :
    ((SimpleMergeSelector.select {} eagerEstimates .sorting expiringParts ⟨60, 60⟩ [⟨20, 20⟩] none).map (PartsSlice.parts expiringParts)).map
        (List.map SelectorPart.size) = [[30, 20, 10], [15, 5]] ∧
      LegalMerges expiringParts [⟨60, 60⟩, ⟨20, 20⟩] 2 (fun _ => 100) SelectorPart.Within
        (SimpleMergeSelector.select {} eagerEstimates .sorting expiringParts ⟨60, 60⟩ [⟨20, 20⟩] none) ∧
      (((TTLRowDeleteMergeSelector (fun _ => none) 10).select .sorting expiringParts [⟨60, 60⟩, ⟨20, 20⟩] none).map
        (PartsSlice.parts expiringParts)).map (List.map SelectorPart.size) = [[10], [15, 5]] ∧
      LegalMerges expiringParts [⟨60, 60⟩, ⟨20, 20⟩] 1 (fun _ => 0) SelectorPart.Within
        ((TTLRowDeleteMergeSelector (fun _ => none) 10).select .sorting expiringParts [⟨60, 60⟩, ⟨20, 20⟩] none) := by
  obtain ⟨-, hsimple, httl, -⟩ := select_legalMerges {} eagerEstimates (TTLRowDeleteMergeSelector (fun _ => none) 10) .sorting expiringParts
    ⟨60, 60⟩ [⟨20, 20⟩] none
  exact ⟨by decide +kernel, hsimple (by decide +kernel), by decide +kernel, httl⟩

/-! ## The range filter -/

namespace SimpleMergeSelector

variable {settings : Settings} {estimates : Estimates}

/-- The same estimates with another score. -/
def Estimates.withScore (estimates : Estimates) (score : PartsSlice → ℚ) : Estimates := { estimates with score := score }

theorem removeSmallParts_withScore (score : PartsSlice → ℚ) (parts : List SelectorPart) (sumSize rangeBegin : ℕ) :
    ∀ rangeEnd sizeDelta rowsDelta : ℕ,
      removeSmallParts (estimates.withScore score) parts sumSize rangeBegin rangeEnd sizeDelta rowsDelta =
        removeSmallParts estimates parts sumSize rangeBegin rangeEnd sizeDelta rowsDelta := by
  intro rangeEnd
  induction rangeEnd with
  | zero => exact fun _ _ => rfl
  | succ last ih =>
    intro sizeDelta rowsDelta
    rw [removeSmallParts, removeSmallParts]
    simp only [ih]
    rfl

/-- The score of a candidate under another scoring. -/
def ScoredRange.rescore (score : PartsSlice → ℚ) (candidate : ScoredRange) : ScoredRange :=
  { candidate with score := score candidate.slice }

theorem consider_withScore (score : PartsSlice → ℚ) (rangeIt : ℕ) (parts : List SelectorPart) (rangeBegin rangeEnd sumSize sumRows : ℕ)
    (h : rangeBegin + 2 ≤ rangeEnd) :
    consider settings (estimates.withScore score) rangeIt parts rangeBegin rangeEnd sumSize sumRows h =
      (consider settings estimates rangeIt parts rangeBegin rangeEnd sumSize sumRows h).rescore score := by
  have hconsidered : considered settings (estimates.withScore score) parts rangeBegin rangeEnd sumSize sumRows =
      considered settings estimates parts rangeBegin rangeEnd sumSize sumRows := by
    unfold considered
    rw [removeSmallParts_withScore]
  simp only [consider, ScoredRange.rescore, hconsidered]
  rfl

theorem growRange_withScore (score : PartsSlice → ℚ) {maxParts rangeIt rangeBegin : ℕ} {parts : List SelectorPart} :
    ∀ (rest : List SelectorPart) (count sumSize sumRows minAge : ℕ),
      growRange settings (estimates.withScore score) constraint rangeFilter maxParts rangeIt parts rangeBegin rest count sumSize sumRows minAge =
        (growRange settings estimates constraint rangeFilter maxParts rangeIt parts rangeBegin rest count sumSize sumRows minAge).map
          (ScoredRange.rescore score) := by
  intro rest
  induction rest with
  | nil => exact fun _ _ _ _ => rfl
  | cons part rest ih =>
    intro count sumSize sumRows minAge
    rw [growRange, growRange]
    split
    · rfl
    · dsimp only
      split
      · rfl
      · split
        · rfl
        · rw [ih]
          have hallow : ∀ slice minAge, allow settings (estimates.withScore score) rangeFilter parts slice minAge =
              allow settings estimates rangeFilter parts slice minAge := fun _ _ => rfl
          rw [hallow]
          split
          · rw [List.map_cons, consider_withScore]
          · rfl

theorem candidates_withScore (score : PartsSlice → ℚ) (constraint : MergeConstraint) (rangeFilter : RangeFilter)
    (partsRanges : List (List SelectorPart)) :
    candidates settings (estimates.withScore score) constraint rangeFilter partsRanges =
      (candidates settings estimates constraint rangeFilter partsRanges).map (ScoredRange.rescore score) := by
  have hrange : ∀ rangeIt parts, selectWithinPartsRange settings (estimates.withScore score) constraint rangeFilter rangeIt parts =
      (selectWithinPartsRange settings estimates constraint rangeFilter rangeIt parts).map (ScoredRange.rescore score) := by
    intro rangeIt parts
    unfold selectWithinPartsRange
    split
    · rfl
    · rw [List.map_flatMap]
      refine List.flatMap_congr fun rangeBegin _ => ?_
      split
      · rfl
      · exact growRange_withScore score _ _ _ _ _
  unfold candidates
  rw [List.map_flatMap]
  exact List.flatMap_congr fun entry _ => hrange entry.2 entry.1

theorem mem_select_of_best (heap : StdHeap) {constraints : List MergeConstraint}
    (hfits : ∀ parts ∈ partsRanges, SelectorPart.totalSize parts < 2 ^ 64 ∧ SelectorPart.totalRows parts < 2 ^ 64)
    {candidate : ScoredRange} (hcandidate : candidate ∈ candidates settings estimates constraint rangeFilter partsRanges) :
    candidate.slice ∈ select settings (estimates.withScore fun slice => if slice = candidate.slice then 0 else 1) heap partsRanges
      constraint constraints rangeFilter := by
  set score : PartsSlice → ℚ := fun slice => if slice = candidate.slice then 0 else 1 with hscore
  set ranges := candidates settings (estimates.withScore score) constraint rangeFilter partsRanges with hranges
  have hbest : candidate.rescore score ∈ ranges := by
    rw [hranges, candidates_withScore]
    exact List.mem_map_of_mem hcandidate
  obtain ⟨hperm, hsorted⟩ := @StdHeap.drain_spec heap ScoredRange _ _ (rangeCompare (estimates.withScore score))
    (fun candidate => toLex (-candidate.score, (estimates.withScore score).address candidate.slice.rangeIt candidate.slice.bounds.left))
    ranges (fun a _ b _ => by
      rw [rangeCompare, Bool.eq_iff_iff, decide_eq_true_iff, Prod.Lex.toLex_lt_toLex]
      simp)
  have hselect : select settings (estimates.withScore score) heap partsRanges constraint constraints rangeFilter =
      selectRanges buildRange (constraint :: constraints)
        (heap.drain (rangeCompare (estimates.withScore score)) ranges.length ranges) fun _ => .empty := rfl
  rw [hselect]
  rcases hdrain : heap.drain (rangeCompare (estimates.withScore score)) ranges.length ranges with _ | ⟨top, rest⟩
  · rw [hdrain] at hperm
    exact absurd (hperm.mem_iff.2 hbest) List.not_mem_nil
  · rw [hdrain] at hperm hsorted
    have htop : top ∈ ranges := hperm.mem_iff.1 List.mem_cons_self
    -- no score is lower than that of the candidate, so the first one has its slice
    have hlow : top.score ≤ 0 := by
      have hzero : (candidate.rescore score).score = 0 := if_pos rfl
      rcases List.mem_cons.1 (hperm.mem_iff.2 hbest) with heq | hrest
      · rw [← heq, hzero]
      · have hkey := (List.pairwise_cons.1 hsorted).1 _ hrest
        have hneg := Prod.Lex.monotone_fst _ _ hkey
        have hle : -(candidate.rescore score).score ≤ -top.score := hneg
        rw [hzero] at hle
        linarith
    obtain ⟨original, horiginal, rfl⟩ := List.mem_map.1 (by rw [← candidates_withScore]; exact htop)
    have hslice : original.slice = candidate.slice := by
      by_contra hne
      have hone : (original.rescore score).score = 1 := if_neg hne
      rw [hone] at hlow
      norm_num at hlow
    have hscored := candidates_scored original horiginal
    obtain ⟨rangeEnd, hend, -, hsize, hrows⟩ := hscored.grown
    obtain ⟨hsizeLt, hrowsLt⟩ := totals_lt_of_getD hfits original.slice.rangeIt original.slice.bounds.left rangeEnd
    obtain ⟨hsizeLe, hrowsLe⟩ := totals_le (partsRanges.getD original.slice.rangeIt []) original.slice.bounds.left_lt_right.le hend
    rw [Nat.mod_eq_of_lt hsizeLt] at hsize
    rw [Nat.mod_eq_of_lt hrowsLt] at hrows
    have hwithin : (original.rescore score).bytes ≤ constraint.maxSizeBytes ∧ (original.rescore score).rows ≤ constraint.maxSizeRows := by
      refine ⟨?_, ?_⟩
      · change original.bytes ≤ _
        rw [hscored.bytes]
        exact (Nat.mod_le _ _).trans (hsizeLe.trans hsize)
      · change original.rows ≤ _
        rw [hscored.rows]
        exact (Nat.mod_le _ _).trans (hrowsLe.trans hrows)
    obtain ⟨disjoint, hadd⟩ := Option.isSome_iff_exists.1 (DisjointIntervals.isSome_addIfPossible (S := .empty) (a := original.slice.bounds)
      fun b hb => absurd hb (DisjointIntervals.notMem_empty b))
    have hbuild : buildRange (original.rescore score) constraint (fun _ => .empty) =
        some (original.slice, Function.update (fun _ => .empty) original.slice.rangeIt disjoint) := by
      unfold buildRange DisjointPartsRangesSet.addRangeIfPossible
      rw [if_pos hwithin]
      change ((DisjointIntervals.empty.addIfPossible original.slice.bounds).map _).map _ = _
      rw [hadd]
      rfl
    rw [selectRanges, buildMergeRange, hbuild, ← hslice]
    exact List.mem_cons_self

theorem select_accepts_of
    (h : ∀ candidate ∈ candidates settings estimates constraint rangeFilter partsRanges, rangeFilter.accepts (candidate.slice.parts partsRanges))
    (score : PartsSlice → ℚ) (heap : StdHeap) (constraints : List MergeConstraint) {slice : PartsSlice}
    (hslice : slice ∈ select settings (estimates.withScore score) heap partsRanges constraint constraints rangeFilter) :
    rangeFilter.accepts (slice.parts partsRanges) := by
  obtain ⟨-, hall⟩ := @select_spec partsRanges settings (estimates.withScore score) heap constraint constraints rangeFilter
  obtain ⟨hslices, -⟩ := (List.forall₂_and_left (p := fun slice : PartsSlice => rangeFilter.accepts (slice.parts partsRanges) = true)
      (R := fun _ _ => True) _ _).1 (hall.imp fun slice within hbuilt => by
    obtain ⟨candidate, hcandidate, rfl, -⟩ := hbuilt
    rw [candidates_withScore] at hcandidate
    obtain ⟨original, horiginal, rfl⟩ := List.mem_map.1 hcandidate
    exact ⟨h original horiginal, trivial⟩)
  exact hslices slice hslice

theorem minAge_concat {l : List SelectorPart} (hne : l ≠ []) (part : SelectorPart) :
    SelectorPart.minAge (l ++ [part]) = min (SelectorPart.minAge l) part.age := by
  cases l with
  | nil => exact absurd rfl hne
  | cons first l => simp [SelectorPart.minAge, List.foldl_append]

theorem considered_fst {parts : List SelectorPart} {rangeBegin rangeEnd sumSize : ℕ} (sumRows : ℕ)
    (h : sumSize = SelectorPart.totalSize (parts.extract rangeBegin rangeEnd) % 2 ^ 64) :
    (considered settings estimates parts rangeBegin rangeEnd sumSize sumRows).1 = trimmedEnd settings estimates parts rangeBegin rangeEnd := by
  unfold considered trimmedEnd
  rw [h]
  split <;> rfl

theorem mem_growRange {maxParts rangeIt rangeBegin : ℕ} {parts : List SelectorPart} {bounds : HalfOpen ℕ} :
    ∀ {rest : List SelectorPart} {count sumSize sumRows minAge : ℕ},
      parts.drop (rangeBegin + count + 1) = rest → rangeBegin + count + 1 ≤ parts.length →
      SizeIs sumSize (SelectorPart.totalSize (parts.extract rangeBegin (rangeBegin + count + 1))) →
      SizeIs sumRows (SelectorPart.totalRows (parts.extract rangeBegin (rangeBegin + count + 1))) →
      minAge = SelectorPart.minAge (parts.extract rangeBegin (rangeBegin + count + 1)) →
      ((∃ candidate ∈ growRange settings estimates constraint rangeFilter maxParts rangeIt parts rangeBegin rest count sumSize sumRows minAge,
          candidate.slice.bounds = bounds) ↔
        ∃ slice : HalfOpen ℕ, slice.left = rangeBegin ∧ rangeBegin + count + 2 ≤ slice.right ∧ slice.right ≤ parts.length ∧
          (maxParts ≠ 0 → slice.right - rangeBegin ≤ maxParts) ∧
          (∀ rangeEnd, rangeBegin + count + 2 ≤ rangeEnd → rangeEnd ≤ slice.right →
            SelectorPart.SliceWithin constraint parts rangeBegin rangeEnd) ∧
          allow settings estimates rangeFilter parts { rangeIt := rangeIt, bounds := slice }
            (SelectorPart.minAge (parts.extract slice.left slice.right)) ∧
          bounds.left = rangeBegin ∧ bounds.right = trimmedEnd settings estimates parts rangeBegin slice.right) := by
  intro rest
  induction rest with
  | nil =>
    intro count sumSize sumRows minAge hrest hle _ _ _
    have hlength : parts.length ≤ rangeBegin + count + 1 := List.drop_eq_nil_iff.1 hrest
    constructor
    · rintro ⟨candidate, hcandidate, -⟩
      exact absurd hcandidate List.not_mem_nil
    · rintro ⟨slice, -, hbegin, hend, -⟩
      omega
  | cons part rest ih =>
    intro count sumSize sumRows minAge hrest hle hsize hrows hage
    have hpart : parts[rangeBegin + count + 1]? = some part := getElem?_of_drop hrest
    have hlt : rangeBegin + count + 1 < parts.length := (List.getElem?_eq_some_iff.1 hpart).1
    obtain ⟨hsize', hrows'⟩ := sums_extract_succ hpart hsize hrows
    have hage' : min minAge part.age = SelectorPart.minAge (parts.extract rangeBegin (rangeBegin + count + 2)) := by
      rw [show rangeBegin + count + 2 = rangeBegin + count + 1 + 1 from rfl,
        extract_succ hpart (show rangeBegin ≤ rangeBegin + count + 1 by omega), minAge_concat, hage]
      intro hnil
      have hlength := congrArg List.length hnil
      rw [List.extract_eq_take_drop, List.length_take, List.length_drop, List.length_nil] at hlength
      omega
    have hdrop : parts.drop (rangeBegin + (count + 1) + 1) = rest := by
      rw [show rangeBegin + (count + 1) + 1 = rangeBegin + count + 1 + 1 from rfl, ← List.tail_drop, hrest]
      rfl
    have hlonger := @ih (count + 1) (addSize sumSize part.size) (addSize sumRows part.rows) (min minAge part.age) hdrop (by omega)
      (by rw [hsize']; exact Nat.mod_mod _ _) (by rw [hrows']; exact Nat.mod_mod _ _) hage'
    rw [growRange]
    by_cases hmax : maxParts ≠ 0 ∧ maxParts < count + 2
    · rw [if_pos hmax]
      constructor
      · rintro ⟨candidate, hcandidate, -⟩
        exact absurd hcandidate List.not_mem_nil
      · rintro ⟨slice, -, hbegin, -, hfew, -⟩
        have hle := hfew hmax.1
        omega
    rw [if_neg hmax]
    dsimp only
    by_cases hwithin : SelectorPart.SliceWithin constraint parts rangeBegin (rangeBegin + count + 2)
    · obtain ⟨hbytes, hmaxRows⟩ := hwithin
      rw [← hsize'] at hbytes
      rw [← hrows'] at hmaxRows
      rw [if_neg (not_lt.2 hbytes), if_neg (not_lt.2 hmaxRows)]
      have hbounded : rangeBegin < rangeBegin + count + 2 := by omega
      -- the slice that ends here, or a longer one
      have hsplit : ∀ slice : HalfOpen ℕ, rangeBegin + count + 2 ≤ slice.right →
          slice.right = rangeBegin + count + 2 ∨ rangeBegin + (count + 1) + 2 ≤ slice.right := fun slice h => by omega
      constructor
      · rintro ⟨candidate, hcandidate, hbounds⟩
        have hor : (allow settings estimates rangeFilter parts ⟨rangeIt, ⟨rangeBegin, rangeBegin + count + 2, by omega⟩⟩ (min minAge part.age) ∧
            candidate = consider settings estimates rangeIt parts rangeBegin (rangeBegin + count + 2) (addSize sumSize part.size)
              (addSize sumRows part.rows) (by omega)) ∨
            candidate ∈ growRange settings estimates constraint rangeFilter maxParts rangeIt parts rangeBegin rest (count + 1)
              (addSize sumSize part.size) (addSize sumRows part.rows) (min minAge part.age) := by
          split at hcandidate
          · next hallow =>
            rcases List.mem_cons.1 hcandidate with h | h
            · exact .inl ⟨hallow, h⟩
            · exact .inr h
          · exact .inr hcandidate
        rcases hor with ⟨hallow, rfl⟩ | hmem
        · refine ⟨⟨rangeBegin, rangeBegin + count + 2, by omega⟩, rfl, le_rfl, hlt, fun hne => ?_, fun rangeEnd hlow hhigh => ?_,
            hage' ▸ hallow, ?_, ?_⟩
          · have hle := not_and.1 hmax hne
            change rangeBegin + count + 2 - rangeBegin ≤ maxParts
            omega
          · obtain rfl := le_antisymm hhigh hlow
            exact ⟨hsize' ▸ hbytes, hrows' ▸ hmaxRows⟩
          · rw [← hbounds]
            rfl
          · rw [← hbounds]
            exact considered_fst _ hsize'
        · obtain ⟨slice, hleft, hbegin, hend, hfew, hsums, hallow, htrim⟩ := hlonger.1 ⟨candidate, hmem, hbounds⟩
          refine ⟨slice, hleft, by omega, hend, hfew, fun rangeEnd hlow hhigh => ?_, hallow, htrim⟩
          rcases (show rangeEnd = rangeBegin + count + 2 ∨ rangeBegin + (count + 1) + 2 ≤ rangeEnd by omega) with rfl | hlow
          · exact ⟨hsize' ▸ hbytes, hrows' ▸ hmaxRows⟩
          · exact hsums rangeEnd hlow hhigh
      · rintro ⟨slice, hleft, hbegin, hend, hfew, hsums, hallow, hboundsLeft, hboundsRight⟩
        rcases hsplit slice hbegin with hright | hbegin
        · have hslice : slice = ⟨rangeBegin, rangeBegin + count + 2, by omega⟩ := HalfOpen.ext hleft hright
          subst hslice
          rw [if_pos (hage' ▸ hallow)]
          refine ⟨_, List.mem_cons_self, HalfOpen.ext hboundsLeft.symm ?_⟩
          rw [hboundsRight]
          exact considered_fst _ hsize'
        · obtain ⟨candidate, hmem, hbounds⟩ := hlonger.2 ⟨slice, hleft, hbegin, hend, hfew,
            fun rangeEnd hlow hhigh => hsums rangeEnd (by omega) hhigh, hallow, hboundsLeft, hboundsRight⟩
          refine ⟨candidate, ?_, hbounds⟩
          split
          · exact List.mem_cons_of_mem _ hmem
          · exact hmem
    · have hout : ¬(addSize sumSize part.size ≤ constraint.maxSizeBytes ∧ addSize sumRows part.rows ≤ constraint.maxSizeRows) := by
        rw [hsize', hrows']
        exact hwithin
      constructor
      · rintro ⟨candidate, hcandidate, -⟩
        split at hcandidate
        · exact absurd hcandidate List.not_mem_nil
        · split at hcandidate
          · exact absurd hcandidate List.not_mem_nil
          · next hbytes hmaxRows => exact absurd ⟨not_lt.1 hbytes, not_lt.1 hmaxRows⟩ hout
      · rintro ⟨slice, -, hbegin, -, -, hsums, -⟩
        exact absurd (hsums _ le_rfl hbegin) hwithin

theorem mem_selectWithinPartsRange {rangeIt : ℕ} {parts : List SelectorPart} {bounds : HalfOpen ℕ} :
    (∃ candidate ∈ selectWithinPartsRange settings estimates constraint rangeFilter rangeIt parts, candidate.slice.bounds = bounds) ↔
      ∃ slice, IsConsidered settings estimates constraint rangeFilter rangeIt parts slice ∧ bounds.left = slice.left ∧
        bounds.right = trimmedEnd settings estimates parts slice.left slice.right := by
  have hgrow : ∀ {rangeBegin : ℕ} {part : SelectorPart} {rest : List SelectorPart}, parts.drop rangeBegin = part :: rest → _ :=
    fun {rangeBegin part rest} (hdrop : parts.drop rangeBegin = part :: rest) => by
      have hpart := getElem?_of_drop hdrop
      have hone : parts.extract rangeBegin (rangeBegin + 0 + 1) = [part] := extract_one hpart
      exact @mem_growRange constraint rangeFilter settings estimates (maxPartsToMergeAtOnce settings estimates rangeIt) rangeIt rangeBegin
        parts bounds rest 0 part.size part.rows part.age (by rw [Nat.add_zero, ← List.tail_drop, hdrop]; rfl)
        (List.getElem?_eq_some_iff.1 hpart).1 (by rw [hone]; simp [SizeIs, SelectorPart.totalSize])
        (by rw [hone]; simp [SizeIs, SelectorPart.totalRows]) (by rw [hone]; rfl)
  unfold selectWithinPartsRange
  constructor
  · rintro ⟨candidate, hcandidate, hbounds⟩
    split at hcandidate
    · exact absurd hcandidate List.not_mem_nil
    · obtain ⟨rangeBegin, hwindow, hcandidate⟩ := List.mem_flatMap.1 hcandidate
      split at hcandidate
      · exact absurd hcandidate List.not_mem_nil
      · next part rest hdrop =>
        obtain ⟨slice, rfl, htwo, hend, hfew, hsums, hallow, hleft, hright⟩ := (hgrow hdrop).1 ⟨candidate, hcandidate, hbounds⟩
        exact ⟨slice, ⟨(List.mem_range'_1.1 hwindow).1, htwo, hend, hfew, hsums, hallow⟩, hleft, hright⟩
  · rintro ⟨slice, hconsidered, hleft, hright⟩
    have htwo := hconsidered.two_le
    have hlength := hconsidered.le_length
    have hwindow := hconsidered.window
    rw [if_neg (by omega)]
    have hlt : slice.left < parts.length := by omega
    obtain ⟨candidate, hcandidate, hbounds⟩ := (hgrow (List.drop_eq_getElem_cons hlt)).2 ⟨slice, rfl, htwo, hlength, hconsidered.few,
      hconsidered.within, hconsidered.allowed, hleft, hright⟩
    refine ⟨candidate, List.mem_flatMap.2 ⟨slice.left, List.mem_range'_1.2 ⟨hwindow, by omega⟩, ?_⟩, hbounds⟩
    rw [List.drop_eq_getElem_cons hlt]
    exact hcandidate

/-- **The candidates are the slices that are considered, without their small parts at the right.** -/
theorem acceptsTrimmed_iff :
    AcceptsTrimmed settings estimates constraint rangeFilter partsRanges ↔
      ∀ candidate ∈ candidates settings estimates constraint rangeFilter partsRanges, rangeFilter.accepts (candidate.slice.parts partsRanges) := by
  have hparts : ∀ {rangeIt parts}, partsRanges[rangeIt]? = some parts → partsRanges.getD rangeIt [] = parts := by
    intro rangeIt parts h
    rw [List.getD_eq_getElem?_getD, h]
    rfl
  constructor
  · intro h candidate hcandidate
    obtain ⟨⟨parts, rangeIt⟩, hrange, hcandidate⟩ := List.mem_flatMap.1 hcandidate
    have hget := List.mem_zipIdx_iff_getElem?.1 hrange
    obtain ⟨slice, hconsidered, hleft, hright⟩ := mem_selectWithinPartsRange.1 ⟨candidate, hcandidate, rfl⟩
    obtain ⟨-, heq⟩ := selectWithinPartsRange_scored candidate hcandidate
    unfold PartsSlice.parts
    rw [heq, hparts hget, hleft, hright]
    exact h rangeIt parts hget slice hconsidered
  · intro h rangeIt parts hget slice hconsidered
    have htrimmed : slice.left < trimmedEnd settings estimates parts slice.left slice.right := by
      rw [← considered_fst 0 rfl]
      exact Nat.lt_of_lt_of_le (Nat.lt_add_of_pos_right Nat.two_pos) (le_considered settings estimates _ _ hconsidered.two_le)
    obtain ⟨candidate, hcandidate, hbounds⟩ := mem_selectWithinPartsRange.2
      ⟨slice, hconsidered, (rfl : (HalfOpen.mk slice.left _ htrimmed).left = slice.left), rfl⟩
    obtain ⟨-, heq⟩ := selectWithinPartsRange_scored candidate hcandidate
    have haccepts := h candidate (List.mem_flatMap.2 ⟨(parts, rangeIt), List.mem_zipIdx_iff_getElem?.2 hget, hcandidate⟩)
    unfold PartsSlice.parts at haccepts
    rwa [heq, hparts hget, hbounds] at haccepts

theorem acceptsTrimmed_of_disabled (h : settings.enableHeuristicToRemoveSmallPartsAtRight = false) :
    AcceptsTrimmed settings estimates constraint rangeFilter partsRanges := by
  intro rangeIt parts _ slice hconsidered
  have hallowed := hconsidered.allowed
  rw [trimmedEnd, h, if_neg Bool.false_ne_true]
  unfold allow at hallowed
  split at hallowed
  · cases hallowed
  · next hfilter => simpa using hfilter

end SimpleMergeSelector

end MergeTree
