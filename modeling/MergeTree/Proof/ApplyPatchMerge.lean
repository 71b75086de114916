import MergeTree.Spec.ApplyPatchMerge

/-!
# The pairs of a patch in the mode `Merge`

* `getPartNameOffsetRange_iff`: the two binary searches find exactly the patch rows of the part with offsets in the
  bounds.
* `mem_iteratedPairs`, `contiguousPairs_eq`: both branches pair exactly the rows with equal offsets.
-/

namespace MergeTree

/-- **The rows of a patch**, as far as a source part is concerned: in the order of the names, and those of the part in
the order of their offsets. -/
def SortedForPart (partName : String) (rows : List PatchRow) : Prop :=
  rows.Pairwise fun a b => a.part < b.part ∨ (a.part = b.part ∧ (a.part = partName → a.partOffset < b.partOffset))

section Range

variable {rows : List PatchRow} {partName : String} {lo hi : ℕ}

theorem compare_nonneg_iff (row : PatchRow) : ¬ compareNameAndOffset row partName lo < 0 ↔
    partName < row.part ∨ (row.part = partName ∧ lo ≤ row.partOffset) := by
  unfold compareNameAndOffset
  rcases lt_trichotomy row.part partName with h | h | h
  · simp [h, h.not_gt, h.ne]
  · subst h
    simp only [lt_irrefl, if_false, true_and, false_or]
    split_ifs <;> simp <;> omega
  · simp [h, h.not_gt]

theorem compare_pos_iff (row : PatchRow) : compareNameAndOffset row partName hi > 0 ↔
    partName < row.part ∨ (row.part = partName ∧ hi < row.partOffset) := by
  unfold compareNameAndOffset
  rcases lt_trichotomy row.part partName with h | h | h
  · simp [h, h.not_gt, h.ne]
  · subst h
    simp only [lt_irrefl, if_false, true_and, false_or]
    split_ifs <;> simp <;> omega
  · simp [h, h.not_gt]

/-- **The range of a part within offsets** holds exactly the rows of the part with these offsets. -/
theorem getPartNameOffsetRange_iff (h : SortedForPart partName rows) {i : ℕ} {row : PatchRow} (hi' : rows[i]? = some row) :
    (getPartNameOffsetRange rows partName lo hi).1 ≤ i ∧ i < (getPartNameOffsetRange rows partName lo hi).2 ↔
      row.part = partName ∧ lo ≤ row.partOffset ∧ row.partOffset ≤ hi := by
  -- Each test passes from its bound on.
  have hlower : rows.Pairwise fun a b => decide (¬ compareNameAndOffset a partName lo < 0) = true →
      decide (¬ compareNameAndOffset b partName lo < 0) = true := by
    refine h.imp fun {a b} hab => ?_
    rw [decide_eq_true_eq, decide_eq_true_eq, compare_nonneg_iff, compare_nonneg_iff]
    rintro (hpart | ⟨hpart, hle⟩)
    · rcases hab with hab | ⟨hab, -⟩
      · exact Or.inl (hpart.trans hab)
      · exact Or.inl (hab ▸ hpart)
    · rcases hab with hab | ⟨hab, hless⟩
      · exact Or.inl (hpart ▸ hab)
      · exact Or.inr ⟨hab ▸ hpart, hle.trans (hless hpart).le⟩
  have hupper : rows.Pairwise fun a b => decide (compareNameAndOffset a partName hi > 0) = true →
      decide (compareNameAndOffset b partName hi > 0) = true := by
    refine h.imp fun {a b} hab => ?_
    rw [decide_eq_true_eq, decide_eq_true_eq, compare_pos_iff, compare_pos_iff]
    rintro (hpart | ⟨hpart, hlt⟩)
    · rcases hab with hab | ⟨hab, -⟩
      · exact Or.inl (hpart.trans hab)
      · exact Or.inl (hab ▸ hpart)
    · rcases hab with hab | ⟨hab, hless⟩
      · exact Or.inl (hpart ▸ hab)
      · exact Or.inr ⟨hab ▸ hpart, hlt.trans (hless hpart)⟩
  unfold getPartNameOffsetRange
  rw [← not_le, SortedLists.findIdx_le_iff hlower hi', SortedLists.findIdx_le_iff hupper hi', decide_eq_true_eq, decide_eq_true_eq,
    compare_nonneg_iff, compare_pos_iff]
  rcases lt_trichotomy row.part partName with hpart | hpart | hpart
  · simp [hpart.not_gt, hpart.ne]
  · simp [hpart]
  · simp [hpart, hpart.ne']

end Range

/-! ## The pairs -/

theorem mem_rowsFrom {offsets : List ℕ} {b e row offset : ℕ} :
    (row, offset) ∈ rowsFrom offsets b e ↔ b ≤ row ∧ row < e ∧ offset = offsets.getD row 0 := by
  unfold rowsFrom
  simp only [List.mem_map, List.mem_range'_1, Prod.mk.injEq]
  constructor
  · rintro ⟨r, hr, rfl, rfl⟩
    exact ⟨by omega, by omega, rfl⟩
  · rintro ⟨hb, he, rfl⟩
    exact ⟨row, by omega, rfl, rfl⟩

theorem pairwise_rowsFrom {offsets : List ℕ} {b e : ℕ}
    (h : ∀ i j, b ≤ i → i < j → j < e → offsets.getD i 0 < offsets.getD j 0) :
    (rowsFrom offsets b e).Pairwise fun x y => x.2 < y.2 := by
  unfold rowsFrom
  rw [List.pairwise_map]
  refine List.Pairwise.imp_of_mem (fun {i j} hi hj hij => ?_) List.pairwise_lt_range'
  rw [List.mem_range'_1] at hi hj
  exact h i j hi.1 hij (by omega)

theorem row_lt_of_offset_lt {offsets : List ℕ} {b e : ℕ} (h : ∀ i j, b ≤ i → i < j → j < e → offsets.getD i 0 < offsets.getD j 0)
    {x y : ℕ × ℕ} (hx : x ∈ rowsFrom offsets b e) (hy : y ∈ rowsFrom offsets b e) (hlt : x.2 < y.2) : x.1 < y.1 := by
  obtain ⟨-, hxe, hxo⟩ := mem_rowsFrom.1 hx
  obtain ⟨hyb, -, hyo⟩ := mem_rowsFrom.1 hy
  rw [hxo, hyo] at hlt
  by_contra hnot
  rcases (not_lt.1 hnot).eq_or_lt with heq | hgt
  · rw [heq] at hlt
    exact lt_irrefl _ hlt
  · exact absurd hlt (h _ _ hyb hgt hxe).not_gt

section Pairs

variable {rows : List PatchRow} {resultOffsets : List ℕ} {partName : String}

/-- A patch row of the part and a result row with its offset. -/
def Matches (rows : List PatchRow) (partName : String) (resultOffsets : List ℕ) (patchRow resultRow : ℕ) : Prop :=
  ∃ row, rows[patchRow]? = some row ∧ row.part = partName ∧ resultOffsets[resultRow]? = some row.partOffset

theorem getD_lt_of_pairwise (h : resultOffsets.Pairwise (· < ·)) {i j : ℕ} (hij : i < j) (hj : j < resultOffsets.length) :
    resultOffsets.getD i 0 < resultOffsets.getD j 0 := by
  rw [List.getD_eq_getElem _ _ (hij.trans hj), List.getD_eq_getElem _ _ hj]
  exact List.pairwise_iff_getElem.1 h i j (hij.trans hj) hj hij

theorem getD_bounds (h : resultOffsets.Pairwise (· < ·)) {i : ℕ} (hi : i < resultOffsets.length) :
    resultOffsets.getD 0 0 ≤ resultOffsets.getD i 0 ∧ resultOffsets.getD i 0 ≤ resultOffsets.getD (resultOffsets.length - 1) 0 := by
  constructor
  · rcases Nat.eq_zero_or_pos i with rfl | hpos
    · exact le_rfl
    · exact (getD_lt_of_pairwise h hpos hi).le
  · rcases (Nat.le_sub_one_of_lt hi).eq_or_lt with heq | hlt
    · rw [heq]
    · exact (getD_lt_of_pairwise h hlt (by omega)).le

variable (hrows : SortedForPart partName rows) (hresult : resultOffsets.Pairwise (· < ·))

include hrows hresult

omit hresult in
theorem mem_range_iff {lo hi p : ℕ} :
    ((getPartNameOffsetRange rows partName lo hi).1 ≤ p ∧ p < (getPartNameOffsetRange rows partName lo hi).2) ↔
      ∃ row, rows[p]? = some row ∧ row.part = partName ∧ lo ≤ row.partOffset ∧ row.partOffset ≤ hi := by
  cases hp : rows[p]? with
  | some row => simp [getPartNameOffsetRange_iff hrows hp]
  | none =>
    have hlen : rows.length ≤ p := List.getElem?_eq_none_iff.1 hp
    have hend : (getPartNameOffsetRange rows partName lo hi).2 ≤ rows.length := List.findIdx_le_length
    simp only [reduceCtorEq, false_and, exists_false, iff_false]
    omega

omit hresult in
theorem getD_offset_lt {lo hi i j : ℕ} (hi' : (getPartNameOffsetRange rows partName lo hi).1 ≤ i) (hij : i < j)
    (hj : j < (getPartNameOffsetRange rows partName lo hi).2) :
    (rows.map PatchRow.partOffset).getD i 0 < (rows.map PatchRow.partOffset).getD j 0 := by
  obtain ⟨a, ha, hpart, -⟩ := (mem_range_iff hrows).1 ⟨hi', hij.trans hj⟩
  obtain ⟨b, hb, hpart', -⟩ := (mem_range_iff hrows).1 ⟨hi'.trans hij.le, hj⟩
  obtain ⟨hai, rfl⟩ := List.getElem?_eq_some_iff.1 ha
  obtain ⟨hbj, rfl⟩ := List.getElem?_eq_some_iff.1 hb
  have horder := List.pairwise_iff_getElem.1 hrows i j hai hbj hij
  rw [hpart, hpart'] at horder
  simpa [List.getD_eq_getElem?_getD, ha, hb] using horder

/-- **The two iterators find the rows with equal offsets.** -/
theorem mem_iteratedPairs {p r : ℕ} :
    (p, r) ∈ iteratedPairs (rows.map PatchRow.partOffset) resultOffsets
        (getPartNameOffsetRange rows partName (resultOffsets.getD 0 0) (resultOffsets.getD (resultOffsets.length - 1) 0)).1
        (getPartNameOffsetRange rows partName (resultOffsets.getD 0 0) (resultOffsets.getD (resultOffsets.length - 1) 0)).2 ↔
      Matches rows partName resultOffsets p r := by
  have hA := pairwise_rowsFrom fun i j hi' hij hj =>
    @getD_offset_lt rows partName hrows (resultOffsets.getD 0 0) (resultOffsets.getD (resultOffsets.length - 1) 0) i j hi' hij hj
  have hB := pairwise_rowsFrom fun i j (_ : 0 ≤ i) hij (hj : j < resultOffsets.length) => getD_lt_of_pairwise hresult hij hj
  unfold iteratedPairs
  simp only [List.mem_map, Prod.exists, Prod.mk.injEq]
  constructor
  · rintro ⟨p', po, r', ro, hmem, rfl, rfl⟩
    obtain ⟨hpatch, hrow, heq⟩ := (SortedLists.mem_mergeJoin hA hB).1 hmem
    obtain ⟨hb, he, rfl⟩ := mem_rowsFrom.1 hpatch
    obtain ⟨-, hr, rfl⟩ := mem_rowsFrom.1 hrow
    obtain ⟨row, hget, hpart, -⟩ := (mem_range_iff hrows).1 ⟨hb, he⟩
    refine ⟨row, hget, hpart, ?_⟩
    simp only [List.getD_eq_getElem?_getD, List.getElem?_map, hget, Option.map_some, Option.getD_some] at heq
    rw [heq, List.getElem?_eq_getElem hr, Option.getD_some]
  · rintro ⟨row, hget, hpart, hoffset⟩
    obtain ⟨hr, hrow⟩ := List.getElem?_eq_some_iff.1 hoffset
    have hbounds := getD_bounds hresult hr
    rw [List.getD_eq_getElem _ _ hr, hrow] at hbounds
    obtain ⟨hb, he⟩ := (mem_range_iff hrows).2 ⟨row, hget, hpart, hbounds⟩
    refine ⟨p, _, r, _, (SortedLists.mem_mergeJoin hA hB).2 ⟨mem_rowsFrom.2 ⟨hb, he, rfl⟩, mem_rowsFrom.2 ⟨Nat.zero_le _, hr, rfl⟩, ?_⟩,
      rfl, rfl⟩
    simp [List.getD_eq_getElem?_getD, hget, hoffset]

theorem pairwise_iteratedPairs :
    (iteratedPairs (rows.map PatchRow.partOffset) resultOffsets
        (getPartNameOffsetRange rows partName (resultOffsets.getD 0 0) (resultOffsets.getD (resultOffsets.length - 1) 0)).1
        (getPartNameOffsetRange rows partName (resultOffsets.getD 0 0) (resultOffsets.getD (resultOffsets.length - 1) 0)).2).Pairwise
      fun a b => a.1 < b.1 ∧ a.2 < b.2 := by
  have hless := fun i j hi' hij hj =>
    @getD_offset_lt rows partName hrows (resultOffsets.getD 0 0) (resultOffsets.getD (resultOffsets.length - 1) 0) i j hi' hij hj
  have hless' := fun i j (_ : 0 ≤ i) (hij : i < j) (hj : j < resultOffsets.length) => getD_lt_of_pairwise hresult hij hj
  have hA := pairwise_rowsFrom hless
  have hB := pairwise_rowsFrom hless'
  unfold iteratedPairs
  rw [List.pairwise_map]
  refine List.Pairwise.imp_of_mem (fun {a b} ha hb hab => ?_) (SortedLists.pairwise_mergeJoin hA hB)
  obtain ⟨ha, har, haeq⟩ := (SortedLists.mem_mergeJoin hA hB).1 ha
  obtain ⟨hb, hbr, hbeq⟩ := (SortedLists.mem_mergeJoin hA hB).1 hb
  change a.1.1 < b.1.1 ∧ a.2.1 < b.2.1
  exact ⟨row_lt_of_offset_lt hless ha hb hab, row_lt_of_offset_lt hless' har hbr (by rwa [haeq, hbeq] at hab)⟩

omit hrows in
theorem getD_contiguous (hlt : ∀ o ∈ resultOffsets, o < 2 ^ 64) (hne : resultOffsets ≠ [])
    (hcontiguous : addSize (subSize (resultOffsets.getD (resultOffsets.length - 1) 0) (resultOffsets.getD 0 0)) 1 = resultOffsets.length)
    {i : ℕ} (hi' : i < resultOffsets.length) : resultOffsets.getD i 0 = resultOffsets.getD 0 0 + i := by
  have hlen : 0 < resultOffsets.length := List.length_pos_iff.2 hne
  have hlast : resultOffsets.getD (resultOffsets.length - 1) 0 < 2 ^ 64 := by
    rw [List.getD_eq_getElem _ _ (by omega)]
    exact hlt _ (List.getElem_mem _)
  have hbounds := getD_bounds hresult hi'
  have hspan : resultOffsets.getD (resultOffsets.length - 1) 0 = resultOffsets.getD 0 0 + (resultOffsets.length - 1) := by
    have hle := (getD_bounds hresult hlen).2
    rw [subSize_of_le hle hlast] at hcontiguous
    unfold addSize at hcontiguous
    omega
  -- Each step is at least one, and all of them together are no more.
  have hstep : ∀ k j, j + k < resultOffsets.length → resultOffsets.getD j 0 + k ≤ resultOffsets.getD (j + k) 0 := by
    intro k
    induction k with
    | zero => exact fun j _ => le_rfl
    | succ k ih =>
      intro j hj
      have hk := ih j (by omega)
      have hnext := getD_lt_of_pairwise hresult (Nat.lt_succ_self (j + k)) hj
      rw [← Nat.add_assoc j k 1]
      exact (Nat.succ_le_succ hk).trans hnext
  have hlow := hstep i 0 (by omega)
  have hhigh := hstep (resultOffsets.length - 1 - i) i (by omega)
  rw [Nat.zero_add] at hlow
  rw [show i + (resultOffsets.length - 1 - i) = resultOffsets.length - 1 by omega] at hhigh
  omega

/-- **Without gaps, the difference to the first offset is the result row**: both branches find the same pairs. -/
theorem contiguousPairs_eq (hlt : ∀ o ∈ resultOffsets, o < 2 ^ 64) (hne : resultOffsets ≠ [])
    (hcontiguous : addSize (subSize (resultOffsets.getD (resultOffsets.length - 1) 0) (resultOffsets.getD 0 0)) 1 = resultOffsets.length) :
    contiguousPairs (rows.map PatchRow.partOffset)
        (getPartNameOffsetRange rows partName (resultOffsets.getD 0 0) (resultOffsets.getD (resultOffsets.length - 1) 0)).1
        (getPartNameOffsetRange rows partName (resultOffsets.getD 0 0) (resultOffsets.getD (resultOffsets.length - 1) 0)).2
        (resultOffsets.getD 0 0) =
      iteratedPairs (rows.map PatchRow.partOffset) resultOffsets
        (getPartNameOffsetRange rows partName (resultOffsets.getD 0 0) (resultOffsets.getD (resultOffsets.length - 1) 0)).1
        (getPartNameOffsetRange rows partName (resultOffsets.getD 0 0) (resultOffsets.getD (resultOffsets.length - 1) 0)).2 := by
  have hcount := fun {i} (hi' : i < resultOffsets.length) => getD_contiguous hresult hlt hne hcontiguous hi'
  have hlen : 0 < resultOffsets.length := List.length_pos_iff.2 hne
  refine @SortedLists.eq_of_mem_iff _ _ _ _ id _ _ (?_ : List.Pairwise (fun a b : ℕ × ℕ => a.1 < b.1) _)
    ((pairwise_iteratedPairs hrows hresult).imp fun h => h.1) fun ⟨p, r⟩ => ?_
  · unfold contiguousPairs rowsFrom
    rw [List.map_map, List.pairwise_map]
    exact List.pairwise_lt_range'
  · rw [mem_iteratedPairs hrows hresult]
    unfold contiguousPairs
    simp only [List.mem_map, Prod.exists, Prod.mk.injEq]
    constructor
    · rintro ⟨p', po, hmem, rfl, rfl⟩
      obtain ⟨hb, he, rfl⟩ := mem_rowsFrom.1 hmem
      obtain ⟨row, hget, hpart, hlo, hhi⟩ := (mem_range_iff hrows).1 ⟨hb, he⟩
      have hoffset : (rows.map PatchRow.partOffset).getD p' 0 = row.partOffset := by simp [List.getD_eq_getElem?_getD, hget]
      have hlast := hcount (i := resultOffsets.length - 1) (by omega)
      have hrowlt : row.partOffset < 2 ^ 64 := by
        refine lt_of_le_of_lt hhi ?_
        rw [List.getD_eq_getElem _ _ (by omega)]
        exact hlt _ (List.getElem_mem _)
      have hr : row.partOffset - resultOffsets.getD 0 0 < resultOffsets.length := by omega
      refine ⟨row, hget, hpart, ?_⟩
      rw [hoffset, subSize_of_le hlo hrowlt, List.getElem?_eq_getElem hr, ← List.getD_eq_getElem _ 0 hr, hcount hr]
      congr 1
      omega
    · rintro ⟨row, hget, hpart, hoffset⟩
      obtain ⟨hr, hrow⟩ := List.getElem?_eq_some_iff.1 hoffset
      have hbounds := getD_bounds hresult hr
      have hrcount := hcount hr
      rw [List.getD_eq_getElem _ _ hr, hrow] at hbounds hrcount
      obtain ⟨hb, he⟩ := (mem_range_iff hrows).2 ⟨row, hget, hpart, hbounds⟩
      refine ⟨p, row.partOffset, mem_rowsFrom.2 ⟨hb, he, by simp [List.getD_eq_getElem?_getD, hget]⟩, rfl, ?_⟩
      have hrowlt : row.partOffset < 2 ^ 64 := hlt _ (List.mem_of_getElem? hoffset)
      rw [subSize_of_le hbounds.1 hrowlt]
      omega

end Pairs

/-! ## The function -/

/-- The pairs of a patch to apply. -/
def PatchToApply.rowPairs {S V : Type} (patch : PatchToApply S V) : List (ℕ × ℕ) := patch.patchRowIndices.zip patch.resultRowIndices

/-- **`applyPatchMerge` pairs the rows with equal offsets**: the range of the patch rows is exact, the pairs are exactly the
patch rows of the part and the result rows with the same offset, in ascending order, and for offsets without gaps they are
the pairs that the two iterators would find. -/
theorem applyPatchMerge_spec {S V P : Type} (resultOffsets : List ℕ) (patchBlock : MergePatchBlock S V) (patch : PatchPartInfo P)
    (partName : String) (hpart : patch.sourceParts = [partName]) (hresult : resultOffsets.Pairwise (· < ·))
    (hlt : ∀ o ∈ resultOffsets, o < 2 ^ 64) (hrows : SortedForPart partName patchBlock.rows) :
    let first := resultOffsets.getD 0 0
    let last := resultOffsets.getD (resultOffsets.length - 1) 0
    let range := getPartNameOffsetRange patchBlock.rows partName first last
    let patchOffsets := patchBlock.rows.map PatchRow.partOffset
    (∃ result, applyPatchMerge resultOffsets patchBlock patch = .ok result ∧
      result.patchRowIndices.length = result.resultRowIndices.length ∧
      (∀ p r, (p, r) ∈ result.rowPairs ↔ Matches patchBlock.rows partName resultOffsets p r) ∧
      result.rowPairs.Pairwise fun a b => a.1 < b.1 ∧ a.2 < b.2) ∧
    (∀ p, range.1 ≤ p ∧ p < range.2 ↔
      ∃ row, patchBlock.rows[p]? = some row ∧ row.part = partName ∧ first ≤ row.partOffset ∧ row.partOffset ≤ last) ∧
    (resultOffsets ≠ [] → addSize (subSize last first) 1 = resultOffsets.length →
      contiguousPairs patchOffsets range.1 range.2 first = iteratedPairs patchOffsets resultOffsets range.1 range.2) := by
  intro first last range patchOffsets
  refine ⟨?_, fun p => mem_range_iff hrows, contiguousPairs_eq hrows hresult hlt⟩
  unfold applyPatchMerge
  rw [hpart]
  simp only
  by_cases hempty : resultOffsets.length = 0 ∨ patchBlock.rows.length = 0
  · rw [if_pos hempty]
    refine ⟨{}, rfl, rfl, fun p r => ⟨nofun, ?_⟩, List.Pairwise.nil⟩
    rintro ⟨row, hget, -, hoffset⟩
    rcases hempty with hempty | hempty
    · rw [List.length_eq_zero_iff.1 hempty] at hoffset
      cases hoffset
    · rw [List.length_eq_zero_iff.1 hempty] at hget
      cases hget
  · rw [if_neg hempty]
    have hne : resultOffsets ≠ [] := fun h => hempty (Or.inl (by rw [h]; rfl))
    have hpairs : (if addSize (subSize last first) 1 = resultOffsets.length then contiguousPairs patchOffsets range.1 range.2 first
        else iteratedPairs patchOffsets resultOffsets range.1 range.2) = iteratedPairs patchOffsets resultOffsets range.1 range.2 := by
      split_ifs with hcontiguous
      · exact contiguousPairs_eq hrows hresult hlt hne hcontiguous
      · rfl
    refine ⟨_, rfl, ?_⟩
    simp only [PatchToApply.rowPairs]
    rw [hpairs, ← List.unzip_fst, ← List.unzip_snd, List.zip_unzip]
    exact ⟨by simp, fun p r => mem_iteratedPairs hrows hresult, pairwise_iteratedPairs hrows hresult⟩

theorem applyPatchMerge_spec_gap :
    let rows : List PatchRow := [⟨"a", 5⟩, ⟨"b", 1⟩, ⟨"b", 3⟩, ⟨"b", 4⟩, ⟨"c", 0⟩]
    let patch : PatchPartInfo Unit := { mode := .merge, part := (), sourceParts := ["b"] }
    ∃ result, applyPatchMerge [1, 2, 4] (⟨rows, {}⟩ : MergePatchBlock Unit Unit) patch = .ok result ∧ (3, 2) ∈ result.rowPairs ∧
      (2, 1) ∉ result.rowPairs := by
  intro rows patch
  have hspec := applyPatchMerge_spec [1, 2, 4] (⟨rows, {}⟩ : MergePatchBlock Unit Unit) patch "b" rfl (by decide) (by decide)
    (by unfold SortedForPart; decide)
  obtain ⟨⟨result, hresult, -, hmem, -⟩, -⟩ := hspec
  refine ⟨result, hresult, (hmem 3 2).2 ⟨⟨"b", 4⟩, rfl, rfl, rfl⟩, fun h => ?_⟩
  obtain ⟨row, hrow, -, hoffset⟩ := (hmem 2 1).1 h
  obtain rfl := Option.some.inj hrow
  cases hoffset

end MergeTree
