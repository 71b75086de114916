import MergeTree.Spec.IndexGranularity

/-!
# The granularity that fits the rows

* `fixFromRowsCount` takes the marks of a file apart into the data marks and the final mark. It does, unless the
  sum of the rows and the granularity wraps around (`fixFromRowsCount_iff`).
* `computeIndexGranularity` chooses the rows of a granule from the bytes of a block, to within a factor of two
  (`computeIndexGranularity_bounds`).
-/

namespace MergeTree

/-! ## Marks of a constant granularity -/

namespace GranularityConstant

variable {c : GranularityConstant} {rows g m : ℕ}

/-- The data marks of so many rows. -/
def dataMarks (rows granularity : ℕ) : ℕ := (rows + granularity - 1) / granularity

theorem dataMarks_spec (hg : 0 < g) (hrows : 0 < rows) :
    0 < dataMarks rows g ∧ (dataMarks rows g - 1) * g < rows ∧ rows ≤ (dataMarks rows g - 1) * g + g := by
  have hdiv := Nat.div_add_mod (rows + g - 1) g
  have hmod := Nat.mod_lt (rows + g - 1) hg
  have hpos : 0 < dataMarks rows g := Nat.div_pos (by omega) hg
  have hprod : g * ((rows + g - 1) / g) = (dataMarks rows g - 1) * g + g := by
    rw [mul_comm]
    change dataMarks rows g * g = _
    rw [← Nat.succ_mul, Nat.succ_eq_add_one, Nat.sub_add_cancel hpos]
  omega

/-- **The granularity fits the rows**, and the marks are those that there were. -/
structure FitsRows (fixed : GranularityConstant) (granularity marks rows : ℕ) : Prop where
  totalRows : fixed.getTotalRows = rows
  dataMarks : fixed.numMarksWithoutFinal = dataMarks rows granularity
  lastMark : ∃ last, fixed.getMarkRows (fixed.numMarksWithoutFinal - 1) = .ok last ∧ 1 ≤ last ∧ last ≤ granularity
  finalMark : fixed.hasFinalMark = true ↔ marks = GranularityConstant.dataMarks rows granularity + 1
  marksCount : fixed.getMarksCount = marks
  again : fixed.fixFromRowsCount rows = fixed

/-- The marks of the rows, with the rows that are left in the last one. -/
def ofRows (granularity rows : ℕ) (hasFinalMark : Bool) : GranularityConstant :=
  ⟨granularity, rows - (dataMarks rows granularity - 1) * granularity, dataMarks rows granularity, hasFinalMark⟩

theorem expected_of_le (hg : 0 < g) (h : rows + g ≤ 2 ^ 64) : subSize (addSize rows g) 1 = rows + g - 1 := by
  unfold subSize addSize
  omega

theorem expected_of_gt (hg : g < 2 ^ 64) (hrows : rows < 2 ^ 64) (h : 2 ^ 64 < rows + g) : subSize (addSize rows g) 1 / g = 0 := by
  refine Nat.div_eq_of_lt ?_
  unfold subSize addSize
  omega

theorem fix_lastMark (hg : 0 < g) (hpos : 0 < rows) (hrows : rows < 2 ^ 64) :
    subSize (dataMarks rows g) 1 = dataMarks rows g - 1 ∧ mulSize (dataMarks rows g - 1) g = (dataMarks rows g - 1) * g ∧
      subSize rows ((dataMarks rows g - 1) * g) = rows - (dataMarks rows g - 1) * g := by
  obtain ⟨hmarks, hlt, hle⟩ := dataMarks_spec hg hpos
  have hcount : dataMarks rows g - 1 ≤ (dataMarks rows g - 1) * g := Nat.le_mul_of_pos_right _ hg
  exact ⟨subSize_of_le hmarks (by omega), mulSize_of_lt (by omega), subSize_of_le hlt.le hrows⟩

/-- With the right number of data marks, or one more that is the final mark, the result is the granularity of the rows. -/
theorem fixFromRowsCount_eq (hg : 0 < c.constantGranularity) (hsize : c.constantGranularity < 2 ^ 64) (hpos : 0 < rows)
    (hrows : rows < 2 ^ 64)
    (hmarks : if c.hasFinalMark then c.numMarksWithoutFinal = dataMarks rows c.constantGranularity
      else c.numMarksWithoutFinal = dataMarks rows c.constantGranularity ∧ rows + c.constantGranularity ≤ 2 ^ 64 ∨
        c.numMarksWithoutFinal = dataMarks rows c.constantGranularity + 1 ∧ c.numMarksWithoutFinal < 2 ^ 64) :
    c.fixFromRowsCount rows = ofRows c.constantGranularity rows
      (c.hasFinalMark || decide (c.numMarksWithoutFinal = dataMarks rows c.constantGranularity + 1)) := by
  obtain ⟨g, last, n, final⟩ := c
  obtain ⟨hdata, hlt, -⟩ := dataMarks_spec hg hpos
  obtain ⟨hsub, hmul, hrest⟩ := fix_lastMark hg hpos hrows
  have hexpected : (if rows = 0 then 0 else subSize (addSize rows g) 1 / g) = dataMarks rows g ∨
      (if rows = 0 then 0 else subSize (addSize rows g) 1 / g) = 0 ∧ 2 ^ 64 < rows + g := by
    rw [if_neg hpos.ne']
    rcases le_or_gt (rows + g) (2 ^ 64) with hle | hgt
    · exact Or.inl (by rw [expected_of_le hg hle]; rfl)
    · exact Or.inr ⟨expected_of_gt hsize hrows hgt, hgt⟩
  unfold fixFromRowsCount ofRows
  simp only at *
  cases final with
  | true =>
    rw [if_pos rfl] at hmarks
    subst hmarks
    simp [hdata, hdata.ne', hsub, hmul, hrest, hlt]
  | false =>
    rw [if_neg Bool.false_ne_true] at hmarks
    rcases hmarks with ⟨rfl, hle⟩ | ⟨rfl, hn⟩
    · rcases hexpected with hexpected | ⟨-, hgt⟩
      · simp [hexpected, hdata, hdata.ne', hsub, hmul, hrest, hlt]
      · omega
    · have hless : (if rows = 0 then 0 else subSize (addSize rows g) 1 / g) < dataMarks rows g + 1 := by
        rcases hexpected with hexpected | ⟨hexpected, -⟩ <;> omega
      have hone : subSize (dataMarks rows g + 1) 1 = dataMarks rows g := subSize_of_le (Nat.succ_pos _) hn
      simp [hless, hone, hdata, hsub, hmul, hrest, hlt]

theorem fitsRows_ofRows (hg : 0 < g) (hsize : g < 2 ^ 64) (hpos : 0 < rows) (hrows : rows < 2 ^ 64) {final : Bool}
    (hfinal : final = false → rows + g ≤ 2 ^ 64) :
    FitsRows (ofRows g rows final) g (dataMarks rows g + if final then 1 else 0) rows := by
  obtain ⟨hdata, hlt, hle⟩ := dataMarks_spec hg hpos
  obtain ⟨hsub, hmul, hrest⟩ := fix_lastMark hg hpos hrows
  refine ⟨?_, rfl, ⟨rows - (dataMarks rows g - 1) * g, ?_, by omega, by omega⟩, ?_, rfl, ?_⟩
  · unfold getTotalRows ofRows
    simp only [hdata.ne', if_false, hsub]
    rw [mul_comm] at hmul
    rw [mulSize_of_lt (by rw [mul_comm]; omega), addSize_of_lt (by rw [mul_comm]; omega), mul_comm]
    omega
  · unfold getMarkRows getMarksCount ofRows
    simp only
    rw [if_neg (by omega), if_neg (by omega), if_pos (by omega)]
  · cases final <;> simp [ofRows]
  · rw [fixFromRowsCount_eq hg hsize hpos hrows]
    · simp [ofRows]
    · cases final with
      | true => rfl
      | false => exact Or.inl ⟨rfl, hfinal rfl⟩

theorem hasFinalMark_of_gt (hsize : c.constantGranularity < 2 ^ 64) (hrows : rows < 2 ^ 64)
    (hgt : 2 ^ 64 < rows + c.constantGranularity) (hn : 0 < c.numMarksWithoutFinal) : (c.fixFromRowsCount rows).hasFinalMark = true := by
  unfold fixFromRowsCount
  have hexpected := expected_of_gt hsize hrows hgt
  simp only [hn.ne', if_false, show rows ≠ 0 by omega, hexpected, hn, true_and]
  cases h : c.hasFinalMark <;> simp only [h, Bool.false_eq_true, not_true_eq_false, not_false_eq_true, if_true, if_false] <;>
    split_ifs <;> rfl

/-- **`fixFromRowsCount` repairs the marks of a file** exactly when the sum of the rows and the granularity does not
wrap around, or the final mark is there. -/
theorem fixFromRowsCount_iff (hg : 0 < c.constantGranularity) (hsize : c.constantGranularity < 2 ^ 64) (hpos : 0 < rows)
    (hrows : rows < 2 ^ 64) (hfinal : c.hasFinalMark = false) (hn : c.numMarksWithoutFinal < 2 ^ 64)
    (hmarks : c.numMarksWithoutFinal = dataMarks rows c.constantGranularity ∨
      c.numMarksWithoutFinal = dataMarks rows c.constantGranularity + 1) :
    FitsRows (c.fixFromRowsCount rows) c.constantGranularity c.numMarksWithoutFinal rows ↔
      rows + c.constantGranularity ≤ 2 ^ 64 ∨ c.numMarksWithoutFinal = dataMarks rows c.constantGranularity + 1 := by
  have hdata := (dataMarks_spec hg hpos).1
  constructor
  · intro h
    rcases le_or_gt (rows + c.constantGranularity) (2 ^ 64) with hle | hgt
    · exact Or.inl hle
    · exact Or.inr (h.finalMark.1 (hasFinalMark_of_gt hsize hrows hgt (by omega)))
  · intro h
    rw [fixFromRowsCount_eq hg hsize hpos hrows (by rw [hfinal, if_neg Bool.false_ne_true]; omega), hfinal, Bool.false_or]
    have hfinal' : decide (c.numMarksWithoutFinal = dataMarks rows c.constantGranularity + 1) = false →
        rows + c.constantGranularity ≤ 2 ^ 64 := by simp only [decide_eq_false_iff_not]; omega
    have hfits := fitsRows_ofRows hg hsize hpos hrows hfinal'
    convert hfits using 1
    split_ifs with h1 <;> simp only [decide_eq_true_eq] at h1 <;> omega

theorem fixFromRowsCount_iff_partial :
    FitsRows (fixFromRowsCount ⟨10, 10, 3, false⟩ 25) 10 3 25 ↔ 25 + 10 ≤ 2 ^ 64 ∨ 3 = dataMarks 25 10 + 1 :=
  fixFromRowsCount_iff (c := ⟨10, 10, 3, false⟩) (by decide) (by decide) (by decide) (by decide) rfl (by decide) (by decide)

/-- Ten rows under the greatest granularity: their only mark is taken for the final mark, and they are lost. -/
theorem fixFromRowsCount_losesRows :
    dataMarks 10 (2 ^ 64 - 1) = 1 ∧ fixFromRowsCount ⟨2 ^ 64 - 1, 2 ^ 64 - 1, 1, false⟩ 10 = ⟨2 ^ 64 - 1, 2 ^ 64 - 1, 0, true⟩ ∧
      (fixFromRowsCount ⟨2 ^ 64 - 1, 2 ^ 64 - 1, 1, false⟩ 10).getTotalRows = 0 ∧
      ¬ FitsRows (fixFromRowsCount ⟨2 ^ 64 - 1, 2 ^ 64 - 1, 1, false⟩ 10) (2 ^ 64 - 1) 1 10 := by
  refine ⟨by decide, by decide, by decide, fun h => ?_⟩
  exact absurd h.totalRows (by decide)

end GranularityConstant

/-! ## The granularity of a block -/

/-- The rows of a granule before the clamps. -/
def rowsOfGranule (rows bytes indexGranularityBytes : ℕ) : ℕ :=
  if indexGranularityBytes ≤ bytes then rows / (bytes / indexGranularityBytes) else indexGranularityBytes / max (bytes / rows) 1

variable {rows bytes indexGranularityBytes fixed : ℕ}

theorem computeIndexGranularity_eq (hrows : 0 < rows) (hlimit : 0 < indexGranularityBytes) :
    computeIndexGranularity rows bytes indexGranularityBytes fixed false true =
      some (max 1 (min fixed (rowsOfGranule rows bytes indexGranularityBytes))) := by
  have hclamp : ∀ g, (if g = 0 then 1 else g) = max 1 g := fun g => by split_ifs <;> omega
  unfold computeIndexGranularity divSize rowsOfGranule
  by_cases h : indexGranularityBytes ≤ bytes
  · have hgranules : bytes / indexGranularityBytes ≠ 0 := (Nat.div_pos h hlimit).ne'
    simp only [h, hlimit.ne', hgranules, if_true, if_false, Bool.not_true, Bool.not_false, Bool.false_eq_true, Option.bind_eq_bind,
      Option.bind_some]
    exact congrArg some (hclamp _)
  · have hbytes : max (bytes / rows) 1 ≠ 0 := by omega
    simp only [h, hrows.ne', hbytes, if_true, if_false, Bool.not_true, Bool.not_false, Bool.false_eq_true, Option.bind_eq_bind,
      Option.bind_some]
    exact congrArg some (hclamp _)

theorem rowsOfGranule_lt (hrows : 0 < rows) (hlimit : 0 < indexGranularityBytes)
    (h : 0 < rowsOfGranule rows bytes indexGranularityBytes) :
    rowsOfGranule rows bytes indexGranularityBytes * bytes < 2 * indexGranularityBytes * rows := by
  unfold rowsOfGranule at *
  split_ifs at * with hle
  · -- With `k` granules of the limit in the block, the bytes are less than `k + 1` limits.
    set k := bytes / indexGranularityBytes
    have hk : 0 < k := Nat.div_pos hle hlimit
    have hbytes : bytes < (k + 1) * indexGranularityBytes := by
      rw [mul_comm]
      exact Nat.lt_mul_div_succ bytes hlimit
    have hquotient : rows / k * k ≤ rows := Nat.div_mul_le_self rows k
    calc rows / k * bytes < rows / k * ((k + 1) * indexGranularityBytes) := Nat.mul_lt_mul_of_pos_left hbytes h
      _ ≤ rows / k * (2 * k * indexGranularityBytes) := Nat.mul_le_mul_left _ (Nat.mul_le_mul_right _ (by omega))
      _ = rows / k * k * (2 * indexGranularityBytes) := by ring
      _ ≤ rows * (2 * indexGranularityBytes) := Nat.mul_le_mul_right _ hquotient
      _ = 2 * indexGranularityBytes * rows := mul_comm _ _
  · -- A row has less than one byte more than its truncated size.
    set s := max (bytes / rows) 1
    have hbytes : bytes < 2 * s * rows := by
      have hdiv : bytes < rows * (bytes / rows + 1) := Nat.lt_mul_div_succ bytes hrows
      calc bytes < rows * (bytes / rows + 1) := hdiv
        _ ≤ rows * (2 * s) := Nat.mul_le_mul_left _ (by omega)
        _ = 2 * s * rows := mul_comm _ _
    have hquotient : indexGranularityBytes / s * s ≤ indexGranularityBytes := Nat.div_mul_le_self _ _
    calc indexGranularityBytes / s * bytes < indexGranularityBytes / s * (2 * s * rows) := Nat.mul_lt_mul_of_pos_left hbytes h
      _ = indexGranularityBytes / s * s * (2 * rows) := by ring
      _ ≤ indexGranularityBytes * (2 * rows) := Nat.mul_le_mul_right _ hquotient
      _ = 2 * indexGranularityBytes * rows := by ring

theorem lt_rowsOfGranule_succ (hrows : 0 < rows) (hlimit : 0 < indexGranularityBytes) (hbytes : rows ≤ bytes) :
    indexGranularityBytes * rows < (rowsOfGranule rows bytes indexGranularityBytes + 1) * bytes := by
  unfold rowsOfGranule
  split_ifs with hle
  · set k := bytes / indexGranularityBytes
    have hk : 0 < k := Nat.div_pos hle hlimit
    have hquotient : rows < (rows / k + 1) * k := by
      rw [mul_comm]
      exact Nat.lt_mul_div_succ rows hk
    calc indexGranularityBytes * rows < indexGranularityBytes * ((rows / k + 1) * k) := Nat.mul_lt_mul_of_pos_left hquotient hlimit
      _ = (rows / k + 1) * (k * indexGranularityBytes) := by ring
      _ ≤ (rows / k + 1) * bytes := Nat.mul_le_mul_left _ (Nat.div_mul_le_self bytes indexGranularityBytes)
  · have hone : 1 ≤ bytes / rows := Nat.div_pos hbytes hrows
    rw [max_eq_left hone]
    set s := bytes / rows
    have hquotient : indexGranularityBytes < (indexGranularityBytes / s + 1) * s := by
      rw [mul_comm]
      exact Nat.lt_mul_div_succ _ hone
    calc indexGranularityBytes * rows < (indexGranularityBytes / s + 1) * s * rows := Nat.mul_lt_mul_of_pos_right hquotient hrows
      _ = (indexGranularityBytes / s + 1) * (s * rows) := mul_assoc _ _ _
      _ ≤ (indexGranularityBytes / s + 1) * bytes := Nat.mul_le_mul_left _ (Nat.div_mul_le_self bytes rows)

/-- **The granule size is within a factor of two of the limit**, and no divisor is zero. -/
theorem computeIndexGranularity_bounds (hrows : 1 ≤ rows) (hlimit : 1 ≤ indexGranularityBytes) (hfixed : 1 ≤ fixed) :
    ∃ g, computeIndexGranularity rows bytes indexGranularityBytes fixed false true = some g ∧ 1 ≤ g ∧ g ≤ fixed ∧
      (g = 1 ∨ g * bytes < 2 * indexGranularityBytes * rows) ∧
      (rows ≤ bytes → g = fixed ∨ indexGranularityBytes * rows < (g + 1) * bytes) := by
  have hlt := @rowsOfGranule_lt rows bytes indexGranularityBytes hrows hlimit
  have hgt := @lt_rowsOfGranule_succ rows bytes indexGranularityBytes hrows hlimit
  refine ⟨_, computeIndexGranularity_eq hrows hlimit, le_max_left _ _, by omega, ?_, ?_⟩
  · set q := rowsOfGranule rows bytes indexGranularityBytes
    rcases Nat.eq_zero_or_pos q with hzero | hpos
    · exact Or.inl (by omega)
    · have hle : max 1 (min fixed q) ≤ q := by omega
      exact Or.inr (lt_of_le_of_lt (Nat.mul_le_mul_right _ hle) (hlt hpos))
  · intro hbytes
    set q := rowsOfGranule rows bytes indexGranularityBytes
    rcases le_or_gt fixed q with hle | hless
    · exact Or.inl (by omega)
    · have hle : q ≤ max 1 (min fixed q) := by omega
      exact Or.inr (lt_of_lt_of_le (hgt hbytes) (Nat.mul_le_mul_right _ (Nat.succ_le_succ hle)))

theorem computeIndexGranularity_bounds_block :
    ∃ g, computeIndexGranularity 100 2500 1000 8192 false true = some g ∧ 1 ≤ g ∧ g ≤ 8192 ∧
      (g = 1 ∨ g * 2500 < 2 * 1000 * 100) ∧ (100 ≤ 2500 → g = 8192 ∨ 1000 * 100 < (g + 1) * 2500) :=
  computeIndexGranularity_bounds (by decide) (by decide) (by decide)

end MergeTree
