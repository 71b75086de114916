import MergeTree.Lib.Lists
import MergeTree.Spec.IndexGranularity

/-!
# Constant granularity answers like adaptive granularity

When `optimize` returns a constant granularity, the partial sums are multiples of the
first mark, up to the last mark (`Shape`). Every query is then the same arithmetic on
both sides (`optimize_agrees`), but for `getRowsCountInRange` of a range that begins after
the last data mark: the constant side subtracts the range from the last mark and wraps
around.
-/

namespace MergeTree

namespace GranularityAdaptive

variable {a b : GranularityAdaptive} {c : GranularityConstant} {N : ℕ}

/-! ## Granularities that were built -/

/-- A granularity without final mark, built from marks with rows. The rows of a part fit
`size_t`. -/
inductive Data : GranularityAdaptive → Prop
  | empty : Data {}
  | append {a b : GranularityAdaptive} {rowsCount : ℕ} : Data a → 0 < rowsCount →
      a.getTotalRows + rowsCount < 2 ^ 64 → a.appendMark rowsCount = .ok b → Data b
  | adjust {a b : GranularityAdaptive} {rowsCount : ℕ} : Data a → 0 < rowsCount →
      (GranularityAdaptive.mk a.marksRowsPartialSums.dropLast).getTotalRows + rowsCount < 2 ^ 64 →
      a.adjustLastMark rowsCount = .ok b → Data b

/-- **A granularity that was built**, possibly with a final mark. -/
def Built (a : GranularityAdaptive) : Prop :=
  Data a ∨ ∃ b, Data b ∧ (b.appendMark 0 = .ok a ∨ b.adjustLastMark 0 = .ok a)

/-- Partial sums of marks with rows. -/
structure Ascending (sums : List ℕ) : Prop where
  ascending : sums.Pairwise (· < ·)
  positive : ∀ s ∈ sums, 0 < s ∧ s < 2 ^ 64

theorem Ascending.nil : Ascending [] := ⟨List.Pairwise.nil, by simp⟩

theorem Ascending.dropLast {sums : List ℕ} (h : Ascending sums) : Ascending sums.dropLast :=
  ⟨h.ascending.sublist (List.dropLast_sublist _), fun s hs => h.positive s (List.mem_of_mem_dropLast hs)⟩

theorem Ascending.concat {sums : List ℕ} (h : Ascending sums) {r : ℕ} (hr : 0 < r)
    (hlt : sums.getLastD 0 + r < 2 ^ 64) : Ascending (sums ++ [sums.getLastD 0 + r]) := by
  constructor
  · rw [List.pairwise_append]
    refine ⟨h.ascending, List.pairwise_singleton _ _, ?_⟩
    intro s hs t ht
    have hle := le_getLastD h.ascending hs
    rw [List.mem_singleton.1 ht]
    omega
  · intro s hs
    rcases List.mem_append.1 hs with hs | hs
    · exact h.positive s hs
    · rw [List.mem_singleton.1 hs]
      omega

theorem appendMark_eq_ok {r : ℕ} (h : a.appendMark r = .ok b) (hlt : a.getTotalRows + r < 2 ^ 64) :
    b.marksRowsPartialSums = a.marksRowsPartialSums ++ [a.marksRowsPartialSums.getLastD 0 + r] := by
  unfold appendMark at h
  by_cases hfinal : a.hasFinalMark = true
  · rw [if_pos hfinal] at h
    cases h
  · rw [if_neg hfinal] at h
    by_cases hempty : a.marksRowsPartialSums.isEmpty = true
    · rw [if_pos hempty] at h
      cases h
      rw [List.isEmpty_iff.1 hempty]
      simp
    · rw [if_neg hempty] at h
      cases h
      have hadd : addSize (a.marksRowsPartialSums.getLastD 0) r = a.marksRowsPartialSums.getLastD 0 + r :=
        addSize_of_lt hlt
      simp only [hadd]

theorem adjustLastMark_eq_ok {r : ℕ} (h : a.adjustLastMark r = .ok b)
    (hlt : (GranularityAdaptive.mk a.marksRowsPartialSums.dropLast).getTotalRows + r < 2 ^ 64) :
    b.marksRowsPartialSums =
      a.marksRowsPartialSums.dropLast ++ [a.marksRowsPartialSums.dropLast.getLastD 0 + r] := by
  unfold adjustLastMark at h
  by_cases hfinal : a.hasFinalMark = true
  · rw [if_pos hfinal] at h
    cases h
  · rw [if_neg hfinal] at h
    by_cases hempty : a.marksRowsPartialSums.isEmpty = true
    · rw [if_pos hempty] at h
      cases h
      rw [List.isEmpty_iff.1 hempty]
      simp
    · rw [if_neg hempty] at h
      exact appendMark_eq_ok h hlt

theorem Data.ascending (h : Data a) : Ascending a.marksRowsPartialSums := by
  induction h with
  | empty => exact Ascending.nil
  | append _ hr hlt happend ih =>
    rw [appendMark_eq_ok happend hlt]
    exact ih.concat hr hlt
  | adjust _ hr hlt hadjust ih =>
    rw [adjustLastMark_eq_ok hadjust hlt]
    exact ih.dropLast.concat hr hlt

/-! ## Rows before a mark -/

/-- The rows before a mark. -/
def startAt (a : GranularityAdaptive) (mark : ℕ) : ℕ := if mark = 0 then 0 else a.sumAt (mark - 1)

theorem startAt_succ (a : GranularityAdaptive) (i : ℕ) : a.startAt (i + 1) = a.sumAt i := by simp [startAt]

theorem getMarkRows_eq (a : GranularityAdaptive) (mark : ℕ) (h : mark < a.getMarksCount) (hlt : a.sumAt mark < 2 ^ 64) :
    a.getMarkRows mark = .ok (subSize (a.sumAt mark) (a.startAt mark)) := by
  unfold getMarkRows startAt
  rw [if_neg (by omega)]
  by_cases h0 : mark = 0
  · subst h0
    simp [subSize_of_le (Nat.zero_le _) hlt]
  · simp [h0]

theorem getRowsCountInRange_eq (a : GranularityAdaptive) {b e : ℕ} (he : e ≤ a.getMarksCount) (h0 : e ≠ 0) :
    a.getRowsCountInRange b e = .ok (subSize (a.startAt e) (a.startAt b)) := by
  unfold getRowsCountInRange startAt
  rw [if_neg (by omega), if_neg h0, if_neg h0]
  by_cases hb : b = 0 <;> simp [hb]

/-- **The shape of a granularity that `optimize` replaces.** -/
structure Shape (a : GranularityAdaptive) (c : GranularityConstant) : Prop where
  marks : 0 < c.numMarksWithoutFinal
  rows : 0 < c.constantGranularity
  lastRows : 0 < c.lastMarkGranularity
  total : c.constantGranularity * (c.numMarksWithoutFinal - 1) + c.lastMarkGranularity < 2 ^ 64
  count : a.getMarksCount = c.getMarksCount
  withoutFinal : a.getMarksCountWithoutFinal = c.numMarksWithoutFinal
  final : a.hasFinalMark = c.hasFinalMark
  start : ∀ m ≤ c.getMarksCount, a.startAt m =
    if m < c.numMarksWithoutFinal then c.constantGranularity * m
    else c.constantGranularity * (c.numMarksWithoutFinal - 1) + c.lastMarkGranularity
  first : a.getMarkRows 0 = .ok c.constantGranularity
  last : a.getMarkRows (c.numMarksWithoutFinal - 1) = .ok c.lastMarkGranularity

theorem Ascending.getLastD_lt {sums : List ℕ} (h : Ascending sums) : sums.getLastD 0 + 0 < 2 ^ 64 := by
  rcases List.eq_nil_or_concat sums with hnil | ⟨l, x, hx⟩
  · simp [hnil]
  · have hpos := h.positive x (by simp [hx])
    simpa [hx] using hpos.2

/-- The partial sums of a granularity that was built: those of the data marks, and those
of the final mark. -/
theorem Built.sums (h : Built a) : ∃ sums, Ascending sums ∧
    (a.marksRowsPartialSums = sums ∨ a.marksRowsPartialSums = sums ++ [sums.getLastD 0]) := by
  rcases h with h | ⟨b, hb, happend | hadjust⟩
  · exact ⟨_, h.ascending, Or.inl rfl⟩
  · exact ⟨_, hb.ascending, Or.inr (appendMark_eq_ok happend hb.ascending.getLastD_lt)⟩
  · exact ⟨_, hb.ascending.dropLast, Or.inr (adjustLastMark_eq_ok hadjust hb.ascending.dropLast.getLastD_lt)⟩

theorem Ascending.getD_lt {sums : List ℕ} (h : Ascending sums) {i j : ℕ} (hij : i < j) (hj : j < sums.length) :
    sums.getD i 0 < sums.getD j 0 := by
  have hi : i < sums.length := by omega
  rw [List.getD_eq_getElem _ _ hi, List.getD_eq_getElem _ _ hj]
  exact List.pairwise_iff_getElem.1 h.ascending i j hi hj hij

theorem Ascending.getD_pos {sums : List ℕ} (h : Ascending sums) {i : ℕ} (hi : i < sums.length) :
    0 < sums.getD i 0 ∧ sums.getD i 0 < 2 ^ 64 := by
  rw [List.getD_eq_getElem _ _ hi]
  exact h.positive _ (List.getElem_mem hi)

theorem hasFinalMark_eq (a : GranularityAdaptive) {i : ℕ} (hcount : a.getMarksCount = i + 1)
    (hlt : a.sumAt i < 2 ^ 64) : a.hasFinalMark = decide (subSize (a.sumAt i) (a.startAt i) = 0) := by
  have hne : a.marksRowsPartialSums.isEmpty = false := by
    rw [List.isEmpty_eq_false_iff]
    intro hnil
    unfold getMarksCount at hcount
    simp [hnil] at hcount
  have hlast : a.getLastMarkRows = .ok (subSize (a.sumAt i) (a.startAt i)) := by
    unfold getLastMarkRows
    rw [hcount, Nat.add_sub_cancel]
    exact getMarkRows_eq a i (by omega) hlt
  unfold hasFinalMark
  rw [hne, hlast]
  simp

/-- The marks of a granularity: `N` with rows, then possibly the final one. -/
structure Marks (a : GranularityAdaptive) (N : ℕ) : Prop where
  withoutFinal : a.getMarksCountWithoutFinal = N
  count : a.getMarksCount = N + if a.hasFinalMark then 1 else 0
  data : ∀ i < N, a.startAt i < a.sumAt i ∧ a.sumAt i < 2 ^ 64
  rest : ∀ i, N ≤ i → i < a.getMarksCount → a.sumAt i = a.startAt N

theorem Ascending.startAt_lt {sums : List ℕ} (h : Ascending sums) {i : ℕ} (hi : i < sums.length) :
    (if i = 0 then 0 else sums.getD (i - 1) 0) < sums.getD i 0 := by
  by_cases h0 : i = 0
  · rw [if_pos h0]
    exact (h.getD_pos hi).1
  · rw [if_neg h0]
    exact h.getD_lt (by omega) hi

theorem marks_of_data (h : Ascending a.marksRowsPartialSums) : Marks a a.marksRowsPartialSums.length := by
  have hdata : ∀ i < a.marksRowsPartialSums.length, a.startAt i < a.sumAt i ∧ a.sumAt i < 2 ^ 64 := fun i hi =>
    ⟨h.startAt_lt hi, (h.getD_pos hi).2⟩
  have hfinal : a.hasFinalMark = false := by
    rcases Nat.eq_zero_or_pos a.marksRowsPartialSums.length with h0 | hpos
    · unfold hasFinalMark
      rw [List.eq_nil_of_length_eq_zero h0]
      rfl
    · obtain ⟨hlt, hsize⟩ := hdata (a.marksRowsPartialSums.length - 1) (by omega)
      have hcount : a.getMarksCount = a.marksRowsPartialSums.length - 1 + 1 := by
        unfold getMarksCount
        omega
      rw [hasFinalMark_eq a hcount hsize, decide_eq_false_iff_not, subSize_of_le hlt.le hsize]
      omega
  constructor
  · unfold getMarksCountWithoutFinal getMarksCount
    rw [hfinal]
    by_cases h0 : a.marksRowsPartialSums.length = 0 <;> simp [h0]
  · unfold getMarksCount
    simp [hfinal]
  · exact hdata
  · intro i hi hlt
    unfold getMarksCount at hlt
    omega

theorem marks_of_final {sums : List ℕ} (h : Ascending sums)
    (ha : a.marksRowsPartialSums = sums ++ [sums.getLastD 0]) : Marks a sums.length := by
  have hcount : a.getMarksCount = sums.length + 1 := by
    unfold getMarksCount
    simp [ha]
  have hsum : ∀ i < sums.length, a.sumAt i = sums.getD i 0 := by
    intro i hi
    unfold sumAt
    rw [ha, List.getD_append _ _ _ _ hi]
  have hstart : ∀ i ≤ sums.length, a.startAt i = if i = 0 then 0 else sums.getD (i - 1) 0 := by
    intro i hi
    unfold startAt
    by_cases h0 : i = 0
    · simp [h0]
    · rw [if_neg h0, if_neg h0, hsum (i - 1) (by omega)]
  have hrest : a.sumAt sums.length = a.startAt sums.length := by
    rw [hstart _ le_rfl]
    unfold sumAt
    rw [ha, List.getD_append_right _ _ _ _ le_rfl, Nat.sub_self, List.getD_cons_zero]
    by_cases h0 : sums.length = 0
    · rw [if_pos h0, List.eq_nil_of_length_eq_zero h0]
      rfl
    · rw [if_neg h0, getLastD_eq_getD]
  have hsize : a.startAt sums.length < 2 ^ 64 := by
    rw [hstart _ le_rfl]
    by_cases h0 : sums.length = 0
    · rw [if_pos h0]
      norm_num
    · rw [if_neg h0]
      exact (h.getD_pos (by omega)).2
  have hfinal : a.hasFinalMark = true := by
    rw [hasFinalMark_eq a hcount (by omega), hrest, subSize_of_le le_rfl hsize]
    simp
  constructor
  · unfold getMarksCountWithoutFinal
    rw [hcount, hfinal]
    simp
  · rw [hcount, hfinal]
    simp
  · intro i hi
    rw [hsum i hi, hstart i hi.le]
    exact ⟨h.startAt_lt hi, (h.getD_pos hi).2⟩
  · intro i hi hlt
    have hi' : i = sums.length := by omega
    rw [hi', hrest]

theorem Built.marks (h : Built a) : ∃ N, Marks a N := by
  obtain ⟨sums, hasc, ha | ha⟩ := h.sums
  · rw [← ha] at hasc
    exact ⟨_, marks_of_data hasc⟩
  · exact ⟨_, marks_of_final hasc ha⟩

theorem Marks.getMarkRows_eq (h : Marks a N) {i : ℕ} (hi : i < N) :
    a.getMarkRows i = .ok (a.sumAt i - a.startAt i) := by
  have hcount := h.count
  obtain ⟨hlt, hsize⟩ := h.data i hi
  rw [GranularityAdaptive.getMarkRows_eq a i (by omega) hsize, subSize_of_le hlt.le hsize]

theorem Marks.sameRows_spec (h : Marks a N) {g : ℕ} (hsame : a.sameRows g N = true) {i : ℕ} (h0 : 0 < i) (hi : i + 1 < N) :
    a.sumAt i = a.startAt i + g := by
  unfold sameRows at hsame
  rw [List.all_eq_true] at hsame
  have hrows := hsame i (List.mem_range'_1.2 (by omega))
  rw [h.getMarkRows_eq (by omega)] at hrows
  have hlt := (h.data i (by omega)).1
  have heq : a.sumAt i - a.startAt i = g := by simpa using hrows
  omega

theorem Marks.startAt_eq (h : Marks a N) {g : ℕ} (hg : a.sumAt 0 = g) (hsame : a.sameRows g N = true) :
    ∀ m < N, a.startAt m = g * m := by
  intro m
  induction m with
  | zero => exact fun _ => rfl
  | succ m ih =>
    intro hm
    rw [startAt_succ]
    by_cases h0 : m = 0
    · rw [h0, hg, Nat.mul_one]
    · rw [h.sameRows_spec hsame (by omega) hm, ih (by omega), Nat.mul_succ]

/-- **What `optimize` found.** -/
theorem Marks.shape (h : Marks a N) (hoptimize : a.optimize = some c) : Shape a c := by
  have hcount := h.count
  unfold optimize at hoptimize
  simp only [h.withoutFinal] at hoptimize
  by_cases h0 : N = 0
  · rw [if_pos h0] at hoptimize
    cases hoptimize
  · have hfirst := h.getMarkRows_eq (i := 0) (by omega)
    have hlast := h.getMarkRows_eq (i := N - 1) (by omega)
    have hstart0 : a.startAt 0 = 0 := rfl
    rw [hstart0, Nat.sub_zero] at hfirst
    rw [if_neg h0, hfirst, hlast] at hoptimize
    simp only at hoptimize
    by_cases hsame : a.sameRows (a.sumAt 0) N = true
    · rw [if_pos hsame] at hoptimize
      cases hoptimize
      have hpos := (h.data 0 (by omega)).1
      obtain ⟨hlt, hsize⟩ := h.data (N - 1) (by omega)
      have hmul := h.startAt_eq rfl hsame
      have hmulLast := hmul (N - 1) (by omega)
      have hN : a.startAt N = a.sumAt (N - 1) := by
        rw [← startAt_succ]
        congr 1
        omega
      have htotal : a.sumAt 0 * (N - 1) + (a.sumAt (N - 1) - a.startAt (N - 1)) = a.startAt N := by omega
      refine ⟨by show 0 < N; omega, by show 0 < a.sumAt 0; omega, by show 0 < _ - _; omega, ?_, hcount, h.withoutFinal, rfl, ?_, hfirst, hlast⟩
      · show a.sumAt 0 * (N - 1) + (a.sumAt (N - 1) - a.startAt (N - 1)) < 2 ^ 64
        omega
      · intro m hm
        have hm' : m ≤ a.getMarksCount := by rw [hcount]; exact hm
        show a.startAt m = if m < N then a.sumAt 0 * m else a.sumAt 0 * (N - 1) + (a.sumAt (N - 1) - a.startAt (N - 1))
        rw [htotal]
        by_cases hmN : m < N
        · rw [if_pos hmN, hmul m hmN]
        · rw [if_neg hmN]
          by_cases hmeq : m = N
          · rw [hmeq]
          · obtain ⟨k, rfl⟩ : ∃ k, m = k + 1 := ⟨m - 1, by omega⟩
            rw [startAt_succ, h.rest k (by omega) (by omega)]
    · rw [if_neg hsame] at hoptimize
      cases hoptimize

/-! ## The queries -/

section Shape

variable (S : Shape a c)

include S

theorem Shape.marks_lt : c.numMarksWithoutFinal < 2 ^ 64 := by
  have hmarks := S.marks
  have hlast := S.lastRows
  have htotal := S.total
  have hsize : c.numMarksWithoutFinal - 1 ≤ c.constantGranularity * (c.numMarksWithoutFinal - 1) :=
    Nat.le_mul_of_pos_left (c.numMarksWithoutFinal - 1) S.rows
  omega

theorem Shape.marksWithoutLast : subSize c.numMarksWithoutFinal 1 = c.numMarksWithoutFinal - 1 := by
  have hmarks := S.marks
  exact subSize_of_le (by omega) S.marks_lt

theorem Shape.getTotalRows_eq_add :
    c.getTotalRows = c.constantGranularity * (c.numMarksWithoutFinal - 1) + c.lastMarkGranularity := by
  have hmarks := S.marks
  have htotal := S.total
  unfold GranularityConstant.getTotalRows
  rw [if_neg (by omega), S.marksWithoutLast, mulSize_of_lt (by omega), addSize_of_lt htotal]

theorem Shape.start_of_lt {m : ℕ} (hm : m < c.numMarksWithoutFinal) :
    a.startAt m = c.constantGranularity * m := by
  have hcount : c.numMarksWithoutFinal ≤ c.getMarksCount := Nat.le_add_right _ _
  rw [S.start m (by omega), if_pos hm]

theorem Shape.start_of_ge {m : ℕ} (hm : c.numMarksWithoutFinal ≤ m) (hcount : m ≤ c.getMarksCount) :
    a.startAt m = c.getTotalRows := by
  rw [S.start m hcount, if_neg (by omega), S.getTotalRows_eq_add]

theorem Shape.getTotalRows_eq : c.getTotalRows = a.getTotalRows := by
  have hmarks := S.marks
  have hcount : a.marksRowsPartialSums.length = c.getMarksCount := S.count
  have hge : c.numMarksWithoutFinal ≤ c.getMarksCount := Nat.le_add_right _ _
  unfold getTotalRows
  rw [getLastD_eq_getD, hcount, ← S.start_of_ge hge le_rfl]
  unfold startAt sumAt
  rw [if_neg (by omega)]

/-! ### Rows of a mark -/

theorem Shape.getMarkRows_eq (i : ℕ) : c.getMarkRows i = a.getMarkRows i := by
  have hmarks := S.marks
  have htotal := S.getTotalRows_eq_add
  have hsize := S.total
  unfold GranularityConstant.getMarkRows
  by_cases hcount : c.getMarksCount ≤ i
  · unfold getMarkRows
    rw [if_pos hcount, S.count, if_pos hcount]
  · have hstart : a.startAt i ≤ a.startAt (i + 1) ∧ a.startAt (i + 1) < 2 ^ 64 ∧
        a.startAt (i + 1) - a.startAt i = if i + 1 < c.numMarksWithoutFinal then c.constantGranularity
          else if i + 1 = c.numMarksWithoutFinal then c.lastMarkGranularity else 0 := by
      by_cases hlt : i + 1 < c.numMarksWithoutFinal
      · have hmul : c.constantGranularity * (i + 1) ≤ c.constantGranularity * (c.numMarksWithoutFinal - 1) :=
          Nat.mul_le_mul_left _ (by omega)
        rw [if_pos hlt, S.start_of_lt hlt, S.start_of_lt (by omega), Nat.mul_succ]
        rw [Nat.mul_succ] at hmul
        omega
      · have hend := S.start_of_ge (m := i + 1) (by omega) (by omega)
        rw [if_neg hlt, hend]
        by_cases heq : i + 1 = c.numMarksWithoutFinal
        · have hi : i = c.numMarksWithoutFinal - 1 := by omega
          rw [if_pos heq, S.start_of_lt (by omega), htotal, hi]
          omega
        · rw [if_neg heq, S.start_of_ge (by omega) (by omega)]
          omega
    rw [if_neg hcount]
    rw [startAt_succ] at hstart
    have hcount' : i < a.getMarksCount := by rw [S.count]; omega
    rw [GranularityAdaptive.getMarkRows_eq a i hcount' hstart.2.1, subSize_of_le hstart.1 hstart.2.1, hstart.2.2]
    by_cases hlt : i + 1 < c.numMarksWithoutFinal
    · rw [if_pos hlt, if_pos hlt]
    · rw [if_neg hlt, if_neg hlt]
      by_cases heq : i + 1 = c.numMarksWithoutFinal
      · rw [if_pos heq, if_pos heq]
      · rw [if_neg heq, if_neg heq]

/-! ### Marks of a row -/

theorem Shape.getMarkUpperBoundForRow_eq (x : ℕ) : c.getMarkUpperBoundForRow x =
    if c.getTotalRows ≤ x then c.getMarksCount
    else if c.constantGranularity * (c.numMarksWithoutFinal - 1) ≤ x then c.numMarksWithoutFinal - 1
    else x / c.constantGranularity := by
  have htotal := S.total
  have hmul : c.constantGranularity * (c.numMarksWithoutFinal - 1) =
      (c.numMarksWithoutFinal - 1) * c.constantGranularity := Nat.mul_comm _ _
  unfold GranularityConstant.getMarkUpperBoundForRow
  rw [S.marksWithoutLast, mulSize_of_lt (by omega), hmul]

theorem Shape.startAt_le_total {m : ℕ} (hm : m ≤ c.getMarksCount) : a.startAt m ≤ c.getTotalRows := by
  by_cases hlt : m < c.numMarksWithoutFinal
  · have hmul : c.constantGranularity * m ≤ c.constantGranularity * (c.numMarksWithoutFinal - 1) :=
      Nat.mul_le_mul_left _ (by omega)
    rw [S.start_of_lt hlt, S.getTotalRows_eq_add]
    omega
  · rw [S.start_of_ge (by omega) hm]

/-- The mark of a row: the marks before it end at the row or earlier, the mark itself
ends later. -/
theorem Shape.markOfRow (x : ℕ) : c.getMarkUpperBoundForRow x ≤ c.getMarksCount ∧
    (∀ j < c.getMarkUpperBoundForRow x, a.startAt (j + 1) ≤ x) ∧
    (c.getMarkUpperBoundForRow x < c.getMarksCount → x < a.startAt (c.getMarkUpperBoundForRow x + 1)) := by
  have hmarks := S.marks
  have hge : c.numMarksWithoutFinal ≤ c.getMarksCount := Nat.le_add_right _ _
  rw [S.getMarkUpperBoundForRow_eq x]
  by_cases htotal : c.getTotalRows ≤ x
  · rw [if_pos htotal]
    refine ⟨le_rfl, fun j hj => (S.startAt_le_total (by omega)).trans htotal, fun h => absurd h (lt_irrefl _)⟩
  · rw [if_neg htotal]
    by_cases hlast : c.constantGranularity * (c.numMarksWithoutFinal - 1) ≤ x
    · rw [if_pos hlast]
      refine ⟨by omega, ?_, fun _ => ?_⟩
      · intro j hj
        have hmul : c.constantGranularity * (j + 1) ≤ c.constantGranularity * (c.numMarksWithoutFinal - 1) :=
          Nat.mul_le_mul_left _ (by omega)
        rw [S.start_of_lt (by omega)]
        omega
      · rw [S.start_of_ge (by omega) (by omega)]
        omega
    · rw [if_neg hlast]
      have hdiv : x / c.constantGranularity < c.numMarksWithoutFinal - 1 :=
        Nat.div_lt_of_lt_mul (by omega)
      refine ⟨by omega, ?_, fun _ => ?_⟩
      · intro j hj
        rw [S.start_of_lt (by omega), Nat.mul_comm]
        exact (Nat.le_div_iff_mul_le S.rows).1 hj
      · rw [S.start_of_lt (by omega)]
        exact Nat.lt_mul_div_succ x S.rows

/-- **`upper_bound` is a division.** -/
theorem Shape.upperBound_eq (x : ℕ) : a.upperBound x = c.getMarkUpperBoundForRow x := by
  obtain ⟨hle, hbefore, hat⟩ := S.markOfRow x
  have hcount : a.marksRowsPartialSums.length = c.getMarksCount := S.count
  unfold upperBound
  apply findIdx_eq_of
  · omega
  · intro j hj
    have hj' := hbefore j hj
    rw [startAt_succ] at hj'
    simpa [sumAt] using hj'
  · intro hlt
    have hlt' := hat (by omega)
    rw [startAt_succ] at hlt'
    simpa [sumAt] using hlt'

theorem Shape.lowerBound_eq {x : ℕ} (hx : x + 1 < 2 ^ 64) :
    a.lowerBound (addSize x 1) = c.getMarkUpperBoundForRow x := by
  rw [← S.upperBound_eq]
  unfold lowerBound upperBound
  rw [addSize_of_lt hx]
  congr 1

theorem Shape.getMarkRangeForRowOffset_eq {r : ℕ} (hr : r < c.getTotalRows) :
    c.getMarkRangeForRowOffset r = a.getMarkRangeForRowOffset r := by
  have htotal := S.total
  have hrows := S.getTotalRows_eq_add
  have hmul : mulSize c.constantGranularity (c.numMarksWithoutFinal - 1) =
      c.constantGranularity * (c.numMarksWithoutFinal - 1) := mulSize_of_lt (by omega)
  have hlower : a.lowerBound (addSize r 1) =
      if c.constantGranularity * (c.numMarksWithoutFinal - 1) ≤ r then c.numMarksWithoutFinal - 1
      else r / c.constantGranularity := by
    rw [S.lowerBound_eq (by omega), S.getMarkUpperBoundForRow_eq, if_neg (by omega)]
  unfold getMarkRangeForRowOffset GranularityConstant.getMarkRangeForRowOffset
  simp only [hlower, S.marksWithoutLast, hmul]
  by_cases hlt : r < c.constantGranularity * (c.numMarksWithoutFinal - 1)
  · rw [if_pos hlt, if_neg (by omega)]
  · rw [if_neg hlt, if_pos (by omega)]

/-! ### Rows of a range -/

/-- **What `getRowsCountInRange` computes** when the granularity is constant. -/
theorem Shape.constantRange_eq {b e : ℕ} (he : e ≤ c.getMarksCount) (h0 : e ≠ 0) :
    c.getRowsCountInRange b e = .ok (subSize (a.startAt e) (c.constantGranularity * b)) := by
  unfold GranularityConstant.getRowsCountInRange
  rw [if_neg (by omega), if_neg h0]
  by_cases hge : c.numMarksWithoutFinal ≤ e
  · rw [if_pos hge, S.start_of_ge hge he, S.marksWithoutLast, mulSize_subSize, addSize_subSize,
      S.getTotalRows_eq_add, Nat.add_comm]
  · rw [if_neg hge, S.start_of_lt (by omega), mulSize_subSize]

theorem Shape.range_eq_iff {b e : ℕ} (he : e ≤ c.getMarksCount) (h0 : e ≠ 0) :
    c.getRowsCountInRange b e = a.getRowsCountInRange b e ↔
      subSize (a.startAt e) (c.constantGranularity * b) = subSize (a.startAt e) (a.startAt b) := by
  rw [S.constantRange_eq he h0, getRowsCountInRange_eq a (by rw [S.count]; exact he) h0,
    Except.ok.injEq]

/-- **A range that begins at a data mark** has the same rows on both sides. -/
theorem Shape.range_eq {b : ℕ} (hb : b < c.numMarksWithoutFinal) (e : ℕ) :
    c.getRowsCountInRange b e = a.getRowsCountInRange b e := by
  by_cases he : e ≤ c.getMarksCount
  · by_cases h0 : e = 0
    · subst h0
      unfold GranularityConstant.getRowsCountInRange getRowsCountInRange
      rw [S.count]
      simp
    · rw [S.range_eq_iff he h0, S.start_of_lt hb]
  · unfold GranularityConstant.getRowsCountInRange getRowsCountInRange
    rw [if_pos (by omega), S.count, if_pos (by omega)]

theorem Shape.getMarkStartingRow_eq (m : ℕ) : c.getMarkStartingRow m = a.getMarkStartingRow m :=
  S.range_eq S.marks m

theorem Shape.countMarksForRows_eq (m n : ℕ) : c.countMarksForRows m n = a.countMarksForRows m n := by
  unfold GranularityConstant.countMarksForRows countMarksForRows
  simp only [S.getMarkStartingRow_eq, S.upperBound_eq]

theorem Shape.countRowsForRows_eq {m : ℕ} (hm : m < c.numMarksWithoutFinal) (n o : ℕ) :
    c.countRowsForRows m n o = a.countRowsForRows m n o := by
  unfold GranularityConstant.countRowsForRows countRowsForRows
  simp only [S.getMarkStartingRow_eq, S.upperBound_eq, S.range_eq hm]

theorem Shape.lt_of_getMarkRows {m rows : ℕ} (h : a.getMarkRows m = .ok rows) (h0 : 0 < rows) :
    m < c.numMarksWithoutFinal := by
  rw [← S.getMarkRows_eq m] at h
  unfold GranularityConstant.getMarkRows at h
  by_contra hlt
  rw [if_neg (show ¬ m + 1 < c.numMarksWithoutFinal by omega),
    if_neg (show ¬ m + 1 = c.numMarksWithoutFinal by omega)] at h
  by_cases hcount : c.getMarksCount ≤ m
  · rw [if_pos hcount] at h
    cases h
  · rw [if_neg hcount] at h
    cases h
    omega

/-- After the data marks no rows are left: the range is counted right when the marks are
as long as the distance from the last data mark wraps around to. -/
theorem Shape.range_eq_of_end {b e : ℕ} (hb : c.numMarksWithoutFinal ≤ b) (hbe : b ≤ e) (he : e ≤ c.getMarksCount) :
    c.getRowsCountInRange b e = a.getRowsCountInRange b e ↔
      subSize c.getTotalRows (c.constantGranularity * b) = 0 := by
  have hmarks := S.marks
  have htotal : c.getTotalRows < 2 ^ 64 := by
    rw [S.getTotalRows_eq_add]
    exact S.total
  rw [S.range_eq_iff he (by omega), S.start_of_ge (by omega) he, S.start_of_ge hb (by omega),
    subSize_of_le le_rfl htotal, Nat.sub_self]

end Shape

/-! ## Constant for adaptive -/

/-- The rows of a range that begins at mark `b` are counted right: it begins at a data mark,
or the last data mark has the rows that the constant side takes away from it. -/
def RangeCounted (a : GranularityAdaptive) (b : ℕ) : Prop :=
  let N := a.getMarksCountWithoutFinal
  b < N ∨ (b = N ∧ a.getMarkRows (N - 1) = a.getMarkRows 0) ∨
    (b = N + 1 ∧ a.getMarkRows (N - 1) = (a.getMarkRows 0).map fun rows => addSize rows rows)

theorem Shape.range_eq_iff_counted (S : Shape a c) {b e : ℕ} (hbe : b ≤ e) (he : e ≤ c.getMarksCount) :
    c.getRowsCountInRange b e = a.getRowsCountInRange b e ↔ RangeCounted a b := by
  have hpos := S.marks
  have htotal := S.getTotalRows_eq_add
  have hsize := S.total
  have hrows := S.rows
  have hcount : c.getMarksCount ≤ c.numMarksWithoutFinal + 1 := by
    unfold GranularityConstant.getMarksCount
    split <;> omega
  have hfirst : c.constantGranularity < 2 ^ 64 := by
    by_cases hone : c.numMarksWithoutFinal = 1
    · have hsame : a.getMarkRows 0 = .ok c.lastMarkGranularity := by
        have hlast := S.last
        rwa [hone] at hlast
      have heq : c.constantGranularity = c.lastMarkGranularity := by
        have hok := S.first.symm.trans hsame
        injection hok
      omega
    · have hmul : c.constantGranularity ≤ c.constantGranularity * (c.numMarksWithoutFinal - 1) :=
        Nat.le_mul_of_pos_right _ (by omega)
      omega
  have hsplit : c.constantGranularity * c.numMarksWithoutFinal =
      c.constantGranularity * (c.numMarksWithoutFinal - 1) + c.constantGranularity := by
    rw [← Nat.mul_succ]
    congr 1
    omega
  unfold RangeCounted
  simp only [S.withoutFinal, S.first, S.last, Except.map, Except.ok.injEq]
  by_cases hb : b < c.numMarksWithoutFinal
  · exact iff_of_true (S.range_eq hb e) (Or.inl hb)
  · rw [S.range_eq_of_end (by omega) hbe he]
    by_cases heq : b = c.numMarksWithoutFinal
    · have hsub : subSize c.getTotalRows (c.constantGranularity * b) = 0 ↔
          c.lastMarkGranularity = c.constantGranularity := by
        rw [heq, htotal, hsplit]
        unfold subSize
        omega
      rw [hsub]
      omega
    · have hb' : b = c.numMarksWithoutFinal + 1 := by omega
      have hsub : subSize c.getTotalRows (c.constantGranularity * b) = 0 ↔
          c.lastMarkGranularity = addSize c.constantGranularity c.constantGranularity := by
        rw [hb', htotal, Nat.mul_succ, hsplit]
        unfold subSize addSize
        omega
      rw [hsub]
      omega

/-- The queries of the constant granularity that give what those of the adaptive one give. -/
structure Agrees (a : GranularityAdaptive) (c : GranularityConstant) : Prop where
  marksCount : c.getMarksCount = a.getMarksCount
  totalRows : c.getTotalRows = a.getTotalRows
  finalMark : c.hasFinalMark = a.hasFinalMark
  markRows : ∀ i, c.getMarkRows i = a.getMarkRows i
  markRange : ∀ r < a.getTotalRows, c.getMarkRangeForRowOffset r = a.getMarkRangeForRowOffset r
  countMarks : ∀ m n, c.countMarksForRows m n = a.countMarksForRows m n
  countRows : ∀ m n o rows, a.getMarkRows m = .ok rows → o < rows →
    c.countRowsForRows m n o = a.countRowsForRows m n o

theorem Shape.agrees (S : Shape a c) : Agrees a c := by
  refine ⟨S.count.symm, S.getTotalRows_eq, S.final.symm, S.getMarkRows_eq, ?_, S.countMarksForRows_eq, ?_⟩
  · intro r hr
    apply S.getMarkRangeForRowOffset_eq
    rw [S.getTotalRows_eq]
    exact hr
  · intro m n o rows hrows ho
    exact S.countRowsForRows_eq (S.lt_of_getMarkRows hrows (by omega)) n o

/-- **Constant granularity for adaptive granularity.** The constant granularity that
`optimize` returns answers every query like the adaptive one, but for the rows of an empty
range that begins after the last data mark. -/
theorem optimize_agrees (h : Built a) (hoptimize : a.optimize = some c) : Agrees a c ∧
    ∀ b e, b ≤ e → e ≤ a.getMarksCount →
      (c.getRowsCountInRange b e = a.getRowsCountInRange b e ↔ RangeCounted a b) := by
  obtain ⟨N, hN⟩ := h.marks
  have S := hN.shape hoptimize
  refine ⟨S.agrees, fun b e hbe he => ?_⟩
  rw [S.count] at he
  exact S.range_eq_iff_counted hbe he

theorem built_two_marks : Built ⟨[10, 15]⟩ := by
  have hfirst : Data ⟨[10]⟩ := .append .empty (show 0 < 10 by decide) (by decide) rfl
  exact Or.inl (.append hfirst (show 0 < 5 by decide) (by decide) rfl)

theorem optimize_agrees_two_marks :
    (Agrees ⟨[10, 15]⟩ ⟨10, 5, 2, false⟩ ∧ ∀ b e, b ≤ e → e ≤ getMarksCount ⟨[10, 15]⟩ →
      (GranularityConstant.getRowsCountInRange ⟨10, 5, 2, false⟩ b e = getRowsCountInRange ⟨[10, 15]⟩ b e ↔
        RangeCounted ⟨[10, 15]⟩ b)) :=
  optimize_agrees built_two_marks (by decide +kernel)

/-- **The rows of an empty range after the last mark.** Five rows less ten. -/
theorem empty_range_wraps : Built ⟨[10, 15]⟩ ∧ optimize ⟨[10, 15]⟩ = some ⟨10, 5, 2, false⟩ ∧
    getMarksCount ⟨[10, 15]⟩ = 2 ∧ getRowsCountInRange ⟨[10, 15]⟩ 2 2 = .ok 0 ∧
    GranularityConstant.getRowsCountInRange ⟨10, 5, 2, false⟩ 2 2 = .ok (2 ^ 64 - 5) :=
  ⟨built_two_marks, by decide +kernel, by decide +kernel, by decide +kernel, by decide +kernel⟩

end GranularityAdaptive

end MergeTree
