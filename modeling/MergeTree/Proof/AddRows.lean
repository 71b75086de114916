import MergeTree.Proof.IndexGranularity

/-!
# Rows for the last mark

`addRowsToLastMark` takes the rows of the last mark and the new ones together, appends as
many marks of 128 rows as fit, and adjusts the last mark to what is left. The last mark of
before keeps its rows, so with an append they are counted twice, and the mark that the
adjustment shortens is one of those just appended.

Rows are added exactly when nothing is appended, or when the two errors cancel: the mark of
before had 128 rows, and 128 rows are cut off again (`addRowsToLastMark_iff`).
-/

namespace MergeTree

namespace GranularityAdaptive

variable {a b : GranularityAdaptive} {sums pre : List ℕ} {s r total : ℕ}

/-! ## The last mark -/

theorem getLastMarkRows_concat (hs : s < 2 ^ 64) :
    getLastMarkRows ⟨pre ++ [s]⟩ = .ok (subSize s (pre.getLastD 0)) := by
  have hcount : getMarksCount ⟨pre ++ [s]⟩ = pre.length + 1 := by simp [getMarksCount]
  have hsum : sumAt ⟨pre ++ [s]⟩ pre.length = s := by simp [sumAt]
  have hstart : startAt ⟨pre ++ [s]⟩ pre.length = pre.getLastD 0 := by
    unfold startAt
    by_cases h0 : pre.length = 0
    · rw [if_pos h0, List.eq_nil_of_length_eq_zero h0]
      rfl
    · have hlast : pre.length - 1 < pre.length := by omega
      rw [if_neg h0, getLastD_eq_getD, sumAt, List.getD_append _ _ _ _ hlast]
  unfold getLastMarkRows
  rw [hcount, Nat.add_sub_cancel, getMarkRows_eq _ _ (by rw [hcount]; omega) (by rw [hsum]; exact hs), hsum, hstart]

theorem hasFinalMark_concat (hs : s < 2 ^ 64) :
    hasFinalMark ⟨pre ++ [s]⟩ = decide (subSize s (pre.getLastD 0) = 0) := by
  unfold hasFinalMark
  rw [getLastMarkRows_concat hs]
  simp

theorem appendMark_of_not_final (h : hasFinalMark ⟨sums⟩ = false) (hr : r < 2 ^ 64) :
    appendMark ⟨sums⟩ r = .ok ⟨sums ++ [addSize (sums.getLastD 0) r]⟩ := by
  unfold appendMark
  rw [h]
  cases sums with
  | nil =>
    have hadd : addSize 0 r = r := by unfold addSize; omega
    simp [hadd]
  | cons first rest => simp

theorem adjustLastMark_of_not_final (h : hasFinalMark ⟨pre ++ [s]⟩ = false) (hpre : hasFinalMark ⟨pre⟩ = false)
    (hr : r < 2 ^ 64) : adjustLastMark ⟨pre ++ [s]⟩ r = .ok ⟨pre ++ [addSize (pre.getLastD 0) r]⟩ := by
  unfold adjustLastMark
  rw [h, List.dropLast_concat]
  simp [appendMark_of_not_final hpre hr]

/-! ## Granularities with any marks -/

/-- **Any marks**: what the methods of the class make of the empty granularity, with row counts
of any size. The sums may wrap around. -/
inductive Reached : GranularityAdaptive → Prop
  | empty : Reached {}
  | append {a b : GranularityAdaptive} {rowsCount : ℕ} : Reached a → rowsCount < 2 ^ 64 →
      a.appendMark rowsCount = .ok b → Reached b
  | adjust {a b : GranularityAdaptive} {rowsCount : ℕ} : Reached a → rowsCount < 2 ^ 64 →
      a.adjustLastMark rowsCount = .ok b → Reached b
  | addRows {a : GranularityAdaptive} {rowsCount : ℕ} : Reached a → rowsCount < 2 ^ 64 →
      Reached (a.addRowsToLastMark rowsCount).2

/-- Only the last mark may be final. -/
structure Sized (sums : List ℕ) : Prop where
  size : ∀ s ∈ sums, s < 2 ^ 64
  rows : ∀ init rest, sums = init ++ rest → rest ≠ [] → hasFinalMark ⟨init⟩ = false

theorem Sized.nil : Sized [] :=
  ⟨by simp, fun init rest h hrest => absurd (List.append_eq_nil_iff.1 h.symm).2 hrest⟩

theorem Sized.dropLast (h : Sized sums) : Sized sums.dropLast := by
  rcases List.eq_nil_or_concat' sums with rfl | ⟨pre, s, rfl⟩
  · exact Sized.nil
  · rw [List.dropLast_concat]
    refine ⟨fun s hs => h.size s (List.mem_append_left _ hs), fun init rest hsplit hrest => ?_⟩
    exact h.rows init (rest ++ [s]) (by rw [hsplit, List.append_assoc]) (by simp)

theorem Sized.append (h : Sized sums) (hfinal : hasFinalMark ⟨sums⟩ = false) :
    Sized (sums ++ [addSize (sums.getLastD 0) r]) := by
  refine ⟨fun s hs => ?_, fun init rest hsplit hrest => ?_⟩
  · rcases List.mem_append.1 hs with hs | hs
    · exact h.size s hs
    · rw [List.mem_singleton.1 hs]
      exact Nat.mod_lt _ (by norm_num)
  · rcases List.eq_nil_or_concat' rest with rfl | ⟨rest', x, rfl⟩
    · exact absurd rfl hrest
    · rw [← List.append_assoc] at hsplit
      have hsums := (List.append_inj' hsplit rfl).1
      rcases List.eq_nil_or_concat' rest' with rfl | ⟨rest', x, rfl⟩
      · rwa [hsums, List.append_nil] at hfinal
      · exact h.rows init _ hsums (by simp)

theorem Sized.appendMark (h : Sized a.marksRowsPartialSums) (hr : r < 2 ^ 64) (happend : a.appendMark r = .ok b) :
    Sized b.marksRowsPartialSums := by
  cases hfinal : a.hasFinalMark with
  | true => simp [GranularityAdaptive.appendMark, hfinal] at happend
  | false =>
    have heq := appendMark_of_not_final hfinal hr
    rw [heq, Except.ok.injEq] at happend
    rw [← happend]
    exact h.append hfinal

theorem Sized.adjustLastMark (h : Sized a.marksRowsPartialSums) (hr : r < 2 ^ 64) (hadjust : a.adjustLastMark r = .ok b) :
    Sized b.marksRowsPartialSums := by
  unfold GranularityAdaptive.adjustLastMark at hadjust
  by_cases hfinal : a.hasFinalMark = true
  · rw [if_pos hfinal] at hadjust
    cases hadjust
  · rw [if_neg hfinal] at hadjust
    by_cases hempty : a.marksRowsPartialSums.isEmpty = true
    · have hnil : a = {} := congrArg GranularityAdaptive.mk (List.isEmpty_iff.1 hempty)
      rw [if_pos hempty] at hadjust
      refine Sized.nil.appendMark hr (a := {}) ?_
      simpa [GranularityAdaptive.appendMark, hasFinalMark] using hadjust
    · rw [if_neg hempty] at hadjust
      exact Sized.appendMark (a := ⟨_⟩) h.dropLast hr hadjust

theorem Sized.call (h : Sized a.marksRowsPartialSums) {result : Except String GranularityAdaptive}
    (hresult : ∀ b, result = .ok b → Sized b.marksRowsPartialSums) : Sized (a.call result).2.marksRowsPartialSums := by
  cases result with
  | error e => exact h
  | ok b => exact hresult b rfl

theorem Sized.appendFullMarks (h : Sized a.marksRowsPartialSums) (total : ℕ) :
    Sized (a.appendFullMarks total).2.marksRowsPartialSums ∧
      ∀ rest, (a.appendFullMarks total).1 = .ok rest → rest ≤ total := by
  induction total using Nat.strong_induction_on generalizing a with
  | _ total ih =>
    rw [GranularityAdaptive.appendFullMarks]
    by_cases hfull : 128 ≤ total
    · rw [if_pos hfull]
      cases happend : a.appendMark 128 with
      | error e => exact ⟨h, fun rest hrest => by cases hrest⟩
      | ok b =>
        obtain ⟨hsized, hle⟩ := ih (total - 128) (by omega) (h.appendMark (by norm_num) happend)
        exact ⟨hsized, fun rest hrest => by have := hle rest hrest; omega⟩
    · rw [if_neg hfull]
      refine ⟨h, fun rest hrest => ?_⟩
      cases hrest
      exact le_rfl

theorem addSize_lt (x y : ℕ) : addSize x y < 2 ^ 64 := Nat.mod_lt _ (by norm_num)

theorem Sized.addRowsToLastMark (h : Sized a.marksRowsPartialSums) (r : ℕ) :
    Sized (a.addRowsToLastMark r).2.marksRowsPartialSums := by
  unfold GranularityAdaptive.addRowsToLastMark
  split
  · exact h
  · rename_i current _
    have hloop := h.appendFullMarks (addSize current r)
    have hlt := addSize_lt current r
    split
    · rename_i e b heq
      rw [heq] at hloop
      exact hloop.1
    · rename_i total b heq
      rw [heq] at hloop
      obtain ⟨hb, hle⟩ := hloop
      have hrest := hle total rfl
      split
      · split
        · exact hb.call fun c hc => hb.appendMark (by omega) hc
        · exact hb.call fun c hc => hb.adjustLastMark (by omega) hc
      · exact hb

theorem Reached.sized (h : Reached a) : Sized a.marksRowsPartialSums := by
  induction h with
  | empty => exact Sized.nil
  | append _ hr happend ih => exact ih.appendMark hr happend
  | adjust _ hr hadjust ih => exact ih.adjustLastMark hr hadjust
  | addRows _ hr ih => exact ih.addRowsToLastMark _

/-! ## The loop -/

/-- The sums that `n` marks of 128 rows append after `s` rows. -/
def fullMarks (s n : ℕ) : List ℕ := (List.range n).map fun i => addSize s (128 * (i + 1))

theorem fullMarks_succ (s n : ℕ) : fullMarks s (n + 1) = fullMarks s n ++ [addSize s (128 * (n + 1))] := by
  simp [fullMarks, List.range_succ]

theorem fullMarks_cons (s n : ℕ) : fullMarks s (n + 1) = addSize s 128 :: fullMarks (addSize s 128) n := by
  have hadd : ∀ i, addSize (addSize s 128) (128 * (i + 1)) = addSize s (128 * (i + 1 + 1)) := by
    intro i
    unfold addSize
    omega
  simp [fullMarks, List.range_succ_eq_map, hadd]

theorem getLastD_fullMarks (hs : s < 2 ^ 64) (hlast : sums.getLastD 0 = s) (n : ℕ) :
    (sums ++ fullMarks s n).getLastD 0 = addSize s (128 * n) := by
  cases n with
  | zero =>
    have hadd : addSize s 0 = s := by unfold addSize; omega
    rw [Nat.mul_zero, hadd, ← hlast, fullMarks, List.range_zero, List.map_nil, List.append_nil]
  | succ n => simp [fullMarks_succ, List.getLastD_eq_getLast?]

theorem hasFinalMark_fullMarks (hs : s < 2 ^ 64) (hlast : sums.getLastD 0 = s) (hfinal : hasFinalMark ⟨sums⟩ = false) (n : ℕ) :
    hasFinalMark ⟨sums ++ fullMarks s n⟩ = false := by
  cases n with
  | zero => simpa [fullMarks] using hfinal
  | succ n =>
    rw [fullMarks_succ, ← List.append_assoc, hasFinalMark_concat (addSize_lt _ _), getLastD_fullMarks hs hlast]
    have hrows : subSize (addSize s (128 * (n + 1))) (addSize s (128 * n)) = 128 := by
      unfold subSize addSize
      omega
    rw [hrows]
    rfl

/-- **The loop of `addRowsToLastMark`** appends the full marks, by induction on the rows. -/
theorem appendFullMarks_eq (hs : s < 2 ^ 64) (hlast : sums.getLastD 0 = s) (hfinal : hasFinalMark ⟨sums⟩ = false) :
    appendFullMarks ⟨sums⟩ total = (.ok (total % 128), ⟨sums ++ fullMarks s (total / 128)⟩) := by
  induction total using Nat.strong_induction_on generalizing sums s with
  | _ total ih =>
    rw [appendFullMarks]
    by_cases hfull : 128 ≤ total
    · have hnext : hasFinalMark ⟨sums ++ [addSize s 128]⟩ = false := by
        have h := hasFinalMark_fullMarks hs hlast hfinal 1
        simpa [fullMarks] using h
      obtain ⟨q, hq⟩ : ∃ q, total / 128 = q + 1 := ⟨total / 128 - 1, by omega⟩
      rw [if_pos hfull, appendMark_of_not_final hfinal (by norm_num), hlast]
      simp only
      rw [ih (total - 128) (by omega) (addSize_lt s 128) (by simp) hnext, hq, fullMarks_cons,
        show (total - 128) / 128 = q by omega, show (total - 128) % 128 = total % 128 by omega, List.append_assoc,
        List.singleton_append]
    · rw [if_neg hfull, Nat.mod_eq_of_lt (by omega), Nat.div_eq_of_lt (by omega)]
      simp [fullMarks]

/-! ## The rows that are added -/

/-- The sums from the last mark on after `addRowsToLastMark`, where `total` counts the rows of the
last mark and the new ones. -/
def sumsAfter (pre : List ℕ) (s total : ℕ) : List ℕ :=
  if total % 128 = 0 then s :: fullMarks s (total / 128)
  else if total < 128 then [addSize (pre.getLastD 0) total]
  else s :: fullMarks s (total / 128 - 1) ++ [addSize s (128 * (total / 128 - 1) + total % 128)]

/-- **What `addRowsToLastMark` leaves**, of a granularity with marks. -/
theorem addRowsToLastMark_concat (h : Sized (pre ++ [s])) (hfinal : hasFinalMark ⟨pre ++ [s]⟩ = false) (r : ℕ) :
    addRowsToLastMark ⟨pre ++ [s]⟩ r =
      (.ok (), ⟨pre ++ sumsAfter pre s (addSize (subSize s (pre.getLastD 0)) r)⟩) := by
  have hs : s < 2 ^ 64 := h.size s (by simp)
  have hlast : (pre ++ [s]).getLastD 0 = s := by simp
  have hpre : hasFinalMark ⟨pre⟩ = false := h.rows pre [s] rfl (by simp)
  set total := addSize (subSize s (pre.getLastD 0)) r with htotal
  have hsize : total < 2 ^ 64 := addSize_lt _ _
  have hempty : (pre ++ [s]).isEmpty = false := by simp
  unfold addRowsToLastMark sumsAfter
  simp only [hempty, Bool.false_eq_true, if_false, getLastMarkRows_concat hs, ← htotal, appendFullMarks_eq hs hlast hfinal]
  by_cases hrest : total % 128 = 0
  · simp [hrest]
  · rw [if_pos (by omega), if_neg hrest]
    by_cases hfew : total < 128
    · have hnone : fullMarks s (total / 128) = [] := by simp [fullMarks, Nat.div_eq_of_lt hfew]
      rw [if_pos hfew, hnone, List.append_nil, Nat.mod_eq_of_lt hfew, adjustLastMark_of_not_final hfinal hpre hsize]
      simp [call]
    · obtain ⟨q, hq⟩ : ∃ q, total / 128 = q + 1 := ⟨total / 128 - 1, by omega⟩
      have hmarks := hasFinalMark_fullMarks hs hlast hfinal (q + 1)
      rw [fullMarks_succ, ← List.append_assoc] at hmarks
      have hadd : addSize (addSize s (128 * q)) (total % 128) = addSize s (128 * q + total % 128) := by
        unfold addSize
        omega
      rw [if_neg hfew, hq, Nat.add_sub_cancel, fullMarks_succ, ← List.append_assoc,
        adjustLastMark_of_not_final hmarks (hasFinalMark_fullMarks hs hlast hfinal q) (by omega),
        getLastD_fullMarks hs hlast, hadd]
      simp [call]

theorem addRowsToLastMark_empty (hr : r < 2 ^ 64) :
    addRowsToLastMark {} r = (.ok (), ⟨if r % 128 = 0 then fullMarks 0 (r / 128) else if r < 128 then [r]
      else fullMarks 0 (r / 128 - 1) ++ [addSize 0 (128 * (r / 128 - 1) + r % 128)]⟩) := by
  have hadd : addSize 0 r = r := by
    unfold addSize
    omega
  have hrun := @appendFullMarks_eq [] 0 r (by norm_num) rfl rfl
  unfold addRowsToLastMark
  simp only [List.isEmpty_nil, if_true, hadd, hrun, List.nil_append]
  by_cases hrest : r % 128 = 0
  · simp [hrest]
  · rw [if_pos (by omega), if_neg hrest]
    by_cases hfew : r < 128
    · have hnone : fullMarks 0 (r / 128) = [] := by simp [fullMarks, Nat.div_eq_of_lt hfew]
      rw [if_pos hfew, hnone, Nat.mod_eq_of_lt hfew, appendMark_of_not_final rfl hr]
      simp [call, hadd]
    · obtain ⟨q, hq⟩ : ∃ q, r / 128 = q + 1 := ⟨r / 128 - 1, by omega⟩
      have hmarks := @hasFinalMark_fullMarks [] 0 (by norm_num) rfl rfl (q + 1)
      have hbefore := @hasFinalMark_fullMarks [] 0 (by norm_num) rfl rfl q
      have hlast := @getLastD_fullMarks [] 0 (by norm_num) rfl q
      rw [List.nil_append] at hmarks hbefore hlast
      rw [fullMarks_succ] at hmarks
      have hsum : addSize (addSize 0 (128 * q)) (r % 128) = addSize 0 (128 * q + r % 128) := by
        unfold addSize
        omega
      rw [if_neg hfew, hq, Nat.add_sub_cancel, fullMarks_succ, adjustLastMark_of_not_final hmarks hbefore (by omega), hlast, hsum]
      simp [call]

theorem getMarkStartingRow_append {i : ℕ} (hi : i ≤ pre.length) (rest : List ℕ) :
    getMarkStartingRow ⟨pre ++ rest⟩ i = getMarkStartingRow ⟨pre⟩ i := by
  unfold getMarkStartingRow getRowsCountInRange
  have hlen : ¬getMarksCount ⟨pre⟩ < i := by
    unfold getMarksCount
    exact Nat.not_lt.2 hi
  have hlen' : ¬getMarksCount ⟨pre ++ rest⟩ < i := by
    simp only [getMarksCount, List.length_append]
    omega
  rw [if_neg hlen, if_neg hlen']
  by_cases h0 : i = 0
  · rw [if_pos h0, if_pos h0]
  · have hsum : sumAt ⟨pre ++ rest⟩ (i - 1) = sumAt ⟨pre⟩ (i - 1) := by
      unfold sumAt
      exact List.getD_append _ _ _ _ (by omega)
    simp [h0, hsum]

/-- **Rows are conserved**: they are added, and the marks that are there start where they did. -/
structure RowsAdded (a : GranularityAdaptive) (r : ℕ) (b : GranularityAdaptive) : Prop where
  total : b.getTotalRows = a.getTotalRows + r
  starts : ∀ i < a.getMarksCount, b.getMarkStartingRow i = a.getMarkStartingRow i

/-- `addRowsToLastMark` adds the rows, or throws and changes nothing when there is a final mark. -/
def AddsRows (a : GranularityAdaptive) (r : ℕ) : Prop :=
  if a.hasFinalMark then ∃ e, a.addRowsToLastMark r = (.error e, a)
  else ∃ b, a.addRowsToLastMark r = (.ok (), b) ∧ RowsAdded a r b

/-- The rows of the last mark, 0 when there is none. -/
def lastRows (a : GranularityAdaptive) : ℕ :=
  match a.getLastMarkRows with
  | .ok rows => rows
  | .error _ => 0

/-- The rows that `addRowsToLastMark` adds right: the sums do not wrap around, and either no mark is
appended, or the marks that are appended are those of all rows, or as much is cut off from them as
was counted twice. -/
def Addable (a : GranularityAdaptive) (r : ℕ) : Prop :=
  let total := addSize a.lastRows r
  if a.hasFinalMark then r ≠ 0
  else a.getTotalRows + r < 2 ^ 64 ∧
    if a.marksRowsPartialSums.isEmpty then total < 128 ∨ 128 ∣ total
    else 0 < total ∧ total < 128 ∨ a.lastRows = 128 ∧ ¬128 ∣ total

instance : Decidable (Addable a r) := by
  unfold Addable
  infer_instance

theorem lastRows_concat (hs : s < 2 ^ 64) : lastRows ⟨pre ++ [s]⟩ = subSize s (pre.getLastD 0) := by
  rw [lastRows, getLastMarkRows_concat hs]

theorem getTotalRows_concat (rest : List ℕ) (x : ℕ) : getTotalRows ⟨rest ++ [x]⟩ = x := by
  rw [getTotalRows, List.getLastD_concat]

theorem getTotalRows_sumsAfter (hs : s < 2 ^ 64) (total : ℕ) :
    getTotalRows ⟨pre ++ sumsAfter pre s total⟩ =
      if total % 128 = 0 then addSize s total
      else if total < 128 then addSize (pre.getLastD 0) total
      else addSize s (128 * (total / 128 - 1) + total % 128) := by
  unfold sumsAfter
  by_cases hrest : total % 128 = 0
  · have hlast := getLastD_fullMarks hs (show (pre ++ [s]).getLastD 0 = s by simp) (total / 128)
    rw [if_pos hrest, if_pos hrest, getTotalRows, ← List.singleton_append, ← List.append_assoc, hlast]
    congr 1
    omega
  · rw [if_neg hrest, if_neg hrest]
    by_cases hfew : total < 128
    · rw [if_pos hfew, if_pos hfew, getTotalRows_concat]
    · rw [if_neg hfew, if_neg hfew, ← List.append_assoc, getTotalRows_concat]

theorem starts_sumsAfter {i : ℕ} (hi : i < getMarksCount ⟨pre ++ [s]⟩) (rest : List ℕ) :
    getMarkStartingRow ⟨pre ++ rest⟩ i = getMarkStartingRow ⟨pre ++ [s]⟩ i := by
  simp only [getMarksCount, List.length_append, List.length_singleton] at hi
  rw [getMarkStartingRow_append (by omega), getMarkStartingRow_append (by omega)]

theorem addsRows_concat (h : Sized (pre ++ [s])) (hr : r < 2 ^ 64) (hfinal : hasFinalMark ⟨pre ++ [s]⟩ = false) :
    AddsRows ⟨pre ++ [s]⟩ r ↔ Addable ⟨pre ++ [s]⟩ r := by
  have hs : s < 2 ^ 64 := h.size s (by simp)
  have hP : pre.getLastD 0 < 2 ^ 64 := by
    rcases List.eq_nil_or_concat' pre with rfl | ⟨pre', p, rfl⟩
    · norm_num
    · rw [List.getLastD_concat]
      exact h.size p (by simp)
  have hrows : subSize s (pre.getLastD 0) ≠ 0 := by
    rw [hasFinalMark_concat hs] at hfinal
    simpa using hfinal
  have hrun := addRowsToLastMark_concat h hfinal r
  have htotal := @getTotalRows_sumsAfter pre s hs (addSize (subSize s (pre.getLastD 0)) r)
  have hsplit : AddsRows ⟨pre ++ [s]⟩ r ↔
      getTotalRows ⟨pre ++ sumsAfter pre s (addSize (subSize s (pre.getLastD 0)) r)⟩ = s + r := by
    unfold AddsRows
    rw [hfinal, hrun]
    constructor
    · rintro ⟨b, hb, hadded⟩
      have hsum := hadded.total
      rw [getTotalRows_concat] at hsum
      rw [← hsum]
      exact congrArg getTotalRows (Prod.ext_iff.1 hb).2
    · intro hsum
      exact ⟨_, rfl, by rw [hsum, getTotalRows_concat], fun i hi => starts_sumsAfter hi _⟩
  have hempty : (pre ++ [s]).isEmpty = false := by simp
  rw [hsplit, htotal]
  unfold Addable
  simp only [hfinal, hempty, lastRows_concat hs, getTotalRows_concat, Bool.false_eq_true, if_false]
  -- the sums agree modulo `2 ^ 64` with the ones that the rows ask for, but for the marks counted twice
  have hmod : (pre.getLastD 0 + subSize s (pre.getLastD 0)) % 2 ^ 64 = s := by
    unfold subSize
    omega
  have hc : subSize s (pre.getLastD 0) < 2 ^ 64 := by
    unfold subSize
    omega
  generalize subSize s (pre.getLastD 0) = c at *
  generalize pre.getLastD 0 = P at *
  unfold addSize
  split_ifs <;> omega

theorem addsRows_empty (hr : r < 2 ^ 64) : AddsRows {} r ↔ Addable {} r := by
  have hrun := addRowsToLastMark_empty hr
  have hlast := @getLastD_fullMarks [] 0 (by norm_num) rfl (r / 128)
  rw [List.nil_append] at hlast
  have hsplit : AddsRows {} r ↔ getTotalRows (addRowsToLastMark {} r).2 = r := by
    have hnone : hasFinalMark {} = false := rfl
    unfold AddsRows
    rw [hnone, hrun]
    constructor
    · rintro ⟨b, hb, hadded⟩
      rw [(Prod.ext_iff.1 hb).2, hadded.total]
      exact Nat.zero_add r
    · intro hsum
      exact ⟨_, rfl, by rw [hsum]; exact (Nat.zero_add r).symm, fun i hi => absurd hi (Nat.not_lt_zero i)⟩
  have hcond : Addable {} r ↔ r < 128 ∨ 128 ∣ r := by
    have hadd : addSize (lastRows {}) r = r := by
      have hrows : lastRows {} = 0 := rfl
      rw [hrows]
      unfold addSize
      omega
    have hnone : hasFinalMark {} = false := rfl
    unfold Addable
    rw [hadd, hnone]
    simp only [getTotalRows, List.getLastD_nil, List.isEmpty_nil, if_true, Bool.false_eq_true, if_false]
    omega
  rw [hsplit, hcond, hrun]
  by_cases hrest : r % 128 = 0
  · simp only [if_pos hrest, getTotalRows, hlast]
    unfold addSize
    omega
  · by_cases hfew : r < 128
    · simp only [if_neg hrest, if_pos hfew]
      exact iff_of_true rfl (Or.inl hfew)
    · simp only [if_neg hrest, if_neg hfew, getTotalRows_concat]
      unfold addSize
      omega

theorem addsRows_final (hs : s < 2 ^ 64) (hr : r < 2 ^ 64) (hfinal : hasFinalMark ⟨pre ++ [s]⟩ = true) :
    AddsRows ⟨pre ++ [s]⟩ r ↔ Addable ⟨pre ++ [s]⟩ r := by
  have hrows : subSize s (pre.getLastD 0) = 0 := by
    rw [hasFinalMark_concat hs] at hfinal
    simpa using hfinal
  have hadd : addSize 0 r = r := by
    unfold addSize
    omega
  have hempty : (pre ++ [s]).isEmpty = false := by simp
  unfold AddsRows Addable addRowsToLastMark
  simp only [hfinal, if_true, hempty, Bool.false_eq_true, if_false, getLastMarkRows_concat hs, hrows, hadd]
  rw [appendFullMarks]
  by_cases hfull : 128 ≤ r
  · simp [hfull, appendMark, hfinal]
    omega
  · by_cases h0 : r = 0
    · simp [h0]
    · have hpos : 0 < r := by omega
      simp [hfull, h0, hpos, call, adjustLastMark, hfinal]

/-- **Rows for the last mark.** `addRowsToLastMark` conserves rows exactly when the rows are
`Addable`. -/
theorem addRowsToLastMark_iff (h : Reached a) (hr : r < 2 ^ 64) : AddsRows a r ↔ Addable a r := by
  have hsized := h.sized
  obtain ⟨sums⟩ := a
  rcases List.eq_nil_or_concat' sums with rfl | ⟨pre, s, rfl⟩
  · exact addsRows_empty hr
  · cases hfinal : hasFinalMark ⟨pre ++ [s]⟩ with
    | true => exact addsRows_final (hsized.size s (by simp)) hr hfinal
    | false => exact addsRows_concat hsized hr hfinal

theorem reached_one_mark : Reached ⟨[100]⟩ := .append .empty (show 100 < 2 ^ 64 by norm_num) rfl

theorem reached_two_marks : Reached ⟨[50, 178]⟩ :=
  (Reached.append .empty (show 50 < 2 ^ 64 by norm_num) rfl).append (show 128 < 2 ^ 64 by norm_num) rfl

/-- The two errors cancel for 130 rows, and do not for 128. -/
theorem addRowsToLastMark_iff_two_marks : AddsRows ⟨[50, 178]⟩ 130 ∧ ¬AddsRows ⟨[50, 178]⟩ 128 :=
  ⟨(addRowsToLastMark_iff reached_two_marks (by norm_num)).2 (by decide),
    fun h => absurd ((addRowsToLastMark_iff reached_two_marks (by norm_num)).1 h) (by decide)⟩

/-- **100 rows for a mark of 100 rows** leave a mark of 72 rows after it, and 172 rows in all. -/
theorem addRowsToLastMark_loses_rows : Reached ⟨[100]⟩ ∧ hasFinalMark ⟨[100]⟩ = false ∧
    addRowsToLastMark ⟨[100]⟩ 100 = (.ok (), ⟨[100, 172]⟩) ∧ ¬AddsRows ⟨[100]⟩ 100 := by
  have hrun : addRowsToLastMark ⟨[100]⟩ 100 = (.ok (), ⟨[100, 172]⟩) := by
    have hsized := @Sized.append [] 100 Sized.nil rfl
    have h := @addRowsToLastMark_concat [] 100 hsized rfl 100
    exact h
  refine ⟨reached_one_mark, rfl, hrun, ?_⟩
  rintro ⟨b, hb, hadded⟩
  have htotal := hadded.total
  rw [hrun] at hb
  obtain rfl : (⟨[100, 172]⟩ : GranularityAdaptive) = b := (Prod.ext_iff.1 hb).2
  exact absurd htotal (by decide)

end GranularityAdaptive

end MergeTree
