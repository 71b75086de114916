import MergeTree.Lib.Outcome
import MergeTree.Spec.PartWriterCompact
import MergeTree.Proof.PartWriterWide

/-!
# Compact parts hold whole granules

When a block comes, the marks planned for it either end exactly where the buffered rows and
the block end, or there is one mark that goes on after them (`Planned`). In the first case all
rows are flushed, every granule of them is complete, and no mark is left; in the second the
rows wait for the rest of the mark. What is in the files is stated by a replay of the granules
(`CompactReplay`).
-/

namespace MergeTree

open Outcome

/-! ## The marks of an adaptive granularity -/

namespace GranularityAdaptive

variable {a : GranularityAdaptive} {l init : List ℕ} {r x : ℕ}

/-- A granularity without final mark that has these marks. -/
structure HasMarks (a : GranularityAdaptive) (l : List ℕ) : Prop where
  count : a.getMarksCount = l.length
  rows : ∀ i, (h : i < l.length) → a.getMarkRows i = .ok (l.get ⟨i, h⟩)
  size : ∀ r ∈ l, 0 < r ∧ r < 2 ^ 64

theorem hasMarks_empty : HasMarks {} [] := ⟨rfl, fun _ h => absurd h (Nat.not_lt_zero _), by simp⟩

theorem getMarkRows_append {sums more : List ℕ} {i : ℕ} (h : i < sums.length) :
    getMarkRows ⟨sums ++ more⟩ i = getMarkRows ⟨sums⟩ i := by
  have hsum : ∀ j < sums.length, sumAt ⟨sums ++ more⟩ j = sumAt ⟨sums⟩ j := fun j hj => by
    simp only [sumAt, List.getD_eq_getElem?_getD, List.getElem?_append_left hj]
  have hcount : ¬getMarksCount ⟨sums⟩ ≤ i := Nat.not_le.2 h
  have hcount' : ¬getMarksCount ⟨sums ++ more⟩ ≤ i := by
    rw [getMarksCount, List.length_append]
    omega
  simp only [getMarkRows, if_neg hcount, if_neg hcount', hsum i h, hsum (i - 1) (by omega), hsum 0 (by omega)]

theorem getMarkRows_last {sums : List ℕ} (hne : sums ≠ []) (hr : r < 2 ^ 64) :
    getMarkRows ⟨sums ++ [addSize (sums.getLastD 0) r]⟩ sums.length = .ok r := by
  have hpos := List.length_pos_of_ne_nil hne
  have hnew : sumAt ⟨sums ++ [addSize (sums.getLastD 0) r]⟩ sums.length = addSize (sums.getLastD 0) r := by
    simp [sumAt, List.getD_eq_getElem?_getD]
  have hold : sumAt ⟨sums ++ [addSize (sums.getLastD 0) r]⟩ (sums.length - 1) = sums.getLastD 0 := by
    simp only [sumAt, List.getD_eq_getElem?_getD, List.getLastD_eq_getLast?, List.getLast?_eq_getElem?]
    rw [List.getElem?_append_left (by omega)]
  unfold getMarkRows getMarksCount
  rw [List.length_append, List.length_singleton, if_neg (by omega), if_neg (by omega), hnew, hold]
  have hsub : subSize (addSize (sums.getLastD 0) r) (sums.getLastD 0) = r := by
    unfold subSize addSize
    omega
  rw [hsub]

theorem HasMarks.hasFinalMark (h : a.HasMarks l) : a.hasFinalMark = false := by
  unfold GranularityAdaptive.hasFinalMark
  by_cases hempty : a.marksRowsPartialSums.isEmpty = true
  · rw [if_pos hempty]
  · rw [if_neg hempty]
    have hlen : a.marksRowsPartialSums.length = l.length := h.count
    have hpos : 0 < l.length := by
      rw [← hlen]
      exact List.length_pos_of_ne_nil (by simpa using hempty)
    have hrow := (h.size _ (List.get_mem l ⟨l.length - 1, by omega⟩)).1
    unfold getLastMarkRows
    rw [h.count, h.rows (l.length - 1) (by omega)]
    simp only [decide_eq_false_iff_not]
    omega

theorem HasMarks.appendMark (h : a.HasMarks l) (hpos : 0 < r) (hlt : r < 2 ^ 64) :
    ∃ b, a.appendMark r = .ok b ∧ b.HasMarks (l ++ [r]) := by
  have hlen : a.marksRowsPartialSums.length = l.length := h.count
  have hsize : ∀ s ∈ l ++ [r], 0 < s ∧ s < 2 ^ 64 := by
    intro s hs
    rcases List.mem_append.1 hs with hs | hs
    · exact h.size s hs
    · rw [List.mem_singleton.1 hs]
      exact ⟨hpos, hlt⟩
  unfold GranularityAdaptive.appendMark
  rw [h.hasFinalMark, if_neg (by simp)]
  by_cases hempty : a.marksRowsPartialSums = []
  · have hl : l = [] := List.length_eq_zero_iff.1 (by rw [← hlen, hempty]; rfl)
    subst hl
    refine ⟨⟨[r]⟩, by simp [hempty], rfl, fun i hi => ?_, hsize⟩
    obtain rfl : i = 0 := by simpa using hi
    rfl
  · rw [if_neg (by simpa using hempty)]
    refine ⟨_, rfl, by simp [getMarksCount, hlen], fun i hi => ?_, hsize⟩
    rw [List.length_append, List.length_singleton] at hi
    by_cases hlast : i < l.length
    · rw [getMarkRows_append (by omega), List.get_eq_getElem, List.getElem_append_left hlast]
      exact h.rows i hlast
    · obtain rfl : i = a.marksRowsPartialSums.length := by omega
      rw [getMarkRows_last hempty hlt]
      simp [hlen]

theorem HasMarks.dropLast (h : a.HasMarks (init ++ [x])) : HasMarks ⟨a.marksRowsPartialSums.dropLast⟩ init := by
  have hlen : a.marksRowsPartialSums.length = init.length + 1 := by
    have hcount := h.count
    rwa [List.length_append, List.length_singleton] at hcount
  have hne : a.marksRowsPartialSums ≠ [] := List.ne_nil_of_length_eq_add_one hlen
  refine ⟨by simp [getMarksCount, hlen], fun i hi => ?_, fun r hr => h.size r (List.mem_append_left _ hr)⟩
  have hrow := h.rows i (by rw [List.length_append]; omega)
  rw [List.get_eq_getElem, List.getElem_append_left hi] at hrow
  have happend := @getMarkRows_append a.marksRowsPartialSums.dropLast [a.marksRowsPartialSums.getLast hne] i
    (by rw [List.length_dropLast]; omega)
  rw [List.dropLast_append_getLast hne] at happend
  rw [← happend]
  exact hrow

theorem HasMarks.adjustLastMark (h : a.HasMarks (init ++ [x])) (hpos : 0 < r) (hlt : r < 2 ^ 64) :
    ∃ b, a.adjustLastMark r = .ok b ∧ b.HasMarks (init ++ [r]) := by
  have hlen : a.marksRowsPartialSums.length = init.length + 1 := by
    have hcount := h.count
    rwa [List.length_append, List.length_singleton] at hcount
  have hne : a.marksRowsPartialSums ≠ [] := List.ne_nil_of_length_eq_add_one hlen
  unfold GranularityAdaptive.adjustLastMark
  rw [h.hasFinalMark, if_neg (by simp), if_neg (by simpa using hne)]
  exact h.dropLast.appendMark hpos hlt

/-- `addRowsToLastMark` makes the last mark exactly `n` rows longer; unless the row counts are small, it
throws when that is not a row count any more. -/
structure LengthensLastMark (small : Prop)
    (addRowsToLastMark : GranularityAdaptive → ℕ → Except String Unit × GranularityAdaptive) : Prop where
  fits : ∀ a init x n, HasMarks a (init ++ [x]) → 0 < n → x + n < 2 ^ 64 →
    ∃ b, addRowsToLastMark a n = (.ok (), b) ∧ b.HasMarks (init ++ [x + n])
  throws : ¬small → ∀ a init x n, HasMarks a (init ++ [x]) → 2 ^ 64 ≤ x + n → ∃ e b, addRowsToLastMark a n = (.error e, b)

end GranularityAdaptive

namespace CompactWriter

open GranularityAdaptive

variable {ρ σ : Type} {cfg : CompactConfig ρ σ} {a : GranularityAdaptive} {init pend : List ℕ} {small : Prop}

/-- The exceptions of `addRowsToLastMark`, which there are only when the row counts are not small. -/
def AddThrows (small : Prop) (e : CompactException) : Prop := (∃ message, e = .addRowsToLastMark message) ∧ ¬small

/-! ## Planning the granules of a block -/

/-- The marks planned from the current one on: they end where the rows end, or there is one mark
that goes on. -/
def Planned (init : List ℕ) (rows : ℕ) (a : GranularityAdaptive) : Prop :=
  ∃ pend, a.HasMarks (init ++ pend) ∧ (pend.sum = rows ∨ ∃ x, pend = [x] ∧ rows < x)

theorem Planned.of_le {x rows : ℕ} (h : a.HasMarks (init ++ [x])) (hle : rows ≤ x) : Planned init rows a := by
  refine ⟨[x], h, ?_⟩
  rcases Nat.eq_or_lt_of_le hle with heq | hlt
  · exact Or.inl (by rw [heq, List.sum_singleton])
  · exact Or.inr ⟨x, rfl, hlt⟩

theorem yields_appendMark (h : a.HasMarks init) {r : ℕ} (hpos : 0 < r) (hlt : r < 2 ^ 64) {E : CompactException → Prop} :
    Yields (fun b => b.HasMarks (init ++ [r])) E (ofGranularity (a.appendMark r)) := by
  obtain ⟨b, hb, hmarks⟩ := h.appendMark hpos hlt
  rw [hb]
  exact hmarks

theorem yields_addRows (hadd : LengthensLastMark small cfg.addRowsToLastMark) {x n : ℕ} (h : a.HasMarks (init ++ [x]))
    (hn : 0 < n) (hsmall : small → x + n < 2 ^ 64) :
    Yields (fun b => b.HasMarks (init ++ [x + n])) (AddThrows small) (addRows cfg a n) := by
  unfold addRows
  by_cases hlt : x + n < 2 ^ 64
  · obtain ⟨b, hb, hmarks⟩ := hadd.fits a init x n h hn hlt
    rw [hb]
    exact hmarks
  · have hlarge : ¬small := fun hs => hlt (hsmall hs)
    obtain ⟨e, b, hb⟩ := hadd.throws hlarge a init x n h (by omega)
    rw [hb]
    exact ⟨⟨e, rfl⟩, hlarge⟩

/-- The turns that come back when the row count wraps around: each makes the last mark longer still. -/
theorem yields_wrapped (hadd : LengthensLastMark small cfg.addRowsToLastMark) {indexOffset g n rows : ℕ} (hoffset : indexOffset ≠ 0)
    (hg : g < 2 ^ 64) (hn : n < 2 ^ 62) (hwrap : 2 ^ 64 < n + g) (hsmall : ¬small) :
    ∀ fuel current a x, current + 1 < fuel → HasMarks a (init ++ [x]) → rows ≤ x →
      Yields (Planned init rows) (AddThrows small) (fillIndexGranularityImpl cfg indexOffset g n fuel current a) := by
  intro fuel
  induction fuel with
  | zero => exact fun current a x hfuel => absurd hfuel (Nat.not_lt_zero _)
  | succ fuel ih =>
    intro current a x hfuel h hle
    unfold fillIndexGranularityImpl
    by_cases hcurrent : current < n
    · have hmul : mulSize (n - current) 2 = (n - current) * 2 := mulSize_of_lt (by omega)
      have hstep : planGranule cfg indexOffset g n current a = addRows cfg a (n - current) := by
        simp only [planGranule, hmul]
        rw [if_pos ⟨by omega, Or.inr hoffset⟩, if_neg (by omega)]
      rw [if_pos hcurrent, hstep]
      refine (yields_addRows hadd h (by omega) fun hs => absurd hs hsmall).bind fun b hb => ?_
      by_cases hback : current + g < 2 ^ 64
      · -- the loop ends
        obtain ⟨fuel, rfl⟩ := Nat.exists_eq_succ_of_ne_zero (show fuel ≠ 0 by omega)
        unfold fillIndexGranularityImpl
        rw [addSize_of_lt hback, if_neg (by omega)]
        exact Planned.of_le hb (by omega)
      · have hnext : addSize current g < current := by
          unfold addSize
          omega
        exact ih _ b _ (by omega) hb (by omega)
    · rw [if_neg hcurrent]
      exact Planned.of_le h hle

theorem yields_fillWhole (hadd : LengthensLastMark small cfg.addRowsToLastMark) {indexOffset g n buffered : ℕ} (hpos : 0 < g)
    (hgn : g ≤ n) (hn : n < 2 ^ 62) (hsmall : small → buffered + n < 2 ^ 64) :
    ∀ fuel current a pend, n - current < fuel → current ≤ n → HasMarks a (init ++ pend) → pend.sum = buffered + current →
      Yields (Planned init (buffered + n)) (AddThrows small) (fillIndexGranularityImpl cfg indexOffset g n fuel current a) := by
  intro fuel
  induction fuel with
  | zero => exact fun current a pend hfuel => absurd hfuel (Nat.not_lt_zero _)
  | succ fuel ih =>
    intro current a pend hfuel hle h hsum
    unfold fillIndexGranularityImpl
    by_cases hcurrent : current < n
    · have hmul : mulSize (n - current) 2 = (n - current) * 2 := mulSize_of_lt (by omega)
      have hnext : addSize current g = current + g := addSize_of_lt (by omega)
      rw [if_pos hcurrent, hnext]
      -- the marks after the last turn
      have hend : ∀ b pend', HasMarks b (init ++ pend') → n < current + g → pend'.sum = buffered + n →
          Yields (Planned init (buffered + n)) (AddThrows small)
            (fillIndexGranularityImpl cfg indexOffset g n fuel (current + g) b) := by
        intro b pend' hb hlast hsum'
        obtain ⟨fuel, rfl⟩ := Nat.exists_eq_succ_of_ne_zero (show fuel ≠ 0 by omega)
        unfold fillIndexGranularityImpl
        rw [if_neg (by omega)]
        exact ⟨pend', hb, Or.inl hsum'⟩
      by_cases hlast : n - current < g
      · by_cases hhalf : g ≤ (n - current) * 2
        · have hstep : planGranule cfg indexOffset g n current a = ofGranularity (a.appendMark (n - current)) := by
            simp only [planGranule, hmul]
            rw [if_pos ⟨hlast, Or.inl hgn⟩, if_pos hhalf]
          rw [hstep]
          refine (yields_appendMark h (by omega) (by omega)).bind fun b hb => ?_
          rw [List.append_assoc] at hb
          exact hend b _ hb (by omega) (by rw [List.sum_append, List.sum_singleton]; omega)
        · have hstep : planGranule cfg indexOffset g n current a = addRows cfg a (n - current) := by
            simp only [planGranule, hmul]
            rw [if_pos ⟨hlast, Or.inl hgn⟩, if_neg hhalf]
          rw [hstep]
          -- there is a mark to extend: the first turn is not the last one
          obtain rfl | ⟨before, x, rfl⟩ := List.eq_nil_or_concat' pend
          · rw [List.sum_nil] at hsum
            omega
          · rw [List.sum_append, List.sum_singleton] at hsum
            rw [← List.append_assoc] at h
            refine (yields_addRows hadd h (by omega) fun hs => by have hs := hsmall hs; omega).bind fun b hb => ?_
            rw [List.append_assoc] at hb
            exact hend b _ hb (by omega) (by rw [List.sum_append, List.sum_singleton]; omega)
      · have hstep : planGranule cfg indexOffset g n current a = ofGranularity (a.appendMark g) := by
          simp only [planGranule]
          rw [if_neg fun hc => hlast hc.1]
        rw [hstep]
        refine (yields_appendMark h hpos (by omega)).bind fun b hb => ?_
        rw [List.append_assoc] at hb
        exact ih _ b _ (by omega) (by omega) hb (by rw [List.sum_append, List.sum_singleton]; omega)
    · rw [if_neg hcurrent]
      exact ⟨pend, h, Or.inl (by omega)⟩

/-- What is planned so far: nothing is buffered, or the buffered rows wait for the last mark. -/
def Waiting (pend : List ℕ) (buffered indexOffset : ℕ) : Prop :=
  (pend = [] ∧ buffered = 0 ∧ indexOffset = 0) ∨ (pend = [buffered + indexOffset] ∧ 0 < buffered ∧ 0 < indexOffset)

/-- **The granularity of a block.** -/
theorem yields_fillIndexGranularityImpl (hadd : LengthensLastMark small cfg.addRowsToLastMark) {indexOffset g n buffered : ℕ}
    (hpos : 0 < g) (hg : g < 2 ^ 64) (hnpos : 0 < n) (hn : n < 2 ^ 62) (hsmall : small → buffered + n + g ≤ 2 ^ 64)
    (hwaiting : Waiting pend buffered indexOffset) (h : HasMarks a (init ++ pend)) {fuel : ℕ} (hfuel : n + 2 ≤ fuel) :
    Yields (Planned init (buffered + n)) (AddThrows small)
      (fillIndexGranularityImpl cfg indexOffset g n fuel indexOffset a) := by
  by_cases houtside : n ≤ indexOffset
  · -- the whole block goes to the mark that is there
    rcases hwaiting with ⟨rfl, rfl, rfl⟩ | ⟨rfl, -, -⟩
    · omega
    · obtain ⟨fuel, rfl⟩ := Nat.exists_eq_succ_of_ne_zero (show fuel ≠ 0 by omega)
      unfold fillIndexGranularityImpl
      rw [if_neg (by omega)]
      exact Planned.of_le h (by omega)
  · by_cases hlarge : g ≤ n
    · have hsum : pend.sum = buffered + indexOffset := by
        rcases hwaiting with ⟨rfl, rfl, rfl⟩ | ⟨rfl, -, -⟩
        · rfl
        · exact List.sum_singleton
      exact yields_fillWhole hadd hpos hlarge hn (fun hs => by have hs := hsmall hs; omega) fuel indexOffset a pend
        (by omega) (by omega) h hsum
    · obtain ⟨fuel, rfl⟩ := Nat.exists_eq_succ_of_ne_zero (show fuel ≠ 0 by omega)
      unfold fillIndexGranularityImpl
      rw [if_pos (by omega)]
      rcases hwaiting with ⟨rfl, rfl, rfl⟩ | ⟨rfl, hbuffered, hoffset⟩
      · -- the block is the beginning of a new mark
        have hstep : planGranule cfg 0 g n 0 a = ofGranularity (a.appendMark g) := by
          simp only [planGranule]
          rw [if_neg fun hc => by omega]
        rw [hstep]
        rw [List.append_nil] at h
        refine (yields_appendMark h hpos hg).bind fun b hb => ?_
        obtain ⟨fuel, rfl⟩ := Nat.exists_eq_succ_of_ne_zero (show fuel ≠ 0 by omega)
        unfold fillIndexGranularityImpl
        rw [addSize_of_lt (by omega), if_neg (by omega)]
        exact Planned.of_le hb (by omega)
      · have hmul : mulSize (n - indexOffset) 2 = (n - indexOffset) * 2 := mulSize_of_lt (by omega)
        by_cases hhalf : g ≤ (n - indexOffset) * 2
        · -- a mark for the rest of the block
          have hstep : planGranule cfg indexOffset g n indexOffset a = ofGranularity (a.appendMark (n - indexOffset)) := by
            simp only [planGranule, hmul]
            rw [if_pos ⟨by omega, Or.inr (by omega)⟩, if_pos hhalf]
          rw [hstep]
          refine (yields_appendMark h (by omega) (by omega)).bind fun b hb => ?_
          obtain ⟨fuel, rfl⟩ := Nat.exists_eq_succ_of_ne_zero (show fuel ≠ 0 by omega)
          unfold fillIndexGranularityImpl
          rw [addSize_of_lt (by omega), if_neg (by omega)]
          rw [List.append_assoc] at hb
          exact ⟨_, hb, Or.inl (by rw [List.sum_append, List.sum_singleton, List.sum_singleton]; omega)⟩
        · -- the mark that is there takes the rest of the block
          have hstep : planGranule cfg indexOffset g n indexOffset a = addRows cfg a (n - indexOffset) := by
            simp only [planGranule, hmul]
            rw [if_pos ⟨by omega, Or.inr (by omega)⟩, if_neg hhalf]
          rw [hstep]
          refine (yields_addRows hadd h (by omega) fun hs => by have hs := hsmall hs; omega).bind fun b hb => ?_
          by_cases hback : indexOffset + g < 2 ^ 64
          · obtain ⟨fuel, rfl⟩ := Nat.exists_eq_succ_of_ne_zero (show fuel ≠ 0 by omega)
            unfold fillIndexGranularityImpl
            rw [addSize_of_lt hback, if_neg (by omega)]
            exact Planned.of_le hb (by omega)
          · have hnext : addSize indexOffset g < indexOffset := by
              unfold addSize
              omega
            exact yields_wrapped hadd (by omega) hg hn (by omega) (fun hs => by have hs := hsmall hs; omega) fuel _ b _
              (by omega) hb (by omega)

/-! ## The granules of a flush -/

theorem exists_granulesFrom (block : List ρ) (lastBlock : Bool) :
    ∀ pend before fuel currentRow, HasMarks a (before ++ pend) → currentRow + pend.sum = block.length → pend.length < fuel →
      ∃ granules, granulesFrom a block.length lastBlock fuel currentRow before.length = .ok granules ∧
        granules.map (fun granule => granule.rows block) = pend.splitLengths (block.drop currentRow) ∧
        ∀ granule ∈ granules, (granule.rows block).length = granule.rowsToWrite := by
  intro pend
  induction pend with
  | nil =>
    intro before fuel currentRow _ hsum hfuel
    obtain ⟨fuel, rfl⟩ := Nat.exists_eq_succ_of_ne_zero (Nat.ne_of_gt hfuel)
    rw [List.sum_nil] at hsum
    refine ⟨[], ?_, rfl, by simp⟩
    unfold granulesFrom
    rw [if_neg (by omega)]
  | cons r pend ih =>
    intro before fuel currentRow h hsum hfuel
    obtain ⟨fuel, rfl⟩ := Nat.exists_eq_succ_of_ne_zero (show fuel ≠ 0 by omega)
    rw [List.sum_cons] at hsum
    rw [List.length_cons] at hfuel
    have hr := h.size r (by simp)
    have hmark := h.rows before.length (by simp)
    have hget : (before ++ r :: pend).get ⟨before.length, by simp⟩ = r := by simp
    rw [hget] at hmark
    let granule : Granule := ⟨currentRow, r, before.length, true, true⟩
    have hrows : (granule.rows block).length = r := by
      simp only [Granule.rows, granule, List.length_take, List.length_drop]
      omega
    have hmin : min (block.length - currentRow) r = r := min_eq_right (by omega)
    have h' : HasMarks a ((before ++ [r]) ++ pend) := by rwa [List.append_assoc, List.singleton_append]
    obtain ⟨rest, hrun, hsplit, hlengths⟩ := ih (before ++ [r]) fuel (currentRow + r) h' (by omega) (by omega)
    rw [List.length_append, List.length_singleton] at hrun
    refine ⟨granule :: rest, ?_, ?_, fun g hg => ?_⟩
    · unfold granulesFrom
      rw [if_pos (by omega), hmark]
      have hcomplete : ¬(block.length - currentRow < r ∧ !lastBlock) := fun hc => by omega
      simp only [ofGranularity, Except.mapError, bind, Except.bind, if_neg hcomplete, hmin, hrun]
      simp only [pure, Except.pure, granule, Except.ok.injEq, List.cons.injEq, and_true, Granule.mk.injEq, true_and,
        decide_eq_true_eq]
      omega
    · rw [List.map_cons, hsplit, List.splitLengths_cons, ← List.drop_drop]
      rfl
    · rcases List.mem_cons.1 hg with rfl | hg
      · exact hrows
      · exact hlengths g hg

theorem exists_getGranulesToWrite (block : List ρ) (lastBlock : Bool) (h : HasMarks a (init ++ pend))
    (hsum : pend.sum = block.length) (hblock : block ≠ []) :
    ∃ granules, getGranulesToWrite a block.length init.length lastBlock = .ok granules ∧
      granules.map (fun granule => granule.rows block) = pend.splitLengths block ∧
      ∀ granule ∈ granules, (granule.rows block).length = granule.rowsToWrite := by
  have hlen := List.length_pos_of_ne_nil hblock
  have hpend : pend ≠ [] := by
    rintro rfl
    rw [List.sum_nil] at hsum
    omega
  have hcount : a.getMarksCount = init.length + pend.length := by rw [h.count, List.length_append]
  have hpos := List.length_pos_of_ne_nil hpend
  unfold getGranulesToWrite
  rw [if_neg (by omega)]
  have hrun := exists_granulesFrom block lastBlock pend init (a.getMarksCount + 1) 0 h (by omega) (by omega)
  rwa [List.drop_zero] at hrun

/-! ## Files -/

variable (cfg) in
/-- The files after these granules. -/
def writeGranules (out : CompactOutput σ) (granules : List (List ρ)) : CompactOutput σ :=
  granules.foldl (fun out rows => writeGranule cfg out rows rows.length) out

theorem writeDataBlock_eq (block : List ρ) {granules : List Granule}
    (h : ∀ granule ∈ granules, (granule.rows block).length = granule.rowsToWrite) (out : CompactOutput σ) :
    writeDataBlock cfg out block granules = writeGranules cfg out (granules.map fun granule => granule.rows block) := by
  unfold writeDataBlock writeGranules
  rw [List.foldl_map]
  induction granules generalizing out with
  | nil => rfl
  | cons granule rest ih =>
    rw [List.foldl_cons, List.foldl_cons, h granule List.mem_cons_self]
    exact ih (fun g hg => h g (List.mem_cons_of_mem _ hg)) _

theorem writeGranules_append (out : CompactOutput σ) (granules more : List (List ρ)) :
    writeGranules cfg out (granules ++ more) = writeGranules cfg (writeGranules cfg out granules) more :=
  List.foldl_append

namespace CompactReplay

variable (cfg)

/-- A granule: every column serializes all rows of the granule, one column after the other. -/
def columns (rows : List ρ) (first : Bool) : List (CompactColumn ρ σ) → σ → σ × List MarkInCompressedFile
  | [], data => (data, [])
  | column :: rest, data =>
    let written := column.writeColumnSingleGranule data rows first
    let others := columns rows first rest (if cfg.compressPerColumnInCompactParts then cfg.next written.1 else written.1)
    (others.1, written.2 ++ others.2)

/-- The granules of a part: its data, and for every granule its marks and its rows. -/
def granules : Bool → σ → List (List ρ) → σ × List (List MarkInCompressedFile × ℕ)
  | _, data, [] => (data, [])
  | first, data, rows :: rest =>
    let written := columns cfg rows first cfg.columnsList data
    let others := granules false (if cfg.compressPerColumnInCompactParts then written.1 else cfg.next written.1) rest
    (others.1, (written.2, rows.length) :: others.2)

/-- The mark after the granules. -/
def finalMark (data : σ) (written : List (List ρ)) : List (List MarkInCompressedFile × ℕ) :=
  if cfg.withFinalMark = true ∧ written ≠ [] then [(List.replicate cfg.marksInGranule ⟨cfg.count data, 0⟩, 0)] else []

variable {cfg}

theorem map_rows (written : List (List ρ)) (first : Bool) (data : σ) :
    (granules cfg first data written).2.map Prod.snd = written.map List.length := by
  induction written generalizing first data with
  | nil => rfl
  | cons rows rest ih => exact congrArg (rows.length :: ·) (ih _ _)

theorem foldl_writeColumn (rows : List ρ) (first : Bool) (list : List (CompactColumn ρ σ)) (data : σ)
    (marks : List MarkInCompressedFile) : list.foldl (writeColumn cfg rows first) (data, marks) =
      ((columns cfg rows first list data).1, marks ++ (columns cfg rows first list data).2) := by
  induction list generalizing data marks with
  | nil => exact Prod.ext rfl (List.append_nil marks).symm
  | cons column rest ih => exact (ih _ _).trans (Prod.ext rfl (List.append_assoc _ _ _))

/-- **The writer writes what the replay says.** -/
theorem writeGranules_eq (written : List (List ρ)) (out : CompactOutput σ) : writeGranules cfg out written =
    { data := (granules cfg (!out.dataWritten) out.data written).1
      marksOut := out.marksOut ++ (granules cfg (!out.dataWritten) out.data written).2
      dataWritten := out.dataWritten || !written.isEmpty } := by
  induction written generalizing out with
  | nil =>
    unfold writeGranules granules
    rw [List.foldl_nil, List.append_nil, List.isEmpty_nil, Bool.not_true, Bool.or_false]
  | cons rows rest ih =>
    have hcons : writeGranules cfg out (rows :: rest) = writeGranules cfg (writeGranule cfg out rows rows.length) rest := rfl
    rw [hcons, ih]
    unfold writeGranule
    rw [foldl_writeColumn]
    simp [granules]

theorem writeFinalMark_eq (written : List (List ρ)) :
    (writeFinalMark cfg (writeGranules cfg { data := cfg.fresh } written)).data = (granules cfg true cfg.fresh written).1 ∧
    (writeFinalMark cfg (writeGranules cfg { data := cfg.fresh } written)).marksOut =
      (granules cfg true cfg.fresh written).2 ++ finalMark cfg (granules cfg true cfg.fresh written).1 written := by
  rw [writeGranules_eq]
  unfold writeFinalMark finalMark
  cases written with
  | nil => simp
  | cons rows rest =>
    by_cases hfinal : cfg.withFinalMark = true
    · simp [hfinal]
    · simp [hfinal]

end CompactReplay

/-! ## The calls -/

/-- The writer between two calls: the granules that are written, and the marks planned after them. -/
structure Steady (cfg : CompactConfig ρ σ) (rows : List ρ) (granules : List (List ρ)) (pend : List ℕ)
    (w : CompactWriter ρ σ) : Prop where
  computes : w.computeGranularity = true
  marks : w.indexGranularity.HasMarks (granules.map List.length ++ pend)
  rows_eq : granules.flatten ++ w.columnsBuffer = rows
  currentMark : w.currentMark = granules.length
  output : w.output = writeGranules cfg { data := cfg.fresh } granules
  pending : (pend = [] ∧ w.columnsBuffer = []) ∨ ∃ x, pend = [x] ∧ 0 < w.columnsBuffer.length ∧ w.columnsBuffer.length < x

theorem steady_create : Steady cfg [] [] [] (create cfg {}) :=
  ⟨rfl, hasMarks_empty, rfl, rfl, rfl, Or.inl ⟨rfl, rfl⟩⟩

theorem accumulate_flush {columnsBuffer resultBlock : List ρ} {r : ℕ} (h : r ≤ (columnsBuffer ++ resultBlock).length) :
    accumulate columnsBuffer resultBlock r = (some (columnsBuffer ++ resultBlock), []) := by
  unfold accumulate
  by_cases hempty : columnsBuffer = []
  · subst hempty
    rw [List.nil_append] at h
    rw [if_pos ⟨rfl, h⟩, List.nil_append]
  · rw [if_neg fun hc => hempty (List.length_eq_zero_iff.1 hc.1)]
    simp only [if_pos h]

theorem accumulate_wait {columnsBuffer resultBlock : List ρ} {r : ℕ} (h : (columnsBuffer ++ resultBlock).length < r) :
    accumulate columnsBuffer resultBlock r = (none, columnsBuffer ++ resultBlock) := by
  unfold accumulate
  rw [if_neg fun hc => by rw [List.length_append] at h; omega]
  simp only [if_neg (Nat.not_le.2 h)]

section Calls

variable {rows : List ρ} {granules : List (List ρ)} {w : CompactWriter ρ σ}

theorem Steady.yields_fillIndexGranularity (h : Steady cfg rows granules pend w)
    (hadd : LengthensLastMark small cfg.addRowsToLastMark) {g n : ℕ} (hpos : 0 < g) (hg : g < 2 ^ 64) (hnpos : 0 < n)
    (hn : n < 2 ^ 62) (hsmall : small → w.columnsBuffer.length + n + g ≤ 2 ^ 64) :
    Yields (fun w' => ∃ a, w' = { w with indexGranularity := a } ∧
        Planned (granules.map List.length) (w.columnsBuffer.length + n) a) (AddThrows small)
      (w.fillIndexGranularity cfg g n) := by
  have hcount := h.marks.count
  rw [List.length_append, List.length_map] at hcount
  have hoffset : ∃ indexOffset, (if w.currentMark < w.indexGranularity.getMarksCount then do
      let rows ← ofGranularity (w.indexGranularity.getMarkRows w.currentMark)
      return subSize rows w.columnsBuffer.length
    else .ok 0 : Except CompactException ℕ) = .ok indexOffset ∧ Waiting pend w.columnsBuffer.length indexOffset := by
    rcases h.pending with ⟨rfl, hbuffer⟩ | ⟨x, rfl, hbuffer, hlt⟩
    · refine ⟨0, ?_, Or.inl ⟨rfl, by rw [hbuffer]; rfl, rfl⟩⟩
      rw [h.currentMark, if_neg (by rw [hcount]; simp)]
    · have hmark := h.marks.rows granules.length (by simp)
      have hx := (h.marks.size x (by simp)).2
      refine ⟨x - w.columnsBuffer.length, ?_, Or.inr ⟨?_, hbuffer, by omega⟩⟩
      · rw [h.currentMark, if_pos (by rw [hcount, List.length_singleton]; omega), hmark]
        simp only [ofGranularity, Except.mapError, bind, Except.bind, pure, Except.pure, List.get_eq_getElem,
          List.length_map, le_refl, List.getElem_append_right, Nat.sub_self, List.getElem_cons_zero, Except.ok.injEq]
        exact subSize_of_le (by omega) hx
      · rw [Nat.add_sub_cancel' (by omega)]
  obtain ⟨indexOffset, hrun, hwaiting⟩ := hoffset
  unfold fillIndexGranularity
  rw [hrun]
  exact (yields_fillIndexGranularityImpl hadd hpos hg hnpos hn hsmall hwaiting h.marks (show n + 2 ≤ 2 ^ 64 by omega)).bind
    fun a ha => ⟨a, rfl, ha⟩

/-- **One call of `write`.** -/
theorem Steady.yields_write (h : Steady cfg rows granules pend w) (hadd : LengthensLastMark small cfg.addRowsToLastMark)
    (block : CompactBlock ρ) (hsmall : small → rows.length + block.rows.length + block.granularity ≤ 2 ^ 64) :
    Yields (fun w' => ∃ granules' pend', Steady cfg (rows ++ block.permuted) granules' pend' w') (AddThrows small)
      (write cfg w block) := by
  have hlength := block.toWriterBlock.length_permuted
  have hne := List.length_pos_of_ne_nil block.nonempty
  have hbuffer : w.columnsBuffer.length ≤ rows.length := by
    rw [← h.rows_eq, List.length_append]
    omega
  unfold write
  rw [if_pos h.computes]
  refine (h.yields_fillIndexGranularity hadd block.granularity_pos block.granularity_lt hne block.rows_lt
    fun hs => by have hs := hsmall hs; omega).bind ?_
  rintro w' ⟨a, rfl, pend', hmarks, hplanned⟩
  have hall : (w.columnsBuffer ++ block.permuted).length = w.columnsBuffer.length + block.rows.length := by
    rw [List.length_append, hlength]
  obtain ⟨r, more, rfl⟩ : ∃ r more, pend' = r :: more := by
    cases pend' with
    | nil =>
      rcases hplanned with hsum | ⟨x, hx, -⟩
      · rw [List.sum_nil] at hsum
        omega
      · cases hx
    | cons r more => exact ⟨r, more, rfl⟩
  have hmark : a.getMarkRows w.currentMark = .ok r := by
    have hmark := hmarks.rows granules.length (by simp)
    rw [h.currentMark, hmark]
    simp
  simp only [hmark]
  rcases hplanned with hsum | ⟨x, hx, hlt⟩
  · -- everything is flushed
    have hr : r ≤ (w.columnsBuffer ++ block.permuted).length := by
      rw [List.sum_cons] at hsum
      omega
    obtain ⟨planned, hgranules, hsplit, hlengths⟩ := exists_getGranulesToWrite (w.columnsBuffer ++ block.permuted) false
      hmarks (by rw [hall]; exact hsum) (List.ne_nil_of_length_pos (by omega))
    rw [List.length_map, ← h.currentMark] at hgranules
    have hflatten : ((r :: more).splitLengths (w.columnsBuffer ++ block.permuted)).flatten = w.columnsBuffer ++ block.permuted :=
      List.flatten_splitLengths _ _ (by omega)
    have hmap : ((r :: more).splitLengths (w.columnsBuffer ++ block.permuted)).map List.length = r :: more :=
      List.map_splitLengths_length _ _ (by omega)
    have hcount : planned.length = ((r :: more).splitLengths (w.columnsBuffer ++ block.permuted)).length := by
      rw [← hsplit, List.length_map]
    simp only [ofGranularity, Except.mapError, bind, Except.bind, accumulate_flush hr, flush, hgranules]
    refine ⟨granules ++ (r :: more).splitLengths (w.columnsBuffer ++ block.permuted), [], h.computes, ?_, ?_, ?_, ?_,
      Or.inl ⟨rfl, rfl⟩⟩
    · rw [List.append_nil, List.map_append, hmap]
      exact hmarks
    · rw [List.flatten_append, hflatten, List.append_nil, ← List.append_assoc, h.rows_eq]
    · simp only [h.currentMark, hcount, List.length_append]
    · simp only [writeDataBlock_eq _ hlengths, hsplit, h.output, writeGranules_append]
  · -- the rows wait for the rest of the mark
    obtain ⟨rfl, rfl⟩ : r = x ∧ more = [] := by simpa using hx
    have hr : (w.columnsBuffer ++ block.permuted).length < r := by omega
    simp only [ofGranularity, Except.mapError, bind, Except.bind, accumulate_wait hr]
    exact ⟨granules, [r], h.computes, hmarks, by rw [← List.append_assoc, h.rows_eq], h.currentMark, h.output,
      Or.inr ⟨r, rfl, by rw [hall]; omega, hr⟩⟩

/-- **A part that is written**: granules that have every row once and in order, each of them serialized by all columns and
with its rows in the mark file, and a mark for each. -/
structure Written (cfg : CompactConfig ρ σ) (rows : List ρ) (w : CompactWriter ρ σ) : Prop where
  buffer : w.columnsBuffer = []
  granules : ∃ granules : List (List ρ), granules.flatten = rows ∧
    w.output.data = (CompactReplay.granules cfg true cfg.fresh granules).1 ∧
    w.output.marksOut = (CompactReplay.granules cfg true cfg.fresh granules).2 ++
      CompactReplay.finalMark cfg w.output.data granules ∧
    w.indexGranularity.HasMarks (granules.map List.length)

/-- **`finalizeIndexGranularity`.** -/
theorem Steady.exists_finalizeIndexGranularity (h : Steady cfg rows granules pend w) :
    ∃ w', w.finalizeIndexGranularity cfg = .ok w' ∧ Written cfg rows w' := by
  -- the files, when these granules are written
  have hfiles : ∀ {w' : CompactWriter ρ σ} {written : List (List ρ)}, w'.columnsBuffer = [] → written.flatten = rows →
      w'.output = writeFinalMark cfg (writeGranules cfg { data := cfg.fresh } written) →
      w'.indexGranularity.HasMarks (written.map List.length) → Written cfg rows w' := by
    intro w' written hbuffer hrows houtput hmarks
    obtain ⟨hdata, hmarksOut⟩ := @CompactReplay.writeFinalMark_eq _ _ cfg written
    refine ⟨hbuffer, written, hrows, ?_, ?_, hmarks⟩
    · rw [houtput, hdata]
    · rw [houtput, hmarksOut, hdata]
  unfold finalizeIndexGranularity
  rcases h.pending with ⟨rfl, hbuffer⟩ | ⟨x, rfl, hpos, hlt⟩
  · rw [hbuffer]
    refine ⟨_, rfl, @hfiles _ granules hbuffer ?_ ?_ ?_⟩
    · have hrows := h.rows_eq
      rwa [hbuffer, List.append_nil] at hrows
    · simp only [h.output]
    · have hmarks := h.marks
      rwa [List.append_nil] at hmarks
  · have hx := h.marks.size x (by simp)
    obtain ⟨b, hadjust, hmarks⟩ := h.marks.adjustLastMark (r := w.columnsBuffer.length) hpos (by omega)
    have hmark : w.indexGranularity.getMarkRows w.currentMark = .ok x := by
      rw [h.currentMark, h.marks.rows granules.length (by simp)]
      simp
    have hcount : w.indexGranularity.getMarksCount = w.currentMark + 1 := by
      rw [h.marks.count, h.currentMark]
      simp
    -- one granule, which is not complete
    let granule : Granule := ⟨0, w.columnsBuffer.length, w.currentMark, true, false⟩
    have hgranules : getGranulesToWrite w.indexGranularity w.columnsBuffer.length w.currentMark true = .ok [granule] := by
      unfold getGranulesToWrite
      rw [if_neg (by omega), hcount]
      unfold granulesFrom
      rw [if_pos hpos, hmark]
      have hmin : min w.columnsBuffer.length x = w.columnsBuffer.length := min_eq_left hlt.le
      unfold granulesFrom
      simp [ofGranularity, Except.mapError, bind, Except.bind, pure, Except.pure, hmin, granule, hlt]
    have hlengths : ∀ g ∈ [granule], (g.rows w.columnsBuffer).length = g.rowsToWrite := by
      simp [Granule.rows, granule]
    have hrowsOf : granule.rows w.columnsBuffer = w.columnsBuffer := by simp [Granule.rows, granule]
    rw [if_pos (by omega)]
    simp only [hgranules, List.getLast?_singleton, granule, Bool.false_eq_true, if_false, hadjust, bind, Except.bind, ofGranularity,
      Except.mapError, pure, Except.pure]
    refine ⟨_, rfl, @hfiles _ (granules ++ [w.columnsBuffer]) rfl ?_ ?_ ?_⟩
    · rw [List.flatten_append, List.flatten_singleton, h.rows_eq]
    · have hwrite : writeDataBlock cfg w.output _ _ = _ := writeDataBlock_eq w.columnsBuffer hlengths w.output
      rw [List.map_singleton, hrowsOf] at hwrite
      rw [writeGranules_append, ← h.output]
      exact congrArg (writeFinalMark cfg) hwrite
    · rw [List.map_append, List.map_singleton]
      exact hmarks

end Calls

/-! ## The whole part -/

/-- The row counts and granularities of the part fit `size_t`. -/
def RowsFit (blocks : List (CompactBlock ρ)) : Prop :=
  ∀ block ∈ blocks, (blocks.map fun b => b.rows.length).sum + block.granularity ≤ 2 ^ 64

/-- The rows of the blocks, in the order they are written. -/
def rowsOf (blocks : List (CompactBlock ρ)) : List ρ := blocks.flatMap fun block => block.permuted

theorem length_rowsOf (blocks : List (CompactBlock ρ)) : (rowsOf blocks).length = (blocks.map fun b => b.rows.length).sum := by
  unfold rowsOf
  rw [List.length_flatMap]
  exact congrArg List.sum (List.map_congr_left fun block _ => block.toWriterBlock.length_permuted)

theorem yields_writeBlocks (blocks : List (CompactBlock ρ)) (hadd : LengthensLastMark (RowsFit blocks) cfg.addRowsToLastMark) :
    Yields (fun w => ∃ granules pend, Steady cfg (rowsOf blocks) granules pend w) (AddThrows (RowsFit blocks))
      (writeBlocks cfg blocks) := by
  unfold writeBlocks
  refine yields_foldlM (I := fun done w => ∃ granules pend, Steady cfg (rowsOf done) granules pend w)
    ⟨[], [], steady_create⟩ fun done block w hprefix hsteady => ?_
  obtain ⟨granules, pend, hsteady⟩ := hsteady
  have hrows : rowsOf (done ++ [block]) = rowsOf done ++ block.permuted := by simp [rowsOf]
  rw [hrows]
  refine hsteady.yields_write hadd block fun hfit => ?_
  obtain ⟨rest, rfl⟩ := hprefix
  have hblock := hfit block (by simp)
  rw [length_rowsOf]
  simp only [List.map_append, List.sum_append, List.map_cons, List.map_nil, List.sum_singleton] at hblock
  omega

/-- Between two calls: the buffered rows are fewer than the rows of the current mark, and that is the last one. -/
structure Buffers (cfg : CompactConfig ρ σ) (rows : List ρ) (w : CompactWriter ρ σ) : Prop where
  waiting : w.columnsBuffer ≠ [] → w.currentMark + 1 = w.indexGranularity.getMarksCount ∧
    ∃ r, w.indexGranularity.getMarkRows w.currentMark = .ok r ∧ w.columnsBuffer.length < r
  flushed : w.columnsBuffer = [] → w.currentMark = w.indexGranularity.getMarksCount
  granules : ∃ granules : List (List ρ), granules.flatten ++ w.columnsBuffer = rows ∧ w.currentMark = granules.length ∧
    w.output.data = (CompactReplay.granules cfg true cfg.fresh granules).1 ∧
    w.output.marksOut = (CompactReplay.granules cfg true cfg.fresh granules).2

theorem Steady.buffers {rows : List ρ} {granules : List (List ρ)} {w : CompactWriter ρ σ}
    (h : Steady cfg rows granules pend w) : Buffers cfg rows w := by
  have hcount := h.marks.count
  rw [List.length_append, List.length_map, ← h.currentMark] at hcount
  have houtput := h.output
  rw [CompactReplay.writeGranules_eq] at houtput
  refine ⟨fun hne => ?_, fun hempty => ?_, granules, h.rows_eq, h.currentMark, by rw [houtput]; rfl, by rw [houtput]; rfl⟩
  · rcases h.pending with ⟨-, hbuffer⟩ | ⟨x, rfl, -, hlt⟩
    · exact absurd hbuffer hne
    · refine ⟨by rw [hcount, List.length_singleton], x, ?_, hlt⟩
      rw [h.currentMark, h.marks.rows granules.length (by simp)]
      simp
  · rcases h.pending with ⟨rfl, -⟩ | ⟨x, -, hpos, -⟩
    · rw [hcount, List.length_nil, Nat.add_zero]
    · rw [hempty, List.length_nil] at hpos
      omega

/-- **The row counts of a part**: the mark file has for every granule the rows of its mark, and
the marks have all rows. -/
theorem Written.row_counts {rows : List ρ} {w : CompactWriter ρ σ} (h : Written cfg rows w) :
    ∃ counts : List ℕ, counts.sum = rows.length ∧ w.indexGranularity.getMarksCount = counts.length ∧
      (∀ i, (hi : i < counts.length) → w.indexGranularity.getMarkRows i = .ok (counts.get ⟨i, hi⟩)) ∧
      counts <+: w.output.marksOut.map Prod.snd := by
  obtain ⟨-, granules, hflatten, -, hmarksOut, hmarks⟩ := h
  refine ⟨granules.map List.length, by rw [← hflatten, List.length_flatten], hmarks.count, hmarks.rows, ?_⟩
  rw [hmarksOut, List.map_append, CompactReplay.map_rows]
  exact List.prefix_append _ _

/-- **Whole granules.** After every call of `write` the buffered rows are fewer than those of the
current mark, which is the last one. After `finalizeIndexGranularity` every row is in exactly one
granule, in order, and the mark file, the marks and the granules have the same row counts. There
is no exception but one of `addRowsToLastMark`, and none when the row counts fit. -/
theorem writePart_wholeGranules (blocks : List (CompactBlock ρ)) (hadd : LengthensLastMark (RowsFit blocks) cfg.addRowsToLastMark) :
    Yields (Buffers cfg (rowsOf blocks)) (AddThrows (RowsFit blocks)) (writeBlocks cfg blocks) ∧
    Yields (fun w => Written cfg (rowsOf blocks) w ∧ ∃ counts : List ℕ, counts.sum = (rowsOf blocks).length ∧
        w.indexGranularity.getMarksCount = counts.length ∧
        (∀ i, (hi : i < counts.length) → w.indexGranularity.getMarkRows i = .ok (counts.get ⟨i, hi⟩)) ∧
        counts <+: w.output.marksOut.map Prod.snd)
      (AddThrows (RowsFit blocks)) (writePart cfg blocks) := by
  have hblocks := yields_writeBlocks blocks hadd
  refine ⟨hblocks.mono (fun w ⟨_, _, hsteady⟩ => hsteady.buffers) fun _ he => he, ?_⟩
  refine hblocks.bind fun w ⟨granules, pend, hsteady⟩ => ?_
  obtain ⟨w', hfinalize, hwritten⟩ := hsteady.exists_finalizeIndexGranularity
  rw [hfinalize]
  exact ⟨hwritten, hwritten.row_counts⟩

/-! ## A small part -/

namespace SmallPart

/-- The last mark with its new rows. -/
def lengthen (a : GranularityAdaptive) (rowsCount : ℕ) : Except String Unit × GranularityAdaptive :=
  match a.getLastMarkRows with
  | .ok rows => a.call (a.adjustLastMark (addSize rows rowsCount))
  | .error e => (.error e, a)

theorem lengthensLastMark (hsmall : small) : LengthensLastMark small lengthen := by
  refine ⟨fun a init x n h hn hlt => ?_, fun hlarge => absurd hsmall hlarge⟩
  have hlast : a.getLastMarkRows = .ok x := by
    unfold getLastMarkRows
    rw [h.count, List.length_append, List.length_singleton, Nat.add_sub_cancel, h.rows _ (by simp)]
    simp
  obtain ⟨b, hb, hmarks⟩ := h.adjustLastMark (r := x + n) (by omega) hlt
  refine ⟨b, ?_, hmarks⟩
  simp only [lengthen, hlast, addSize_of_lt hlt, hb, GranularityAdaptive.call]

/-- One column; the data file is the list of what was serialized. -/
def config (addRowsToLastMark : GranularityAdaptive → ℕ → Except String Unit × GranularityAdaptive) :
    CompactConfig ℕ (List (List ℕ)) where
  columnsList := [⟨"n", fun data rows _ => (data ++ [rows], [⟨data.length, 0⟩])⟩]
  compressPerColumnInCompactParts := true
  withFinalMark := true
  marksInGranule := 1
  fresh := []
  next := id
  count := List.length
  addRowsToLastMark := addRowsToLastMark

theorem blocks_permutes : ∀ p ∈ some [1, 2, 0], p.Perm (List.range [30, 10, 20].length) := by decide

/-- Rows that wait, a block that lengthens their mark, and an incomplete last mark. -/
def blocks : List (CompactBlock ℕ) :=
  [{ rows := [30, 10, 20], permutation := some [1, 2, 0], granularity := 4, permutes := blocks_permutes, nonempty := by decide,
     rows_lt := by decide, granularity_pos := by decide, granularity_lt := by decide },
   { rows := [40, 50], granularity := 4, permutes := by decide, nonempty := by decide,
     rows_lt := by decide, granularity_pos := by decide, granularity_lt := by decide },
   { rows := [60], granularity := 3, permutes := by decide, nonempty := by decide,
     rows_lt := by decide, granularity_pos := by decide, granularity_lt := by decide }]

end SmallPart

/-- The file holds the rows in their order, in granules of the marks. -/
theorem writePart_wholeGranules_smallPart :
    ∃ w, writePart (SmallPart.config SmallPart.lengthen) SmallPart.blocks = .ok w ∧
      w.output.data = [[10, 20, 30, 40, 50], [60]] ∧
      w.output.marksOut = [([⟨0, 0⟩], 5), ([⟨1, 0⟩], 1), ([⟨2, 0⟩], 0)] ∧
      Written (SmallPart.config SmallPart.lengthen) (rowsOf SmallPart.blocks) w := by
  have hfit : RowsFit SmallPart.blocks := by
    unfold RowsFit
    decide
  obtain ⟨w, hw, hwritten, -⟩ := Yields.exists_ok
    (@writePart_wholeGranules _ _ (SmallPart.config SmallPart.lengthen) SmallPart.blocks (SmallPart.lengthensLastMark hfit)).2
    fun e he => he.2 hfit
  have hfiles : (writePart (SmallPart.config SmallPart.lengthen) SmallPart.blocks).map
      (fun w => (w.output.data, w.output.marksOut)) =
        .ok ([[10, 20, 30, 40, 50], [60]], [([⟨0, 0⟩], 5), ([⟨1, 0⟩], 1), ([⟨2, 0⟩], 0)]) := by decide +kernel
  rw [hw] at hfiles
  obtain ⟨hdata, hmarksOut⟩ := Prod.mk.inj (Except.ok.inj hfiles)
  exact ⟨w, hw, hdata, hmarksOut, hwritten⟩

/-- The real `addRowsToLastMark` does the same here. -/
example : (writePart (SmallPart.config addRowsToLastMark) SmallPart.blocks).map CompactWriter.indexGranularity = .ok ⟨[5, 6]⟩ ∧
    (writePart (SmallPart.config SmallPart.lengthen) SmallPart.blocks).map CompactWriter.indexGranularity = .ok ⟨[5, 6]⟩ := by
  decide +kernel

end CompactWriter

end MergeTree
