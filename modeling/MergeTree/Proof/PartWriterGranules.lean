import MergeTree.Lib.Units
import MergeTree.Spec.PartWriterWide

/-!
# The granules of a block

`fillIndexGranularity` appends just the marks that a block needs, and `getGranulesToWrite`
uses all of them (`exists_getGranulesToWrite`): the granules follow each other, a granule
opens a mark exactly when none is open, and completes it exactly when all rows planned for
it are there (`Valid`).
-/

namespace MergeTree

namespace IndexGranularity

/-- The marks of a granularity. -/
structure MarkRows (g : IndexGranularity) (l : List ℕ) : Prop where
  count : g.getMarksCount = l.length
  rows : ∀ i, (h : i < l.length) → g.getMarkRows i = .ok (l.get ⟨i, h⟩)

/-- A granularity without final mark that has these marks. -/
def Marks : IndexGranularity → List ℕ → Prop
  | adaptive a, l => a.marksRowsPartialSums.length = l.length ∧ (∀ i < l.length, a.sumAt i = (l.take (i + 1)).sum) ∧
      (∀ r ∈ l, 0 < r) ∧ l.sum < 2 ^ 64
  | constant c, l => c.hasFinalMark = false ∧ c.numMarksWithoutFinal = l.length ∧
      ∀ i, (h : i < l.length) → l.get ⟨i, h⟩ = if i + 1 < l.length then c.constantGranularity else c.lastMarkGranularity

/-- A mark that can be appended. -/
def Fits : IndexGranularity → ℕ → Prop
  | adaptive _, _ => True
  | constant c, r => r = c.constantGranularity ∧ c.lastMarkGranularity = c.constantGranularity

variable {g : IndexGranularity} {l init : List ℕ} {r x : ℕ}

theorem sum_take_succ {i : ℕ} (h : i < l.length) : (l.take (i + 1)).sum = (l.take i).sum + l.get ⟨i, h⟩ := by
  rw [List.take_add_one, List.getElem?_eq_getElem h, Option.toList_some, List.sum_append, List.sum_singleton]
  rfl

theorem Marks.count (h : g.Marks l) : g.getMarksCount = l.length := by
  cases g with
  | adaptive a => exact h.1
  | constant c => simp [getMarksCount, GranularityConstant.getMarksCount, h.1, h.2.1]

theorem getMarkRows_adaptive {a : GranularityAdaptive} (hlen : a.marksRowsPartialSums.length = l.length)
    (hsums : ∀ i < l.length, a.sumAt i = (l.take (i + 1)).sum) (hlt : l.sum < 2 ^ 64) {i : ℕ} (hi : i < l.length) :
    (adaptive a).getMarkRows i = .ok (l.get ⟨i, hi⟩) := by
  have hle : (l.take (i + 1)).sum ≤ l.sum := List.Sublist.sum_le_sum (List.take_sublist _ _) fun _ _ => Nat.zero_le _
  simp only [IndexGranularity.getMarkRows, GranularityAdaptive.getMarkRows, GranularityAdaptive.getMarksCount, hlen,
    if_neg (Nat.not_le.2 hi)]
  rw [sum_take_succ hi] at hle
  by_cases h0 : i = 0
  · subst h0
    rw [if_pos rfl, hsums 0 hi, sum_take_succ hi]
    simp [logical, Except.mapError]
  · rw [if_neg h0, hsums i hi, hsums (i - 1) (by omega), Nat.sub_add_cancel (by omega), sum_take_succ hi,
      subSize_of_le (by omega) (by omega)]
    simp [logical, Except.mapError]

theorem Marks.getMarkRows (h : g.Marks l) {i : ℕ} (hi : i < l.length) : g.getMarkRows i = .ok (l.get ⟨i, hi⟩) := by
  have hcount := h.count
  cases g with
  | adaptive a => exact getMarkRows_adaptive h.1 h.2.1 h.2.2.2 hi
  | constant c =>
    obtain ⟨hfinal, hnum, hrows⟩ := h
    have hi' : ¬c.getMarksCount ≤ i := by
      simp only [getMarksCount] at hcount
      omega
    simp only [IndexGranularity.getMarkRows, GranularityConstant.getMarkRows, if_neg hi', hnum, hrows i hi]
    by_cases hlast : i + 1 < l.length
    · simp [hlast, logical, Except.mapError]
    · rw [if_neg hlast, if_pos (by omega), if_neg hlast]
      simp [logical, Except.mapError]

theorem Marks.markRows (h : g.Marks l) : g.MarkRows l := ⟨h.count, fun _ hi => h.getMarkRows hi⟩

theorem Marks.hasFinalMark_adaptive {a : GranularityAdaptive} (h : (adaptive a).Marks l) : a.hasFinalMark = false := by
  unfold GranularityAdaptive.hasFinalMark
  by_cases hempty : a.marksRowsPartialSums.isEmpty = true
  · rw [if_pos hempty]
  · rw [if_neg hempty]
    have hlen := h.1
    have hpos : 0 < l.length := by
      rw [← hlen]
      exact List.length_pos_of_ne_nil (by simpa using hempty)
    have hlast := h.getMarkRows (i := l.length - 1) (by omega)
    have hrow := h.2.2.1 _ (List.get_mem l ⟨l.length - 1, by omega⟩)
    unfold GranularityAdaptive.getLastMarkRows GranularityAdaptive.getMarksCount
    rw [hlen]
    cases hmark : a.getMarkRows (l.length - 1) with
    | error e => rfl
    | ok rows =>
      simp only [IndexGranularity.getMarkRows, hmark, logical, Except.mapError, Except.ok.injEq] at hlast
      simp only [decide_eq_false_iff_not]
      omega

theorem getLastD_partialSums {a : GranularityAdaptive} (hlen : a.marksRowsPartialSums.length = l.length)
    (hsums : ∀ i < l.length, a.sumAt i = (l.take (i + 1)).sum) : a.marksRowsPartialSums.getLastD 0 = l.sum := by
  rcases Nat.eq_zero_or_pos l.length with h0 | hpos
  · have hl : l = [] := List.length_eq_zero_iff.1 h0
    have hs : a.marksRowsPartialSums = [] := List.length_eq_zero_iff.1 (hlen.trans h0)
    simp [hl, hs]
  · have hlast := hsums (l.length - 1) (by omega)
    rw [Nat.sub_add_cancel hpos, List.take_length] at hlast
    rw [← hlast, GranularityAdaptive.sumAt, List.getLastD_eq_getLast?, List.getLast?_eq_getElem?, hlen,
      List.getD_eq_getElem?_getD]

theorem appendMark_adaptive {a : GranularityAdaptive} (h : (adaptive a).Marks l) (hlt : l.sum + r < 2 ^ 64) :
    ∃ b : GranularityAdaptive, (adaptive a).appendMark r = .ok (adaptive b) ∧
      b.marksRowsPartialSums.length = (l ++ [r]).length ∧
      ∀ i < (l ++ [r]).length, b.sumAt i = ((l ++ [r]).take (i + 1)).sum := by
  have hsum := getLastD_partialSums h.1 h.2.1
  refine ⟨⟨a.marksRowsPartialSums ++ [l.sum + r]⟩, ?_, ?_, ?_⟩
  · have hfinal := h.hasFinalMark_adaptive
    simp only [appendMark, GranularityAdaptive.appendMark, hfinal, hsum, addSize_of_lt hlt]
    by_cases hempty : a.marksRowsPartialSums = []
    · have hl : l = [] := List.length_eq_zero_iff.1 (by rw [← h.1, hempty]; rfl)
      simp [hempty, hl, logical, Except.mapError, Except.map]
    · simp [hempty, logical, Except.mapError, Except.map]
  · simp [h.1]
  · intro i hi
    rw [List.length_append, List.length_singleton] at hi
    by_cases hlast : i < l.length
    · rw [List.take_append_of_le_length (by omega), ← h.2.1 i hlast]
      unfold GranularityAdaptive.sumAt
      rw [List.getD_append _ _ _ _ (by rw [h.1]; exact hlast)]
    · have hi' : i = l.length := by omega
      subst hi'
      rw [List.take_of_length_le (by simp), List.sum_append, List.sum_singleton]
      unfold GranularityAdaptive.sumAt
      rw [List.getD_append_right _ _ _ _ (by rw [h.1]), h.1]
      simp

theorem Marks.appendMark (h : g.Marks l) (hr : 0 < r) (hlt : l.sum + r < 2 ^ 64) (hfits : g.Fits r) :
    ∃ g', g.appendMark r = .ok g' ∧ g'.Marks (l ++ [r]) ∧ g'.Fits r ∧
      g'.getConstantGranularity = g.getConstantGranularity := by
  cases g with
  | adaptive a =>
    obtain ⟨b, hb, hlen, hsums⟩ := appendMark_adaptive h hlt
    refine ⟨adaptive b, hb, ⟨hlen, hsums, ?_, by simpa using hlt⟩, trivial, rfl⟩
    intro row hrow
    rcases List.mem_append.1 hrow with hrow | hrow
    · exact h.2.2.1 row hrow
    · rw [List.mem_singleton.1 hrow]
      exact hr
  | constant c =>
    obtain ⟨hfinal, hnum, hrows⟩ := h
    refine ⟨constant { c with numMarksWithoutFinal := c.numMarksWithoutFinal + 1 }, ?_, ⟨hfinal, by simp [hnum], ?_⟩,
      hfits, rfl⟩
    · have hne := Nat.ne_of_gt hr
      rw [hfits.1] at hne ⊢
      simp [IndexGranularity.appendMark, GranularityConstant.appendMark, hfinal, hne, logical, Except.mapError, Except.map]
    · intro i hi
      have hlast := hfits.2
      rw [List.length_append, List.length_singleton] at hi
      by_cases hlt' : i < l.length
      · have hrow := hrows i hlt'
        simp only [List.get_eq_getElem] at hrow ⊢
        rw [List.getElem_append_left hlt', hrow, hlast]
        simp
      · have hi' : i = l.length := by omega
        subst hi'
        simp [hfits.1, hlast]

theorem Marks.adjustLastMark (h : g.Marks (init ++ [x])) (hr : 0 < r) (hlt : init.sum + r < 2 ^ 64) :
    ∃ g', g.adjustLastMark r = .ok g' ∧ g'.Marks (init ++ [r]) ∧
      (g.getConstantGranularity = none → g'.getConstantGranularity = none) := by
  cases g with
  | adaptive a =>
    have hlen := h.1
    rw [List.length_append, List.length_singleton] at hlen
    have hinit : (adaptive ⟨a.marksRowsPartialSums.dropLast⟩).Marks init := by
      refine ⟨by simp [hlen], ?_, fun row hrow => h.2.2.1 row (List.mem_append_left _ hrow), by omega⟩
      intro i hi
      have hsum := h.2.1 i (by rw [List.length_append]; omega)
      rw [List.take_append_of_le_length (by omega)] at hsum
      rw [← hsum]
      unfold GranularityAdaptive.sumAt
      rw [List.getD_eq_getElem?_getD, List.getD_eq_getElem?_getD, List.getElem?_dropLast, if_pos (by omega)]
    obtain ⟨b, hb, hmarks, -⟩ := hinit.appendMark hr hlt trivial
    have hne : a.marksRowsPartialSums.isEmpty = false := by
      rw [List.isEmpty_eq_false_iff]
      intro h0
      rw [h0] at hlen
      simp at hlen
    refine ⟨b, ?_, hmarks, ?_⟩
    · simp only [IndexGranularity.appendMark] at hb
      simp only [IndexGranularity.adjustLastMark, GranularityAdaptive.adjustLastMark, h.hasFinalMark_adaptive, hne]
      simpa using hb
    · intro _
      cases b with
      | adaptive b => rfl
      | constant c =>
        simp only [IndexGranularity.appendMark] at hb
        cases happend : GranularityAdaptive.appendMark ⟨a.marksRowsPartialSums.dropLast⟩ r <;>
          simp [happend, logical, Except.mapError, Except.map] at hb
  | constant c =>
    obtain ⟨hfinal, hnum, hrows⟩ := h
    have hnum' : c.numMarksWithoutFinal = init.length + 1 := by simpa using hnum
    refine ⟨constant { c with numMarksWithoutFinal := c.numMarksWithoutFinal, lastMarkGranularity := r }, ?_,
      ⟨hfinal, by simp [hnum'], ?_⟩, fun h0 => by cases h0⟩
    · simp [IndexGranularity.adjustLastMark, GranularityConstant.adjustLastMark, hfinal, hnum', logical,
        Except.mapError, Except.map]
    · intro i hi
      rw [List.length_append, List.length_singleton] at hi
      by_cases hlt' : i < init.length
      · have hrow := hrows i (by rw [List.length_append, List.length_singleton]; exact hi)
        simp only [List.get_eq_getElem, List.length_append, List.length_singleton] at hrow ⊢
        rw [List.getElem_append_left hlt'] at hrow ⊢
        rw [hrow, if_pos (by omega), if_pos (by omega)]
      · have hi' : i = init.length := by omega
        subst hi'
        simp

theorem Marks.appendFinalMark (h : g.Marks l) :
    ∃ g', g.appendMark 0 = .ok g' ∧ g'.MarkRows (l ++ [0]) := by
  cases g with
  | adaptive a =>
    obtain ⟨b, hb, hlen, hsums⟩ := appendMark_adaptive (r := 0) h h.2.2.2
    refine ⟨adaptive b, hb, hlen, ?_⟩
    have hlt : (l ++ [0]).sum < 2 ^ 64 := by simpa using h.2.2.2
    exact fun i hi => getMarkRows_adaptive hlen hsums hlt hi
  | constant c =>
    obtain ⟨hfinal, hnum, hrows⟩ := h
    refine ⟨constant { c with hasFinalMark := true }, ?_, ?_, ?_⟩
    · simp [IndexGranularity.appendMark, GranularityConstant.appendMark, hfinal, logical, Except.mapError, Except.map]
    · simp [getMarksCount, GranularityConstant.getMarksCount, hnum]
    · intro i hi
      rw [List.length_append, List.length_singleton] at hi
      simp only [IndexGranularity.getMarkRows, GranularityConstant.getMarkRows, GranularityConstant.getMarksCount, hnum,
        if_true, if_neg (Nat.not_le.2 hi), List.get_eq_getElem]
      by_cases hlt : i < l.length
      · have hrow := hrows i hlt
        rw [List.get_eq_getElem] at hrow
        rw [List.getElem_append_left hlt, hrow]
        by_cases hlast : i + 1 < l.length
        · simp [hlast, logical, Except.mapError]
        · rw [if_neg hlast, if_pos (by omega), if_neg hlast]
          simp [logical, Except.mapError]
      · have hi' : i = l.length := by omega
        subst hi'
        simp [logical, Except.mapError]

end IndexGranularity

section Fill

variable {g : IndexGranularity} {l : List ℕ} {granularity rowsInBlock : ℕ}

/-- **The marks that are appended for a block** are as many as its rows from `currentRow` on need. -/
structure Filled (g : IndexGranularity) (l : List ℕ) (granularity rows : ℕ) (g' : IndexGranularity) (n : ℕ) : Prop where
  marks : g'.Marks (l ++ List.replicate n granularity)
  enough : rows ≤ n * granularity
  needed : ∀ k, n = k + 1 → k * granularity < rows
  fits : g'.Fits granularity
  constant : g'.getConstantGranularity = g.getConstantGranularity

/-- `fillIndexGranularityImpl` neither throws nor wraps around: by induction on the turns,
each of which brings the row nearer to the end of the block. -/
theorem exists_fillIndexGranularityImpl (hpos : 0 < granularity) (hrows : rowsInBlock + granularity ≤ 2 ^ 64) :
    ∀ (fuel currentRow : ℕ) {g : IndexGranularity} {l : List ℕ}, rowsInBlock - currentRow < fuel → g.Marks l →
      g.Fits granularity →
      (currentRow < rowsInBlock → l.sum + (rowsInBlock - currentRow) + granularity ≤ 2 ^ 64) →
      ∃ g' n, Writer.fillIndexGranularityImpl granularity rowsInBlock fuel currentRow g = .ok g' ∧
        Filled g l granularity (rowsInBlock - currentRow) g' n := by
  intro fuel
  induction fuel with
  | zero => exact fun _ _ _ hfuel => absurd hfuel (Nat.not_lt_zero _)
  | succ fuel ih =>
    intro currentRow g l hfuel hmarks hfits hlt
    unfold Writer.fillIndexGranularityImpl
    by_cases hcurrent : currentRow < rowsInBlock
    · have hsum := hlt hcurrent
      obtain ⟨g₁, happend, hmarks₁, hfits₁, hconst₁⟩ := hmarks.appendMark hpos (by omega) hfits
      rw [if_pos hcurrent, happend, addSize_of_lt (by omega)]
      obtain ⟨g', n, hrun, hfilled⟩ := ih (currentRow + granularity) (by omega) hmarks₁ hfits₁
        (fun hnext => by rw [List.sum_append, List.sum_singleton]; omega)
      refine ⟨g', n + 1, hrun, ?_, ?_, ?_, hfilled.fits, hfilled.constant.trans hconst₁⟩
      · have hm := hfilled.marks
        rw [List.append_assoc, List.singleton_append, ← List.replicate_succ] at hm
        exact hm
      · have henough := hfilled.enough
        rw [Nat.add_mul, Nat.one_mul]
        omega
      · intro k hk
        rcases Nat.eq_zero_or_pos k with h0 | hk0
        · subst h0
          omega
        · have hneeded := hfilled.needed (k - 1) (by omega)
          have hk' : k * granularity = (k - 1) * granularity + granularity := by
            rw [← Nat.succ_mul, Nat.succ_eq_add_one, Nat.sub_add_cancel hk0]
          omega
    · rw [if_neg hcurrent]
      refine ⟨g, 0, rfl, by simpa using hmarks, by omega, fun k hk => by omega, hfits, rfl⟩

end Fill

/-! ## Granules -/

section Granules

variable {ρ : Type} {l : List ℕ} {block : List ρ} {t : Grouping ρ}

/-- A granule that goes on where the marks stand. -/
structure GranuleOk (l : List ℕ) (block : List ρ) (t : Grouping ρ) (granule : Granule) : Prop where
  markOnStart : granule.markOnStart = t.opened.isNone
  markNumber : granule.markNumber = t.done.length
  length : (granule.rows block).length = granule.rowsToWrite
  rows : 0 < granule.rowsToWrite
  planned : ∃ h : t.done.length < l.length, t.openRows + granule.rowsToWrite ≤ l.get ⟨t.done.length, h⟩ ∧
    (granule.isComplete = true ↔ t.openRows + granule.rowsToWrite = l.get ⟨t.done.length, h⟩)

/-- The marks after a granule. -/
def feedGranule (block : List ρ) (t : Grouping ρ) (granule : Granule) : Grouping ρ :=
  t.feed (granule.rows block) granule.isComplete

/-- The marks after the granules. -/
def feedAll (block : List ρ) (t : Grouping ρ) (granules : List Granule) : Grouping ρ := granules.foldl (feedGranule block) t

/-- **Granules that go on one after the other.** Only the last one may be incomplete. -/
def Valid (l : List ℕ) (block : List ρ) : Grouping ρ → List Granule → Prop
  | _, [] => True
  | t, granule :: rest => GranuleOk l block t granule ∧ (rest ≠ [] → granule.isComplete = true) ∧
      Valid l block (feedGranule block t granule) rest

/-- The rows of the granules in order. -/
def granuleRows (block : List ρ) (granules : List Granule) : List ρ := granules.flatMap fun granule => granule.rows block

theorem rows_feedAll (t : Grouping ρ) (granules : List Granule) :
    (feedAll block t granules).rows = t.rows ++ granuleRows block granules := by
  induction granules generalizing t with
  | nil => simp [feedAll, granuleRows]
  | cons granule rest ih =>
    have hrest := ih (feedGranule block t granule)
    unfold feedAll granuleRows at hrest ⊢
    rw [List.foldl_cons, hrest, feedGranule, Grouping.rows_feed, List.flatMap_cons, List.append_assoc]

/-- The marks that are done have the rows planned for them, the open one has less. -/
structure Planned (l : List ℕ) (t : Grouping ρ) : Prop where
  done : l.take t.done.length = t.done.map Grouping.rowsOf
  length_le : t.done.length ≤ l.length
  opened : ∀ chunks, t.opened = some chunks →
    ∃ h : t.done.length < l.length, Grouping.rowsOf chunks < l.get ⟨t.done.length, h⟩

variable {granule : Granule} {granules : List Granule}

theorem Grouping.rowsOf_append (chunks : List (List ρ)) (chunk : List ρ) :
    Grouping.rowsOf (chunks ++ [chunk]) = Grouping.rowsOf chunks + chunk.length := by
  simp [Grouping.rowsOf]

theorem GranuleOk.planned_feed (hg : GranuleOk l block t granule) (h : Planned l t) :
    Planned l (feedGranule block t granule) := by
  obtain ⟨hlt, hle, hcomplete⟩ := hg.planned
  have hrows : Grouping.rowsOf (t.opened.getD [] ++ [granule.rows block]) = t.openRows + granule.rowsToWrite := by
    rw [Grouping.rowsOf_append, hg.length]
    rfl
  unfold feedGranule Grouping.feed
  by_cases hc : granule.isComplete = true
  · rw [if_pos hc]
    refine ⟨?_, by simpa using hlt, fun chunks h0 => by cases h0⟩
    have heq := hcomplete.1 hc
    rw [List.length_append, List.length_singleton, List.take_add_one, h.done, List.getElem?_eq_getElem hlt, List.map_append,
      List.map_singleton, hrows, heq]
    rfl
  · rw [if_neg hc]
    refine ⟨h.done, h.length_le, fun chunks hchunks => ⟨hlt, ?_⟩⟩
    cases hchunks
    have hne : t.openRows + granule.rowsToWrite ≠ l.get ⟨t.done.length, hlt⟩ := fun heq => hc (hcomplete.2 heq)
    rw [hrows]
    exact lt_of_le_of_ne hle hne

/-- What the granules leave open. -/
structure LeftOpen (t t' : Grouping ρ) (count : ℕ) (last : Granule) : Prop where
  complete : last.isComplete = true → t'.opened = none ∧ t'.done.length = t.done.length + count
  incomplete : last.isComplete = false → t'.opened.isSome = true ∧ t'.done.length + 1 = t.done.length + count ∧
    t'.openRows = if count = 1 then t.openRows + last.rowsToWrite else last.rowsToWrite

theorem Valid.leftOpen (h : Valid l block t granules) (hne : granules ≠ []) :
    ∃ last, granules.getLast? = some last ∧ LeftOpen t (feedAll block t granules) granules.length last := by
  induction granules generalizing t with
  | nil => exact absurd rfl hne
  | cons granule rest ih =>
    obtain ⟨hg, hcomplete, hrest⟩ := h
    by_cases hnil : rest = []
    · subst hnil
      refine ⟨granule, rfl, fun hc => ?_, fun hc => ?_⟩
      · simp [feedAll, feedGranule, Grouping.feed, hc]
      · have hrows : Grouping.rowsOf (t.opened.getD [] ++ [granule.rows block]) = t.openRows + granule.rowsToWrite := by
          rw [Grouping.rowsOf_append, hg.length]
          rfl
        simpa [feedAll, feedGranule, Grouping.feed, Grouping.openRows, hc] using hrows
    · obtain ⟨last, hlast, hopen⟩ := ih hrest hnil
      have hc := hcomplete hnil
      have hfeed : feedGranule block t granule = ⟨t.done ++ [t.opened.getD [] ++ [granule.rows block]], none⟩ := by
        simp [feedGranule, Grouping.feed, hc]
      have hlen := List.length_pos_of_ne_nil hnil
      rw [hfeed] at hopen
      refine ⟨last, by rw [List.getLast?_cons, hlast]; rfl, fun hl => ?_, fun hl => ?_⟩
      · obtain ⟨hnone, hcount⟩ := hopen.complete hl
        refine ⟨by simpa [feedAll, hfeed] using hnone, ?_⟩
        simp only [feedAll, List.foldl_cons, hfeed, List.length_append, List.length_cons, List.length_nil] at hcount ⊢
        omega
      · obtain ⟨hsome, hcount, hrows⟩ := hopen.incomplete hl
        refine ⟨by simpa [feedAll, hfeed] using hsome, ?_, ?_⟩
        · simp only [feedAll, List.foldl_cons, hfeed, List.length_append, List.length_cons, List.length_nil] at hcount ⊢
          omega
        · simp only [feedAll, List.foldl_cons, hfeed, List.length_cons] at hrows ⊢
          have hcount' : ¬rest.length + 1 = 1 := by omega
          rw [hrows, if_neg hcount']
          by_cases h1 : rest.length = 1
          · rw [if_pos h1]
            exact Nat.zero_add _
          · rw [if_neg h1]

variable {g : IndexGranularity} {granularity : ℕ}

/-- **The granules of the marks that are appended**, by induction on the marks that are left:
all but the last one are filled by the block. -/
theorem exists_normalGranules (block : List ρ) (hg : g.MarkRows l) (hpos : 0 < granularity) :
    ∀ {n : ℕ} (fuel currentRow : ℕ) (t : Grouping ρ) (before : List ℕ), t.opened = none → l = before ++ List.replicate n granularity →
      before.length = t.done.length → block.length - currentRow ≤ n * granularity →
      (∀ k, n = k + 1 → k * granularity < block.length - currentRow) → n < fuel →
      ∃ granules, normalGranules g block.length fuel currentRow t.done.length = .ok granules ∧ Valid l block t granules ∧
        granuleRows block granules = block.drop currentRow ∧ (feedAll block t granules).all.length = l.length ∧
        granules.length = n := by
  intro n
  induction n with
  | zero =>
    intro fuel currentRow t before hopened hl hbefore henough _ hfuel
    obtain ⟨fuel, rfl⟩ := Nat.exists_eq_succ_of_ne_zero (Nat.ne_of_gt hfuel)
    refine ⟨[], ?_, trivial, ?_, ?_, rfl⟩
    · unfold normalGranules
      rw [if_neg (by omega)]
    · rw [List.drop_eq_nil_of_le (by omega)]
      rfl
    · simp [feedAll, Grouping.all, hopened, hl, hbefore]
  | succ n ih =>
    intro fuel currentRow t before hopened hl hbefore henough hneeded hfuel
    obtain ⟨fuel, rfl⟩ := Nat.exists_eq_succ_of_ne_zero (show fuel ≠ 0 by omega)
    have hleft := hneeded n rfl
    have hlt : t.done.length < l.length := by
      rw [hl, List.length_append, List.length_replicate]
      omega
    have hget : l.get ⟨t.done.length, hlt⟩ = granularity := by
      simp [hl, List.get_eq_getElem, List.getElem_append_right, hbefore]
    have hopenRows : t.openRows = 0 := by simp [Grouping.openRows, hopened, Grouping.rowsOf]
    have hmark := hg.rows _ hlt
    rw [hget] at hmark
    unfold normalGranules
    rw [if_pos (by omega), hmark]
    by_cases hcomplete : granularity ≤ block.length - currentRow
    · -- the mark is filled, and the next granule opens the next mark
      have hmin : min (block.length - currentRow) granularity = granularity := min_eq_right hcomplete
      let granule : Granule := ⟨currentRow, granularity, t.done.length, true, true⟩
      have hlength : (granule.rows block).length = granularity := by
        simp only [Granule.rows, granule, List.length_take, List.length_drop]
        omega
      have hfeed : feedGranule block t granule = ⟨t.done ++ [[granule.rows block]], none⟩ := by
        simp [feedGranule, Grouping.feed, granule, hopened]
      obtain ⟨rest, hrun, hvalid, hrows, hall, hcount⟩ := ih fuel (currentRow + granularity)
        (feedGranule block t granule) (before ++ [granularity]) (by rw [hfeed])
        (by rw [hl, List.append_assoc, List.singleton_append, ← List.replicate_succ])
        (by rw [hfeed]; simp [hbefore]) (by rw [Nat.add_mul, Nat.one_mul] at henough; omega)
        (fun k hk => by
          have hnext := hneeded (k + 1) (by omega)
          rw [Nat.add_mul, Nat.one_mul] at hnext
          omega) (by omega)
      refine ⟨granule :: rest, ?_, ⟨⟨by simp [granule, hopened], rfl, hlength, hpos, hlt, ?_, ?_⟩, fun _ => rfl, hvalid⟩, ?_, hall, ?_⟩
      · rw [hfeed, List.length_append] at hrun
        have hrun' : normalGranules g block.length fuel (currentRow + granularity) (t.done.length + 1) = .ok rest := hrun
        simp [hcomplete, hrun', granule, bind, Except.bind, pure, Except.pure]
      · rw [hopenRows, hget]
        simp [granule]
      · rw [hopenRows, hget]
        simp [granule]
      · have hrows' : granuleRows block rest = block.drop (currentRow + granularity) := hrows
        rw [granuleRows, List.flatMap_cons, ← granuleRows, hrows', ← List.drop_drop]
        exact List.take_append_drop _ _
      · rw [List.length_cons, hcount]
    · -- the block ends within the mark, which is then the last one
      have hn : n = 0 := by
        by_contra hn
        obtain ⟨k, rfl⟩ := Nat.exists_eq_succ_of_ne_zero hn
        rw [Nat.succ_mul] at hleft
        omega
      subst hn
      have hmin : min (block.length - currentRow) granularity = block.length - currentRow := min_eq_left (by omega)
      let granule : Granule := ⟨currentRow, block.length - currentRow, t.done.length, true, false⟩
      have hrowsOf : granule.rows block = block.drop currentRow := by
        simp only [Granule.rows, granule]
        exact List.take_of_length_le (by rw [List.length_drop])
      obtain ⟨fuel, rfl⟩ := Nat.exists_eq_succ_of_ne_zero (show fuel ≠ 0 by omega)
      refine ⟨[granule], ?_, ⟨⟨by simp [granule, hopened], rfl, ?_, ?_, hlt, ?_, ?_⟩, fun h0 => absurd rfl h0, trivial⟩, ?_, ?_, rfl⟩
      · have hend : currentRow + (block.length - currentRow) = block.length := by omega
        unfold normalGranules
        simp [hmin, hcomplete, hend, granule, bind, Except.bind, pure, Except.pure]
      · rw [hrowsOf, List.length_drop]
      · simp only [granule]
        omega
      · rw [hopenRows, hget]
        simp only [granule]
        omega
      · rw [hopenRows, hget]
        simp only [granule, Bool.false_eq_true, false_iff]
        omega
      · simp [granuleRows, hrowsOf]
      · simp [feedAll, feedGranule, Grouping.feed, Grouping.all, granule, hl, hbefore]

/-- The rows that the open mark still takes. -/
structure RowsLeft (l : List ℕ) (t : Grouping ρ) (offset : ℕ) : Prop where
  closed : t.opened = none → offset = 0
  opened : ∀ chunks, t.opened = some chunks → 0 < offset ∧ 0 < t.openRows ∧
    ∃ h : t.done.length < l.length, l.get ⟨t.done.length, h⟩ = t.openRows + offset

/-- **The granules of a block**: first the rest of the open mark, then the marks that were appended. -/
theorem exists_getGranulesToWrite (block : List ρ) {n offset : ℕ} (hg : g.MarkRows (l ++ List.replicate n granularity))
    (hlt : (l ++ List.replicate n granularity).sum < 2 ^ 64) (hpos : 0 < granularity) (hfull : l.length = t.all.length)
    (hleft : RowsLeft l t offset) (henough : block.length - offset ≤ n * granularity)
    (hneeded : ∀ k, n = k + 1 → k * granularity < block.length - offset) (hblock : block ≠ []) :
    ∃ granules, getGranulesToWrite g block.length t.done.length t.openRows = .ok granules ∧ granules ≠ [] ∧
      Valid (l ++ List.replicate n granularity) block t granules ∧ granuleRows block granules = block ∧
      (feedAll block t granules).all.length = (l ++ List.replicate n granularity).length := by
  have hlen := List.length_pos_of_ne_nil hblock
  have hcount : g.getMarksCount = l.length + n := by rw [hg.count, List.length_append, List.length_replicate]
  unfold getGranulesToWrite
  cases hopened : t.opened with
  | none =>
    have hoffset := hleft.closed hopened
    have hdone : l.length = t.done.length := by simpa [Grouping.all, hopened] using hfull
    have hopenRows : t.openRows = 0 := by simp [Grouping.openRows, hopened, Grouping.rowsOf]
    have hn : 0 < n := by
      rcases Nat.eq_zero_or_pos n with h0 | hn
      · rw [h0, Nat.zero_mul] at henough
        omega
      · exact hn
    obtain ⟨granules, hrun, hvalid, hrows, hall, hlength⟩ := exists_normalGranules block hg hpos
      (g.getMarksCount + 1) 0 t _ hopened rfl hdone (by omega) (fun k hk => by
        have hk' := hneeded k hk
        omega) (by omega)
    refine ⟨granules, ?_, ?_, hvalid, by simpa using hrows, hall⟩
    · rw [if_neg (by omega), if_neg (by omega)]
      exact hrun
    · rintro rfl
      simp only [List.length_nil] at hlength
      omega
  | some chunks =>
    obtain ⟨hoffset, hopenRows, hlast, hplanned⟩ := hleft.opened chunks hopened
    have hdone : l.length = t.done.length + 1 := by simpa [Grouping.all, hopened] using hfull
    have hlast' : t.done.length < (l ++ List.replicate n granularity).length := by
      rw [List.length_append]
      omega
    have hget : (l ++ List.replicate n granularity).get ⟨t.done.length, hlast'⟩ = t.openRows + offset := by
      rw [← hplanned, List.get_eq_getElem, List.get_eq_getElem]
      exact List.getElem_append_left hlast
    have hmark := hg.rows _ hlast'
    rw [hget] at hmark
    have hle : (l ++ List.replicate n granularity).get ⟨t.done.length, hlast'⟩ ≤ (l ++ List.replicate n granularity).sum :=
      List.single_le_sum (fun _ _ => Nat.zero_le _) _ (List.get_mem _ _)
    have hsub : subSize (t.openRows + offset) t.openRows = offset := by
      rw [subSize_of_le (by omega) (by omega)]
      omega
    rw [if_neg (by omega), if_pos hopenRows, hmark]
    by_cases hcomplete : offset ≤ block.length
    · -- the open mark is filled, the rest of the block goes to the marks that were appended
      let granule : Granule := ⟨0, offset, t.done.length, false, true⟩
      have hlength : (granule.rows block).length = offset := by
        simp only [Granule.rows, granule, List.drop_zero, List.length_take]
        omega
      have hfeed : feedGranule block t granule = ⟨t.done ++ [chunks ++ [granule.rows block]], none⟩ := by
        simp [feedGranule, Grouping.feed, granule, hopened]
      obtain ⟨rest, hrun, hvalid, hrows, hall, -⟩ := exists_normalGranules block hg hpos
        (g.getMarksCount + 1) offset (feedGranule block t granule) l
        (by rw [hfeed]) rfl (by rw [hfeed]; simp [hdone]) henough hneeded (by omega)
      refine ⟨granule :: rest, ?_, List.cons_ne_nil _ _,
        ⟨⟨by simp [granule, hopened], rfl, hlength, hoffset, hlast', ?_, ?_⟩, fun _ => rfl, hvalid⟩, ?_, hall⟩
      · rw [hfeed, List.length_append] at hrun
        have hrun' : normalGranules g block.length (g.getMarksCount + 1) offset (t.done.length + 1) = .ok rest := hrun
        simp [hsub, hcomplete, hrun', granule, bind, Except.bind, pure, Except.pure]
      · rw [hget]
      · rw [hget]
        simp [granule]
      · rw [granuleRows, List.flatMap_cons, ← granuleRows, hrows]
        simp [Granule.rows, granule, List.take_append_drop]
    · -- the whole block goes to the open mark
      have hn : n = 0 := by
        by_contra hn
        obtain ⟨k, hk⟩ := Nat.exists_eq_succ_of_ne_zero hn
        have hk' := hneeded k hk
        omega
      subst hn
      let granule : Granule := ⟨0, block.length, t.done.length, false, false⟩
      have hrowsOf : granule.rows block = block := by simp [Granule.rows, granule]
      refine ⟨[granule], ?_, List.cons_ne_nil _ _,
        ⟨⟨by simp [granule, hopened], rfl, by rw [hrowsOf], hlen, hlast', ?_, ?_⟩, fun h0 => absurd rfl h0, trivial⟩, ?_, ?_⟩
      · have hmin : min block.length offset = block.length := min_eq_left (by omega)
        unfold normalGranules
        simp [hsub, hcomplete, hmin, granule, bind, Except.bind, pure, Except.pure]
      · rw [hget]
        simp only [granule]
        omega
      · rw [hget]
        simp only [granule, Bool.false_eq_true, false_iff]
        omega
      · simp [granuleRows, hrowsOf]
      · simp [feedAll, feedGranule, Grouping.feed, Grouping.all, granule, hdone]

end Granules

end MergeTree
