import MergeTree.Lib.Loops
import MergeTree.Proof.ApplyPatchMerge
import MergeTree.Proof.IndexGranularity
import MergeTree.Proof.MarkRanges
import MergeTree.Spec.RangesInPatchParts

/-!
# What the ranges in patch parts cover

* `optimizeRanges_spec`: ranges in order are joined where they meet or touch, and cover the same marks.
* `granule_between`: the granule of a row lies within the bounds that the searches in the index find.
* `Collected.addPart`, `optimize_spec`, `getIntersectingRanges_spec`: one operation each.
-/

namespace MergeTree

open MarkRanges

variable {ranges : MarkRanges} {part : OriginalPart} {patch : PatchPartInfo IndexedPatchPart} {s : RangesInPatchParts}

/-! ## Joining ranges -/

/-- Ranges that are not empty and have gaps between them. -/
structure Spaced (ranges : MarkRanges) : Prop where
  nonempty : ∀ range ∈ ranges, range.beginMark < range.endMark
  gaps : ranges.Pairwise fun r s => r.endMark < s.beginMark

/-- **One range**, which begins no earlier than the last one. -/
theorem optimizeStep_spec {res : MarkRanges} {range : MarkRange} (h : Spaced res) (hrange : range.beginMark < range.endMark)
    (hbegin : ∀ r ∈ res, r.beginMark ≤ range.beginMark) :
    ∃ res', optimizeStep res range = .ok res' ∧ Spaced res' ∧ (∀ m, Covers res' m ↔ Covers res m ∨ Covers [range] m) ∧
      ∀ r ∈ res', r.beginMark ≤ range.beginMark := by
  rcases List.eq_nil_or_concat res with rfl | ⟨init, last, rfl⟩
  · refine ⟨[range], rfl, ⟨by simpa using hrange, List.pairwise_singleton _ _⟩, fun m => ?_, by simp⟩
    simp [Covers]
  · rw [List.concat_eq_append] at *
    have hlast : last.beginMark ≤ range.beginMark := hbegin last (by simp)
    have hlastNonempty := h.nonempty last (by simp)
    unfold optimizeStep
    rw [List.getLast?_append, List.getLast?_singleton, Option.some_or]
    simp only
    rw [if_neg hlast.not_gt]
    obtain ⟨hinit, -, hbefore⟩ := List.pairwise_append.1 h.gaps
    by_cases hgap : range.beginMark > last.endMark
    · rw [if_pos hgap]
      refine ⟨_, rfl, ⟨?_, ?_⟩, fun m => covers_append, ?_⟩
      · intro r hr
        rcases List.mem_append.1 hr with hr | hr
        · exact h.nonempty r hr
        · rwa [List.mem_singleton.1 hr]
      · rw [List.pairwise_append]
        refine ⟨h.gaps, List.pairwise_singleton _ _, fun r hr s hs => ?_⟩
        rw [List.mem_singleton.1 hs]
        rcases List.mem_append.1 hr with hr | hr
        · have := hbefore r hr last (by simp)
          omega
        · rw [List.mem_singleton.1 hr]
          exact hgap
      · intro r hr
        rcases List.mem_append.1 hr with hr | hr
        · exact hbegin r hr
        · rw [List.mem_singleton.1 hr]
    · rw [if_neg hgap, List.dropLast_concat]
      refine ⟨_, rfl, ⟨?_, ?_⟩, fun m => ?_, ?_⟩
      · intro r hr
        rcases List.mem_append.1 hr with hr | hr
        · exact h.nonempty r (List.mem_append_left _ hr)
        · rw [List.mem_singleton.1 hr]
          exact lt_of_lt_of_le hlastNonempty (le_max_left _ _)
      · rw [List.pairwise_append]
        refine ⟨hinit, List.pairwise_singleton _ _, fun r hr s hs => ?_⟩
        rw [List.mem_singleton.1 hs]
        exact hbefore r hr last (by simp)
      · rw [covers_append, covers_append, or_assoc]
        refine or_congr_right ?_
        rw [covers_singleton, covers_singleton, covers_singleton]
        simp only [lt_max_iff]
        omega
      · intro r hr
        rcases List.mem_append.1 hr with hr | hr
        · exact hbegin r (List.mem_append_left _ hr)
        · rw [List.mem_singleton.1 hr]
          exact hlast

/-- **`optimizeRanges`**, on ranges in the order of their begins. -/
theorem optimizeRanges_spec (hnonempty : ∀ range ∈ ranges, range.beginMark < range.endMark)
    (hsorted : ranges.Pairwise fun r s => r.beginMark ≤ s.beginMark) :
    ∃ res, optimizeRanges ranges = .ok res ∧ Spaced res ∧ ∀ m, Covers res m ↔ Covers ranges m := by
  -- the ranges so far begin no later than what is left
  have hrun : ∀ (ranges res : MarkRanges), (∀ range ∈ ranges, range.beginMark < range.endMark) →
      ranges.Pairwise (fun r s => r.beginMark ≤ s.beginMark) → Spaced res →
      (∀ r ∈ res, ∀ range ∈ ranges, r.beginMark ≤ range.beginMark) →
      ∃ res', ranges.foldlM optimizeStep res = .ok res' ∧ Spaced res' ∧ ∀ m, Covers res' m ↔ Covers res m ∨ Covers ranges m := by
    intro ranges
    induction ranges with
    | nil => exact fun res _ _ hres _ => ⟨res, rfl, hres, fun m => by simp [Covers]⟩
    | cons range ranges ih =>
      intro res hnonempty hsorted hres hbegin
      rw [List.forall_mem_cons] at hnonempty
      rw [List.pairwise_cons] at hsorted
      obtain ⟨next, hnext, hapart, hcovers, hbegins⟩ :=
        optimizeStep_spec hres hnonempty.1 fun r hr => hbegin r hr range List.mem_cons_self
      obtain ⟨res', hres', hapart', hcovers'⟩ := ih next hnonempty.2 hsorted.2 hapart
        fun r hr range' hrange' => (hbegins r hr).trans (hsorted.1 range' hrange')
      refine ⟨res', ?_, hapart', fun m => ?_⟩
      · rw [List.foldlM_cons, hnext]
        exact hres'
      · have hcons : Covers (range :: ranges) m ↔ Covers [range] m ∨ Covers ranges m :=
          covers_append (a := [range]) (b := ranges)
        rw [hcovers', hcovers, hcons, or_assoc]
  obtain ⟨res, hres, hapart, hcovers⟩ := hrun ranges [] hnonempty hsorted ⟨List.forall_mem_nil _, List.Pairwise.nil⟩ (List.forall_mem_nil _)
  exact ⟨res, hres, hapart, fun m => by simpa [Covers] using hcovers m⟩

theorem Covers.congr_mem {a b : MarkRanges} (h : ∀ r, r ∈ a ↔ r ∈ b) {m : ℕ} : Covers a m ↔ Covers b m := by
  simp only [Covers, h]

/-- **Sorting by the begins and joining.** -/
theorem optimize_sort_spec (std : StdSort) (hnonempty : ∀ range ∈ ranges, range.beginMark < range.endMark) :
    ∃ res, optimizeRanges (std.sort beginLess ranges) = .ok res ∧ Spaced res ∧ ∀ m, Covers res m ↔ Covers ranges m := by
  have hless : ∀ a ∈ ranges, ∀ b ∈ ranges, beginLess a b = decide (a.beginMark < b.beginMark) := fun _ _ _ _ => rfl
  have hmem : ∀ r, r ∈ std.sort beginLess ranges ↔ r ∈ ranges := fun r => (std.perm hless).mem_iff
  obtain ⟨res, hres, hapart, hcovers⟩ :=
    optimizeRanges_spec (fun range hrange => hnonempty range ((hmem range).1 hrange)) (std.sorted hless)
  exact ⟨res, hres, hapart, fun m => (hcovers m).trans (Covers.congr_mem hmem)⟩

/-! ## The index of a patch part -/

/-- The order of the rows of a patch part. -/
def PatchRow.NotAfter (a b : PatchRow) : Prop := a.part < b.part ∨ (a.part = b.part ∧ a.partOffset ≤ b.partOffset)

theorem PatchRow.NotAfter.refl (a : PatchRow) : a.NotAfter a := Or.inr ⟨rfl, le_rfl⟩

instance (a b : PatchRow) : Decidable (a.NotAfter b) := inferInstanceAs (Decidable (_ ∨ _))

/-- The keys in the index of a part: those of the first row of each granule and of the last row. -/
def indexKeys (granules : List (List PatchRow)) : List PatchRow :=
  (granules.map fun granule => granule.headD ⟨"", 0⟩) ++ granules.flatten.getLast?.toList

/-- **A patch part with rows**: sorted by names and offsets, and indexed by the first rows of its granules and the last row. -/
structure IndexedPatchPart.Holds (part : IndexedPatchPart) (granules : List (List PatchRow)) : Prop where
  nonempty : ∀ granule ∈ granules, granule ≠ []
  sorted : granules.flatten.Pairwise PatchRow.NotAfter
  index : part.index = .keys (indexKeys granules) ∨ (granules = [] ∧ part.index = .empty)

section Index

variable {granules : List (List PatchRow)} {granule : List PatchRow} {g : ℕ} {row : PatchRow}

theorem indexKeys_notAfter (hnonempty : ∀ granule ∈ granules, granule ≠ []) (hsorted : granules.flatten.Pairwise PatchRow.NotAfter)
    (hgranule : granules[g]? = some granule) (hrow : row ∈ granule) {i : ℕ} (hi : i ≤ g) {key : PatchRow}
    (hkey : (indexKeys granules)[i]? = some key) : key.NotAfter row := by
  obtain ⟨hg, rfl⟩ := List.getElem?_eq_some_iff.1 hgranule
  have hilt : i < granules.length := hi.trans_lt hg
  unfold indexKeys at hkey
  rw [List.getElem?_append_left (by simpa using hilt), List.getElem?_map, List.getElem?_eq_getElem hilt] at hkey
  obtain rfl := Option.some.inj hkey
  obtain ⟨head, tail, hcons⟩ := List.exists_cons_of_ne_nil (hnonempty _ (List.getElem_mem hilt))
  rw [hcons]
  change head.NotAfter row
  obtain ⟨hwithin, hacross⟩ := List.pairwise_flatten.1 hsorted
  rcases hi.eq_or_lt with rfl | hlt
  · have hrows := hwithin _ (List.getElem_mem hg)
    rw [hcons] at hrow hrows
    rcases List.mem_cons.1 hrow with rfl | hrow
    · exact PatchRow.NotAfter.refl _
    · exact (List.pairwise_cons.1 hrows).1 row hrow
  · exact List.pairwise_iff_getElem.1 hacross i g hilt hg hlt head (by rw [hcons]; exact List.mem_cons_self) row hrow

theorem notAfter_indexKeys (hnonempty : ∀ granule ∈ granules, granule ≠ []) (hsorted : granules.flatten.Pairwise PatchRow.NotAfter)
    (hgranule : granules[g]? = some granule) (hrow : row ∈ granule) :
    ∃ key, (indexKeys granules)[g + 1]? = some key ∧ row.NotAfter key := by
  obtain ⟨hg, rfl⟩ := List.getElem?_eq_some_iff.1 hgranule
  unfold indexKeys
  rcases Nat.lt_or_ge (g + 1) granules.length with hlt | hge
  · obtain ⟨head, tail, hcons⟩ := List.exists_cons_of_ne_nil (hnonempty _ (List.getElem_mem hlt))
    refine ⟨head, ?_, ?_⟩
    · rw [List.getElem?_append_left (by simpa using hlt), List.getElem?_map, List.getElem?_eq_getElem hlt, hcons]
      rfl
    · exact List.pairwise_iff_getElem.1 (List.pairwise_flatten.1 hsorted).2 g (g + 1) hg hlt (Nat.lt_succ_self g) row hrow head
        (by rw [hcons]; exact List.mem_cons_self)
  · have hmem : row ∈ granules.flatten := List.mem_flatten.2 ⟨_, List.getElem_mem hg, hrow⟩
    have hne : granules.flatten ≠ [] := List.ne_nil_of_mem hmem
    refine ⟨granules.flatten.getLast hne, ?_, ?_⟩
    · rw [List.getElem?_append_right (by simpa using hge), List.length_map, List.getLast?_eq_getLast_of_ne_nil hne]
      rw [show g + 1 - granules.length = 0 by omega]
      rfl
    · rw [← List.dropLast_append_getLast hne] at hmem hsorted
      rcases List.mem_append.1 hmem with hmem | hmem
      · exact (List.pairwise_append.1 hsorted).2.2 row hmem _ (by simp)
      · rw [List.mem_singleton.1 hmem]
        exact PatchRow.NotAfter.refl _

/-- **The granule of a row lies between the bounds** that two searches in the index find, if the first passes at the row
and the second does not. -/
theorem granule_between (hnonempty : ∀ granule ∈ granules, granule ≠ []) (hsorted : granules.flatten.Pairwise PatchRow.NotAfter)
    (hgranule : granules[g]? = some granule) (hrow : row ∈ granule) {lower upper : PatchRow → Bool}
    (hlower : ∀ key, row.NotAfter key → lower key = true) (hupper : ∀ key, key.NotAfter row → upper key = false) :
    (indexKeys granules).findIdx lower ≤ g + 1 ∧ g < (indexKeys granules).findIdx upper ∧ g + 1 < (indexKeys granules).length := by
  obtain ⟨key, hkey, hafter⟩ := notAfter_indexKeys hnonempty hsorted hgranule hrow
  obtain ⟨hlt, rfl⟩ := List.getElem?_eq_some_iff.1 hkey
  refine ⟨?_, ?_, hlt⟩
  · by_contra hgt
    have := List.not_of_lt_findIdx (not_le.1 hgt)
    rw [hlower _ hafter] at this
    exact absurd this (by simp)
  · refine List.lt_findIdx_of_not (by omega) fun j hj => ?_
    rw [hupper _ (indexKeys_notAfter hnonempty hsorted hgranule hrow hj (List.getElem?_eq_getElem (by omega)))]
    simp

end Index

theorem covers_granulesOfRange {size g : ℕ} {range : ℕ × ℕ} (hbegin : range.1 ≤ g + 1) (hend : g < range.2) (hsize : g + 1 < size) :
    Covers (granulesOfRange size range) g := by
  obtain ⟨beginRange, endRange⟩ := range
  simp only at hbegin hend
  unfold granulesOfRange
  simp only
  rw [if_neg (by omega), covers_singleton]
  simp only
  split_ifs <;> omega

theorem granulesOfRange_nonempty {size : ℕ} {range : ℕ × ℕ} (hle : range.1 ≤ range.2) :
    ∀ r ∈ granulesOfRange size range, r.beginMark < r.endMark := by
  obtain ⟨beginRange, endRange⟩ := range
  simp only at hle
  unfold granulesOfRange
  intro r hr
  simp only at hr
  split_ifs at hr with hnone
  · cases hr
  · rw [List.mem_singleton.1 hr]
    simp only
    omega
  · rw [List.mem_singleton.1 hr]
    simp only
    omega

/-! ## One patch -/

/-- The rows at which a range begins and ends. -/
def OriginalPart.RowsOf (part : OriginalPart) (range : MarkRange) (b e : ℕ) : Prop :=
  part.indexGranularity.getMarkStartingRow range.beginMark = .ok b ∧ part.indexGranularity.getMarkStartingRow range.endMark = .ok e ∧ b ≤ e

theorem OriginalPart.RowsOf.unique {range : MarkRange} {b e b' e' : ℕ} (h : part.RowsOf range b e)
    (h' : part.RowsOf range b' e') : b = b' ∧ e = e' :=
  ⟨Except.ok.inj (h.1.symm.trans h'.1), Except.ok.inj (h.2.1.symm.trans h'.2.1)⟩

theorem startAt_mono {a : GranularityAdaptive} {n : ℕ} (h : a.Marks n) {b e : ℕ} (hbe : b ≤ e) (he : e ≤ a.getMarksCount) :
    a.startAt b ≤ a.startAt e := by
  induction e, hbe using Nat.le_induction with
  | base => exact le_rfl
  | succ e hbe ih =>
    refine (ih (by omega)).trans ?_
    rw [a.startAt_succ]
    rcases Nat.lt_or_ge e n with hlt | hge
    · exact (h.data e hlt).1.le
    · rw [h.rest e hge (by omega)]
      rcases hge.eq_or_lt with rfl | hgt
      · exact le_rfl
      · obtain ⟨k, rfl⟩ := Nat.exists_eq_add_of_lt hgt
        rw [a.startAt_succ, h.rest (n + k) (by omega) (by omega)]

theorem startAt_lt {a : GranularityAdaptive} {n : ℕ} (h : a.Marks n) {m : ℕ} (hm : m ≤ a.getMarksCount) : a.startAt m < 2 ^ 64 := by
  have hdata : ∀ k ≤ n, a.startAt k < 2 ^ 64 := by
    intro k hk
    cases k with
    | zero => exact Nat.two_pow_pos 64
    | succ k =>
      rw [a.startAt_succ]
      exact (h.data k hk).2
  rcases Nat.lt_or_ge n m with hlt | hge
  · obtain ⟨k, rfl⟩ := Nat.exists_eq_add_of_lt hlt
    rw [a.startAt_succ, h.rest (n + k) (by omega) (by omega)]
    exact hdata n le_rfl
  · exact hdata m hge

/-- **Ranges of a part** begin and end at rows of it, in order. -/
theorem OriginalPart.rowsOf_of_built {a : GranularityAdaptive} (h : a.Built)
    (hgranularity : part.indexGranularity = .adaptive a ∨ ∃ c, a.optimize = some c ∧ part.indexGranularity = .constant c)
    {range : MarkRange} (hbegin : range.beginMark ≤ range.endMark) (hend : range.endMark ≤ a.getMarksCount) :
    part.RowsOf range (a.startAt range.beginMark) (a.startAt range.endMark) := by
  obtain ⟨n, hmarks⟩ := h.marks
  have hstarting : ∀ m ≤ a.getMarksCount, a.getMarkStartingRow m = .ok (a.startAt m) := by
    intro m hm
    rcases Nat.eq_zero_or_pos m with rfl | hpos
    · unfold GranularityAdaptive.getMarkStartingRow GranularityAdaptive.getRowsCountInRange
      rw [if_neg (by omega), if_pos rfl]
      rfl
    · unfold GranularityAdaptive.getMarkStartingRow
      rw [a.getRowsCountInRange_eq hm hpos.ne', subSize_of_le (startAt_mono hmarks (Nat.zero_le m) hm) (startAt_lt hmarks hm)]
      rfl
  have hpart : ∀ m, part.indexGranularity.getMarkStartingRow m = a.getMarkStartingRow m := by
    intro m
    rcases hgranularity with hadaptive | ⟨c, hc, hconstant⟩
    · rw [hadaptive]
      rfl
    · rw [hconstant]
      exact (hmarks.shape hc).getMarkStartingRow_eq m
  unfold OriginalPart.RowsOf
  rw [hpart, hpart]
  exact ⟨hstarting _ (hbegin.trans hend), hstarting _ hend, startAt_mono hmarks hbegin hend⟩

/-- **A patch of a part**, and ranges of the part: they begin and end at rows of the part, in order. -/
structure Applies (part : OriginalPart) (patch : PatchPartInfo IndexedPatchPart) (ranges : MarkRanges) : Prop where
  ranges : ∀ range ∈ ranges, ∃ b e, part.RowsOf range b e
  merge : patch.mode = .merge → patch.sourceParts = [part.name]
  rows : ∃ granules, patch.part.Holds granules

/-- **A granule of a patch part that is needed** for ranges of a part: it has a row for them. -/
def Needed (part : OriginalPart) (patch : PatchPartInfo IndexedPatchPart) (ranges : MarkRanges) (granules : List (List PatchRow)) (g : ℕ) :
    Prop :=
  ∃ granule row, granules[g]? = some granule ∧ row ∈ granule ∧
    match patch.mode with
    | .merge => row.part = part.name ∧ ∃ range ∈ ranges, ∃ b e, part.RowsOf range b e ∧ b ≤ row.partOffset ∧ row.partOffset < e
    | .join => row.part ∈ patch.sourceParts

/-- A mark that the searches in the index select. -/
def Selected (part : OriginalPart) (patch : PatchPartInfo IndexedPatchPart) (ranges : MarkRanges) (m : ℕ) : Prop :=
  ∃ rows, patch.part.index = .keys rows ∧
    match patch.mode with
    | .merge => ∃ range ∈ ranges, ∃ b e, part.RowsOf range b e ∧
        Covers (granulesOfRange rows.length (getPartNameOffsetRange rows part.name b e)) m
    | .join => ∃ name ∈ patch.sourceParts, Covers (granulesOfRange rows.length (getPartNameRange (rows.map PatchRow.part) name)) m

theorem Selected.mono {ranges sub : MarkRanges} {m : ℕ}
    (hsub : ∀ range ∈ sub, range ∈ ranges) (h : Selected part patch sub m) : Selected part patch ranges m := by
  obtain ⟨rows, hrows, hselected⟩ := h
  refine ⟨rows, hrows, ?_⟩
  cases hmode : patch.mode with
  | merge =>
    rw [hmode] at hselected
    obtain ⟨range, hrange, hcovers⟩ := hselected
    exact ⟨range, hsub range hrange, hcovers⟩
  | join =>
    rw [hmode] at hselected
    exact hselected

section Rows

variable {rows : List PatchRow} {name : String} {lo hi : ℕ}

theorem getPartNameOffsetRange_le (hle : lo ≤ hi) :
    (getPartNameOffsetRange rows name lo hi).1 ≤ (getPartNameOffsetRange rows name lo hi).2 := by
  unfold getPartNameOffsetRange
  refine List.findIdx_le_findIdx fun row _ h => ?_
  rw [decide_eq_true_eq, compare_pos_iff] at h
  rw [decide_eq_true_eq, compare_nonneg_iff]
  exact h.imp_right fun ⟨hpart, hlt⟩ => ⟨hpart, by omega⟩

theorem getPartNameRange_le (names : List String) : (getPartNameRange names name).1 ≤ (getPartNameRange names name).2 := by
  unfold getPartNameRange
  refine List.findIdx_le_findIdx fun other _ h => ?_
  rw [decide_eq_true_eq] at h ⊢
  exact h.not_gt

end Rows

theorem mapM_granulesOfRange (rows : List PatchRow) (hranges : ∀ range ∈ ranges, ∃ b e, part.RowsOf range b e) :
    ∃ pieces, (ranges.mapM fun range => do
        let beginRow ← part.indexGranularity.getMarkStartingRow range.beginMark
        let endRow ← part.indexGranularity.getMarkStartingRow range.endMark
        return granulesOfRange rows.length (getPartNameOffsetRange rows part.name beginRow endRow)) = .ok pieces ∧
      (∀ r ∈ pieces.flatten, r.beginMark < r.endMark) ∧
      ∀ m, Covers pieces.flatten m ↔ ∃ range ∈ ranges, ∃ b e, part.RowsOf range b e ∧
        Covers (granulesOfRange rows.length (getPartNameOffsetRange rows part.name b e)) m := by
  induction ranges with
  | nil => exact ⟨[], rfl, by simp, fun m => by simp [Covers]⟩
  | cons range ranges ih =>
    rw [List.forall_mem_cons] at hranges
    obtain ⟨⟨b, e, hrange⟩, hrest⟩ := hranges
    obtain ⟨pieces, hpieces, hnonempty, hcovers⟩ := ih hrest
    refine ⟨granulesOfRange rows.length (getPartNameOffsetRange rows part.name b e) :: pieces, ?_, ?_, fun m => ?_⟩
    · rw [List.mapM_cons, hrange.1, hrange.2.1, hpieces]
      rfl
    · intro r hr
      rcases List.mem_append.1 hr with hr | hr
      · exact granulesOfRange_nonempty (getPartNameOffsetRange_le hrange.2.2) r hr
      · exact hnonempty r hr
    · rw [List.flatten_cons, covers_append, hcovers, List.exists_mem_cons_iff]
      refine or_congr_left ⟨fun h => ⟨b, e, hrange, h⟩, ?_⟩
      rintro ⟨b', e', hrange', h⟩
      obtain ⟨rfl, rfl⟩ := hrange.unique hrange'
      exact h

/-- **The ranges in one patch part**: without gaps between the marks that are selected. -/
theorem getRangesInPatchPart_spec (std : StdSort) (h : Applies part patch ranges) :
    ∃ res, getRangesInPatchPart std part patch ranges = .ok res ∧ Spaced res ∧ ∀ m, Covers res m ↔ Selected part patch ranges m := by
  obtain ⟨granules, hgranules⟩ := h.rows
  have hnothing : patch.part.index = .empty → ∃ res : MarkRanges, Except.ok [] = (.ok res : Except String MarkRanges) ∧ Spaced res ∧
      ∀ m, Covers res m ↔ Selected part patch ranges m := by
    intro hindex
    refine ⟨[], rfl, ⟨nofun, List.Pairwise.nil⟩, fun m => ⟨by simp [Covers], ?_⟩⟩
    rintro ⟨rows, hrows, -⟩
    rw [hindex] at hrows
    cases hrows
  unfold getRangesInPatchPart Selected
  cases hmode : patch.mode with
  | merge =>
    simp only
    unfold getRangesInPatchPartMerge
    rw [h.merge hmode]
    simp only [ne_eq, not_true_eq_false, if_false]
    cases hindex : patch.part.index with
    | empty => simpa [Selected, hmode, hindex] using hnothing hindex
    | other columns hcolumns => rcases hgranules.index with hkeys | ⟨-, hempty⟩ <;> simp_all
    | keys rows =>
      obtain ⟨pieces, hpieces, hnonempty, hcovers⟩ := mapM_granulesOfRange rows h.ranges
      obtain ⟨res, hres, hapart, hsame⟩ := optimize_sort_spec std hnonempty
      refine ⟨res, ?_, hapart, fun m => ?_⟩
      · simp only
        rw [hpieces]
        exact hres
      · rw [hsame, hcovers]
        simp
  | join =>
    simp only
    unfold getRangesInPatchPartJoin
    cases hindex : patch.part.index with
    | empty => simpa [Selected, hmode, hindex] using hnothing hindex
    | other columns hcolumns => rcases hgranules.index with hkeys | ⟨-, hempty⟩ <;> simp_all
    | keys rows =>
      have hnonempty : ∀ r ∈ patch.sourceParts.flatMap fun name =>
          granulesOfRange rows.length (getPartNameRange (rows.map PatchRow.part) name), r.beginMark < r.endMark := by
        intro r hr
        obtain ⟨name, -, hr⟩ := List.mem_flatMap.1 hr
        exact granulesOfRange_nonempty (getPartNameRange_le _) r hr
      obtain ⟨res, hres, hapart, hsame⟩ := optimize_sort_spec std hnonempty
      refine ⟨res, hres, hapart, fun m => ?_⟩
      rw [hsame]
      simp only [Covers, List.mem_flatMap, PatchIndex.keys.injEq, exists_eq_left']
      constructor
      · rintro ⟨r, ⟨name, hname, hr⟩, hm⟩
        exact ⟨name, hname, r, hr, hm⟩
      · rintro ⟨name, hname, r, hr, hm⟩
        exact ⟨r, ⟨name, hname, hr⟩, hm⟩

/-- **Every granule that is needed is selected.** -/
theorem selected_of_needed
    {granules : List (List PatchRow)} (hholds : patch.part.Holds granules) {g : ℕ} (h : Needed part patch ranges granules g) :
    Selected part patch ranges g := by
  obtain ⟨granule, row, hgranule, hrow, hmatch⟩ := h
  have hkeys : patch.part.index = .keys (indexKeys granules) := by
    rcases hholds.index with hkeys | ⟨rfl, -⟩
    · exact hkeys
    · cases hgranule
  refine ⟨_, hkeys, ?_⟩
  cases hmode : patch.mode with
  | merge =>
    rw [hmode] at hmatch
    obtain ⟨hpart, range, hrange, b, e, hrows, hb, he⟩ := hmatch
    refine ⟨range, hrange, b, e, hrows, ?_⟩
    obtain ⟨hbegin, hend, hsize⟩ := @granule_between _ _ _ _ hholds.nonempty hholds.sorted hgranule hrow
      (fun key => ¬ compareNameAndOffset key part.name b < 0) (fun key => compareNameAndOffset key part.name e > 0)
      (fun key hafter => by
        rw [decide_eq_true_eq, compare_nonneg_iff]
        rcases hafter with hlt | ⟨heq, hle⟩
        · exact Or.inl (hpart ▸ hlt)
        · exact Or.inr ⟨heq ▸ hpart, hb.trans hle⟩)
      (fun key hafter => by
        rw [decide_eq_false_iff_not, compare_pos_iff]
        rintro (hlt | ⟨heq, hgt⟩)
        · rcases hafter with hbefore | ⟨heq, -⟩
          · exact (hbefore.trans (hpart ▸ hlt)).false
          · exact (heq.trans hpart ▸ hlt).false
        · rcases hafter with hbefore | ⟨-, hle⟩
          · exact (heq ▸ hpart ▸ hbefore).false
          · omega)
    exact covers_granulesOfRange hbegin hend hsize
  | join =>
    rw [hmode] at hmatch
    refine ⟨row.part, hmatch, ?_⟩
    obtain ⟨hbegin, hend, hsize⟩ := @granule_between _ _ _ _ hholds.nonempty hholds.sorted hgranule hrow
      (fun key => ¬ key.part < row.part) (fun key => row.part < key.part)
      (fun key hafter => by
        rw [decide_eq_true_eq]
        rcases hafter with hlt | ⟨heq, -⟩
        · exact hlt.not_gt
        · exact heq ▸ lt_irrefl _)
      (fun key hafter => by
        rw [decide_eq_false_iff_not]
        rcases hafter with hlt | ⟨heq, -⟩
        · exact hlt.not_gt
        · exact heq ▸ lt_irrefl _)
    unfold getPartNameRange
    rw [List.findIdx_map, List.findIdx_map]
    exact covers_granulesOfRange hbegin hend hsize

/-! ## Collecting -/

namespace RangesInPatchParts

/-- **The ranges that were collected** cover the marks that were selected. -/
structure Collects (s : RangesInPatchParts) (selected : String → ℕ → Prop) : Prop where
  nonempty : ∀ name, ∀ r ∈ s.ranges name, r.beginMark < r.endMark
  covers : ∀ name m, Covers (s.ranges name) m ↔ selected name m

theorem ranges_assign (s : RangesInPatchParts) (name other : String) (ranges : MarkRanges) :
    RangesInPatchParts.ranges { s with rangesByName := (s.rangesByName.erase name).emplace (name, ranges) } other =
      if other = name then ranges else s.ranges other := by
  unfold RangesInPatchParts.ranges
  simp only
  rw [KeyedSet.find_emplace_erase (a := (name, ranges))]
  split_ifs <;> rfl

/-- **One patch of a call.** -/
theorem Collects.addPatch {selected : String → ℕ → Prop} (h : Collects s selected) (std : StdSort)
    (happlies : Applies part patch ranges) :
    ∃ s', addPatch std part ranges s patch = .ok s' ∧ s'.maxGranulesInRange = s.maxGranulesInRange ∧
      Collects s' fun name m => selected name m ∨ (patch.part.name = name ∧ Selected part patch ranges m) := by
  obtain ⟨res, hres, hapart, hcovers⟩ := getRangesInPatchPart_spec std happlies
  unfold RangesInPatchParts.addPatch
  rw [hres]
  simp only [bind, Except.bind]
  by_cases hempty : res.isEmpty = true
  · rw [if_pos hempty]
    refine ⟨s, rfl, rfl, h.nonempty, fun name m => ?_⟩
    rw [h.covers]
    refine ⟨Or.inl, fun hm => hm.resolve_right fun hm => ?_⟩
    rw [← hcovers, List.isEmpty_iff.1 hempty] at hm
    simp [Covers] at hm
  · rw [if_neg hempty]
    refine ⟨_, rfl, rfl, fun name r hr => ?_, fun name m => ?_⟩
    · rw [ranges_assign] at hr
      split_ifs at hr with hname
      · rcases List.mem_append.1 hr with hr | hr
        · exact h.nonempty _ r hr
        · exact hapart.nonempty r hr
      · exact h.nonempty name r hr
    · rw [ranges_assign]
      split_ifs with hname
      · subst hname
        rw [covers_append, h.covers, hcovers]
        simp
      · rw [h.covers]
        exact ⟨Or.inl, fun hm => hm.resolve_right fun hm => hname hm.1.symm⟩

theorem Collects.foldlM {ι : Type} {step : RangesInPatchParts → ι → Except String RangesInPatchParts}
    {P : ι → String → ℕ → Prop} {xs : List ι} {selected : String → ℕ → Prop} (h : Collects s selected)
    (hstep : ∀ x ∈ xs, ∀ s selected, Collects s selected → ∃ s', step s x = .ok s' ∧
      s'.maxGranulesInRange = s.maxGranulesInRange ∧ Collects s' fun name m => selected name m ∨ P x name m) :
    ∃ s', xs.foldlM step s = .ok s' ∧ s'.maxGranulesInRange = s.maxGranulesInRange ∧
      Collects s' fun name m => selected name m ∨ ∃ x ∈ xs, P x name m := by
  induction xs generalizing s selected with
  | nil => exact ⟨s, rfl, rfl, by simpa using h⟩
  | cons x xs ih =>
    rw [List.forall_mem_cons] at hstep
    obtain ⟨next, hnext, hmax, hcollects⟩ := hstep.1 s selected h
    obtain ⟨s', hs', hmax', hcollects'⟩ := ih hcollects hstep.2
    refine ⟨s', ?_, hmax'.trans hmax, ?_⟩
    · rw [List.foldlM_cons, hnext]
      exact hs'
    · simpa only [List.exists_mem_cons_iff, or_assoc] using hcollects'

/-- **The patches of a call.** -/
theorem Collects.addPart {selected : String → ℕ → Prop} (std : StdSort)
    {patches : List (PatchPartInfo IndexedPatchPart)} (happlies : ∀ patch ∈ patches, Applies part patch ranges)
    (h : Collects s selected) :
    ∃ s', s.addPart std part patches ranges = .ok s' ∧ s'.maxGranulesInRange = s.maxGranulesInRange ∧
      Collects s' fun name m => selected name m ∨ ∃ patch ∈ patches, patch.part.name = name ∧ Selected part patch ranges m := by
  exact h.foldlM fun patch hpatch _ _ h => h.addPatch std (happlies patch hpatch)

end RangesInPatchParts

/-- A call of `addPart`. -/
structure PatchPartsCall where
  part : OriginalPart
  patches : List (PatchPartInfo IndexedPatchPart)
  ranges : MarkRanges

namespace RangesInPatchParts

/-- The calls of `addPart`, one after another. -/
def addParts (s : RangesInPatchParts) (std : StdSort) (calls : List PatchPartsCall) : Except String RangesInPatchParts :=
  calls.foldlM (fun s call => s.addPart std call.part call.patches call.ranges) s

/-- **The calls of `addPart`.** -/
theorem Collects.addParts {selected : String → ℕ → Prop} (std : StdSort) {calls : List PatchPartsCall}
    (happlies : ∀ call ∈ calls, ∀ patch ∈ call.patches, Applies call.part patch call.ranges) (h : Collects s selected) :
    ∃ s', s.addParts std calls = .ok s' ∧ s'.maxGranulesInRange = s.maxGranulesInRange ∧
      Collects s' fun name m => selected name m ∨
        ∃ call ∈ calls, ∃ patch ∈ call.patches, patch.part.name = name ∧ Selected call.part patch call.ranges m := by
  exact h.foldlM fun call hcall _ _ h => h.addPart std (happlies call hcall)

/-! ## Cutting -/

/-- **The pieces of a range.** -/
theorem splitRange_spec {n : ℕ} (hn : 0 < n) {range : MarkRange} (hrange : range.beginMark < range.endMark) :
    (splitRange n range).Sorted ∧ (∀ r ∈ splitRange n range, r.endMark - r.beginMark ≤ n) ∧
      (∀ r ∈ splitRange n range, range.beginMark ≤ r.beginMark ∧ r.endMark ≤ range.endMark) ∧
      ∀ m, Covers (splitRange n range) m ↔ range.beginMark ≤ m ∧ m < range.endMark := by
  obtain ⟨b, e⟩ := range
  simp only at hrange
  set q := (e - b) / n with hq
  have hdiv : n * q + (e - b) % n = e - b := Nat.div_add_mod _ _
  have hmod : (e - b) % n < n := Nat.mod_lt _ hn
  have hstep : ∀ i, i < q → n * (i + 1) ≤ n * q := fun i hi => Nat.mul_le_mul_left n hi
  have hmem : ∀ r, r ∈ splitRange n ⟨b, e⟩ ↔ (∃ i < q, r = ⟨b + n * i, b + n * (i + 1)⟩) ∨ ((e - b) % n ≠ 0 ∧ r = ⟨b + n * q, e⟩) := by
    intro r
    unfold splitRange
    simp only [List.mem_append, List.mem_map, List.mem_range, ← hq]
    refine or_congr ⟨fun ⟨i, hi, h⟩ => ⟨i, hi, h.symm⟩, fun ⟨i, hi, h⟩ => ⟨i, hi, h.symm⟩⟩ ?_
    split_ifs with hrest
    · simp [hrest]
    · simp [hrest]
  have hbounds : ∀ r ∈ splitRange n ⟨b, e⟩, r.beginMark < r.endMark ∧ r.endMark - r.beginMark ≤ n ∧ b ≤ r.beginMark ∧ r.endMark ≤ e := by
    intro r hr
    rcases (hmem r).1 hr with ⟨i, hi, rfl⟩ | ⟨hrest, rfl⟩
    · have := hstep i hi
      rw [Nat.mul_succ] at this ⊢
      simp only
      omega
    · simp only
      omega
  refine ⟨⟨fun r hr => (hbounds r hr).1, ?_⟩, fun r hr => (hbounds r hr).2.1, fun r hr => (hbounds r hr).2.2, fun m => ?_⟩
  · unfold splitRange
    simp only [← hq]
    rw [List.pairwise_append]
    refine ⟨?_, ?_, fun r hr s hs => ?_⟩
    · rw [List.pairwise_map]
      refine List.pairwise_lt_range.imp fun {i j} hij => ?_
      have : n * (i + 1) ≤ n * j := Nat.mul_le_mul_left n hij
      simp only
      omega
    · split_ifs
      · exact List.pairwise_singleton _ _
      · exact List.Pairwise.nil
    · obtain ⟨i, hi, rfl⟩ := List.mem_map.1 hr
      have := hstep i (List.mem_range.1 hi)
      split_ifs at hs with hrest
      · rw [List.mem_singleton.1 hs]
        simp only
        omega
      · cases hs
  · constructor
    · rintro ⟨r, hr, hbegin, hend⟩
      have := hbounds r hr
      simp only
      omega
    · rintro ⟨hbegin, hend⟩
      simp only at hbegin hend
      have hdivm : n * ((m - b) / n) + (m - b) % n = m - b := Nat.div_add_mod _ _
      have hmodm : (m - b) % n < n := Nat.mod_lt _ hn
      have hle : (m - b) / n ≤ q := Nat.div_le_div_right (by omega)
      rcases hle.eq_or_lt with heq | hlt
      · rw [heq] at hdivm
        exact ⟨⟨b + n * q, e⟩, (hmem _).2 (Or.inr ⟨by omega, rfl⟩), by simp only; omega, hend⟩
      · refine ⟨⟨b + n * ((m - b) / n), b + n * ((m - b) / n + 1)⟩, (hmem _).2 (Or.inl ⟨_, hlt, rfl⟩), ?_, ?_⟩
        · simp only
          omega
        · simp only
          rw [Nat.mul_succ]
          omega

/-- **The pieces of ranges with gaps.** -/
theorem flatMap_splitRange_spec {n : ℕ} (hn : 0 < n) (h : Spaced ranges) :
    MarkRanges.Sorted (ranges.flatMap (splitRange n)) ∧ (∀ r ∈ ranges.flatMap (splitRange n), r.endMark - r.beginMark ≤ n) ∧
      ∀ m, Covers (ranges.flatMap (splitRange n)) m ↔ Covers ranges m := by
  refine ⟨⟨fun r hr => ?_, ?_⟩, fun r hr => ?_, fun m => ?_⟩
  · obtain ⟨range, hrange, hr⟩ := List.mem_flatMap.1 hr
    exact (splitRange_spec hn (h.nonempty range hrange)).1.nonempty r hr
  · refine List.pairwise_flatMap.2 ⟨fun range hrange => (splitRange_spec hn (h.nonempty range hrange)).1.sorted, ?_⟩
    refine List.Pairwise.imp_of_mem (fun {a b} ha hb hab r hr s hs => ?_) h.gaps
    have hra := (splitRange_spec hn (h.nonempty a ha)).2.2.1 r hr
    have hsb := (splitRange_spec hn (h.nonempty b hb)).2.2.1 s hs
    omega
  · obtain ⟨range, hrange, hr⟩ := List.mem_flatMap.1 hr
    exact (splitRange_spec hn (h.nonempty range hrange)).2.1 r hr
  · constructor
    · rintro ⟨r, hr, hm⟩
      obtain ⟨range, hrange, hr⟩ := List.mem_flatMap.1 hr
      exact ⟨range, hrange, ((splitRange_spec hn (h.nonempty range hrange)).2.2.2 m).1 ⟨r, hr, hm⟩⟩
    · rintro ⟨range, hrange, hm⟩
      obtain ⟨r, hr, hm⟩ := ((splitRange_spec hn (h.nonempty range hrange)).2.2.2 m).2 hm
      exact ⟨r, List.mem_flatMap.2 ⟨range, hrange, hr⟩, hm⟩

/-- **Optimized ranges of a patch part**: sorted pieces of limited size that cover the same marks. -/
structure Optimized (n : ℕ) (before after : MarkRanges) : Prop where
  sorted : after.Sorted
  size_le : ∀ r ∈ after, r.endMark - r.beginMark ≤ n
  covers : ∀ m, Covers after m ↔ Covers before m

/-- **`optimize`.** -/
theorem optimize_spec (std : StdSort) (h : ∀ name, ∀ r ∈ s.ranges name, r.beginMark < r.endMark) :
    ∃ s', s.optimize std = .ok s' ∧ ∀ name, Optimized s.maxGranulesInRange (s.ranges name) (s'.ranges name) := by
  have hentries : ∀ entry ∈ s.rangesByName.toList, s.ranges entry.1 = entry.2 := by
    intro entry hentry
    unfold RangesInPatchParts.ranges
    rw [KeyedSet.find_eq_some.2 ⟨KeyedSet.mem_def.2 hentry, rfl⟩]
    rfl
  -- along the entries, the names before have their pieces and those to come have what they had
  have hrun : ∀ (entries : List (String × MarkRanges)) (map : KeyedSet (Prod.fst : String × MarkRanges → String)),
      entries.Pairwise (fun a b => a.1 ≠ b.1) → (∀ entry ∈ entries, ∀ r ∈ entry.2, r.beginMark < r.endMark) →
      ∃ map', entries.foldlM (s.optimizePatch std) map = .ok map' ∧
        (∀ entry ∈ entries, ∃ res, map'.find entry.1 = some (entry.1, res) ∧ Optimized s.maxGranulesInRange entry.2 res) ∧
        ∀ name, (∀ entry ∈ entries, entry.1 ≠ name) → map'.find name = map.find name := by
    intro entries
    induction entries with
    | nil => exact fun map _ _ => ⟨map, rfl, nofun, fun _ _ => rfl⟩
    | cons entry entries ih =>
      intro map hdistinct hnonempty
      rw [List.pairwise_cons] at hdistinct
      rw [List.forall_mem_cons] at hnonempty
      obtain ⟨res, hres, hapart, hcovers⟩ := optimize_sort_spec std hnonempty.1
      obtain ⟨hsorted, hsize, hpieces⟩ := flatMap_splitRange_spec s.maxGranules_pos hapart
      obtain ⟨map', hmap', hdone, hkept⟩ :=
        ih ((map.erase entry.1).emplace (entry.1, res.flatMap (splitRange s.maxGranulesInRange))) hdistinct.2 hnonempty.2
      refine ⟨map', ?_, ?_, fun name hname => ?_⟩
      · rw [List.foldlM_cons]
        unfold optimizePatch
        rw [hres]
        exact hmap'
      · rw [List.forall_mem_cons]
        refine ⟨⟨_, ?_, hsorted, hsize, fun m => (hpieces m).trans (hcovers m)⟩, hdone⟩
        rw [hkept entry.1 fun other hother => (hdistinct.1 other hother).symm,
          KeyedSet.find_emplace_erase (a := (entry.1, res.flatMap (splitRange s.maxGranulesInRange))), if_pos rfl]
      · rw [List.forall_mem_cons] at hname
        rw [hkept name hname.2, KeyedSet.find_emplace_erase (a := (entry.1, res.flatMap (splitRange s.maxGranulesInRange))),
          if_neg hname.1.symm]
  obtain ⟨map, hmap, hdone, hkept⟩ := hrun s.rangesByName.toList s.rangesByName (s.rangesByName.sorted.imp fun hlt => hlt.ne)
    fun entry hentry r hr => h entry.1 r (hentries entry hentry ▸ hr)
  refine ⟨{ s with rangesByName := map }, ?_, fun name => ?_⟩
  · unfold RangesInPatchParts.optimize
    rw [hmap]
    rfl
  · by_cases hname : ∃ entry ∈ s.rangesByName.toList, entry.1 = name
    · obtain ⟨entry, hentry, rfl⟩ := hname
      obtain ⟨res, hfind, hoptimized⟩ := hdone entry hentry
      rw [hentries entry hentry]
      unfold RangesInPatchParts.ranges
      rw [hfind]
      exact hoptimized
    · have hnone : s.rangesByName.find name = none := KeyedSet.find_eq_none.2 fun entry hentry heq => hname ⟨entry, hentry, heq⟩
      have hnone' := hkept name fun entry hentry heq => hname ⟨entry, hentry, heq⟩
      unfold RangesInPatchParts.ranges
      rw [hnone', hnone]
      exact ⟨⟨nofun, List.Pairwise.nil⟩, nofun, fun m => Iff.rfl⟩

/-! ## Looking up -/

section Pieces

variable {pieces : MarkRanges} (h : pieces.Sorted)

include h

theorem apart_of_mem {r t : MarkRange} (hr : r ∈ pieces) (ht : t ∈ pieces) : r = t ∨ r.endMark ≤ t.beginMark ∨ t.endMark ≤ r.beginMark := by
  by_cases heq : r = t
  · exact Or.inl heq
  · have : Std.Symm fun r t : MarkRange => r.endMark ≤ t.beginMark ∨ t.endMark ≤ r.beginMark := ⟨fun _ _ => Or.symm⟩
    have hsorted : pieces.Pairwise fun a b => a.endMark ≤ b.beginMark ∨ b.endMark ≤ a.beginMark := h.sorted.imp Or.inl
    exact Or.inr (hsorted.forall hr ht heq)

theorem sorted_of_orderKey {res : MarkRanges} (hres : res.Pairwise fun r t => orderKey r < orderKey t) (hmem : ∀ r ∈ res, r ∈ pieces) :
    res.Sorted := by
  refine ⟨fun r hr => h.nonempty r (hmem r hr), List.Pairwise.imp_of_mem (fun {r t} hr ht hlt => ?_) hres⟩
  have hnonempty := h.nonempty t (hmem t ht)
  rw [orderKey_lt_iff] at hlt
  rcases apart_of_mem h (hmem r hr) (hmem t ht) with rfl | hle | hle
  · omega
  · exact hle
  · omega

theorem mem_intersecting {range r : MarkRange} (hr : r ∈ pieces) (hbegin : range.beginMark ≤ r.endMark) (hend : r.beginMark ≤ range.endMark) :
    r ∈ intersecting pieces range := by
  obtain ⟨i, hi, rfl⟩ := List.mem_iff_getElem.1 hr
  have hleft : (pieces.findIdx fun r => ¬ r.endMark < range.beginMark) ≤ i := by
    by_contra hgt
    have := List.not_of_lt_findIdx (not_le.1 hgt)
    simp only [decide_eq_false_iff_not, not_not] at this
    omega
  have hright : i < pieces.findIdx fun r => range.endMark < r.beginMark := by
    refine List.lt_findIdx_of_not hi fun j hj => ?_
    have hle : pieces[j].beginMark ≤ pieces[i].beginMark := by
      rcases hj.eq_or_lt with rfl | hlt
      · exact le_rfl
      · have hbefore := List.pairwise_iff_getElem.1 h.sorted j i (by omega) hi hlt
        have := h.nonempty pieces[j] (List.getElem_mem _)
        omega
    simp only [decide_eq_true_eq]
    omega
  unfold intersecting
  rw [List.mem_drop_iff_getElem]
  refine ⟨i - (pieces.findIdx fun r => ¬ r.endMark < range.beginMark), ?_, ?_⟩
  · rw [List.length_take]
    omega
  · rw [List.getElem_take]
    congr 1
    omega

end Pieces

/-- **`getIntersectingRanges`**: the pieces that meet or touch one of the ranges, in order. -/
theorem getIntersectingRanges_spec (set : ComparisonSet) {name : String} (h : (s.ranges name).Sorted)
    (ranges : MarkRanges) :
    ∃ res, s.getIntersectingRanges set name ranges = .ok res ∧ res.Sorted ∧
      ∀ range ∈ ranges, ∀ r ∈ s.ranges name, range.beginMark ≤ r.endMark → r.beginMark ≤ range.endMark → r ∈ res := by
  unfold RangesInPatchParts.getIntersectingRanges
  unfold RangesInPatchParts.ranges at h ⊢
  cases hfind : s.rangesByName.find name with
  | none => exact ⟨[], rfl, ⟨nofun, List.Pairwise.nil⟩, nofun⟩
  | some entry =>
    rw [hfind] at h
    obtain ⟨_, pieces⟩ := entry
    change MarkRanges.Sorted pieces at h
    change ∃ res, ranges.foldlM (fun res range => set.insertAll MarkRange.less res (intersecting pieces range)) [] = .ok res ∧ _ ∧
      ∀ range ∈ ranges, ∀ r ∈ pieces, _
    -- the set holds pieces only, so no comparison throws
    have hrun : ∀ (ranges res : MarkRanges), (res.Pairwise fun r t => orderKey r < orderKey t) → (∀ r ∈ res, r ∈ pieces) →
        ∃ res', ranges.foldlM (fun res range => set.insertAll MarkRange.less res (intersecting pieces range)) res = .ok res' ∧
          (res'.Pairwise fun r t => orderKey r < orderKey t) ∧ (∀ r ∈ res', r ∈ pieces) ∧ (∀ r ∈ res, r ∈ res') ∧
          ∀ range ∈ ranges, ∀ r ∈ pieces, range.beginMark ≤ r.endMark → r.beginMark ≤ range.endMark → r ∈ res' := by
      intro ranges
      induction ranges with
      | nil => exact fun res hres hmem => ⟨res, rfl, hres, hmem, fun _ hr => hr, nofun⟩
      | cons range ranges ih =>
        intro res hres hmem
        have hfound : ∀ r ∈ intersecting pieces range, r ∈ pieces := fun r hr => List.mem_of_mem_take (List.mem_of_mem_drop hr)
        have hall : ∀ r ∈ res ++ intersecting pieces range, r ∈ pieces := fun r hr =>
          (List.mem_append.1 hr).elim (hmem r) (hfound r)
        obtain ⟨next, hnext, hsorted, hin⟩ := set.insertAll_spec orderKey_injective hres fun r hr t ht =>
          less_of_apart (h.nonempty r (hall r hr)) (h.nonempty t (hall t ht)) (apart_of_mem h (hall r hr) (hall t ht))
        obtain ⟨res', hres', hsorted', hmem', hkept, hlater⟩ :=
          ih next hsorted fun r hr => ((hin r).1 hr).elim (hmem r) (hfound r)
        refine ⟨res', ?_, hsorted', hmem', fun r hr => hkept r ((hin r).2 (Or.inl hr)), ?_⟩
        · rw [List.foldlM_cons, hnext]
          exact hres'
        · rw [List.forall_mem_cons]
          exact ⟨fun r hr hbegin hend => hkept r ((hin r).2 (Or.inr (mem_intersecting h hr hbegin hend))), hlater⟩
    obtain ⟨res, hres, hsorted, hmem, -, hfound⟩ := hrun ranges [] List.Pairwise.nil nofun
    exact ⟨res, hres, sorted_of_orderKey h hsorted hmem, hfound⟩

/-- **`getRanges`**: the pieces for each patch cover what is selected for it, as far as the pieces cover it at all. -/
theorem getRanges_spec (std : StdSort) (set : ComparisonSet) (h : ∀ name, (s.ranges name).Sorted)
    {patches : List (PatchPartInfo IndexedPatchPart)} (happlies : ∀ patch ∈ patches, Applies part patch ranges) :
    ∃ result : PatchPartInfo IndexedPatchPart → MarkRanges, s.getRanges std set part patches ranges = .ok (patches.map result) ∧
      ∀ patch ∈ patches, (result patch).Sorted ∧
        ∀ m, Selected part patch ranges m → Covers (s.ranges patch.part.name) m → Covers (result patch) m := by
  have hraw : ∀ patch ∈ patches, ∃ raw, getRangesInPatchPart std part patch ranges = .ok raw ∧
      ∀ m, Covers raw m ↔ Selected part patch ranges m := fun patch hpatch => by
    obtain ⟨raw, hraw, -, hcovers⟩ := getRangesInPatchPart_spec std (happlies patch hpatch)
    exact ⟨raw, hraw, hcovers⟩
  choose! raw hraw hcovers using hraw
  have hresult : ∀ patch ∈ patches, ∃ result, s.getIntersectingRanges set patch.part.name (raw patch) = .ok result ∧ result.Sorted ∧
      ∀ range ∈ raw patch, ∀ r ∈ s.ranges patch.part.name, range.beginMark ≤ r.endMark → r.beginMark ≤ range.endMark → r ∈ result :=
    fun patch _ => getIntersectingRanges_spec set (h patch.part.name) (raw patch)
  choose! result hresult hsorted hfound using hresult
  refine ⟨result, ?_, fun patch hpatch => ⟨hsorted patch hpatch, fun m hselected hm => ?_⟩⟩
  · unfold RangesInPatchParts.getRanges
    rw [Loop.mapM_eq_ok hraw]
    change (patches.zip (patches.map raw)).mapM (fun patch => s.getIntersectingRanges set patch.1.part.name patch.2) = _
    have hzip : patches.zip (patches.map raw) = patches.map fun patch => (patch, raw patch) := by
      simpa using @List.zip_map' _ _ _ id raw patches
    rw [hzip, List.mapM_map]
    exact Loop.mapM_eq_ok hresult
  · obtain ⟨range, hrange, hbegin, hend⟩ := (hcovers patch hpatch m).2 hselected
    obtain ⟨r, hr, hrbegin, hrend⟩ := hm
    exact ⟨r, hfound patch hpatch range hrange r hr (by omega) (by omega), hrbegin, hrend⟩

end RangesInPatchParts

open RangesInPatchParts

/-- **The ranges in patch parts cover what is needed.** After calls of `addPart`, every granule that is needed is covered;
`optimize` keeps the marks, in sorted pieces of at most `max_granules_in_range` granules; and then `getRanges` returns,
for some of the ranges of a call, sorted pieces that cover every granule needed for them. -/
theorem rangesInPatchParts_spec (std : StdSort) (set : ComparisonSet) (maxGranulesInRange : ℕ) (hmax : 0 < maxGranulesInRange)
    (calls : List PatchPartsCall) (happlies : ∀ call ∈ calls, ∀ patch ∈ call.patches, Applies call.part patch call.ranges) :
    ∃ collected optimized, addParts ⟨maxGranulesInRange, hmax, .empty⟩ std calls = .ok collected ∧ collected.optimize std = .ok optimized ∧
      (∀ call ∈ calls, ∀ patch ∈ call.patches, ∀ granules, patch.part.Holds granules →
        ∀ g, Needed call.part patch call.ranges granules g → Covers (collected.ranges patch.part.name) g) ∧
      (∀ name, (optimized.ranges name).Sorted ∧ (∀ r ∈ optimized.ranges name, r.endMark - r.beginMark ≤ maxGranulesInRange) ∧
        ∀ m, Covers (optimized.ranges name) m ↔ Covers (collected.ranges name) m) ∧
      ∀ call ∈ calls, ∀ sub : MarkRanges, sub.Sublist call.ranges →
        ∃ results : List MarkRanges, optimized.getRanges std set call.part call.patches sub = .ok results ∧ results.length = call.patches.length ∧
          ∀ (i : ℕ) (patch : PatchPartInfo IndexedPatchPart) (result : MarkRanges), call.patches[i]? = some patch → results[i]? = some result → result.Sorted ∧
            ∀ granules, patch.part.Holds granules → ∀ g, Needed call.part patch sub granules g → Covers result g := by
  have hnew : Collects ⟨maxGranulesInRange, hmax, .empty⟩ fun _ _ => False := by
    refine ⟨nofun, fun name m => ⟨?_, False.elim⟩⟩
    rintro ⟨r, hr, -⟩
    exact List.not_mem_nil (hr : r ∈ ([] : MarkRanges))
  obtain ⟨collected, hcollected, hsize, hcollects⟩ := hnew.addParts std happlies
  obtain ⟨optimized, hoptimized, hpieces⟩ := optimize_spec std hcollects.nonempty
  have hselected : ∀ call ∈ calls, ∀ patch ∈ call.patches, ∀ m, Selected call.part patch call.ranges m →
      Covers (collected.ranges patch.part.name) m :=
    fun call hcall patch hpatch m hm => (hcollects.covers _ m).2 (Or.inr ⟨call, hcall, patch, hpatch, rfl, hm⟩)
  refine ⟨collected, optimized, hcollected, hoptimized, ?_, fun name => ?_, fun call hcall sub hsub => ?_⟩
  · exact fun call hcall patch hpatch granules hholds g hg => hselected call hcall patch hpatch g (selected_of_needed hholds hg)
  · obtain ⟨hsorted, hlimit, hcovers⟩ := hpieces name
    rw [hsize] at hlimit
    exact ⟨hsorted, hlimit, hcovers⟩
  · have hsub' : ∀ patch ∈ call.patches, Applies call.part patch sub := fun patch hpatch =>
      have h := happlies call hcall patch hpatch
      ⟨fun range hrange => h.ranges range (hsub.subset hrange), h.merge, h.rows⟩
    obtain ⟨result, hresult, hspec⟩ := getRanges_spec std set (fun name => (hpieces name).sorted) hsub'
    refine ⟨_, hresult, List.length_map _, fun i patch res hpatch hres => ?_⟩
    rw [List.getElem?_map, hpatch] at hres
    obtain rfl := Option.some.inj hres
    have hmem := List.mem_of_getElem? hpatch
    obtain ⟨hsorted, hcovers⟩ := hspec patch hmem
    refine ⟨hsorted, fun granules hholds g hg => ?_⟩
    have hsel := selected_of_needed hholds hg
    exact hcovers g hsel (((hpieces patch.part.name).covers g).2
      (hselected call hcall patch hmem g (hsel.mono fun range hrange => hsub.subset hrange)))

theorem rangesInPatchParts_spec_two_marks :
    let granules : List (List PatchRow) := [[⟨"a", 0⟩, ⟨"b", 1⟩], [⟨"b", 5⟩, ⟨"b", 12⟩], [⟨"c", 0⟩]]
    let patch : PatchPartInfo IndexedPatchPart := { mode := .merge, part := ⟨"patch", .keys (indexKeys granules)⟩, sourceParts := ["b"] }
    let part : OriginalPart := ⟨"b", .adaptive ⟨[10, 15]⟩⟩
    ∃ collected optimized, addParts ⟨1, one_pos, .empty⟩ .insertion [⟨part, [patch], [⟨0, 1⟩, ⟨1, 2⟩]⟩] = .ok collected ∧
      collected.optimize .insertion = .ok optimized ∧ Covers (collected.ranges "patch") 0 ∧
      ∃ results result, optimized.getRanges .insertion .linear part [patch] [⟨1, 2⟩] = .ok results ∧ results[0]? = some result ∧
        Covers result 1 := by
  intro granules patch part
  have hholds : patch.part.Holds granules := ⟨by decide, by decide, Or.inl rfl⟩
  have hrows : ∀ range ∈ ([⟨0, 1⟩, ⟨1, 2⟩] : MarkRanges), ∃ b e, part.RowsOf range b e := by
    intro range hrange
    have hbounds : range.beginMark ≤ range.endMark ∧ range.endMark ≤ 2 := by
      revert range
      decide
    exact ⟨_, _, OriginalPart.rowsOf_of_built GranularityAdaptive.built_two_marks (Or.inl rfl) hbounds.1 hbounds.2⟩
  obtain ⟨collected, optimized, hcollected, hoptimized, hcovers, -, hget⟩ := rangesInPatchParts_spec .insertion .linear 1 one_pos
    [⟨part, [patch], [⟨0, 1⟩, ⟨1, 2⟩]⟩] (by
      intro call hcall p hp
      obtain rfl := List.mem_singleton.1 hcall
      obtain rfl := List.mem_singleton.1 hp
      exact ⟨hrows, fun _ => rfl, granules, hholds⟩)
  obtain ⟨results, hresults, hlen, hspec⟩ := hget _ (List.mem_singleton_self _) [⟨1, 2⟩] (List.sublist_cons_self _ _)
  obtain ⟨result, hresult⟩ : ∃ result, results[0]? = some result := ⟨_, List.getElem?_eq_getElem (by rw [hlen]; decide)⟩
  refine ⟨collected, optimized, hcollected, hoptimized, ?_, results, result, hresults, hresult, ?_⟩
  · exact hcovers _ (List.mem_singleton_self _) patch (List.mem_singleton_self _) granules hholds 0
      ⟨_, ⟨"b", 1⟩, rfl, by decide, rfl, ⟨0, 1⟩, by decide, 0, 10, ⟨rfl, rfl, by decide⟩, by decide, by decide⟩
  · exact (hspec 0 patch result rfl hresult).2 granules hholds 1
      ⟨_, ⟨"b", 12⟩, rfl, by decide, rfl, ⟨1, 2⟩, by decide, 10, 15, ⟨rfl, rfl, by decide⟩, by decide, by decide⟩

end MergeTree
