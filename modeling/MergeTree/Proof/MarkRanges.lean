import MergeTree.Spec.MarkRanges

/-!
# What the check of ranges accepts

`assertSortedAndNonIntersecting` sorts a copy of the ranges with a comparator that throws on different ranges
that intersect. Whatever comparisons the sort makes, it compares neighbours; so it accepts exactly the lists
in which a range is followed by equal ranges and by ranges past its end (`assertSortedAndNonIntersecting_iff`). A list that repeats
a range passes, with marks that occur twice.
-/

namespace MergeTree

namespace MarkRanges

variable {std : ComparisonSort} {ranges : MarkRanges}

/-- The order of ranges that the comparator goes with. -/
def orderKey (range : MarkRange) : ℕ ×ₗ ℕ := toLex (range.beginMark, range.endMark)

theorem orderKey_injective : Function.Injective orderKey := by
  intro r s h
  simp only [orderKey, toLex_inj, Prod.mk.injEq] at h
  cases r
  cases s
  simp_all

theorem orderKey_lt_iff {r s : MarkRange} :
    orderKey r < orderKey s ↔ r.beginMark < s.beginMark ∨ (r.beginMark = s.beginMark ∧ r.endMark < s.endMark) := Prod.Lex.lt_iff

/-- An answer of the comparator, for ranges that are not empty: the ranges are equal or one is past the other. -/
theorem less_eq_ok {r s : MarkRange} {v : Bool} (hs : s.beginMark < s.endMark)
    (h : r.less s = .ok v) : v = decide (orderKey r < orderKey s) ∧ (r = s ∨ r.endMark ≤ s.beginMark ∨ s.endMark ≤ r.beginMark) := by
  unfold MarkRange.less at h
  split_ifs at h with hmeet
  obtain rfl := Except.ok.inj h
  rw [decide_eq_decide, orderKey_lt_iff]
  by_cases heq : r = s
  · subst heq
    exact ⟨by omega, Or.inl rfl⟩
  · have hmeet : ¬ r.Intersects s := fun hi => hmeet ⟨heq, hi⟩
    unfold MarkRange.Intersects at hmeet
    omega

theorem less_of_apart {r s : MarkRange} (hr : r.beginMark < r.endMark) (hs : s.beginMark < s.endMark)
    (h : r = s ∨ r.endMark ≤ s.beginMark ∨ s.endMark ≤ r.beginMark) : r.less s = .ok (decide (orderKey r < orderKey s)) := by
  unfold MarkRange.less
  rw [if_neg]
  · congr 1
    refine decide_eq_decide.2 ?_
    rw [orderKey_lt_iff]
    rcases h with rfl | h
    · omega
    · omega
  · rintro ⟨hne, hi⟩
    unfold MarkRange.Intersects at hi
    rcases h with h | h
    · exact hne h
    · omega

/-- Each range is followed by equal ones and by ranges past its end. -/
def SortedRepeating (ranges : MarkRanges) : Prop := ranges.Pairwise fun r s => r = s ∨ r.endMark ≤ s.beginMark

instance : Decidable ranges.SortedRepeating := inferInstanceAs (Decidable (List.Pairwise _ _))

theorem assert_eq_ok : assertSortedAndNonIntersecting std ranges = .ok () ↔ std.sort MarkRange.less ranges = .ok ranges := by
  unfold assertSortedAndNonIntersecting
  cases std.sort MarkRange.less ranges with
  | error e => exact ⟨nofun, nofun⟩
  | ok sorted =>
    have hif : (if sorted ≠ ranges then Except.error ("Expected sorted and non intersecting ranges. Ranges: " ++ ranges.toString)
        else Except.ok ()) = .ok () ↔ Except.ok (ε := String) sorted = .ok ranges := by
      by_cases h : sorted = ranges <;> simp [h]
    exact hif

variable (hnonempty : ∀ range ∈ ranges, range.beginMark < range.endMark)

include hnonempty

/-- **The ranges after a range** in a list that comes back unchanged are past it. The next one has been compared with it. -/
theorem past_of_sort (h : std.sort MarkRange.less ranges = .ok ranges) {r s : MarkRange} (hr : r ∈ ranges) (hs : s ∈ ranges)
    (hrs : orderKey r < orderKey s) : r.endMark ≤ s.beginMark := by
  have hless : ∀ r ∈ ranges, ∀ s ∈ ranges, ∀ v, r.less s = .ok v → v = decide (orderKey r < orderKey s) :=
    fun r hr s hs v hv => (less_eq_ok (hnonempty s hs) hv).1
  obtain ⟨next, hnext, hmin⟩ := Finset.exists_min_image (ranges.toFinset.filter fun t => orderKey r < orderKey t) orderKey
    ⟨s, Finset.mem_filter.2 ⟨List.mem_toFinset.2 hs, hrs⟩⟩
  rw [Finset.mem_filter, List.mem_toFinset] at hnext
  have hbetween : ∀ t ∈ ranges, orderKey t ≤ orderKey r ∨ orderKey next ≤ orderKey t := by
    intro t ht
    rcases le_or_gt (orderKey t) (orderKey r) with hle | hlt
    · exact Or.inl hle
    · exact Or.inr (hmin t (Finset.mem_filter.2 ⟨List.mem_toFinset.2 ht, hlt⟩))
  have hfirst : orderKey next ≤ orderKey s := hmin s (Finset.mem_filter.2 ⟨List.mem_toFinset.2 hs, hrs⟩)
  obtain ⟨c, hc, d, hd, hcr, hdn, hcompared⟩ := std.exists_compared hless h hr hnext.1 hnext.2 hbetween
  obtain rfl := orderKey_injective hcr
  obtain rfl := orderKey_injective hdn
  have hapart : c = d ∨ c.endMark ≤ d.beginMark ∨ d.endMark ≤ c.beginMark := by
    rcases hcompared with ⟨v, hv⟩ | ⟨v, hv⟩
    · exact (less_eq_ok (hnonempty d hd) hv).2
    · have := (less_eq_ok (hnonempty c hc) hv).2
      tauto
  have hlt := orderKey_lt_iff.1 hnext.2
  have hle := Prod.Lex.le_iff.1 hfirst
  have hcn := hnonempty c hc
  have hdn := hnonempty d hd
  simp only [orderKey, ofLex_toLex] at hle
  rcases hapart with rfl | hapart
  · exact absurd hnext.2 (lt_irrefl _)
  · omega

theorem sortedRepeating_of_sort (h : std.sort MarkRange.less ranges = .ok ranges) : ranges.SortedRepeating := by
  have hless : ∀ r ∈ ranges, ∀ s ∈ ranges, ∀ v, r.less s = .ok v → v = decide (orderKey r < orderKey s) :=
    fun r hr s hs v hv => (less_eq_ok (hnonempty s hs) hv).1
  refine (std.sort_eq_ok hless h).2.imp_of_mem fun {r s} hr hs hle => ?_
  rcases hle.eq_or_lt with heq | hlt
  · exact Or.inl (orderKey_injective heq)
  · exact Or.inr (past_of_sort hnonempty h hr hs hlt)

theorem sort_of_sortedRepeating (h : ranges.SortedRepeating) : std.sort MarkRange.less ranges = .ok ranges := by
  have : Std.Symm fun r s : MarkRange => r = s ∨ r.endMark ≤ s.beginMark ∨ s.endMark ≤ r.beginMark :=
    ⟨fun r s hrs => by tauto⟩
  have hapart : ∀ r ∈ ranges, ∀ s ∈ ranges, r = s ∨ r.endMark ≤ s.beginMark ∨ s.endMark ≤ r.beginMark := fun r hr s hs =>
    List.Pairwise.forall_of_forall (R := fun r s : MarkRange => r = s ∨ r.endMark ≤ s.beginMark ∨ s.endMark ≤ r.beginMark)
      (fun _ _ => Or.inl rfl) (h.imp fun hrs => hrs.imp_right Or.inl) hr hs
  have hless : ∀ r ∈ ranges, ∀ s ∈ ranges, r.less s = .ok (decide (orderKey r < orderKey s)) :=
    fun r hr s hs => less_of_apart (hnonempty r hr) (hnonempty s hs) (hapart r hr s hs)
  obtain ⟨sorted, hsorted⟩ := std.exists_sort_eq_ok hless
  have hperm := std.sort_eq_ok (fun r hr s hs v hv => (Except.ok.inj ((hless r hr s hs).symm.trans hv)).symm) hsorted
  have hkeys : ranges.Pairwise fun r s => orderKey r ≤ orderKey s := by
    refine h.imp_of_mem fun {r s} hr hs hrs => ?_
    rcases hrs with rfl | hrs
    · exact le_rfl
    · have := hnonempty r hr
      exact (orderKey_lt_iff.2 (Or.inl (by omega))).le
  have heq : sorted = ranges := hperm.1.eq_of_pairwise (fun r s _ _ hrs hsr => orderKey_injective (le_antisymm hrs hsr)) hperm.2 hkeys
  rw [hsorted, heq]

omit hnonempty in
theorem sorted_iff : ranges.Sorted ↔ (∀ range ∈ ranges, range.beginMark < range.endMark) ∧ ranges.SortedRepeating ∧ ranges.Nodup := by
  constructor
  · rintro ⟨hne, hsorted⟩
    refine ⟨hne, hsorted.imp Or.inr, hsorted.imp_of_mem fun {r s} hr _ hrs heq => ?_⟩
    have := hne r hr
    subst heq
    omega
  · rintro ⟨hne, hrep, hnodup⟩
    exact ⟨hne, hrep.imp₂ (fun _ _ hrs hne => hrs.resolve_left hne) hnodup⟩

/-- **What the check accepts**: ranges in order, each possibly repeated. So it accepts exactly the sorted lists of
disjoint ranges among the lists that do not repeat a range or are out of order even so. -/
theorem assertSortedAndNonIntersecting_iff :
    (assertSortedAndNonIntersecting std ranges = .ok () ↔ ranges.SortedRepeating) ∧
      ((assertSortedAndNonIntersecting std ranges = .ok () ↔ ranges.Sorted) ↔ ranges.Nodup ∨ ¬ ranges.SortedRepeating) := by
  have haccepts : assertSortedAndNonIntersecting std ranges = .ok () ↔ ranges.SortedRepeating :=
    assert_eq_ok.trans ⟨sortedRepeating_of_sort hnonempty, sort_of_sortedRepeating hnonempty⟩
  refine ⟨haccepts, ?_⟩
  rw [haccepts, sorted_iff]
  tauto

omit hnonempty in
theorem assertSortedAndNonIntersecting_iff_three :
    (assertSortedAndNonIntersecting .insertion [⟨0, 2⟩, ⟨2, 3⟩, ⟨5, 8⟩] = .ok () ↔ MarkRanges.SortedRepeating [⟨0, 2⟩, ⟨2, 3⟩, ⟨5, 8⟩]) ∧
      ((assertSortedAndNonIntersecting .insertion [⟨0, 2⟩, ⟨2, 3⟩, ⟨5, 8⟩] = .ok () ↔ MarkRanges.Sorted [⟨0, 2⟩, ⟨2, 3⟩, ⟨5, 8⟩]) ↔
        List.Nodup [MarkRange.mk 0 2, ⟨2, 3⟩, ⟨5, 8⟩] ∨ ¬ MarkRanges.SortedRepeating [⟨0, 2⟩, ⟨2, 3⟩, ⟨5, 8⟩]) :=
  assertSortedAndNonIntersecting_iff (by decide)

omit hnonempty in
/-- The range is accepted twice, and its marks occur twice. -/
theorem not_assertSortedAndNonIntersecting_repeated :
    assertSortedAndNonIntersecting .insertion [⟨0, 2⟩, ⟨0, 2⟩] = .ok () ∧ ¬ MarkRanges.Sorted [⟨0, 2⟩, ⟨0, 2⟩] := by
  refine ⟨by decide, fun h => ?_⟩
  have := h.sorted
  simp at this

end MarkRanges

end MergeTree
