import MergeTree.Proof.ExclusionSearch
import MergeTree.Spec.BinarySearch

/-!
# What the binary search finds

The left search tests the ranges from mark 0 on, not those from the begin of the part range
on. So it stops at the begin of a part range that lies after all matches, and the mark
there is returned. In all other cases the marks found are exactly the ones that match
(`searches_iff`). A monotone test loses no mark in any case.
-/

namespace MergeTree

namespace BinarySearch

variable {checkInRange : MarkRange → BoolMask → BoolMask} {partRange : MarkRange} {L R : ℕ}

/-- The test of a range can be true. -/
def CanBeTrue (checkInRange : MarkRange → BoolMask → BoolMask) (range : MarkRange) : Prop :=
  (checkInRange range .considerOnlyCanBeTrue).canBeTrue = true

/-- The marks that match are those from `L` to `R`: a range that is not empty can be true when it meets them. -/
def MatchesInterval (checkInRange : MarkRange → BoolMask → BoolMask) (L R : ℕ) : Prop :=
  ∀ range : MarkRange, range.beginMark < range.endMark →
    (CanBeTrue checkInRange range ↔ ∃ m, range.beginMark ≤ m ∧ m < range.endMark ∧ L ≤ m ∧ m < R)

/-- A range can be true when a part of it can. -/
def Monotone (checkInRange : MarkRange → BoolMask → BoolMask) : Prop :=
  ∀ r s : MarkRange, r.Within s → CanBeTrue checkInRange r → CanBeTrue checkInRange s

theorem MatchesInterval.canBeTrue_iff (h : MatchesInterval checkInRange L R) {b e : ℕ} (hne : b < e) :
    CanBeTrue checkInRange ⟨b, e⟩ ↔ max b L < min e R := by
  rw [h ⟨b, e⟩ hne]
  constructor
  · rintro ⟨m, hb, he, hL, hR⟩
    exact lt_of_le_of_lt (max_le hb hL) (lt_min he hR)
  · intro hlt
    exact ⟨max b L, le_max_left _ _, lt_of_lt_of_le hlt (min_le_left _ _), le_max_right _ _, lt_of_lt_of_le hlt (min_le_right _ _)⟩

/-! ## The two searches -/

theorem searchLeft_spec (checkInRange : MarkRange → BoolMask → BoolMask) (partRange : MarkRange) :
    Bisection.Spec (fun middle => (checkInRange ⟨0, middle⟩ .considerOnlyCanBeTrue).canBeTrue)
      partRange.beginMark (partRange.endMark + 1) (searchLeft checkInRange partRange) :=
  Bisection.search_spec _ _ _

theorem searchRight_spec (checkInRange : MarkRange → BoolMask → BoolMask) (partRange : MarkRange) (searchedLeft : ℕ) :
    Bisection.Spec (fun middle => !(checkInRange ⟨middle, partRange.endMark⟩ .considerOnlyCanBeTrue).canBeTrue)
      searchedLeft partRange.endMark (searchRight checkInRange partRange searchedLeft) :=
  Bisection.search_spec _ _ _

theorem dropFirst_within (checkInRange : MarkRange → BoolMask → BoolMask) (range : MarkRange) :
    range.beginMark ≤ (dropFirst checkInRange range).beginMark ∧ (dropFirst checkInRange range).endMark = range.endMark := by
  unfold dropFirst
  split
  · exact ⟨Nat.le_succ _, rfl⟩
  · exact ⟨le_rfl, rfl⟩

theorem dropLast_within (checkInRange : MarkRange → BoolMask → BoolMask) (range : MarkRange) :
    (dropLast checkInRange range).beginMark = range.beginMark ∧ (dropLast checkInRange range).endMark ≤ range.endMark := by
  unfold dropLast
  split
  · exact ⟨rfl, Nat.sub_le _ _⟩
  · exact ⟨rfl, le_rfl⟩

theorem exactTests_valid {result : MarkRange} :
    ∀ range ∈ exactTests checkInRange result, range.beginMark < range.endMark ∧ range.endMark ≤ result.endMark := by
  have hfirst := dropFirst_within checkInRange result
  have hlast := dropLast_within checkInRange (dropFirst checkInRange result)
  intro range hrange
  unfold exactTests exactRange at hrange
  simp only [List.mem_append, List.mem_ite_nil_right, List.mem_singleton] at hrange
  rcases hrange with (⟨hlt, rfl⟩ | ⟨hlt, rfl⟩) | ⟨hlt, rfl⟩
  · exact ⟨Nat.lt_succ_self _, hlt⟩
  · refine ⟨?_, hfirst.2.le⟩
    simp only
    omega
  · exact ⟨hlt, hlast.2.trans hfirst.2.le⟩

theorem searchTests_valid :
    ∀ range ∈ searchTests checkInRange partRange, range.beginMark < range.endMark ∧ range.endMark ≤ partRange.endMark := by
  have hleft := searchLeft_spec checkInRange partRange
  have hright := searchRight_spec checkInRange partRange (searchLeft checkInRange partRange).left
  intro range hrange
  rcases List.mem_append.1 hrange with hrange | hrange
  · obtain ⟨m, hm, rfl⟩ := List.mem_map.1 hrange
    obtain ⟨hlt, hle⟩ := hleft.tested m hm
    exact ⟨by show 0 < m; omega, by show m ≤ _; omega⟩
  · obtain ⟨m, hm, rfl⟩ := List.mem_map.1 hrange
    exact ⟨(hright.tested m hm).2, le_rfl⟩

/-- **No test of an empty range, or beyond the end of the part range.** -/
theorem tests_valid :
    ∀ range ∈ searchTests checkInRange partRange ++ exactTests checkInRange (resultRange checkInRange partRange),
      range.beginMark < range.endMark ∧ range.endMark ≤ partRange.endMark := by
  intro range hrange
  rcases List.mem_append.1 hrange with hrange | hrange
  · exact searchTests_valid range hrange
  · obtain ⟨hlt, hle⟩ := exactTests_valid range hrange
    exact ⟨hlt, hle.trans (searchRight_spec checkInRange partRange _).right_le⟩

theorem searchLeft_eq (h : MatchesInterval checkInRange L R) {b e : ℕ} (hne : b < e) :
    (searchLeft checkInRange ⟨b, e⟩).left = if L < R ∧ L < e then max b L else e := by
  have hspec := searchLeft_spec checkInRange ⟨b, e⟩
  have hnext := hspec.neighbours (hne.trans (Nat.lt_succ_self _))
  have hb := hspec.left_le
  have he := hspec.right_le
  have htest : ∀ m, 0 < m → ((checkInRange ⟨0, m⟩ .considerOnlyCanBeTrue).canBeTrue = true ↔ L < R ∧ L < m) := by
    intro m hm
    have hiff := h.canBeTrue_iff hm
    unfold CanBeTrue at hiff
    rw [hiff]
    omega
  have hleft := hspec.left_test
  have hright := hspec.right_test
  generalize searchLeft checkInRange ⟨b, e⟩ = found at *
  simp only at hb he hleft hright
  rw [htest found.right (by omega)] at hright
  rw [← Bool.not_eq_true] at hleft
  have hleft' : found.left = b ∨ ¬(L < R ∧ L < found.left) := by
    refine (Nat.eq_zero_or_pos found.left).elim (fun h0 => Or.inl (by omega)) fun hpos => ?_
    rwa [htest found.left hpos] at hleft
  split_ifs <;> omega

/-- The right end, where the marks that match are an interval that was reached from the left. -/
theorem searchRight_eq (h : MatchesInterval checkInRange L R) {b e left : ℕ} (hL : L ≤ left) (hlt : left < e) :
    (searchRight checkInRange ⟨b, e⟩ left).right = max (left + 1) (min e R) := by
  have hspec := searchRight_spec checkInRange ⟨b, e⟩ left
  have hnext := hspec.neighbours hlt
  have hl := hspec.left_le
  have hr := hspec.right_le
  have htest : ∀ m, left ≤ m → m < e →
      ((checkInRange ⟨m, e⟩ .considerOnlyCanBeTrue).canBeTrue = true ↔ m < R) := by
    intro m hm hme
    have hiff := h.canBeTrue_iff hme
    unfold CanBeTrue at hiff
    rw [hiff]
    omega
  have hleft := hspec.left_test
  have hright := hspec.right_test
  generalize searchRight checkInRange ⟨b, e⟩ left = found at *
  simp only [Bool.not_eq_false', Bool.not_eq_true'] at hl hr hnext hleft hright
  rw [htest found.left hl (by omega)] at hleft
  have hright' : found.right = e ∨ ¬found.right < R := by
    refine (Nat.eq_or_lt_of_le hr).imp id fun hre => ?_
    rw [← htest found.right (by omega) hre]
    rcases hright with heq | hfalse
    · omega
    · simp [hfalse]
  omega

/-- **The range that is found**, where the marks that match are an interval. -/
theorem resultRange_eq (h : MatchesInterval checkInRange L R) {b e : ℕ} (hne : b < e) :
    resultRange checkInRange ⟨b, e⟩ =
      if L < R ∧ L < e then ⟨max b L, max (max b L + 1) (min e R)⟩ else ⟨e, e⟩ := by
  unfold resultRange
  rw [searchLeft_eq h hne]
  by_cases hmatch : L < R ∧ L < e
  · simp only [if_pos hmatch]
    rw [searchRight_eq h (le_max_right b L) (max_lt hne hmatch.2)]
  · simp only [if_neg hmatch]
    have hright : (searchRight checkInRange ⟨b, e⟩ e).right = e := by
      unfold searchRight
      rw [Bisection.search, if_neg (Nat.lt_asymm (Nat.lt_succ_self e))]
    rw [hright]

/-- A mark is found if every range around it can be true, up to the end of the part range. -/
theorem resultRange_of_around {b e m : ℕ} (hbm : b ≤ m) (hme : m < e)
    (h : ∀ s : MarkRange, m ∈ s.marks → s.endMark ≤ e → CanBeTrue checkInRange s) :
    (resultRange checkInRange ⟨b, e⟩).beginMark ≤ m ∧ m < (resultRange checkInRange ⟨b, e⟩).endMark := by
  have hleft := searchLeft_spec checkInRange ⟨b, e⟩
  have hnext := hleft.neighbours (by dsimp only; omega)
  have hend := hleft.right_le
  dsimp only at hend
  have hbegin : (searchLeft checkInRange ⟨b, e⟩).left ≤ m := by
    by_contra hlt
    rcases hleft.left_test with heq | hfalse
    · exact hlt (heq.trans_le hbm)
    · have htrue := h ⟨0, (searchLeft checkInRange ⟨b, e⟩).left⟩
        (MarkRange.mem_marks.2 ⟨Nat.zero_le m, not_le.1 hlt⟩) (by dsimp only; omega)
      rw [htrue] at hfalse
      cases hfalse
  have hright := searchRight_spec checkInRange ⟨b, e⟩ (searchLeft checkInRange ⟨b, e⟩).left
  refine ⟨hbegin, ?_⟩
  by_contra hge
  rcases hright.right_test with heq | hfalse
  · exact hge (hme.trans_le heq.ge)
  · have htrue := h ⟨(resultRange checkInRange ⟨b, e⟩).endMark, e⟩ (MarkRange.mem_marks.2 ⟨not_lt.1 hge, hme⟩) le_rfl
    have hfalse' : (!(checkInRange ⟨(resultRange checkInRange ⟨b, e⟩).endMark, e⟩ .considerOnlyCanBeTrue).canBeTrue) = true :=
      hfalse
    rw [htrue] at hfalse'
    cases hfalse'

theorem resultRange_of_monotone (h : Monotone checkInRange) {b e m : ℕ} (hbm : b ≤ m) (hme : m < e)
    (hm : CanBeTrue checkInRange ⟨m, m + 1⟩) :
    (resultRange checkInRange ⟨b, e⟩).beginMark ≤ m ∧ m < (resultRange checkInRange ⟨b, e⟩).endMark := by
  refine resultRange_of_around hbm hme fun s hs _ => h ⟨m, m + 1⟩ s ?_ hm
  have hmem := MarkRange.mem_marks.1 hs
  exact ⟨hmem.1, Nat.lt_succ_self m, hmem.2⟩

/-! ## One range of the part -/

/-- The ranges that a range of the part adds to the ranges to read. -/
def found (checkInRange : MarkRange → BoolMask → BoolMask) (partRange : MarkRange) : MarkRanges :=
  let result := resultRange checkInRange partRange
  if result.beginMark < result.endMark then [result] else []

theorem searchPartRange_found {debug : Bool} {s s' : MarkRanges × Option MarkRanges}
    (h : searchPartRange checkInRange debug s partRange = .ok s') : s'.1 = s.1 ++ found checkInRange partRange := by
  unfold searchPartRange at h
  unfold found
  by_cases hlt : (resultRange checkInRange partRange).beginMark < (resultRange checkInRange partRange).endMark
  · simp only [if_pos hlt] at h ⊢
    split at h
    · cases h
      rfl
    · split at h
      · split at h
        · split at h
          · cases h
          · cases h
            rfl
        · cases h
          rfl
      · cases h
        rfl
  · simp only [if_neg hlt] at h ⊢
    cases h
    exact (List.append_nil _).symm

theorem exists_searchPartRange_release (checkInRange : MarkRange → BoolMask → BoolMask) (s : MarkRanges × Option MarkRanges)
    (partRange : MarkRange) : ∃ s', searchPartRange checkInRange false s partRange = .ok s' := by
  obtain ⟨res, exactRanges⟩ := s
  unfold searchPartRange
  dsimp only
  split
  · cases exactRanges with
    | none => exact ⟨_, rfl⟩
    | some exactRanges =>
      dsimp only
      split
      · split <;> exact ⟨_, rfl⟩
      · exact ⟨_, rfl⟩
  · exact ⟨_, rfl⟩

/-- **The branch in a release build**: the ranges to read are those of all ranges of the part, one after the other. -/
theorem exists_markRanges_release (checkInRange : MarkRange → BoolMask → BoolMask) (findExactRanges : Bool) (ranges : MarkRanges) :
    ∃ s, markRanges checkInRange false findExactRanges ranges = .ok s ∧ s.1 = ranges.flatMap (found checkInRange) := by
  unfold markRanges
  induction ranges using List.reverseRecOn with
  | nil => exact ⟨_, rfl, rfl⟩
  | append_singleton ranges partRange ih =>
    obtain ⟨s, hrun, hres⟩ := ih
    obtain ⟨s', hstep⟩ := exists_searchPartRange_release checkInRange s partRange
    refine ⟨s', ?_, ?_⟩
    · rw [List.foldlM_append, hrun]
      simp only [List.foldlM_cons, List.foldlM_nil, bind, Except.bind, hstep, pure, Except.pure]
    · rw [searchPartRange_found hstep, hres, List.flatMap_append, List.flatMap_singleton]

/-- A range of the part adds to the ranges to read what covers the marks with the property, or nothing
when there are none. -/
def Finds (checkInRange : MarkRange → BoolMask → BoolMask) (partRange : MarkRange) (P : ℕ → Prop) : Prop :=
  ∀ debug s s', searchPartRange checkInRange debug s partRange = .ok s' →
    ∃ res : MarkRanges, s'.1 = s.1 ++ res ∧ (∀ m, res.Covers m ↔ P m) ∧ ((∀ m, ¬P m) → res = [])

theorem finds_iff {P : ℕ → Prop} : Finds checkInRange partRange P ↔
    (∀ m, (found checkInRange partRange).Covers m ↔ P m) ∧ ((∀ m, ¬P m) → found checkInRange partRange = []) := by
  constructor
  · intro h
    obtain ⟨s', hs'⟩ := exists_searchPartRange_release checkInRange ([], none) partRange
    obtain ⟨res, hres, hcovers⟩ := h false _ s' hs'
    rw [searchPartRange_found hs', List.append_cancel_left_eq] at hres
    rwa [hres]
  · intro h debug s s' hs'
    exact ⟨_, searchPartRange_found hs', h⟩

/-- **The binary search on an interval.** In a range of the part it tests neither an empty range nor a
range beyond the end, and finds exactly the marks that match. -/
structure Searches (checkInRange : MarkRange → BoolMask → BoolMask) (partRange : MarkRange) (L R : ℕ) : Prop where
  tests : ∀ range ∈ searchTests checkInRange partRange ++ exactTests checkInRange (resultRange checkInRange partRange),
    range.beginMark < range.endMark ∧ range.endMark ≤ partRange.endMark
  finds : Finds checkInRange partRange fun m => m ∈ partRange.marks ∧ L ≤ m ∧ m < R

theorem searches_iff (hne : partRange.beginMark < partRange.endMark) (hLR : L ≤ R) (h : MatchesInterval checkInRange L R) :
    Searches checkInRange partRange L R ↔ ¬(L < R ∧ R ≤ partRange.beginMark) := by
  obtain ⟨b, e⟩ := partRange
  simp only at hne ⊢
  have hfinds : Searches checkInRange ⟨b, e⟩ L R ↔ Finds checkInRange ⟨b, e⟩ fun m => m ∈ MarkRange.marks ⟨b, e⟩ ∧ L ≤ m ∧ m < R :=
    ⟨fun hs => hs.finds, fun hs => ⟨tests_valid, hs⟩⟩
  have hfound : found checkInRange ⟨b, e⟩ =
      if L < R ∧ L < e then [⟨max b L, max (max b L + 1) (min e R)⟩] else [] := by
    unfold found
    rw [resultRange_eq h hne]
    by_cases hmatch : L < R ∧ L < e
    · simp only [if_pos hmatch]
      rw [if_pos (by omega)]
    · simp only [if_neg hmatch]
      rw [if_neg (lt_irrefl e)]
  rw [hfinds, finds_iff, hfound]
  simp only [MarkRange.mem_marks]
  by_cases hmatch : L < R ∧ L < e
  · simp only [if_pos hmatch, MarkRanges.covers_singleton]
    constructor
    · rintro ⟨hcovers, -⟩ ⟨-, hR⟩
      have hb := (hcovers (max b L)).1 ⟨le_rfl, by omega⟩
      omega
    · intro hno
      exact ⟨fun m => by omega, fun hnone => absurd (hnone (max b L)) (by omega)⟩
  · simp only [if_neg hmatch]
    refine iff_of_true ⟨fun m => ?_, fun _ => trivial⟩ (by omega)
    simp only [MarkRanges.Covers, List.not_mem_nil, false_and, exists_false, false_iff]
    omega

/-- **The binary search.** When the marks that match are those from `L` to `R`, a range of the part is
searched right unless it begins after all of them. When the test is only monotone, every mark that
can be true is found in any case. -/
theorem binarySearch_iff (hne : partRange.beginMark < partRange.endMark) :
    (∀ L R, L ≤ R → MatchesInterval checkInRange L R →
      (Searches checkInRange partRange L R ↔ ¬(L < R ∧ R ≤ partRange.beginMark))) ∧
    (Monotone checkInRange → ∀ debug s s', searchPartRange checkInRange debug s partRange = .ok s' →
      ∃ res : MarkRanges, s'.1 = s.1 ++ res ∧
        ∀ m ∈ partRange.marks, CanBeTrue checkInRange ⟨m, m + 1⟩ → res.Covers m) := by
  refine ⟨fun L R hLR h => searches_iff hne hLR h, fun h debug s s' hs' => ⟨_, searchPartRange_found hs', fun m hm htrue => ?_⟩⟩
  rw [MarkRange.mem_marks] at hm
  have hwithin := resultRange_of_monotone h hm.1 hm.2 htrue
  unfold found
  rw [if_pos (hwithin.1.trans_lt hwithin.2), MarkRanges.covers_singleton]
  exact hwithin

/-- The test that marks 3 and 4 can match. -/
def meetsThreeFour (range : MarkRange) (_ : BoolMask) : BoolMask :=
  ⟨range.beginMark < 5 && 3 < range.endMark, true⟩

theorem matchesInterval_meetsThreeFour : MatchesInterval meetsThreeFour 3 5 := by
  intro range hne
  unfold CanBeTrue meetsThreeFour
  rw [Bool.and_eq_true, decide_eq_true_eq, decide_eq_true_eq]
  constructor
  · rintro ⟨hb, he⟩
    exact ⟨max range.beginMark 3, by omega⟩
  · rintro ⟨m, hm⟩
    omega

/-- In the marks from 2 to 8. -/
theorem binarySearch_iff_meetsThreeFour : Searches meetsThreeFour ⟨2, 8⟩ 3 5 :=
  ((@binarySearch_iff meetsThreeFour ⟨2, 8⟩ (by decide)).1 3 5 (by decide)
    matchesInterval_meetsThreeFour).2 (by decide)

/-- **A range of the part after the matches**: mark 6 is found in the marks from 6 to 8, where 3 and 4 match. -/
theorem search_after_interval : MatchesInterval meetsThreeFour 3 5 ∧
    searchPartRange meetsThreeFour false ([], none) ⟨6, 8⟩ = .ok ([⟨6, 7⟩], none) ∧ ¬Searches meetsThreeFour ⟨6, 8⟩ 3 5 := by
  have hfound : searchPartRange meetsThreeFour false ([], none) ⟨6, 8⟩ = .ok ([⟨6, 7⟩], none) := by
    have heq := resultRange_eq matchesInterval_meetsThreeFour (show 6 < 8 by decide)
    unfold searchPartRange
    simp only [heq]
    rfl
  refine ⟨matchesInterval_meetsThreeFour, hfound, fun h => ?_⟩
  obtain ⟨res, hres, hcovers, -⟩ := h.finds false _ _ hfound
  simp only [List.nil_append] at hres
  have hmark := (hcovers 6).1 (by rw [← hres]; exact ⟨⟨6, 7⟩, by simp⟩)
  omega

end BinarySearch

end MergeTree
