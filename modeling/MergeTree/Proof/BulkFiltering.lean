import MergeTree.Proof.SkipIndexes
import MergeTree.Spec.BulkFiltering

/-!
# The two paths of a skip index

Both paths collect the same ranges: those of the accepted index marks, cut to the range they
are read for (`keptRanges`). In bulk this is because the cursor stands at the first accepted
position that was not passed yet; granule by granule because a granule that is not read
again is the one of the index mark (`GranuleState.Kept`).

The accepted index marks cover what they should when the last index mark of every range is
computed right. Near the end of `size_t` it is not, and then the last mark of the range is lost
(`filterMarks_iff`).
-/

namespace MergeTree

section Paths

variable {A Granule : Type} {minMarksForSeek g n : ℕ} {read : ℕ → Granule} {accept : Granule → Bool}
  {range : MarkRange} {ranges res : MarkRanges}

/-- The ranges that are added for one range: those of its accepted index marks. -/
def MarkRange.keptRanges (g : ℕ) (ok : ℕ → Bool) (range : MarkRange) : MarkRanges :=
  ((range.indexMarks g).filter ok).map (range.dataRange g)

/-! ## In bulk -/

theorem acceptedFrom_append (ok : A → Bool) (xs ys : List A) (n : ℕ) :
    acceptedFrom ok n (xs ++ ys) = acceptedFrom ok n xs ++ acceptedFrom ok (n + xs.length) ys := by
  induction xs generalizing n with
  | nil => rfl
  | cons x xs ih =>
    simp only [List.cons_append, acceptedFrom, ih, List.length_cons, Nat.add_right_comm n 1, ← Nat.add_assoc]
    split <;> rfl

theorem acceptedFrom_map {B : Type} (f : B → A) (ok : A → Bool) (xs : List B) (n : ℕ) :
    acceptedFrom ok n (xs.map f) = acceptedFrom (fun x => ok (f x)) n xs := by
  induction xs generalizing n with
  | nil => rfl
  | cons x xs ih => simp only [List.map_cons, acceptedFrom, ih]

theorem le_of_mem_acceptedFrom {ok : A → Bool} {xs : List A} {p : ℕ} (h : p ∈ acceptedFrom ok n xs) : n ≤ p := by
  induction xs generalizing n with
  | nil => cases h
  | cons x xs ih =>
    unfold acceptedFrom at h
    split at h
    · rcases List.mem_cons.1 h with rfl | h
      · exact le_rfl
      · exact (Nat.le_succ n).trans (ih h)
    · exact (Nat.le_succ n).trans (ih h)

theorem filter_eq_nil_of_acceptedFrom {ok : A → Bool} {xs : List A} (h : acceptedFrom ok n xs = []) : xs.filter ok = [] := by
  induction xs generalizing n with
  | nil => rfl
  | cons x xs ih =>
    unfold acceptedFrom at h
    split at h
    · cases h
    · rename_i hx
      rw [List.filter_cons_of_neg hx, ih h]

/-- **The index marks of a range in the second walk**: by induction on them, with the cursor at the
first accepted position that was not passed. -/
theorem bulkRange_eq {ok : ℕ → Bool} (range : MarkRange) (later : List ℕ) :
    ∀ {marks : List ℕ} {res : MarkRanges} {n : ℕ}, acceptedFrom ok n (marks ++ later) ≠ [] →
      let st := bulkRange minMarksForSeek g range marks ⟨res, acceptedFrom ok n (marks ++ later), n⟩
      st.res = ((marks.filter ok).map (range.dataRange g)).foldl (MarkRanges.pushRange minMarksForSeek) res ∧
        st.it = acceptedFrom ok (n + marks.length) later ∧ (st.it ≠ [] → st.currentGranuleNum = n + marks.length) := by
  intro marks
  induction marks with
  | nil => exact fun _ => ⟨rfl, rfl, fun _ => rfl⟩
  | cons indexMark marks ih =>
    intro res n hleft
    have hnext : n + (indexMark :: marks).length = n + 1 + marks.length := by
      rw [List.length_cons]
      omega
    rw [hnext]
    cases hok : ok indexMark with
    | true =>
      have hhead : acceptedFrom ok n (indexMark :: marks ++ later) = n :: acceptedFrom ok (n + 1) (marks ++ later) := by
        simp [acceptedFrom, hok]
      rw [hhead, List.filter_cons_of_pos hok, List.map_cons, List.foldl_cons]
      unfold bulkRange
      by_cases hdone : acceptedFrom ok (n + 1) (marks ++ later) = []
      · -- the cursor is at the end: nothing is accepted any more
        have hboth := hdone
        rw [acceptedFrom_append, List.append_eq_nil_iff] at hboth
        simp [hdone, hboth.2, filter_eq_nil_of_acceptedFrom hboth.1]
      · have hmore : (acceptedFrom ok (n + 1) (marks ++ later)).isEmpty = false := by simpa using hdone
        simp only [if_true, hmore, Bool.false_eq_true, if_false]
        exact ih hdone
    | false =>
      have hskip : acceptedFrom ok n (indexMark :: marks ++ later) = acceptedFrom ok (n + 1) (marks ++ later) := by
        simp [acceptedFrom, hok]
      rw [hskip] at hleft ⊢
      obtain ⟨position, rest, hit⟩ := List.exists_cons_of_ne_nil hleft
      have hle : n + 1 ≤ position := le_of_mem_acceptedFrom (hit ▸ List.mem_cons_self)
      have h := @ih res _ hleft
      rw [hit] at h ⊢
      rw [List.filter_cons_of_neg (by rw [hok]; exact Bool.false_ne_true)]
      unfold bulkRange
      simp only [if_neg (show ¬n = position by omega)]
      exact h

theorem bulkRanges_eq {ok : ℕ → Bool} : ∀ {ranges : MarkRanges} {res : MarkRanges} {n : ℕ},
    acceptedFrom ok n (ranges.flatMap fun range => range.indexMarks g) ≠ [] →
      (bulkRanges minMarksForSeek g ranges ⟨res, acceptedFrom ok n (ranges.flatMap fun range => range.indexMarks g), n⟩).res =
        (ranges.flatMap (MarkRange.keptRanges g ok)).foldl (MarkRanges.pushRange minMarksForSeek) res := by
  intro ranges
  induction ranges with
  | nil => exact fun _ => rfl
  | cons range ranges ih =>
    intro res n hleft
    rw [List.flatMap_cons] at hleft
    obtain ⟨hres, hit, hnum⟩ := @bulkRange_eq minMarksForSeek g ok range _ _ res n hleft
    rw [List.flatMap_cons, List.flatMap_cons, List.foldl_append]
    unfold bulkRanges
    generalize bulkRange minMarksForSeek g range (range.indexMarks g) _ = st at *
    obtain ⟨res', it', n'⟩ := st
    simp only at hres hit hnum
    subst hres hit
    by_cases hdone : acceptedFrom ok (n + (range.indexMarks g).length) (ranges.flatMap fun range => range.indexMarks g) = []
    · have hnone : ranges.flatMap (MarkRange.keptRanges g ok) = [] := by
        have hfilter := filter_eq_nil_of_acceptedFrom hdone
        rw [List.filter_flatMap, List.flatMap_eq_nil_iff] at hfilter
        exact List.flatMap_eq_nil_iff.2 fun r hr => by rw [MarkRange.keptRanges, hfilter r hr, List.map_nil]
      simp only [hdone, List.isEmpty_nil, if_true, hnone, List.foldl_nil]
      rfl
    · have hmore : (acceptedFrom ok (n + (range.indexMarks g).length)
          (ranges.flatMap fun range => range.indexMarks g)).isEmpty = false := by simpa using hdone
      rw [hnum hdone]
      simp only [hmore, Bool.false_eq_true, if_false]
      exact ih hdone

/-- **The bulk path** collects the ranges of the accepted index marks. -/
theorem filterMarksInBulk_eq (ranges : MarkRanges) : filterMarksInBulk minMarksForSeek g read accept ranges =
    (ranges.flatMap (MarkRange.keptRanges g fun i => accept (read i))).foldl (MarkRanges.pushRange minMarksForSeek) [] := by
  have hpositions : getPossibleGranules accept (ranges.flatMap fun range => (range.indexMarks g).map read) =
      acceptedFrom (fun i => accept (read i)) 0 (ranges.flatMap fun range => range.indexMarks g) := by
    rw [getPossibleGranules, ← List.map_flatMap, acceptedFrom_map]
  unfold filterMarksInBulk
  simp only [hpositions]
  by_cases hnone : acceptedFrom (fun i => accept (read i)) 0 (ranges.flatMap fun range => range.indexMarks g) = []
  · have hfilter := filter_eq_nil_of_acceptedFrom hnone
    rw [List.filter_flatMap, List.flatMap_eq_nil_iff] at hfilter
    have hkept : ranges.flatMap (MarkRange.keptRanges g fun i => accept (read i)) = [] :=
      List.flatMap_eq_nil_iff.2 fun r hr => by rw [MarkRange.keptRanges, hfilter r hr, List.map_nil]
    rw [hnone, hkept]
    rfl
  · have hsome : (acceptedFrom (fun i => accept (read i)) 0 (ranges.flatMap fun range => range.indexMarks g)).isEmpty = false := by
      simpa using hnone
    simp only [hsome, Bool.false_eq_true, if_false]
    exact bulkRanges_eq hnone

/-! ## Granule by granule -/

/-- The granule kept from the range before is accepted like the one of its last index mark. -/
def GranuleState.Kept (read : ℕ → Granule) (accept : Granule → Bool) (st : GranuleState Granule) : Prop :=
  ∀ granule, st.granule = some granule → accept granule = accept (read st.lastIndexMark)

theorem granuleMark_plain (st : GranuleState Granule) (i : ℕ) :
    granuleMark minMarksForSeek g read (fun granule => ([], accept granule)) range st i =
      .ok { st with
        granule := some (st.granuleAt read (range.indexRange g) i)
        filter := ⟨if accept (st.granuleAt read (range.indexRange g) i) then
            MarkRanges.pushRange minMarksForSeek st.filter.res (range.dataRange g i)
          else st.filter.res, st.filter.partialResult⟩ } := rfl

theorem granuleMarks_rest : ∀ {n i : ℕ} {st : GranuleState Granule}, (range.indexRange g).beginMark < i →
    ∃ st', (List.range' i n).foldlM (granuleMark minMarksForSeek g read (fun granule => ([], accept granule)) range) st = .ok st' ∧
      st'.filter = ⟨(((List.range' i n).filter fun i => accept (read i)).map (range.dataRange g)).foldl
        (MarkRanges.pushRange minMarksForSeek) st.filter.res, st.filter.partialResult⟩ ∧
      st'.granule = if n = 0 then st.granule else some (read (i + n - 1)) := by
  intro n
  induction n with
  | zero => exact fun {i st} _ => ⟨st, rfl, rfl, rfl⟩
  | succ n ih =>
    intro i st hi
    have hread : st.granuleAt read (range.indexRange g) i = read i :=
      GranuleState.granuleAt_eq fun hfirst => absurd hfirst (Nat.ne_of_gt hi)
    rw [List.range'_succ, List.foldlM_cons, granuleMark_plain, hread]
    obtain ⟨st', hrun, hfilter, hgranule⟩ := @ih (i + 1) { st with
      granule := some (read i)
      filter := ⟨if accept (read i) then MarkRanges.pushRange minMarksForSeek st.filter.res (range.dataRange g i)
        else st.filter.res, st.filter.partialResult⟩ } (Nat.lt_succ_of_lt hi)
    refine ⟨st', hrun, hfilter.trans ?_, hgranule.trans ?_⟩
    · by_cases hok : accept (read i) = true <;> simp [hok]
    · rw [if_neg (Nat.succ_ne_zero n)]
      by_cases h0 : n = 0
      · rw [if_pos h0, h0]
        rfl
      · rw [if_neg h0]
        congr 2
        omega

/-- **One range, granule by granule.** The state that is left is right for the next range, if an index mark
was read at all. -/
theorem exists_granuleRange_plain {st : GranuleState Granule} (h : st.Kept read accept) (range : MarkRange) :
    ∃ st', granuleRange minMarksForSeek g read (fun granule => ([], accept granule)) st range = .ok st' ∧
      st'.filter = ⟨(range.keptRanges g fun i => accept (read i)).foldl (MarkRanges.pushRange minMarksForSeek) st.filter.res,
        st.filter.partialResult⟩ ∧
      (range.indexMarks g ≠ [] → st'.Kept read accept) := by
  unfold granuleRange MarkRange.keptRanges MarkRange.indexMarks
  dsimp only
  have hend : (range.indexRange g).endMark < 2 ^ 64 := by
    refine lt_of_le_of_lt (Nat.div_le_self _ _) ?_
    unfold subSize
    omega
  cases hn : (range.indexRange g).endMark - (range.indexRange g).beginMark with
  | zero => exact ⟨_, rfl, rfl, fun hne => absurd rfl hne⟩
  | succ n =>
    set first := (range.indexRange g).beginMark with hfirst
    -- the first granule may be the one of the range before
    have hfirstAccept : accept (st.granuleAt read (range.indexRange g) first) = accept (read first) := by
      unfold GranuleState.granuleAt
      split
      · rename_i granule hgranule
        split
        · rfl
        · rename_i hsame
          rw [not_or, not_not, not_not] at hsame
          rw [h granule hgranule, hsame.2]
      · rfl
    rw [List.range'_succ, List.foldlM_cons, granuleMark_plain]
    obtain ⟨st', hrun, hfilter, hgranule⟩ := @granuleMarks_rest Granule minMarksForSeek g read accept range n (first + 1)
      { st with
        granule := some (st.granuleAt read (range.indexRange g) first)
        filter := ⟨if accept (st.granuleAt read (range.indexRange g) first) then
            MarkRanges.pushRange minMarksForSeek st.filter.res (range.dataRange g first)
          else st.filter.res, st.filter.partialResult⟩ } (Nat.lt_succ_self first)
    refine ⟨{ st' with lastIndexMark := subSize (range.indexRange g).endMark 1 }, ?_, hfilter.trans ?_, fun _ granule hsome => ?_⟩
    · exact congrArg (· >>= fun st : GranuleState Granule =>
        Except.ok { st with lastIndexMark := subSize (range.indexRange g).endMark 1 }) hrun
    · rw [hfirstAccept]
      by_cases hok : accept (read first) = true <;> simp [hok]
    · have hlast : subSize (range.indexRange g).endMark 1 = first + n := by
        rw [subSize_of_le (by omega) hend]
        omega
      simp only at hsome
      rw [hgranule] at hsome
      simp only [hlast]
      by_cases h0 : n = 0
      · rw [if_pos h0] at hsome
        rw [h0, Nat.add_zero, ← Option.some.inj hsome]
        exact hfirstAccept
      · rw [if_neg h0] at hsome
        rw [← Option.some.inj hsome]
        congr 2
        omega

/-- **The granule path** collects the same ranges, where every range needs an index mark or the condition
accepts all granules or none. -/
theorem filterMarks_eq (part : PartMarks) (hread : (∀ range ∈ ranges, range.indexMarks g ≠ []) ∨ ∀ x y, accept x = accept y) :
    filterMarksUsingIndex part minMarksForSeek (plainIndex g read accept) ranges [] =
      .ok ((ranges.flatMap (MarkRange.keptRanges g fun i => accept (read i))).foldl (MarkRanges.pushRange minMarksForSeek) [], []) := by
  have hrun : ∀ {ranges : MarkRanges} {st : GranuleState Granule}, st.Kept read accept →
      ((∀ range ∈ ranges, range.indexMarks g ≠ []) ∨ ∀ x y, accept x = accept y) →
      ∃ st', ranges.foldlM (granuleRange minMarksForSeek g read (fun granule => ([], accept granule))) st = .ok st' ∧
        st'.filter = ⟨(ranges.flatMap (MarkRange.keptRanges g fun i => accept (read i))).foldl
          (MarkRanges.pushRange minMarksForSeek) st.filter.res, st.filter.partialResult⟩ := by
    intro ranges
    induction ranges with
    | nil => exact fun {st} _ _ => ⟨st, rfl, rfl⟩
    | cons range ranges ih =>
      intro st hkept hread
      obtain ⟨st₁, hstep, hfilter, hkept₁⟩ := exists_granuleRange_plain hkept range
      have hnext : st₁.Kept read accept :=
        hread.elim (fun hne => hkept₁ (hne range List.mem_cons_self)) fun hsame granule _ => hsame _ _
      obtain ⟨st', hrest, hfilter'⟩ := ih hnext (hread.imp (fun hne r hr => hne r (List.mem_cons_of_mem _ hr)) id)
      refine ⟨st', by rw [List.foldlM_cons, hstep]; exact hrest, hfilter'.trans ?_⟩
      rw [hfilter, List.flatMap_cons, List.foldl_append]
  obtain ⟨st', hok, hfilter⟩ := @hrun ranges { filter := { partialResult := [] } } (fun granule hnone => by cases hnone) hread
  unfold filterMarksUsingIndex plainIndex
  simp only [Bool.not_true, Bool.false_eq_true, if_false, hok]
  show Except.ok (st'.filter.res, st'.filter.partialResult) = _
  rw [hfilter]

/-! ## What the ranges cover -/

/-- The end of the last index mark of a range is computed right. -/
def MarkRange.FitsIndex (g : ℕ) (range : MarkRange) : Prop := range.endMark + g - 1 < 2 ^ 64

theorem MarkRange.mem_indexMarks {i : ℕ} (hg : 1 ≤ g) (hfits : range.FitsIndex g) (hne : range.beginMark < range.endMark) :
    i ∈ range.indexMarks g ↔ range.beginMark / g ≤ i ∧ i * g < range.endMark := by
  unfold FitsIndex at hfits
  have hend : subSize (addSize range.endMark g) 1 = range.endMark + g - 1 := by
    unfold subSize addSize
    omega
  have hceil : i < (range.endMark + g - 1) / g ↔ i * g < range.endMark := by
    rw [← Nat.succ_le_iff, Nat.le_div_iff_mul_le hg, Nat.succ_mul]
    omega
  unfold indexMarks indexRange
  dsimp only
  rw [List.mem_range'_1, hend, ← hceil]
  omega

theorem MarkRange.dataRange_eq {i : ℕ} (hg : 1 ≤ g) (hfits : range.FitsIndex g) (hi : i * g < range.endMark) :
    range.dataRange g i = ⟨max range.beginMark (i * g), min range.endMark ((i + 1) * g)⟩ := by
  unfold FitsIndex at hfits
  have hmul : (i + 1) * g < 2 ^ 64 := by
    rw [Nat.succ_mul]
    omega
  have hnext : i + 1 < 2 ^ 64 := lt_of_le_of_lt (Nat.le_mul_of_pos_right _ hg) hmul
  unfold dataRange
  rw [mulSize_of_lt (show i * g < 2 ^ 64 by omega), addSize_of_lt hnext, mulSize_of_lt hmul]

/-- The ranges that are added, as long as nothing wraps around: those of the accepted index marks, in order. -/
theorem MarkRange.keptRanges_spec {ok : ℕ → Bool} (hg : 1 ≤ g) (hfits : range.FitsIndex g)
    (hne : range.beginMark < range.endMark) :
    (∀ r ∈ range.keptRanges g ok, r.beginMark < r.endMark ∧ range.beginMark ≤ r.beginMark ∧ r.endMark ≤ range.endMark) ∧
      (range.keptRanges g ok).Pairwise (fun r s => r.endMark ≤ s.beginMark) ∧
      ∀ m, MarkRanges.Covers (range.keptRanges g ok) m ↔ range.beginMark ≤ m ∧ m < range.endMark ∧ ok (m / g) = true := by
  have hdata : ∀ i ∈ (range.indexMarks g).filter ok, i ∈ range.indexMarks g ∧
      range.dataRange g i = ⟨max range.beginMark (i * g), min range.endMark ((i + 1) * g)⟩ ∧
      range.beginMark < (i + 1) * g ∧ i * g < range.endMark := by
    intro i hi
    have hmem := List.mem_of_mem_filter hi
    obtain ⟨hbegin, hend⟩ := (mem_indexMarks hg hfits hne).1 hmem
    exact ⟨hmem, dataRange_eq hg hfits hend, (Nat.div_lt_iff_lt_mul hg).1 (Nat.lt_succ_of_le hbegin), hend⟩
  refine ⟨fun r hr => ?_, ?_, fun m => ?_⟩
  · obtain ⟨i, hi, rfl⟩ := List.mem_map.1 hr
    obtain ⟨-, heq, hbegin, hend⟩ := hdata i hi
    rw [Nat.succ_mul] at heq hbegin
    rw [heq]
    dsimp only
    omega
  · refine List.pairwise_map.2 ?_
    have hmarks : ((range.indexMarks g).filter ok).Pairwise (· < ·) := List.Pairwise.filter _ List.pairwise_lt_range'
    refine hmarks.imp_of_mem fun {i j} hi hj hij => ?_
    obtain ⟨-, heq, -, -⟩ := hdata i hi
    obtain ⟨-, heq', -, -⟩ := hdata j hj
    have hmul : (i + 1) * g ≤ j * g := Nat.mul_le_mul_right g hij
    rw [heq, heq']
    dsimp only
    omega
  · constructor
    · rintro ⟨r, hr, hge, hlt⟩
      obtain ⟨i, hi, rfl⟩ := List.mem_map.1 hr
      obtain ⟨-, heq, -, -⟩ := hdata i hi
      rw [heq] at hge hlt
      have hdiv : m / g = i :=
        Nat.div_eq_of_lt_le ((le_max_right _ _).trans hge) (hlt.trans_le (min_le_right _ _))
      rw [hdiv]
      exact ⟨(le_max_left _ _).trans hge, hlt.trans_le (min_le_left _ _), (List.mem_filter.1 hi).2⟩
    · rintro ⟨hge, hlt, hok⟩
      have hmul : m / g * g ≤ m := Nat.div_mul_le_self m g
      have hmem : m / g ∈ range.indexMarks g := (mem_indexMarks hg hfits hne).2 ⟨Nat.div_le_div_right hge, by omega⟩
      refine ⟨_, List.mem_map_of_mem (List.mem_filter.2 ⟨hmem, hok⟩), ?_⟩
      rw [dataRange_eq hg hfits (show m / g * g < range.endMark by omega)]
      have hnext : m < (m / g + 1) * g := (Nat.div_lt_iff_lt_mul hg).1 (Nat.lt_succ_self _)
      exact ⟨max_le hge hmul, lt_min hlt hnext⟩

namespace MarkRanges

theorem Sorted.unique (h : ranges.Sorted) {r s : MarkRange} (hr : r ∈ ranges) (hs : s ∈ ranges) {m : ℕ}
    (hbr : r.beginMark ≤ m) (her : m < r.endMark) (hbs : s.beginMark ≤ m) (hes : m < s.endMark) : r = s := by
  have hapart : ranges.Pairwise fun r s => (r.beginMark ≤ m ∧ m < r.endMark) → (s.beginMark ≤ m ∧ m < s.endMark) → r = s :=
    h.sorted.imp fun {r s} hle hmr hms => by omega
  have hflip := hapart.imp fun {r s} hrs (hs : s.beginMark ≤ m ∧ m < s.endMark) hr => (hrs hr hs).symm
  exact hapart.forall_of_forall_of_flip (fun _ _ _ _ => rfl) hflip hr hs ⟨hbr, her⟩ ⟨hbs, hes⟩

/-- Sorted ranges that are pushed one by one are covered; without gaps nothing else is. -/
theorem Found.foldl_pushRange : ∀ {added : MarkRanges} {bound : ℕ} {res : MarkRanges}, Found bound res →
    (∀ r ∈ added, r.beginMark < r.endMark ∧ bound ≤ r.beginMark ∧ r.endMark < 2 ^ 64) →
    added.Pairwise (fun r s => r.endMark ≤ s.beginMark) →
    (added.foldl (MarkRanges.pushRange minMarksForSeek) res).SortedDisjoint ∧
      (∀ m, res.Covers m ∨ added.Covers m → (added.foldl (MarkRanges.pushRange minMarksForSeek) res).Covers m) ∧
      (minMarksForSeek = 0 → ∀ m, (added.foldl (MarkRanges.pushRange minMarksForSeek) res).Covers m → res.Covers m ∨ added.Covers m) := by
  intro added
  induction added with
  | nil =>
    intro bound res h _ _
    refine ⟨h.sortedDisjoint, fun m hm => hm.elim id ?_, fun _ m hm => Or.inl hm⟩
    rintro ⟨r, hr, -⟩
    cases hr
  | cons range added ih =>
    intro bound res h hadded hsorted
    obtain ⟨hne, hbound, hlt⟩ := hadded range List.mem_cons_self
    obtain ⟨hafter, hsorted'⟩ := List.pairwise_cons.1 hsorted
    obtain ⟨hfound, hkeeps, honly⟩ := h.pushRange hbound hne (hne.trans hlt) minMarksForSeek
    obtain ⟨hsd, hkeeps', honly'⟩ := ih hfound
      (fun r hr => ⟨(hadded r (List.mem_cons_of_mem _ hr)).1, hafter r hr, (hadded r (List.mem_cons_of_mem _ hr)).2.2⟩) hsorted'
    have hcons : ∀ m, MarkRanges.Covers (range :: added) m ↔
        (range.beginMark ≤ m ∧ m < range.endMark) ∨ MarkRanges.Covers added m := by
      intro m
      rw [← List.singleton_append, covers_append, covers_singleton]
    refine ⟨hsd, fun m hm => hkeeps' m ?_, fun hzero m hm => ?_⟩
    · rw [hcons, ← or_assoc] at hm
      exact hm.imp_left (hkeeps m)
    · rw [hcons, ← or_assoc]
      exact (honly' hzero m hm).imp_left (honly hzero m)

theorem covers_foldl_pushRange {m : ℕ} : ∀ {added res : MarkRanges},
    (∀ r ∈ res ++ added, r.beginMark < 2 ^ 64 ∧ r.endMark < 2 ^ 64) →
      (added.foldl (pushRange 0) res).Covers m → res.Covers m ∨ added.Covers m := by
  intro added
  induction added with
  | nil => exact fun _ hm => Or.inl hm
  | cons range added ih =>
    intro res hsize hm
    have hrange := hsize range (by simp)
    have hpush : (pushRange 0 res range).Covers m → res.Covers m ∨ (range.beginMark ≤ m ∧ m < range.endMark) := by
      rcases List.eq_nil_or_concat' res with rfl | ⟨init, back, rfl⟩
      · exact fun h => Or.inr (covers_singleton.1 h)
      · have hback := hsize back (by simp)
        unfold pushRange
        rw [List.getLast?_append_cons, List.getLast?_singleton, List.dropLast_concat]
        dsimp only
        split
        · rw [covers_append, covers_singleton]
          exact id
        · rename_i hgap
          have hmeet : range.beginMark = back.endMark := by
            unfold subSize at hgap
            omega
          rw [covers_append, covers_append, covers_singleton, covers_singleton, or_assoc]
          refine Or.imp_right fun h => ?_
          dsimp only at h
          omega
    have hsize' : ∀ r ∈ pushRange 0 res range ++ added, r.beginMark < 2 ^ 64 ∧ r.endMark < 2 ^ 64 := by
      intro r hr
      rcases List.mem_append.1 hr with hr | hr
      · rcases List.eq_nil_or_concat' res with rfl | ⟨init, back, rfl⟩
        · rw [List.mem_singleton.1 hr]
          exact hrange
        · have hback := hsize back (by simp)
          unfold pushRange at hr
          rw [List.getLast?_append_cons, List.getLast?_singleton, List.dropLast_concat] at hr
          dsimp only at hr
          split at hr
          · exact hsize r (by simp at hr ⊢; tauto)
          · rcases List.mem_append.1 hr with hr | hr
            · exact hsize r (by simp [hr])
            · rw [List.mem_singleton.1 hr]
              exact ⟨hback.1, hrange.2⟩
      · exact hsize r (by simp [hr])
    rw [← List.singleton_append, covers_append, covers_singleton, ← or_assoc]
    exact (ih hsize' hm).imp_left hpush

end MarkRanges

/-! ## Both paths -/

/-- **What filtering by a skip index must leave**: sorted disjoint ranges with every mark whose index
granule is accepted and, when no gap is read over, no other mark. -/
structure Filtered (g minMarksForSeek : ℕ) (ranges : MarkRanges) (ok : ℕ → Bool) (res : MarkRanges) : Prop where
  sortedDisjoint : res.SortedDisjoint
  keeps : ∀ m, ranges.Covers m → ok (m / g) = true → res.Covers m
  only : minMarksForSeek = 0 → ∀ m, res.Covers m → ranges.Covers m ∧ ok (m / g) = true

/-- Both paths return the same ranges, and those are right: for any granules accepted, and any gaps read over. -/
def FiltersRight (g : ℕ) (read : ℕ → Granule) (ranges : MarkRanges) : Prop :=
  ∀ (part : PartMarks) (minMarksForSeek : ℕ) (accept : Granule → Bool),
    ∃ res, filterMarksInBulk minMarksForSeek g read accept ranges = res ∧
      filterMarksUsingIndex part minMarksForSeek (plainIndex g read accept) ranges [] = .ok (res, []) ∧
      Filtered g minMarksForSeek ranges (fun i => accept (read i)) res

theorem covers_flatMap {f : MarkRange → MarkRanges} {m : ℕ} :
    MarkRanges.Covers (ranges.flatMap f) m ↔ ∃ range ∈ ranges, (f range).Covers m := by
  unfold MarkRanges.Covers
  constructor
  · rintro ⟨r, hr, hm⟩
    obtain ⟨range, hrange, hr⟩ := List.mem_flatMap.1 hr
    exact ⟨range, hrange, r, hr, hm⟩
  · rintro ⟨range, hrange, r, hr, hm⟩
    exact ⟨r, List.mem_flatMap.2 ⟨range, hrange, hr⟩, hm⟩

theorem filtered_keptRanges (hsorted : ranges.Sorted) (hsize : ∀ range ∈ ranges, range.endMark < 2 ^ 64) (hg : 1 ≤ g)
    (hfits : ∀ range ∈ ranges, range.FitsIndex g) (ok : ℕ → Bool) (minMarksForSeek : ℕ) :
    Filtered g minMarksForSeek ranges ok
      ((ranges.flatMap (MarkRange.keptRanges g ok)).foldl (MarkRanges.pushRange minMarksForSeek) []) := by
  have hspec := fun range hrange =>
    @MarkRange.keptRanges_spec g range ok hg (hfits range hrange) (hsorted.nonempty range hrange)
  have hcovers : ∀ m, MarkRanges.Covers (ranges.flatMap (MarkRange.keptRanges g ok)) m ↔ ranges.Covers m ∧ ok (m / g) = true := by
    intro m
    rw [covers_flatMap]
    constructor
    · rintro ⟨range, hrange, hm⟩
      obtain ⟨hge, hlt, hok⟩ := ((hspec range hrange).2.2 m).1 hm
      exact ⟨⟨range, hrange, hge, hlt⟩, hok⟩
    · rintro ⟨⟨range, hrange, hge, hlt⟩, hok⟩
      exact ⟨range, hrange, ((hspec range hrange).2.2 m).2 ⟨hge, hlt, hok⟩⟩
  have hnothing : ∀ m, ¬MarkRanges.Covers [] m := fun m ⟨_, hr, _⟩ => List.not_mem_nil hr
  have hstart : MarkRanges.Found 0 [] := ⟨nofun, .nil, nofun⟩
  obtain ⟨hsd, hkeeps, honly⟩ := @MarkRanges.Found.foldl_pushRange minMarksForSeek _ 0 [] hstart
    (fun r hr => by
      obtain ⟨range, hrange, hr⟩ := List.mem_flatMap.1 hr
      obtain ⟨hne, -, hend⟩ := (hspec range hrange).1 r hr
      exact ⟨hne, Nat.zero_le _, hend.trans_lt (hsize range hrange)⟩)
    (List.pairwise_flatMap.2 ⟨fun range hrange => (hspec range hrange).2.1,
      hsorted.sorted.imp_of_mem fun {range range'} hrange hrange' hle r hr s hs =>
        (((hspec range hrange).1 r hr).2.2.trans hle).trans ((hspec range' hrange').1 s hs).2.1⟩)
  refine ⟨hsd, fun m hm hok => hkeeps m (Or.inr ((hcovers m).2 ⟨hm, hok⟩)), fun hzero m hm => ?_⟩
  exact (hcovers m).1 ((honly hzero m hm).resolve_left (hnothing m))

/-- Where the end of the last index mark wraps around, no range that is added covers the last mark. -/
theorem not_covers_last (hg : 1 ≤ g) (hg' : g < 2 ^ 64) (hsize : range.endMark < 2 ^ 64)
    (hwrap : ¬range.FitsIndex g) (ok : ℕ → Bool) : ¬MarkRanges.Covers (range.keptRanges g ok) (range.endMark - 1) := by
  rintro ⟨r, hr, -, hlt⟩
  obtain ⟨i, hi, rfl⟩ := List.mem_map.1 hr
  have hmem := List.mem_of_mem_filter hi
  unfold MarkRange.FitsIndex at hwrap
  have hend : subSize (addSize range.endMark g) 1 = range.endMark + g - 1 - 2 ^ 64 := by
    unfold subSize addSize
    omega
  unfold MarkRange.indexMarks MarkRange.indexRange at hmem
  dsimp only at hmem
  rw [List.mem_range'_1, hend] at hmem
  have hlt' : i < (range.endMark + g - 1 - 2 ^ 64) / g := by omega
  have hmul : (i + 1) * g ≤ range.endMark + g - 1 - 2 ^ 64 := (Nat.le_div_iff_mul_le hg).1 hlt'
  have hnext : i + 1 ≤ (i + 1) * g := Nat.le_mul_of_pos_right _ hg
  unfold MarkRange.dataRange at hlt
  dsimp only at hlt
  rw [addSize_of_lt (show i + 1 < 2 ^ 64 by omega), mulSize_of_lt (show (i + 1) * g < 2 ^ 64 by omega)] at hlt
  omega

theorem dataRange_within (ok : ℕ → Bool) {r : MarkRange} (hr : r ∈ range.keptRanges g ok) :
    range.beginMark ≤ r.beginMark ∧ r.endMark ≤ range.endMark ∧
      (range.beginMark < 2 ^ 64 → r.beginMark < 2 ^ 64) := by
  obtain ⟨i, -, rfl⟩ := List.mem_map.1 hr
  refine ⟨le_max_left _ _, min_le_left _ _, fun hbegin => max_lt hbegin ?_⟩
  exact Nat.mod_lt _ (by norm_num)

/-- **Filtering by a skip index.** For sorted disjoint ranges, both paths return the same ranges, and those
are right for any granules accepted and any gaps read over, exactly when the end of the last index mark of
every range is computed right. -/
theorem filterMarks_iff (hsorted : ranges.Sorted) (hsize : ∀ range ∈ ranges, range.endMark < 2 ^ 64) (hg : 1 ≤ g)
    (hg' : g < 2 ^ 64) : FiltersRight g read ranges ↔ ∀ range ∈ ranges, range.endMark + g - 1 < 2 ^ 64 := by
  constructor
  · intro h range hrange
    by_contra hwrap
    obtain ⟨res, hbulk, -, hfiltered⟩ := h ⟨0, id, by norm_num⟩ 0 fun _ => true
    have hne := hsorted.nonempty range hrange
    have hcovers := hfiltered.keeps (range.endMark - 1) ⟨range, hrange, by omega, by omega⟩ rfl
    rw [← hbulk, filterMarksInBulk_eq] at hcovers
    have hadded := MarkRanges.covers_foldl_pushRange (fun r hr => by
      obtain ⟨range', hrange', hr⟩ := List.mem_flatMap.1 hr
      have hwithin := dataRange_within _ hr
      have hend := hsize range' hrange'
      have hbegin := hsorted.nonempty range' hrange'
      exact ⟨hwithin.2.2 (hbegin.trans hend), hwithin.2.1.trans_lt hend⟩) hcovers
    rcases hadded with ⟨r, hr, -⟩ | hadded
    · cases hr
    · obtain ⟨range', hrange', r, hr, hge, hlt⟩ := covers_flatMap.1 hadded
      have hwithin := dataRange_within _ hr
      -- the ranges are disjoint, so the mark would be covered by the range itself
      obtain rfl : range' = range :=
        hsorted.unique hrange' hrange (hwithin.1.trans hge) (hlt.trans_le hwithin.2.1) (by omega) (by omega)
      exact not_covers_last hg hg' (hsize _ hrange) hwrap _ ⟨r, hr, hge, hlt⟩
  · intro hfits part minMarksForSeek accept
    refine ⟨_, rfl, ?_, ?_⟩
    · rw [filterMarksInBulk_eq]
      refine filterMarks_eq part (Or.inl fun range hrange hnone => ?_)
      have hne := hsorted.nonempty range hrange
      have hmul := Nat.div_mul_le_self range.beginMark g
      have hfirst := (@MarkRange.mem_indexMarks g range (range.beginMark / g) hg (hfits range hrange) hne).2
        ⟨le_rfl, by omega⟩
      rw [hnone] at hfirst
      exact List.not_mem_nil hfirst
    · rw [filterMarksInBulk_eq]
      exact filtered_keptRanges hsorted hsize hg hfits _ minMarksForSeek

/-- Two marks a granule. -/
theorem filterMarks_iff_twoMarks : FiltersRight 2 (id : ℕ → ℕ) [⟨1, 3⟩, ⟨3, 6⟩] := by
  have hsorted : MarkRanges.Sorted [⟨1, 3⟩, ⟨3, 6⟩] := ⟨by decide, by decide⟩
  exact (filterMarks_iff hsorted (by decide) (by decide) (by decide)).2 (by decide)

/-- **A granularity near the end of `size_t`**: the marks 0 and 1 are lost although every granule is accepted. -/
theorem filterMarks_loses_marks :
    filterMarksInBulk 0 (2 ^ 64 - 1) (id : ℕ → ℕ) (fun _ => true) [⟨0, 2⟩] = [] ∧
      filterMarksUsingIndex ⟨2, id, by norm_num⟩ 0 (plainIndex (2 ^ 64 - 1) (id : ℕ → ℕ) fun _ => true) [⟨0, 2⟩] [] = .ok ([], []) ∧
      ¬FiltersRight (2 ^ 64 - 1) (id : ℕ → ℕ) [⟨0, 2⟩] := by
  refine ⟨by decide +kernel, rfl, fun h => ?_⟩
  obtain ⟨res, hbulk, -, hfiltered⟩ := h ⟨2, id, by norm_num⟩ 0 fun _ => true
  have hnone : filterMarksInBulk 0 (2 ^ 64 - 1) (id : ℕ → ℕ) (fun _ => true) [⟨0, 2⟩] = [] := by decide +kernel
  rw [hnone] at hbulk
  obtain ⟨r, hr, -⟩ := hfiltered.keeps 0 ⟨⟨0, 2⟩, by simp, by decide, by decide⟩ rfl
  rw [← hbulk] at hr
  exact List.not_mem_nil hr

end Paths

end MergeTree
