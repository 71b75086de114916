import Mathlib

/-!
# Sorting by several keys, one after another

A list of rows is sorted by several keys by sorting it by the first key, then every range of
equal rows by the second one, and so on. A range is a range of positions.

* `equalRanges` splits a range into its runs of equal values (`Runs`).
* `sortRanges` sorts the rows of each range by a key and splits the ranges by it (`Refines`).
* `Sorted.refines`: what is sorted by some keys, with the ranges of rows equal in them, is sorted
  by one more key after a step.
-/

/-- A range of positions. -/
structure EqualRange where
  start : ℕ
  stop : ℕ
deriving DecidableEq, Repr

namespace EqualRange

variable {K V : Type*}

/-- The number of positions. -/
def size (r : EqualRange) : ℕ := r.stop - r.start

/-- The position is in the range. -/
def Has (r : EqualRange) (i : ℕ) : Prop := r.start ≤ i ∧ i < r.stop

instance (r : EqualRange) (i : ℕ) : Decidable (r.Has i) := inferInstanceAs (Decidable (_ ∧ _))

/-! ## Runs of equal values -/

/-- The first position from `j` on without `same`, or the end; as many steps as `fuel`. -/
def runEnd (same : ℕ → Bool) (stop : ℕ) : ℕ → ℕ → ℕ
  | 0, j => j
  | fuel + 1, j => if j < stop ∧ same j = true then runEnd same stop fuel (j + 1) else j

/-- The runs of positions that are the `same` as their first one. -/
def equalRanges (same : ℕ → ℕ → Bool) (stop : ℕ) : ℕ → ℕ → List EqualRange
  | 0, _ => []
  | fuel + 1, i =>
    if i < stop then
      let j := runEnd (same i) stop (stop - i) i
      ⟨i, j⟩ :: equalRanges same stop fuel j
    else []

/-- The ranges are the runs of equal values of `k` from `i` to `stop`. -/
def Runs (k : ℕ → K) (stop : ℕ) : ℕ → List EqualRange → Prop
  | i, [] => stop ≤ i
  | i, r :: rs => r.start = i ∧ i < r.stop ∧ r.stop ≤ stop ∧ (∀ j, r.Has j → k j = k i) ∧
      (r.stop < stop → k r.stop ≠ k i) ∧ Runs k stop r.stop rs

theorem runEnd_spec {same : ℕ → Bool} {stop : ℕ} : ∀ {fuel j : ℕ}, stop - j ≤ fuel → j ≤ stop →
    j ≤ runEnd same stop fuel j ∧ runEnd same stop fuel j ≤ stop ∧
      (∀ i, j ≤ i → i < runEnd same stop fuel j → same i = true) ∧
      (runEnd same stop fuel j < stop → ¬same (runEnd same stop fuel j) = true) := by
  intro fuel
  induction fuel with
  | zero =>
    intro j hfuel hj
    refine ⟨Nat.le_refl j, hj, fun i hi hlt => ?_, fun hlt => ?_⟩
    · exact absurd (Nat.lt_of_le_of_lt hi hlt) (Nat.lt_irrefl j)
    · change j < stop at hlt
      omega
  | succ fuel ih =>
    intro j hfuel hj
    rw [runEnd]
    split
    · next hgo =>
      obtain ⟨hle, hstop, hall, hend⟩ := ih (j := j + 1) (by omega) hgo.1
      refine ⟨by omega, hstop, fun i hi hlt => ?_, hend⟩
      rcases Nat.eq_or_lt_of_le hi with rfl | hlt'
      · exact hgo.2
      · exact hall i hlt' hlt
    · next hgo =>
      refine ⟨Nat.le_refl j, hj, fun i hi hlt => ?_, fun hlt hsame => hgo ⟨hlt, hsame⟩⟩
      exact absurd (Nat.lt_of_le_of_lt hi hlt) (Nat.lt_irrefl j)

variable {k : ℕ → K} {stop i : ℕ} {rs : List EqualRange} {r : EqualRange}

/-- **The runs are found.** -/
theorem equalRanges_runs {same : ℕ → ℕ → Bool} (hsame : ∀ i j, same i j = true ↔ k j = k i) :
    ∀ {fuel i : ℕ}, stop - i ≤ fuel → Runs k stop i (equalRanges same stop fuel i) := by
  intro fuel
  induction fuel with
  | zero =>
    intro i hfuel
    exact Nat.le_of_sub_eq_zero (Nat.le_zero.1 hfuel)
  | succ fuel ih =>
    intro i hfuel
    rw [equalRanges]
    split
    · next hi =>
      obtain ⟨hle, hstop, hall, hend⟩ := @runEnd_spec (same i) _ _ _ (Nat.le_refl (stop - i)) hi.le
      -- the first position is the same as itself, so that the run is not empty
      have hpos : i < runEnd (same i) stop (stop - i) i := by
        by_contra hnot
        have heq : runEnd (same i) stop (stop - i) i = i := by omega
        rw [heq] at hend
        exact hend hi ((hsame i i).2 rfl)
      have hrest : stop - runEnd (same i) stop (stop - i) i ≤ fuel := by omega
      refine ⟨rfl, hpos, hstop, fun j hj => (hsame i j).1 (hall j hj.1 hj.2), fun hlt heq => ?_, ih hrest⟩
      exact hend hlt ((hsame _ _).2 heq)
    · next hi => exact Nat.le_of_not_lt hi

theorem Runs.within (h : Runs k stop i rs) (hr : r ∈ rs) : i ≤ r.start ∧ r.start < r.stop ∧ r.stop ≤ stop := by
  induction rs generalizing i with
  | nil => exact absurd hr List.not_mem_nil
  | cons r' rs ih =>
    obtain ⟨hstart, hlt, hstop, -, -, hrest⟩ := h
    rcases List.mem_cons.1 hr with rfl | hr
    · exact ⟨hstart.ge, by omega, hstop⟩
    · obtain ⟨hle, hrange⟩ := ih hrest hr
      exact ⟨by omega, hrange⟩

theorem Runs.pairwise (h : Runs k stop i rs) : rs.Pairwise fun r r' => r.stop ≤ r'.start := by
  induction rs generalizing i with
  | nil => exact List.Pairwise.nil
  | cons r rs ih =>
    obtain ⟨-, -, -, -, -, hrest⟩ := h
    exact List.Pairwise.cons (fun r' hr' => (hrest.within hr').1) (ih hrest)

theorem Runs.exists_has (h : Runs k stop i rs) {j : ℕ} (hij : i ≤ j) (hj : j < stop) : ∃ r ∈ rs, r.Has j := by
  induction rs generalizing i with
  | nil =>
    have hle : stop ≤ i := h
    omega
  | cons r rs ih =>
    obtain ⟨hstart, -, -, -, -, hrest⟩ := h
    rcases Nat.lt_or_ge j r.stop with hlt | hge
    · exact ⟨r, List.mem_cons_self, by omega, hlt⟩
    · obtain ⟨r', hr', hhas⟩ := ih hrest hge
      exact ⟨r', List.mem_cons_of_mem r hr', hhas⟩

theorem Runs.key_eq (h : Runs k stop i rs) (hr : r ∈ rs) {a b : ℕ} (ha : r.Has a) (hb : r.Has b) : k a = k b := by
  induction rs generalizing i with
  | nil => exact absurd hr List.not_mem_nil
  | cons r' rs ih =>
    obtain ⟨-, -, -, hall, -, hrest⟩ := h
    rcases List.mem_cons.1 hr with rfl | hr
    · exact (hall a ha).trans (hall b hb).symm
    · exact ih hrest hr

theorem Runs.key_stop_ne (h : Runs k stop i rs) (hr : r ∈ rs) (hstop : r.stop < stop) : k r.stop ≠ k r.start := by
  induction rs generalizing i with
  | nil => exact absurd hr List.not_mem_nil
  | cons r' rs ih =>
    obtain ⟨hstart, -, -, -, hend, hrest⟩ := h
    rcases List.mem_cons.1 hr with rfl | hr
    · rw [hstart]
      exact hend hstop
    · exact ih hrest hr

/-- Equal values stand next to each other. -/
def Contiguous (k : ℕ → K) (start stop : ℕ) : Prop :=
  ∀ a b c, start ≤ a → a ≤ b → b ≤ c → c < stop → k a = k c → k b = k a

/-- **Equal values are in one run**, when they stand next to each other. -/
theorem Runs.exists_has_of_eq (h : Runs k stop i rs) (hcontiguous : Contiguous k i stop) {a b : ℕ} (hia : i ≤ a) (hab : a ≤ b)
    (hb : b < stop) (heq : k a = k b) : ∃ r ∈ rs, r.Has a ∧ r.Has b := by
  obtain ⟨r, hr, ha⟩ := h.exists_has hia (Nat.lt_of_le_of_lt hab hb)
  refine ⟨r, hr, ha, Nat.le_trans ha.1 hab, ?_⟩
  by_contra hlt
  have hend : r.stop ≤ b := Nat.le_of_not_lt hlt
  have hmid := hcontiguous a r.stop b hia (Nat.le_of_lt ha.2) hend hb heq
  have hstart : r.Has r.start := ⟨Nat.le_refl _, Nat.lt_of_le_of_lt ha.1 ha.2⟩
  exact h.key_stop_ne hr (Nat.lt_of_le_of_lt hend hb) (hmid.trans (h.key_eq hr ha hstart))

/-- A run of equal values that cannot be made longer. -/
structure MaximalRun (k : ℕ → K) (stop : ℕ) (r : EqualRange) : Prop where
  nonempty : r.start < r.stop
  bound : r.stop ≤ stop
  key_eq : ∀ i j, r.Has i → r.Has j → k i = k j
  left : 0 < r.start → k (r.start - 1) ≠ k r.start
  right : r.stop < stop → k r.stop ≠ k r.start

theorem Runs.mem_of_maximalRun (h : Runs k stop 0 rs) (hr : MaximalRun k stop r) : r ∈ rs := by
  have hstart : r.Has r.start := ⟨Nat.le_refl _, hr.nonempty⟩
  obtain ⟨r', hr', hhas⟩ := h.exists_has (Nat.zero_le r.start) (Nat.lt_of_lt_of_le hr.nonempty hr.bound)
  obtain ⟨-, hlt', hstop'⟩ := h.within hr'
  have hfirst : r'.start = r.start := by
    by_contra hne
    have hbefore : r'.start < r.start := lt_of_le_of_ne hhas.1 hne
    exact hr.left (by omega) (h.key_eq hr' ⟨by omega, by have := hhas.2; omega⟩ hhas)
  have hlast : r'.stop = r.stop := by
    rcases Nat.lt_trichotomy r'.stop r.stop with hlt | heq | hgt
    · have hin : r.Has r'.stop := ⟨by omega, hlt⟩
      have hne := h.key_stop_ne hr' (Nat.lt_of_lt_of_le hlt hr.bound)
      rw [hfirst] at hne
      exact absurd (hr.key_eq _ _ hin hstart) hne
    · exact heq
    · have hin : r'.Has r.stop := ⟨by have := hr.nonempty; omega, hgt⟩
      exact absurd (h.key_eq hr' hin hhas) (hr.right (by omega))
  have heq : r = r' := by
    cases r
    cases r'
    simp only [EqualRange.mk.injEq]
    exact ⟨hfirst.symm, hlast.symm⟩
  rw [heq]
  exact hr'

/-! ## Sorting ranges of rows -/

section Sorting

variable [LinearOrder V]

/-- The row at a position. -/
def rowAt (rows : List ℕ) (i : ℕ) : ℕ := rows.getD i 0

/-- Sorts the rows of one range by a key, stably. -/
def sortRange (key : ℕ → V) (rows : List ℕ) (r : EqualRange) : List ℕ :=
  rows.take r.start ++ (((rows.take r.stop).drop r.start).insertionSort fun a b => key a ≤ key b) ++ rows.drop r.stop

/-- Sorts the rows of each range by a key; the new ranges are the runs of equal keys with more than
one row. -/
def sortRanges (key : ℕ → V) : List EqualRange → List ℕ → List ℕ × List EqualRange
  | [], rows => (rows, [])
  | r :: ranges, rows =>
    let rows := sortRange key rows r
    let runs := equalRanges (fun i j => key (rowAt rows j) = key (rowAt rows i)) r.stop r.size r.start
    let (rows, ranges) := sortRanges key ranges rows
    (rows, runs.filter (fun r => 1 < r.size) ++ ranges)

variable {key : ℕ → V} {rows : List ℕ}

theorem sortRange_perm (hle : r.start ≤ r.stop) : (sortRange key rows r).Perm rows := by
  have hmiddle := (List.perm_insertionSort (fun a b => key a ≤ key b) ((rows.take r.stop).drop r.start))
  have hfirst : rows.take r.start ++ (rows.take r.stop).drop r.start = rows.take r.stop := by
    have htake : rows.take r.start = (rows.take r.stop).take r.start := by
      rw [List.take_take, Nat.min_eq_left hle]
    rw [htake, List.take_append_drop]
  have hall := ((hmiddle.append_left (rows.take r.start)).append_right (rows.drop r.stop))
  rw [hfirst, List.take_append_drop] at hall
  exact hall

theorem length_sortRange (hle : r.start ≤ r.stop) : (sortRange key rows r).length = rows.length :=
  (sortRange_perm hle).length_eq

theorem length_middle (hbound : r.stop ≤ rows.length) :
    (((rows.take r.stop).drop r.start).insertionSort fun a b => key a ≤ key b).length = r.stop - r.start := by
  rw [List.length_insertionSort, List.length_drop, List.length_take, Nat.min_eq_left hbound]

/-- **Nothing moves outside of the range.** -/
theorem rowAt_sortRange_of_not_has (hle : r.start ≤ r.stop) (hbound : r.stop ≤ rows.length) {i : ℕ} (hi : ¬r.Has i) :
    rowAt (sortRange key rows r) i = rowAt rows i := by
  have hmiddle := @length_middle _ _ _ key _ hbound
  have htake : (rows.take r.start).length = r.start := by
    rw [List.length_take, Nat.min_eq_left (by omega)]
  unfold rowAt
  rw [List.getD_eq_getElem?_getD, List.getD_eq_getElem?_getD]
  congr 1
  unfold sortRange
  rcases Nat.lt_or_ge i r.start with hlt | hge
  · rw [List.append_assoc, List.getElem?_append_left (by omega), List.getElem?_take_of_lt hlt]
  · have hstop : r.stop ≤ i := by
      by_contra hlt
      exact hi ⟨hge, Nat.lt_of_not_le hlt⟩
    have hlength : (rows.take r.start ++
        ((rows.take r.stop).drop r.start).insertionSort fun a b => key a ≤ key b).length = r.stop := by
      rw [List.length_append, htake, hmiddle]
      omega
    rw [List.getElem?_append_right (by omega), hlength, List.getElem?_drop]
    congr 1
    omega

theorem rowAt_sortRange_of_has (hle : r.start ≤ r.stop) (hbound : r.stop ≤ rows.length) {i : ℕ} (hi : r.Has i) :
    (((rows.take r.stop).drop r.start).insertionSort fun a b => key a ≤ key b)[i - r.start]? =
      some (rowAt (sortRange key rows r) i) := by
  have hmiddle := @length_middle _ _ _ key _ hbound
  obtain ⟨hge, hlt⟩ := hi
  have htake : (rows.take r.start).length = r.start := by
    rw [List.length_take, Nat.min_eq_left (by omega)]
  have hsome : (sortRange key rows r)[i]? = some (rowAt (sortRange key rows r) i) := by
    have hi' : i < (sortRange key rows r).length := by
      rw [length_sortRange hle]
      omega
    rw [rowAt, List.getD_eq_getElem _ _ hi', List.getElem?_eq_getElem hi']
  rw [← hsome]
  unfold sortRange
  rw [List.append_assoc, List.getElem?_append_right (by omega), htake, List.getElem?_append_left (by omega)]

/-- **Rows stay in their range.** -/
theorem exists_rowAt_sortRange (hle : r.start ≤ r.stop) (hbound : r.stop ≤ rows.length) {i : ℕ} (hi : r.Has i) :
    ∃ j, r.Has j ∧ rowAt (sortRange key rows r) i = rowAt rows j := by
  have hget := @rowAt_sortRange_of_has _ _ _ key _ hle hbound _ hi
  have hmem := (List.perm_insertionSort _ _).subset (List.mem_of_getElem? hget)
  obtain ⟨n, hn⟩ := List.mem_iff_getElem?.1 hmem
  have hlt := (List.getElem?_eq_some_iff.1 hn).1
  rw [List.length_drop, List.length_take, Nat.min_eq_left hbound] at hlt
  refine ⟨r.start + n, ⟨by omega, by omega⟩, ?_⟩
  rw [List.getElem?_drop, List.getElem?_take_of_lt (by omega)] at hn
  have hrow : rowAt rows (r.start + n) = rowAt (sortRange key rows r) i := by
    rw [rowAt, List.getD_eq_getElem?_getD, hn]
    rfl
  exact hrow.symm

/-- **The range is sorted.** -/
theorem key_sortRange_le (hle : r.start ≤ r.stop) (hbound : r.stop ≤ rows.length) {i j : ℕ} (hi : r.Has i) (hj : r.Has j)
    (hij : i < j) : key (rowAt (sortRange key rows r) i) ≤ key (rowAt (sortRange key rows r) j) := by
  have hsorted := List.pairwise_insertionSort (fun a b => key a ≤ key b) ((rows.take r.stop).drop r.start)
  obtain ⟨hlti, hgeti⟩ := List.getElem?_eq_some_iff.1 (@rowAt_sortRange_of_has _ _ _ key _ hle hbound _ hi)
  obtain ⟨hltj, hgetj⟩ := List.getElem?_eq_some_iff.1 (@rowAt_sortRange_of_has _ _ _ key _ hle hbound _ hj)
  rw [← hgeti, ← hgetj]
  have hstart := hi.1
  exact List.pairwise_iff_getElem.1 hsorted _ _ hlti hltj (by omega)

/-- Ranges of `n` positions, one after another. -/
structure Laid (n : ℕ) (ranges : List EqualRange) : Prop where
  pairwise : ranges.Pairwise fun r r' => r.stop ≤ r'.start
  le : ∀ r ∈ ranges, r.start ≤ r.stop
  bound : ∀ r ∈ ranges, r.stop ≤ n

/-- **What `sortRanges` does**: rows move within their ranges only, each range is sorted by the key,
and the new ranges join the positions of an old range with equal keys. -/
structure Refines (key : ℕ → V) (rows : List ℕ) (ranges : List EqualRange) (rows' : List ℕ) (ranges' : List EqualRange) :
    Prop where
  perm : rows'.Perm rows
  outside : ∀ i, (∀ r ∈ ranges, ¬r.Has i) → rowAt rows' i = rowAt rows i
  inside : ∀ r ∈ ranges, ∀ i, r.Has i → ∃ j, r.Has j ∧ rowAt rows' i = rowAt rows j
  sorted : ∀ r ∈ ranges, ∀ i j, r.Has i → r.Has j → i < j → key (rowAt rows' i) ≤ key (rowAt rows' j)
  within : ∀ r' ∈ ranges', ∃ r ∈ ranges, r.start ≤ r'.start ∧ r'.start ≤ r'.stop ∧ r'.stop ≤ r.stop
  pairwise : ranges'.Pairwise fun r r' => r.stop ≤ r'.start
  key_eq : ∀ r' ∈ ranges', ∀ i j, r'.Has i → r'.Has j → key (rowAt rows' i) = key (rowAt rows' j)
  joined : ∀ r ∈ ranges, ∀ i j, r.Has i → r.Has j → i < j → key (rowAt rows' i) = key (rowAt rows' j) →
    ∃ r' ∈ ranges', r'.Has i ∧ r'.Has j

theorem sortRanges_refines (key : ℕ → V) : ∀ {ranges : List EqualRange} {rows : List ℕ}, Laid rows.length ranges →
    Refines key rows ranges (sortRanges key ranges rows).1 (sortRanges key ranges rows).2 := by
  intro ranges
  induction ranges with
  | nil =>
    intro rows _
    refine ⟨List.Perm.refl rows, fun _ _ => rfl, ?_, ?_, ?_, List.Pairwise.nil, ?_, ?_⟩ <;>
      exact fun r hr => absurd hr List.not_mem_nil
  | cons r ranges ih =>
    intro rows h
    have hle := h.le r List.mem_cons_self
    have hbound := h.bound r List.mem_cons_self
    have hafter := (List.pairwise_cons.1 h.pairwise).1
    set rows₁ := sortRange key rows r with hrows₁
    have hlength : rows₁.length = rows.length := length_sortRange hle
    have hrest := @ih rows₁ ⟨(List.pairwise_cons.1 h.pairwise).2, fun r' hr' => h.le r' (List.mem_cons_of_mem r hr'),
      fun r' hr' => by rw [hlength]; exact h.bound r' (List.mem_cons_of_mem r hr')⟩
    set rows₂ := (sortRanges key ranges rows₁).1 with hrows₂
    set new := (sortRanges key ranges rows₁).2 with hnew
    set runs := equalRanges (fun i j => decide (key (rowAt rows₁ j) = key (rowAt rows₁ i))) r.stop r.size r.start with hruns
    have hruns_spec : Runs (fun i => key (rowAt rows₁ i)) r.stop r.start runs :=
      equalRanges_runs (fun i j => by simp) (Nat.le_refl _)
    -- the positions of `r` are not in the ranges behind it
    have hkeep : ∀ i, i < r.stop → rowAt rows₂ i = rowAt rows₁ i := by
      refine fun i hi => hrest.outside i fun r' hr' hhas => ?_
      have hstart := hafter r' hr'
      exact absurd hhas.1 (by omega)
    have hstay : ∀ i, r.stop ≤ i → rowAt rows₁ i = rowAt rows i := by
      refine fun i hi => rowAt_sortRange_of_not_has hle hbound fun hhas => ?_
      exact absurd hhas.2 (by omega)
    have hresult : sortRanges key (r :: ranges) rows = (rows₂, runs.filter (fun r => 1 < r.size) ++ new) := rfl
    rw [hresult]
    refine ⟨hrest.perm.trans (sortRange_perm hle), ?_, ?_, ?_, ?_, ?_, ?_, ?_⟩
    · intro i hi
      rw [hrest.outside i fun r' hr' => hi r' (List.mem_cons_of_mem r hr')]
      exact rowAt_sortRange_of_not_has hle hbound (hi r List.mem_cons_self)
    · intro r' hr' i hi
      rcases List.mem_cons.1 hr' with rfl | hr'
      · obtain ⟨j, hj, heq⟩ := @exists_rowAt_sortRange _ _ _ key _ hle hbound _ hi
        exact ⟨j, hj, by rw [hkeep i hi.2]; exact heq⟩
      · obtain ⟨j, hj, heq⟩ := hrest.inside r' hr' i hi
        have hge := Nat.le_trans (hafter r' hr') hj.1
        exact ⟨j, hj, by rw [heq, hstay j hge]⟩
    · intro r' hr' i j hi hj hij
      rcases List.mem_cons.1 hr' with rfl | hr'
      · rw [hkeep i hi.2, hkeep j hj.2]
        exact key_sortRange_le hle hbound hi hj hij
      · exact hrest.sorted r' hr' i j hi hj hij
    · intro r' hr'
      rcases List.mem_append.1 hr' with hr' | hr'
      · have hwithin := hruns_spec.within (List.mem_filter.1 hr').1
        exact ⟨r, List.mem_cons_self, hwithin.1, hwithin.2.1.le, hwithin.2.2⟩
      · obtain ⟨r₀, hr₀, hwithin⟩ := hrest.within r' hr'
        exact ⟨r₀, List.mem_cons_of_mem r hr₀, hwithin⟩
    · rw [List.pairwise_append]
      refine ⟨hruns_spec.pairwise.filter _, hrest.pairwise, fun r₁ hr₁ r₂ hr₂ => ?_⟩
      have hwithin := hruns_spec.within (List.mem_filter.1 hr₁).1
      obtain ⟨r₀, hr₀, hwithin₀⟩ := hrest.within r₂ hr₂
      have hstart := hafter r₀ hr₀
      omega
    · intro r' hr' i j hi hj
      rcases List.mem_append.1 hr' with hr' | hr'
      · have hmem := (List.mem_filter.1 hr').1
        have hstop := (hruns_spec.within hmem).2.2
        rw [hkeep i (by have := hi.2; omega), hkeep j (by have := hj.2; omega)]
        exact hruns_spec.key_eq hmem hi hj
      · exact hrest.key_eq r' hr' i j hi hj
    · intro r' hr' i j hi hj hij heq
      rcases List.mem_cons.1 hr' with rfl | hr'
      · rw [hkeep i hi.2, hkeep j hj.2] at heq
        have hcontiguous : Contiguous (fun i => key (rowAt rows₁ i)) r'.start r'.stop := by
          intro a b c ha hab hbc hc hac
          rcases Nat.eq_or_lt_of_le hab with rfl | hab
          · rfl
          rcases Nat.eq_or_lt_of_le hbc with rfl | hbc
          · exact hac.symm
          have hleft : key (rowAt rows₁ a) ≤ key (rowAt rows₁ b) :=
            key_sortRange_le hle hbound ⟨ha, by omega⟩ ⟨by omega, by omega⟩ hab
          have hright : key (rowAt rows₁ b) ≤ key (rowAt rows₁ c) :=
            key_sortRange_le hle hbound ⟨by omega, by omega⟩ ⟨by omega, hc⟩ hbc
          exact le_antisymm (hright.trans hac.ge) hleft
        obtain ⟨run, hrun, hruni, hrunj⟩ := hruns_spec.exists_has_of_eq hcontiguous hi.1 hij.le hj.2 heq
        refine ⟨run, List.mem_append_left _ (List.mem_filter.2 ⟨hrun, ?_⟩), hruni, hrunj⟩
        -- two positions are more than one row
        have hstart := hruni.1
        have hstop := hrunj.2
        exact decide_eq_true (by unfold size; omega)
      · obtain ⟨run, hrun, hhas⟩ := hrest.joined r' hr' i j hi hj hij heq
        exact ⟨run, List.mem_append_right _ hrun, hhas⟩

/-! ## Several keys -/

/-- The rows are equal in all keys. -/
def AllEq (keys : List (ℕ → V)) (a b : ℕ) : Prop := ∀ key ∈ keys, key a = key b

/-- The lexicographic order of rows by several keys. -/
def LexLE : List (ℕ → V) → ℕ → ℕ → Prop
  | [], _, _ => True
  | key :: keys, a, b => key a < key b ∨ (key a = key b ∧ LexLE keys a b)

variable {keys : List (ℕ → V)} {a b a' b' : ℕ}

omit [LinearOrder V] in
theorem AllEq.symm (h : AllEq keys a b) : AllEq keys b a := fun key hkey => (h key hkey).symm

omit [LinearOrder V] in
theorem AllEq.trans {c : ℕ} (h : AllEq keys a b) (h' : AllEq keys b c) : AllEq keys a c :=
  fun key hkey => (h key hkey).trans (h' key hkey)

omit [LinearOrder V] in
theorem allEq_append_singleton : AllEq (keys ++ [key]) a b ↔ AllEq keys a b ∧ key a = key b := by
  unfold AllEq
  simp only [List.mem_append, List.mem_singleton, or_imp, forall_and, forall_eq]

theorem LexLE.congr (h : LexLE keys a b) (ha : AllEq keys a a') (hb : AllEq keys b b') : LexLE keys a' b' := by
  induction keys with
  | nil => trivial
  | cons key keys ih =>
    rw [LexLE, ← ha key List.mem_cons_self, ← hb key List.mem_cons_self]
    rcases h with hlt | ⟨heq, hle⟩
    · exact Or.inl hlt
    · exact Or.inr ⟨heq, ih hle (fun k hk => ha k (List.mem_cons_of_mem key hk)) fun k hk => hb k (List.mem_cons_of_mem key hk)⟩

theorem LexLE.append_of_ne (h : LexLE keys a b) (hne : ¬AllEq keys a b) : LexLE (keys ++ [key]) a b := by
  induction keys with
  | nil => exact absurd (fun k hk => absurd hk List.not_mem_nil) hne
  | cons k keys ih =>
    rcases h with hlt | ⟨heq, hle⟩
    · exact Or.inl hlt
    · refine Or.inr ⟨heq, ih hle fun hall => hne fun k' hk' => ?_⟩
      rcases List.mem_cons.1 hk' with rfl | hk'
      · exact heq
      · exact hall k' hk'

theorem AllEq.lexLE_append (h : AllEq keys a b) (hle : key a ≤ key b) : LexLE (keys ++ [key]) a b := by
  induction keys with
  | nil =>
    rcases lt_or_eq_of_le hle with hlt | heq
    · exact Or.inl hlt
    · exact Or.inr ⟨heq, trivial⟩
  | cons k keys ih =>
    exact Or.inr ⟨h k List.mem_cons_self, ih fun k' hk' => h k' (List.mem_cons_of_mem k hk')⟩

/-- **The range is sorted by the keys**, and the ranges join the positions of rows equal in them. -/
structure Sorted (keys : List (ℕ → V)) (r : EqualRange) (rows : List ℕ) (ranges : List EqualRange) : Prop where
  laid : Laid rows.length ranges
  within : ∀ r' ∈ ranges, r.start ≤ r'.start ∧ r'.stop ≤ r.stop
  lexLE : ∀ i j, r.Has i → r.Has j → i < j → LexLE keys (rowAt rows i) (rowAt rows j)
  allEq : ∀ r' ∈ ranges, ∀ i j, r'.Has i → r'.Has j → AllEq keys (rowAt rows i) (rowAt rows j)
  joined : ∀ i j, r.Has i → r.Has j → i < j → AllEq keys (rowAt rows i) (rowAt rows j) → ∃ r' ∈ ranges, r'.Has i ∧ r'.Has j

theorem Sorted.init (hle : r.start ≤ r.stop) (hbound : r.stop ≤ rows.length) : Sorted ([] : List (ℕ → V)) r rows [r] where
  laid := ⟨List.pairwise_singleton _ _, by simpa using hle, by simpa using hbound⟩
  within := by simp
  lexLE _ _ _ _ _ := trivial
  allEq _ _ _ _ _ _ key hkey := absurd hkey List.not_mem_nil
  joined i j hi hj _ _ := ⟨r, List.mem_singleton_self r, hi, hj⟩

/-- **One more key.** -/
theorem Sorted.refines {ranges ranges' : List EqualRange} {rows' : List ℕ} (h : Sorted keys r rows ranges)
    (hrefines : Refines key rows ranges rows' ranges') : Sorted (keys ++ [key]) r rows' ranges' := by
  -- the row at a position of `r` is exchanged for one that is equal so far
  have hrow : ∀ i, AllEq keys (rowAt rows' i) (rowAt rows i) := by
    intro i
    by_cases hin : ∃ r' ∈ ranges, r'.Has i
    · obtain ⟨r', hr', hi⟩ := hin
      obtain ⟨j, hj, heq⟩ := hrefines.inside r' hr' i hi
      rw [heq]
      exact h.allEq r' hr' j i hj hi
    · have hout : ∀ r' ∈ ranges, ¬r'.Has i := fun r' hr' hi => hin ⟨r', hr', hi⟩
      rw [hrefines.outside i hout]
      exact fun _ _ => rfl
  have hiff : ∀ i j, AllEq keys (rowAt rows' i) (rowAt rows' j) ↔ AllEq keys (rowAt rows i) (rowAt rows j) := fun i j =>
    ⟨fun heq => ((hrow i).symm.trans heq).trans (hrow j), fun heq => ((hrow i).trans heq).trans (hrow j).symm⟩
  refine ⟨⟨hrefines.pairwise, fun r' hr' => ?_, fun r' hr' => ?_⟩, fun r' hr' => ?_, ?_, ?_, ?_⟩
  · obtain ⟨r₀, -, -, hle, -⟩ := hrefines.within r' hr'
    exact hle
  · obtain ⟨r₀, hr₀, -, -, hstop⟩ := hrefines.within r' hr'
    rw [hrefines.perm.length_eq]
    exact hstop.trans (h.laid.bound r₀ hr₀)
  · obtain ⟨r₀, hr₀, hstart, -, hstop⟩ := hrefines.within r' hr'
    have hwithin := h.within r₀ hr₀
    exact ⟨hwithin.1.trans hstart, hstop.trans hwithin.2⟩
  · intro i j hi hj hij
    by_cases heq : AllEq keys (rowAt rows' i) (rowAt rows' j)
    · obtain ⟨r', hr', hi', hj'⟩ := h.joined i j hi hj hij ((hiff i j).1 heq)
      exact heq.lexLE_append (hrefines.sorted r' hr' i j hi' hj' hij)
    · exact ((h.lexLE i j hi hj hij).congr (hrow i).symm (hrow j).symm).append_of_ne heq
  · intro r' hr' i j hi hj
    obtain ⟨r₀, hr₀, hstart, -, hstop⟩ := hrefines.within r' hr'
    have hi₀ : r₀.Has i := ⟨hstart.trans hi.1, hi.2.trans_le hstop⟩
    have hj₀ : r₀.Has j := ⟨hstart.trans hj.1, hj.2.trans_le hstop⟩
    exact allEq_append_singleton.2 ⟨(hiff i j).2 (h.allEq r₀ hr₀ i j hi₀ hj₀), hrefines.key_eq r' hr' i j hi hj⟩
  · intro i j hi hj hij heq
    obtain ⟨hall, hkey⟩ := allEq_append_singleton.1 heq
    obtain ⟨r', hr', hi', hj'⟩ := h.joined i j hi hj hij ((hiff i j).1 hall)
    exact hrefines.joined r' hr' i j hi' hj' hij hkey

/-- Rows move within one range only. -/
structure MovesWithin (r : EqualRange) (rows rows' : List ℕ) : Prop where
  perm : rows'.Perm rows
  outside : ∀ i, ¬r.Has i → rowAt rows' i = rowAt rows i
  inside : ∀ i, r.Has i → ∃ j, r.Has j ∧ rowAt rows' i = rowAt rows j

theorem MovesWithin.refl (r : EqualRange) (rows : List ℕ) : MovesWithin r rows rows :=
  ⟨List.Perm.refl rows, fun _ _ => rfl, fun i hi => ⟨i, hi, rfl⟩⟩

theorem MovesWithin.trans {rows' rows'' : List ℕ} (h : MovesWithin r rows rows') (h' : MovesWithin r rows' rows'') :
    MovesWithin r rows rows'' where
  perm := h'.perm.trans h.perm
  outside i hi := (h'.outside i hi).trans (h.outside i hi)
  inside i hi := by
    obtain ⟨j, hj, heq⟩ := h'.inside i hi
    obtain ⟨l, hl, heq'⟩ := h.inside j hj
    exact ⟨l, hl, heq.trans heq'⟩

theorem Refines.movesWithin {ranges ranges' : List EqualRange} {rows' : List ℕ} (h : Refines key rows ranges rows' ranges')
    (hwithin : ∀ r' ∈ ranges, r.start ≤ r'.start ∧ r'.stop ≤ r.stop) : MovesWithin r rows rows' where
  perm := h.perm
  outside i hi := h.outside i fun r' hr' hhas =>
    hi ⟨(hwithin r' hr').1.trans hhas.1, hhas.2.trans_le (hwithin r' hr').2⟩
  inside i hi := by
    by_cases hin : ∃ r' ∈ ranges, r'.Has i
    · obtain ⟨r', hr', hhas⟩ := hin
      obtain ⟨j, hj, heq⟩ := h.inside r' hr' i hhas
      exact ⟨j, ⟨(hwithin r' hr').1.trans hj.1, hj.2.trans_le (hwithin r' hr').2⟩, heq⟩
    · exact ⟨i, hi, h.outside i fun r' hr' hhas => hin ⟨r', hr', hhas⟩⟩

/-- Sorts by one key after another. -/
def sortByKeys (keys : List (ℕ → V)) (state : List ℕ × List EqualRange) : List ℕ × List EqualRange :=
  keys.foldl (fun state key => sortRanges key state.2 state.1) state

theorem Sorted.sortByKeys : ∀ {keys : List (ℕ → V)} {rows : List ℕ} {ranges : List EqualRange} {done : List (ℕ → V)},
    Sorted done r rows ranges → MovesWithin r rows (EqualRange.sortByKeys keys (rows, ranges)).1 ∧
      Sorted (done ++ keys) r (EqualRange.sortByKeys keys (rows, ranges)).1 (EqualRange.sortByKeys keys (rows, ranges)).2 := by
  intro keys
  induction keys with
  | nil =>
    intro rows ranges done h
    rw [List.append_nil]
    exact ⟨MovesWithin.refl r rows, h⟩
  | cons key keys ih =>
    intro rows ranges done h
    have hstep := sortRanges_refines key h.laid
    obtain ⟨hmoves, hsorted⟩ := ih (h.refines hstep)
    rw [List.append_assoc] at hsorted
    exact ⟨(hstep.movesWithin h.within).trans hmoves, hsorted⟩

/-- **A range is sorted by several keys.** -/
theorem sortByKeys_spec (keys : List (ℕ → V)) (hle : r.start ≤ r.stop) (hbound : r.stop ≤ rows.length) :
    MovesWithin r rows (sortByKeys keys (rows, [r])).1 ∧ ∀ i j, r.Has i → r.Has j → i < j →
      LexLE keys (rowAt (sortByKeys keys (rows, [r])).1 i) (rowAt (sortByKeys keys (rows, [r])).1 j) := by
  obtain ⟨hmoves, hsorted⟩ := @Sorted.sortByKeys V r _ keys _ _ _ (Sorted.init hle hbound)
  exact ⟨hmoves, hsorted.lexLE⟩

end Sorting

end EqualRange
