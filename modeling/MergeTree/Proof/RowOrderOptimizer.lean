import MergeTree.Spec.RowOrderOptimizer

/-!
# Row order optimisation keeps the sort order

`optimize` exchanges rows with equal sorting keys only, so that every position keeps its key
(`optimizeRange_spec`), and every range of equal keys is sorted by the other columns
(`EqualRange.sortByKeys_spec`) in the order of their cardinalities (`pairwise_columnOrder`).
-/

namespace MergeTree

open EqualRange

variable {V : Type} [LinearOrder V] [Inhabited V] {block : NamedBlock V} {sortDescription : List (SortColumnDescription V)}
  {permutation : List ℕ}

/-! ## The other columns -/

theorem mem_unique {x : ℕ} : ∀ {l : List ℕ}, x ∈ unique l ↔ x ∈ l := by
  intro l
  fun_induction unique l with
  | case1 a l ih =>
    rw [ih]
    simp
  | case2 a b l hne ih =>
    rw [List.mem_cons, ih]
    exact List.mem_cons.symm
  | case3 l => exact Iff.rfl

theorem pairwise_unique : ∀ {l : List ℕ}, l.Pairwise (· ≤ ·) → (unique l).Pairwise (· < ·) := by
  intro l
  fun_induction unique l with
  | case1 a l ih => exact fun h => ih (List.pairwise_cons.1 h).2
  | case2 a b l hne ih =>
    intro h
    obtain ⟨hle, hrest⟩ := List.pairwise_cons.1 h
    refine List.Pairwise.cons (fun c hc => ?_) (ih hrest)
    have hb := hle b List.mem_cons_self
    rcases List.mem_cons.1 (mem_unique.1 hc) with rfl | hc
    · exact lt_of_le_of_ne hb hne
    · have hbc := (List.pairwise_cons.1 hrest).1 c hc
      omega
  | case3 l hl =>
    intro _
    rcases l with _ | ⟨a, _ | ⟨b, l⟩⟩
    · exact List.Pairwise.nil
    · exact List.pairwise_singleton _ _
    · exact absurd rfl (hl a b l)

theorem mem_dropWhile_lt {x z : ℕ} {l : List ℕ} (hz : x ≤ z) :
    z ∈ l.dropWhile (fun y => decide (y < x)) ↔ z ∈ l := by
  constructor
  · exact fun hmem => (List.dropWhile_suffix _).subset hmem
  · intro hmem
    rw [← List.takeWhile_append_dropWhile (p := fun y => decide (y < x)) (l := l), List.mem_append] at hmem
    rcases hmem with hmem | hmem
    · have hlt : decide (z < x) = true := List.mem_takeWhile_imp (p := fun y => decide (y < x)) hmem
      have hlt := of_decide_eq_true hlt
      omega
    · exact hmem

theorem mem_setDifference {z : ℕ} : ∀ {xs ys : List ℕ}, xs.Pairwise (· < ·) → ys.Pairwise (· < ·) →
    (z ∈ setDifference xs ys ↔ z ∈ xs ∧ z ∉ ys) := by
  intro xs
  induction xs with
  | nil => simp [setDifference]
  | cons x xs ih =>
    intro ys hxs hys
    obtain ⟨hlt, hxs⟩ := List.pairwise_cons.1 hxs
    have hdrop : (ys.dropWhile fun y => decide (y < x)).Pairwise (· < ·) := hys.sublist (List.dropWhile_sublist _)
    have hkeep : ∀ w, x ≤ w → (w ∈ (ys.dropWhile fun y => decide (y < x)) ↔ w ∈ ys) := fun w => mem_dropWhile_lt
    rw [setDifference, List.mem_cons]
    cases hcase : ys.dropWhile fun y => decide (y < x) with
    | nil =>
      rw [hcase] at hkeep
      rw [List.mem_cons, ih hxs List.Pairwise.nil]
      constructor
      · rintro (rfl | ⟨hz, -⟩)
        · exact ⟨Or.inl rfl, fun hmem => List.not_mem_nil ((hkeep z le_rfl).2 hmem)⟩
        · exact ⟨Or.inr hz, fun hmem => List.not_mem_nil ((hkeep z (hlt z hz).le).2 hmem)⟩
      · rintro ⟨rfl | hz, -⟩
        · exact Or.inl rfl
        · exact Or.inr ⟨hz, List.not_mem_nil⟩
    | cons y ys' =>
      have hle : x ≤ y := by
        have hnot := List.head?_dropWhile_not (fun y => decide (y < x)) ys
        rw [hcase] at hnot
        simpa using hnot
      rw [hcase] at hkeep hdrop
      obtain ⟨hylt, hys'⟩ := List.pairwise_cons.1 hdrop
      dsimp only
      by_cases hxy : x = y
      · subst hxy
        rw [if_pos rfl, ih hxs hys']
        constructor
        · rintro ⟨hz, hnot⟩
          have hgt := hlt z hz
          refine ⟨Or.inr hz, fun hmem => ?_⟩
          rcases List.mem_cons.1 ((hkeep z hgt.le).2 hmem) with rfl | hmem
          · omega
          · exact hnot hmem
        · rintro ⟨rfl | hz, hnot⟩
          · exact absurd ((hkeep z le_rfl).1 List.mem_cons_self) hnot
          · have hgt := hlt z hz
            exact ⟨hz, fun hmem => hnot ((hkeep z hgt.le).1 (List.mem_cons_of_mem x hmem))⟩
      · rw [if_neg hxy, List.mem_cons, ih hxs hdrop]
        constructor
        · rintro (rfl | ⟨hz, hnot⟩)
          · refine ⟨Or.inl rfl, fun hmem => ?_⟩
            rcases List.mem_cons.1 ((hkeep z le_rfl).2 hmem) with heq | hmem
            · exact hxy heq
            · have hgt := hylt z hmem
              omega
          · exact ⟨Or.inr hz, fun hmem => hnot ((hkeep z (hlt z hz).le).2 hmem)⟩
        · rintro ⟨rfl | hz, hnot⟩
          · exact Or.inl rfl
          · exact Or.inr ⟨hz, fun hmem => hnot ((hkeep z (hlt z hz).le).1 hmem)⟩

theorem setDifference_sublist : ∀ {xs ys : List ℕ}, (setDifference xs ys).Sublist xs := by
  intro xs
  induction xs with
  | nil => exact List.Sublist.refl _
  | cons x xs ih =>
    intro ys
    rw [setDifference]
    split
    · exact ih.cons_cons x
    · split
      · exact ih.cons x
      · exact ih.cons_cons x

/-- The column is in the sorting key. -/
def InSortingKey (block : NamedBlock V) (sortDescription : List (SortColumnDescription V)) (column : ℕ) : Prop :=
  ∃ sortColumn ∈ sortDescription, block.getPositionByName sortColumn.columnName = column

omit [LinearOrder V] [Inhabited V] in
/-- **The other columns** are those that the sort description does not name, once each. -/
theorem mem_getOtherColumnIndexes {column : ℕ} : column ∈ getOtherColumnIndexes block sortDescription ↔
    column < block.columns.length ∧ ¬InSortingKey block sortDescription column := by
  unfold getOtherColumnIndexes
  split
  · next hempty =>
    obtain rfl := List.length_eq_zero_iff.1 hempty
    simp [InSortingKey]
  · have hsorted := pairwise_unique (List.pairwise_insertionSort (· ≤ ·)
      (sortDescription.map fun sortColumn => block.getPositionByName sortColumn.columnName))
    rw [mem_setDifference List.pairwise_lt_range hsorted, mem_unique,
      (List.perm_insertionSort (· ≤ ·) _).mem_iff, List.mem_range, List.mem_map]
    rfl

omit [LinearOrder V] [Inhabited V] in
theorem pairwise_getOtherColumnIndexes (block : NamedBlock V) (sortDescription : List (SortColumnDescription V)) :
    (getOtherColumnIndexes block sortDescription).Pairwise (· < ·) := by
  unfold getOtherColumnIndexes
  split
  · exact List.pairwise_lt_range
  · exact List.pairwise_lt_range.sublist setDifference_sublist

/-! ## The order of the columns -/

/-- The order in which the columns are taken. -/
def columnOrder (others : List ℕ) (cardinality : ℕ → ℕ) : List ℕ :=
  ((List.range others.length).insertionSort fun lhs rhs =>
    (others.map cardinality).getD lhs 0 ≤ (others.map cardinality).getD rhs 0).map fun i => others.getD i 0

theorem mem_columnOrder {others : List ℕ} {cardinality : ℕ → ℕ} {column : ℕ} :
    column ∈ columnOrder others cardinality ↔ column ∈ others := by
  rw [columnOrder, List.mem_map]
  constructor
  · rintro ⟨i, hi, rfl⟩
    have hlt := List.mem_range.1 ((List.perm_insertionSort _ _).subset hi)
    rw [List.getD_eq_getElem _ _ hlt]
    exact List.getElem_mem hlt
  · intro hmem
    obtain ⟨i, hi, rfl⟩ := List.mem_iff_getElem.1 hmem
    refine ⟨i, (List.perm_insertionSort _ _).symm.subset (List.mem_range.2 hi), ?_⟩
    rw [List.getD_eq_getElem _ _ hi]

/-- **Columns are ordered by their cardinalities**, and by their places where these are equal. -/
theorem pairwise_columnOrder {others : List ℕ} (hothers : others.Pairwise (· < ·)) (cardinality : ℕ → ℕ) :
    (columnOrder others cardinality).Pairwise fun column column' => cardinality column < cardinality column' ∨
      (cardinality column = cardinality column' ∧ column < column') := by
  set key : ℕ → ℕ := fun i => (others.map cardinality).getD i 0 with hkey
  set order := (List.range others.length).insertionSort fun lhs rhs => key lhs ≤ key rhs with horder
  have hperm : order.Perm (List.range others.length) := List.perm_insertionSort _ _
  have hsorted : order.Pairwise fun lhs rhs => key lhs ≤ key rhs := List.pairwise_insertionSort _ _
  have hnodup : order.Nodup := hperm.nodup_iff.2 List.nodup_range
  -- the sort is stable
  have hstable : order.Pairwise fun i j => key i < key j ∨ (key i = key j ∧ i < j) := by
    have hplaces : order.Pairwise fun i j => order.idxOf i < order.idxOf j := by
      rw [List.pairwise_iff_getElem]
      intro m n hm hn hmn
      rw [hnodup.idxOf_getElem, hnodup.idxOf_getElem]
      exact hmn
    rw [List.pairwise_iff_forall_sublist] at hsorted hplaces ⊢
    intro i j hij
    rcases lt_or_eq_of_le (hsorted hij) with hlt | heq
    · exact Or.inl hlt
    · refine Or.inr ⟨heq, ?_⟩
      by_contra hge
      have hplace := hplaces hij
      have hji : j < i := by
        refine lt_of_le_of_ne (Nat.le_of_not_lt hge) fun h => ?_
        rw [h] at hplace
        exact lt_irrefl _ hplace
      have hmem : ∀ {n}, n ∈ [i, j] → n < others.length := fun hn => List.mem_range.1 (hperm.subset (hij.subset hn))
      have hrange : [j, i].Sublist (List.range others.length) := by
        have hpair : [j, i].Pairwise (· < ·) := List.pairwise_pair.2 hji
        refine List.sublist_of_subperm_of_pairwise (List.subperm_of_subset (hpair.imp Nat.ne_of_lt) ?_) hpair
          List.pairwise_lt_range
        intro n hn
        rw [List.mem_range]
        refine hmem ?_
        simpa [or_comm] using hn
      have hback : [j, i].Sublist order := List.pair_sublist_insertionSort heq.ge hrange
      exact absurd hplace (hplaces hback).not_gt
  rw [columnOrder, List.pairwise_map]
  refine hstable.imp_of_mem ?_
  intro i j hi hj hij
  have hlti := List.mem_range.1 (hperm.subset hi)
  have hltj := List.mem_range.1 (hperm.subset hj)
  have hcard : ∀ {n}, n < others.length → key n = cardinality (others.getD n 0) := by
    intro n hn
    rw [hkey]
    simp only
    rw [List.getD_eq_getElem _ _ (by rw [List.length_map]; exact hn), List.getElem_map, List.getD_eq_getElem _ _ hn]
  rw [hcard hlti, hcard hltj] at hij
  refine hij.imp id fun h => ⟨h.1, ?_⟩
  rw [List.getD_eq_getElem _ _ hlti, List.getD_eq_getElem _ _ hltj]
  exact List.pairwise_iff_getElem.1 hothers i j hlti hltj h.2

/-! ## The loop -/

/-- The sorting key of a row. -/
def sortKey (block : NamedBlock V) (sortDescription : List (SortColumnDescription V)) (row : ℕ) : List V :=
  sortDescription.map fun sortColumn => block.cell (block.getPositionByName sortColumn.columnName) row

/-- The sort description puts row `a` in front of row `b`, or does not tell them apart. -/
def SortedLE (block : NamedBlock V) : List (SortColumnDescription V) → ℕ → ℕ → Prop
  | [], _, _ => True
  | sortColumn :: sortDescription, a, b =>
    sortColumn.order.lt (block.cell (block.getPositionByName sortColumn.columnName) a)
        (block.cell (block.getPositionByName sortColumn.columnName) b) ∨
      (block.cell (block.getPositionByName sortColumn.columnName) a =
          block.cell (block.getPositionByName sortColumn.columnName) b ∧ SortedLE block sortDescription a b)

/-- The permutation sorts the block. -/
def SortsBlock (block : NamedBlock V) (sortDescription : List (SortColumnDescription V)) (permutation : List ℕ) : Prop :=
  ∀ i j, i < j → j < permutation.length → SortedLE block sortDescription (rowAt permutation i) (rowAt permutation j)

omit [LinearOrder V] in
theorem SortedLE.congr {a b a' b' : ℕ} (h : SortedLE block sortDescription a b)
    (ha : sortKey block sortDescription a' = sortKey block sortDescription a)
    (hb : sortKey block sortDescription b' = sortKey block sortDescription b) : SortedLE block sortDescription a' b' := by
  induction sortDescription with
  | nil => trivial
  | cons sortColumn sortDescription ih =>
    obtain ⟨hah, hat⟩ := List.cons.inj ha
    obtain ⟨hbh, hbt⟩ := List.cons.inj hb
    dsimp only at hah hbh
    rw [SortedLE, hah, hbh]
    exact h.imp id fun h => ⟨h.1, ih h.2 hat hbt⟩

theorem haveEqualSortingKeyValues_iff {a b : ℕ} : haveEqualSortingKeyValues block sortDescription a b = true ↔
    sortKey block sortDescription b = sortKey block sortDescription a := by
  unfold haveEqualSortingKeyValues sortKey
  rw [List.all_eq_true, List.map_inj_left]
  exact forall₂_congr fun _ _ => by rw [decide_eq_true_eq, eq_comm]

/-- **The ranges of equal keys.** -/
theorem getEqualRanges_runs (hrows : 0 < block.rows) (permutation : List ℕ) :
    EqualRange.Runs (fun i => sortKey block sortDescription (rowAt permutation i)) block.rows 0
      (getEqualRanges block sortDescription permutation) := by
  unfold getEqualRanges
  split
  · next hempty =>
    obtain rfl := List.isEmpty_iff.1 hempty
    exact ⟨rfl, hrows, le_refl _, fun _ _ => rfl, fun hlt => absurd hlt (lt_irrefl _), le_refl _⟩
  · exact equalRanges_runs (fun i j => haveEqualSortingKeyValues_iff) (Nat.le_refl _)

variable {estimateCardinality : List V → List ℕ → ℕ}

/-- The other columns in the order of their cardinalities in some rows. -/
def columnsFor (estimateCardinality : List V → List ℕ → ℕ) (block : NamedBlock V)
    (sortDescription : List (SortColumnDescription V)) (rows : List ℕ) : List ℕ :=
  columnOrder (getOtherColumnIndexes block sortDescription) fun column =>
    estimateCardinality (block.columns.getD column []) rows

/-- **One range**: its rows are sorted by the other columns, and nothing else moves. -/
theorem optimizeRange_spec {range : EqualRange} (hle : range.start ≤ range.stop) (hbound : range.stop ≤ permutation.length) :
    MovesWithin range permutation
        (optimizeRange estimateCardinality block (getOtherColumnIndexes block sortDescription) permutation range) ∧
      ∀ i j, range.Has i → range.Has j → i < j →
        LexLE ((columnsFor estimateCardinality block sortDescription (rowsOfRange permutation range)).map block.cell)
          (rowAt (optimizeRange estimateCardinality block (getOtherColumnIndexes block sortDescription) permutation range) i)
          (rowAt (optimizeRange estimateCardinality block (getOtherColumnIndexes block sortDescription) permutation range) j) := by
  unfold optimizeRange
  split
  · next hsize =>
    refine ⟨MovesWithin.refl _ _, fun i j hi hj hij => ?_⟩
    have hstart := hi.1
    have hstop := hj.2
    unfold size at hsize
    omega
  · have hspec := sortByKeys_spec
      ((columnsFor estimateCardinality block sortDescription (rowsOfRange permutation range)).map block.cell) hle hbound
    have hfold : updatePermutationInEqualRange block (getOtherColumnIndexes block sortDescription) permutation range
        (getCardinalitiesInPermutedRange estimateCardinality block (getOtherColumnIndexes block sortDescription)
          permutation range) =
        (sortByKeys ((columnsFor estimateCardinality block sortDescription (rowsOfRange permutation range)).map block.cell)
          (permutation, [range])).1 := by
      unfold updatePermutationInEqualRange sortByKeys columnsFor columnOrder
      rw [List.map_map, List.foldl_map]
      rfl
    rw [hfold]
    exact hspec

theorem rowsOfRange_congr {permutation' : List ℕ} {range : EqualRange} (hlength : permutation'.length = permutation.length)
    (h : ∀ i, range.Has i → rowAt permutation' i = rowAt permutation i) :
    rowsOfRange permutation' range = rowsOfRange permutation range := by
  refine List.ext_getElem? fun n => ?_
  unfold rowsOfRange
  rw [List.getElem?_drop, List.getElem?_drop, List.getElem?_take, List.getElem?_take]
  split
  · next hlt =>
    have hrow := h (range.start + n) ⟨Nat.le_add_right _ _, hlt⟩
    unfold rowAt at hrow
    rcases Nat.lt_or_ge (range.start + n) permutation.length with hn | hn
    · have hn' : range.start + n < permutation'.length := by omega
      rw [List.getD_eq_getElem _ _ hn, List.getD_eq_getElem _ _ hn'] at hrow
      rw [List.getElem?_eq_getElem hn, List.getElem?_eq_getElem hn', hrow]
    · rw [List.getElem?_eq_none hn, List.getElem?_eq_none (by omega)]
  · rfl

/-- **The loop**: all positions keep their keys, and every range is sorted by its columns. -/
theorem foldl_optimizeRange {start : List ℕ} : ∀ {ranges : List EqualRange} {permutation : List ℕ},
    ranges.Pairwise (fun r r' => r.stop ≤ r'.start) →
    (∀ r ∈ ranges, r.start < r.stop ∧ r.stop ≤ permutation.length) →
    (∀ r ∈ ranges, ∀ i j, r.Has i → r.Has j →
      sortKey block sortDescription (rowAt permutation i) = sortKey block sortDescription (rowAt permutation j)) →
    (∀ r ∈ ranges, rowsOfRange permutation r = rowsOfRange start r) →
    ∃ result, ranges.foldl (optimizeRange estimateCardinality block (getOtherColumnIndexes block sortDescription))
        permutation = result ∧ result.Perm permutation ∧
      (∀ i, sortKey block sortDescription (rowAt result i) = sortKey block sortDescription (rowAt permutation i)) ∧
      (∀ i, (∀ r ∈ ranges, ¬r.Has i) → rowAt result i = rowAt permutation i) ∧
      ∀ r ∈ ranges, ∀ i j, r.Has i → r.Has j → i < j →
        LexLE ((columnsFor estimateCardinality block sortDescription (rowsOfRange start r)).map block.cell)
          (rowAt result i) (rowAt result j) := by
  intro ranges
  induction ranges with
  | nil =>
    intro permutation _ _ _ _
    exact ⟨permutation, rfl, List.Perm.refl _, fun _ => rfl, fun _ _ => rfl, fun r hr => absurd hr List.not_mem_nil⟩
  | cons r ranges ih =>
    intro permutation hpairwise hbounds hkeys hrows
    obtain ⟨hafter, hpairwise⟩ := List.pairwise_cons.1 hpairwise
    obtain ⟨hlt, hbound⟩ := hbounds r List.mem_cons_self
    obtain ⟨hmoves, hsorted⟩ := @optimizeRange_spec _ _ _ block sortDescription _ estimateCardinality _ hlt.le hbound
    set next := optimizeRange estimateCardinality block (getOtherColumnIndexes block sortDescription) permutation r with hnext
    have hlength := hmoves.perm.length_eq
    have hbehind : ∀ r' ∈ ranges, ∀ i, r'.Has i → rowAt next i = rowAt permutation i := by
      intro r' hr' i hi
      refine hmoves.outside i fun hhas => ?_
      have hstart := hafter r' hr'
      have hge := hi.1
      have hlt := hhas.2
      omega
    have hkey : ∀ i, sortKey block sortDescription (rowAt next i) = sortKey block sortDescription (rowAt permutation i) := by
      intro i
      by_cases hi : r.Has i
      · obtain ⟨j, hj, heq⟩ := hmoves.inside i hi
        rw [heq]
        exact hkeys r List.mem_cons_self j i hj hi
      · rw [hmoves.outside i hi]
    obtain ⟨result, hresult, hperm, hkey', hkeep, hlex⟩ := @ih next hpairwise
      (fun r' hr' => by rw [hlength]; exact hbounds r' (List.mem_cons_of_mem r hr'))
      (fun r' hr' i j hi hj => by rw [hkey i, hkey j]; exact hkeys r' (List.mem_cons_of_mem r hr') i j hi hj)
      (fun r' hr' => by
        rw [rowsOfRange_congr hlength (hbehind r' hr')]
        exact hrows r' (List.mem_cons_of_mem r hr'))
    refine ⟨result, hresult, hperm.trans hmoves.perm, fun i => (hkey' i).trans (hkey i), fun i hi => ?_, ?_⟩
    · rw [hkeep i fun r' hr' => hi r' (List.mem_cons_of_mem r hr'), hmoves.outside i (hi r List.mem_cons_self)]
    · intro r' hr' i j hi hj hij
      rcases List.mem_cons.1 hr' with rfl | hr'
      · -- the later ranges do not touch this one
        have hstay : ∀ n, r'.Has n → rowAt result n = rowAt next n := fun n hn => hkeep n fun r'' hr'' hhas => by
          have hstart := hafter r'' hr''
          have hge := hhas.1
          have hlt := hn.2
          omega
        rw [hstay i hi, hstay j hj, ← hrows r' List.mem_cons_self]
        exact hsorted i j hi hj hij
      · exact hlex r' hr' i j hi hj hij

/-! ## The whole block -/

/-- The permutation that `optimize` starts with. -/
def startPermutation (block : NamedBlock V) (permutation : List ℕ) : List ℕ :=
  if permutation.isEmpty then List.range block.rows else permutation

/-- **The sort order is kept**: the rows are the same, they are sorted by the sort description, and in
each maximal run of equal keys they are sorted by the other columns, in the order of the
cardinalities of these in the run. -/
structure KeepsOrder (estimateCardinality : List V → List ℕ → ℕ) (block : NamedBlock V)
    (sortDescription : List (SortColumnDescription V)) (start result : List ℕ) : Prop where
  perm : result.Perm (List.range block.rows)
  sorts : SortsBlock block sortDescription result
  runs : ∀ run, MaximalRun (fun i => sortKey block sortDescription (rowAt result i)) block.rows run →
    ∃ order : List ℕ,
      (∀ column, column ∈ order ↔ column < block.columns.length ∧ ¬InSortingKey block sortDescription column) ∧
      order.Pairwise (fun column column' =>
        estimateCardinality (block.columns.getD column []) (rowsOfRange start run) <
          estimateCardinality (block.columns.getD column' []) (rowsOfRange start run) ∨
        (estimateCardinality (block.columns.getD column []) (rowsOfRange start run) =
          estimateCardinality (block.columns.getD column' []) (rowsOfRange start run) ∧ column < column')) ∧
      ∀ i j, run.Has i → run.Has j → i < j → LexLE (order.map block.cell) (rowAt result i) (rowAt result j)

/-- **Row order optimisation keeps the sort order.** -/
theorem optimize_keepsOrder (estimateCardinality : List V → List ℕ → ℕ) (block : NamedBlock V) (hcolumns : block.columns ≠ [])
    (sortDescription : List (SortColumnDescription V)) (permutation : List ℕ)
    (hperm : permutation = [] ∨ permutation.Perm (List.range block.rows))
    (hsorts : SortsBlock block sortDescription (startPermutation block permutation)) :
    KeepsOrder estimateCardinality block sortDescription (startPermutation block permutation)
      (optimize estimateCardinality block sortDescription permutation) := by
  set start := startPermutation block permutation with hstart
  have hstart_perm : start.Perm (List.range block.rows) := by
    rw [hstart, startPermutation]
    split
    · exact List.Perm.refl _
    · next hne => exact hperm.resolve_left fun hnil => hne (List.isEmpty_iff.2 hnil)
  have hlength : start.length = block.rows := by
    rw [hstart_perm.length_eq, List.length_range]
  have hrun : optimize estimateCardinality block sortDescription permutation =
      (getEqualRanges block sortDescription start).foldl
        (optimizeRange estimateCardinality block (getOtherColumnIndexes block sortDescription)) start := by
    rw [optimize, if_neg (mt List.length_eq_zero_iff.1 hcolumns)]
    rfl
  rw [hrun]
  rcases Nat.eq_zero_or_pos block.rows with hzero | hrows
  · -- without rows nothing moves
    have hnil : (getEqualRanges block sortDescription start).foldl
        (optimizeRange estimateCardinality block (getOtherColumnIndexes block sortDescription)) start = start := by
      unfold getEqualRanges
      split
      · have hsize : (⟨0, block.rows⟩ : EqualRange).size ≤ 1 := by
          rw [hzero]
          decide
        rw [List.foldl_cons, List.foldl_nil, optimizeRange, if_pos hsize]
      · rw [hzero]
        rfl
    rw [hnil]
    refine ⟨hstart_perm, hsorts, fun run hrun => ?_⟩
    have hbound := hrun.bound
    have hne := hrun.nonempty
    omega
  · have hruns := @getEqualRanges_runs _ _ _ _ sortDescription hrows start
    obtain ⟨result, hresult, hrperm, hkey, -, hlex⟩ := @foldl_optimizeRange _ _ _ _ _ estimateCardinality start _ _ hruns.pairwise
      (fun r hr => ⟨(hruns.within hr).2.1, by rw [hlength]; exact (hruns.within hr).2.2⟩)
      (fun r hr i j hi hj => hruns.key_eq hr hi hj) (fun _ _ => rfl)
    rw [hresult]
    refine ⟨hrperm.trans hstart_perm, fun i j hij hj => ?_, fun run hmaximal => ?_⟩
    · rw [hrperm.length_eq] at hj
      exact (hsorts i j hij hj).congr (hkey i) (hkey j)
    · have hsame : (fun i => sortKey block sortDescription (rowAt result i)) =
          fun i => sortKey block sortDescription (rowAt start i) := funext hkey
      rw [hsame] at hmaximal
      refine ⟨columnsFor estimateCardinality block sortDescription (rowsOfRange start run), fun column => ?_, ?_,
        hlex run (hruns.mem_of_maximalRun hmaximal)⟩
      · rw [columnsFor, mem_columnOrder]
        exact mem_getOtherColumnIndexes
      · exact pairwise_columnOrder (pairwise_getOtherColumnIndexes block sortDescription) _

/-- Three rows: a key, a column with two values and one with three. -/
def NamedBlock.threeRows : NamedBlock ℕ where
  columns := [[1, 1, 1], [5, 4, 4], [1, 3, 2]]
  sameRows := by decide
  names := ["key", "a", "b"]
  names_length := rfl

/-- The block is sorted by its key, which the description names twice. -/
theorem optimize_threeRows :
    KeepsOrder (fun column _ => column.dedup.length) .threeRows [⟨"key", inferInstance⟩, ⟨"key", inferInstance⟩] [0, 1, 2]
      (optimize (fun column _ => column.dedup.length) .threeRows [⟨"key", inferInstance⟩, ⟨"key", inferInstance⟩] []) ∧
    optimize (fun column _ => column.dedup.length) .threeRows [⟨"key", inferInstance⟩, ⟨"key", inferInstance⟩] [] =
      [2, 1, 0] := by
  refine ⟨optimize_keepsOrder _ .threeRows (by decide) _ [] (Or.inl rfl) ?_, by decide +kernel⟩
  intro i j hij hj
  change j < 3 at hj
  interval_cases j <;> interval_cases i <;> exact Or.inr ⟨rfl, Or.inr ⟨rfl, trivial⟩⟩

end MergeTree
