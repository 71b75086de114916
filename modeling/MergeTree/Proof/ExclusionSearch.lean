import MergeTree.Spec.ExclusionSearch

/-!
# What the exclusion search finds

A range is split into pieces that tile it from left to right (`tiles_splitRange`), each of
them shorter. So the search terminates and visits, in order, the marks that every range
around them lets through (`run_spec`). Adding these marks one by one covers them and the
gaps between neighbours that are at most `min_marks_for_seek` long (`Merged`).
-/

namespace MergeTree

namespace MarkRange

/-- A part of a range. -/
def Within (r s : MarkRange) : Prop := s.beginMark ≤ r.beginMark ∧ r.beginMark < r.endMark ∧ r.endMark ≤ s.endMark

end MarkRange

namespace ExclusionSearch

/-! ## Pieces -/

/-- The ranges fill the marks from `b` to `e`, from left to right. -/
def Tiles : ℕ → ℕ → List MarkRange → Prop
  | b, e, [] => b = e
  | b, e, range :: ranges => range.beginMark = b ∧ b < range.endMark ∧ Tiles range.endMark e ranges

variable {b e size : ℕ} {pieces stack : List MarkRange} {range piece : MarkRange}

theorem Tiles.le : ∀ {pieces : List MarkRange} {b : ℕ}, Tiles b e pieces → b ≤ e := by
  intro pieces
  induction pieces with
  | nil => exact fun h => Nat.le_of_eq h
  | cons range pieces ih => exact fun h => h.2.1.le.trans (ih h.2.2)

theorem Tiles.flatMap_marks : ∀ {pieces : List MarkRange} {b : ℕ}, Tiles b e pieces →
    pieces.flatMap MarkRange.marks = List.range' b (e - b) := by
  intro pieces
  induction pieces with
  | nil =>
    intro b h
    rw [show b = e from h, Nat.sub_self]
    rfl
  | cons range pieces ih =>
    rintro b ⟨rfl, hlt, hrest⟩
    have hle := hrest.le
    have hnext : range.endMark = range.beginMark + (range.endMark - range.beginMark) := by omega
    rw [List.flatMap_cons, ih hrest]
    unfold MarkRange.marks
    conv_lhs => rw [hnext, Nat.add_sub_cancel_left]
    rw [List.range'_append_1]
    congr 1
    omega

theorem Tiles.mem : ∀ {pieces : List MarkRange} {b : ℕ}, Tiles b e pieces → ∀ piece ∈ pieces,
    b ≤ piece.beginMark ∧ piece.beginMark < piece.endMark ∧ piece.endMark ≤ e := by
  intro pieces
  induction pieces with
  | nil => exact fun _ _ h => absurd h List.not_mem_nil
  | cons range pieces ih =>
    rintro b ⟨rfl, hlt, hrest⟩ piece hpiece
    rcases List.mem_cons.1 hpiece with rfl | hpiece
    · exact ⟨le_rfl, hlt, hrest.le⟩
    · obtain ⟨hb, hlt', he⟩ := ih hrest piece hpiece
      exact ⟨hlt.le.trans hb, hlt', he⟩

theorem Tiles.unique : ∀ {pieces : List MarkRange} {b : ℕ}, Tiles b e pieces → ∀ p ∈ pieces, ∀ q ∈ pieces, ∀ m,
    m ∈ p.marks → m ∈ q.marks → p = q := by
  intro pieces
  induction pieces with
  | nil => exact fun _ _ h => absurd h List.not_mem_nil
  | cons range pieces ih =>
    rintro b ⟨rfl, hlt, hrest⟩ p hp q hq m hmp hmq
    rw [MarkRange.mem_marks] at hmp hmq
    rcases List.mem_cons.1 hp with rfl | hp' <;> rcases List.mem_cons.1 hq with rfl | hq'
    · rfl
    · have hbegin := (hrest.mem q hq').1
      omega
    · have hbegin := (hrest.mem p hp').1
      omega
    · exact ih hrest p hp' q hq' m (MarkRange.mem_marks.2 hmp) (MarkRange.mem_marks.2 hmq)

theorem pushPieces_append (b size : ℕ) : ∀ (e : ℕ) (stack : List MarkRange),
    pushPieces b size e stack = pushPieces b size e [] ++ stack := by
  intro e
  induction e using Nat.strong_induction_on with
  | _ e ih =>
    intro stack
    unfold pushPieces
    split
    · rename_i h
      rw [ih (e - size) (by omega), ih (e - size) (by omega) [_], List.append_assoc]
      rfl
    · rfl

theorem tiles_pushPieces (hsize : 0 < size) : ∀ {e : ℕ}, b < e → Tiles b e (pushPieces b size e []) ∧
    ∀ piece ∈ pushPieces b size e [], piece.endMark - piece.beginMark ≤ size := by
  have hsnoc : ∀ {pieces : List MarkRange} {b m e : ℕ}, Tiles b m pieces → m < e → Tiles b e (pieces ++ [⟨m, e⟩]) := by
    intro pieces
    induction pieces with
    | nil => exact fun h hlt => ⟨h.symm, h ▸ hlt, rfl⟩
    | cons range pieces ih => exact fun h hlt => ⟨h.1, h.2.1, ih h.2.2 hlt⟩
  intro e
  induction e using Nat.strong_induction_on with
  | _ e ih =>
    intro hlt
    unfold pushPieces
    split
    · rename_i h
      obtain ⟨htiles, hshort⟩ := ih (e - size) (by omega) (by omega)
      rw [pushPieces_append]
      refine ⟨hsnoc htiles (by omega), fun piece hpiece => ?_⟩
      rcases List.mem_append.1 hpiece with hpiece | hpiece
      · exact hshort piece hpiece
      · rw [List.mem_singleton.1 hpiece]
        dsimp only
        omega
    · rename_i h
      refine ⟨⟨rfl, hlt, rfl⟩, fun piece hpiece => ?_⟩
      rw [List.mem_singleton.1 hpiece]
      dsimp only
      omega

section Search

variable {coarseIndexGranularity minMarksForSeek : ℕ} {checkInRange : MarkRange → BoolMask → BoolMask}
  {findExactRanges : Bool}

theorem splitRange_append : splitRange coarseIndexGranularity range stack =
    splitRange coarseIndexGranularity range [] ++ stack := pushPieces_append _ _ _ _

/-- **The pieces of a range** of at least two marks tile it, and each of them is shorter. -/
theorem tiles_splitRange (hcoarse : 2 ≤ coarseIndexGranularity) (hlong : range.beginMark + 1 < range.endMark) :
    Tiles range.beginMark range.endMark (splitRange coarseIndexGranularity range []) ∧
      ∀ piece ∈ splitRange coarseIndexGranularity range [],
        piece.endMark - piece.beginMark < range.endMark - range.beginMark := by
  obtain ⟨htiles, hshort⟩ := tiles_pushPieces (b := range.beginMark) (e := range.endMark)
    (Nat.succ_pos ((range.endMark - range.beginMark - 1) / coarseIndexGranularity)) (by omega)
  refine ⟨htiles, fun piece hpiece => ?_⟩
  have hsize := hshort piece hpiece
  have hdiv : (range.endMark - range.beginMark - 1) / coarseIndexGranularity ≤ (range.endMark - range.beginMark - 1) / 2 :=
    Nat.div_le_div_left hcoarse (by norm_num)
  omega

/-! ## The marks that are found -/

/-- Every range around the mark lets it through: the mark itself, and each piece it is in. -/
inductive Reached (coarseIndexGranularity : ℕ) (test : MarkRange → BoolMask) : MarkRange → ℕ → Prop
  | mark {m : ℕ} (h : (test ⟨m, m + 1⟩).canBeTrue = true) : Reached coarseIndexGranularity test ⟨m, m + 1⟩ m
  | piece {range piece : MarkRange} {m : ℕ} (h : (test range).canBeTrue = true) (hlong : range.endMark ≠ range.beginMark + 1)
      (hpiece : piece ∈ splitRange coarseIndexGranularity range []) (hreached : Reached coarseIndexGranularity test piece m) :
      Reached coarseIndexGranularity test range m

variable {test : MarkRange → BoolMask}

theorem Reached.canBeTrue {m : ℕ} (h : Reached coarseIndexGranularity test range m) : (test range).canBeTrue = true := by
  cases h with
  | mark h => exact h
  | piece h _ _ _ => exact h

theorem Reached.mark_canBeTrue {m : ℕ} (h : Reached coarseIndexGranularity test range m) :
    (test ⟨m, m + 1⟩).canBeTrue = true := by
  induction h with
  | mark h => exact h
  | piece _ _ _ _ ih => exact ih

theorem Reached.mem_marks (hcoarse : 2 ≤ coarseIndexGranularity) {m : ℕ} (h : Reached coarseIndexGranularity test range m)
    (hrange : range.beginMark < range.endMark) : m ∈ range.marks := by
  induction h with
  | mark _ => exact MarkRange.mem_marks.2 ⟨le_rfl, Nat.lt_succ_self _⟩
  | piece _ hlong hpiece _ ih =>
    obtain ⟨hbegin, hne, hend⟩ := (tiles_splitRange hcoarse (by omega)).1.mem _ hpiece
    have hmem := MarkRange.mem_marks.1 (ih hne)
    exact MarkRange.mem_marks.2 (by omega)

open Classical in
/-- The marks of a range that are reached, in order. -/
noncomputable def found (coarseIndexGranularity : ℕ) (test : MarkRange → BoolMask) (range : MarkRange) : List ℕ :=
  range.marks.filter fun m => Reached coarseIndexGranularity test range m

open Classical in
theorem mem_found {m : ℕ} : m ∈ found coarseIndexGranularity test range ↔
    m ∈ range.marks ∧ Reached coarseIndexGranularity test range m := by
  unfold found
  rw [List.mem_filter, decide_eq_true_eq]

open Classical in
theorem found_of_not_canBeTrue (h : ¬ (test range).canBeTrue = true) : found coarseIndexGranularity test range = [] := by
  unfold found
  rw [List.filter_eq_nil_iff]
  intro m _ hm
  exact h (of_decide_eq_true hm).canBeTrue

open Classical in
theorem found_of_mark (hmark : range.endMark = range.beginMark + 1) (h : (test range).canBeTrue = true) :
    found coarseIndexGranularity test range = [range.beginMark] := by
  obtain ⟨m, _⟩ := range
  dsimp only at hmark
  subst hmark
  unfold found MarkRange.marks
  dsimp only
  rw [Nat.add_sub_cancel_left, List.range'_one, List.filter_cons_of_pos (by simpa using Reached.mark h)]
  rfl

open Classical in
theorem found_of_split (hcoarse : 2 ≤ coarseIndexGranularity) (hlong : range.beginMark + 1 < range.endMark)
    (h : (test range).canBeTrue = true) : found coarseIndexGranularity test range =
      (splitRange coarseIndexGranularity range []).flatMap (found coarseIndexGranularity test) := by
  obtain ⟨htiles, -⟩ := tiles_splitRange hcoarse hlong
  have hmarks : range.marks = (splitRange coarseIndexGranularity range []).flatMap MarkRange.marks :=
    htiles.flatMap_marks.symm
  unfold found
  rw [hmarks, List.filter_flatMap]
  refine List.flatMap_congr fun piece hpiece => List.filter_congr fun m hm => ?_
  rw [decide_eq_decide]
  constructor
  · intro hreached
    cases hreached with
    | mark h => dsimp only at hlong; omega
    | piece _ _ hpiece' hreached =>
      have hmem := hreached.mem_marks hcoarse (htiles.mem _ hpiece').2.1
      rwa [htiles.unique piece hpiece _ hpiece' m hm hmem]
  · exact fun hreached => .piece h (by omega) hpiece hreached

/-! ## The loop -/

/-- A mark is added as a range of its own. -/
def addMark (minMarksForSeek : ℕ) (ranges : MarkRanges) (m : ℕ) : MarkRanges := ranges.pushRange minMarksForSeek ⟨m, m + 1⟩

/-- The test of a mark cannot be false. -/
def exact (test : MarkRange → BoolMask) (m : ℕ) : Bool := !(test ⟨m, m + 1⟩).canBeFalse

/-- The state after these marks were found. -/
def afterMarks (minMarksForSeek : ℕ) (test : MarkRange → BoolMask) (search : ExclusionSearch) (ms : List ℕ) : ExclusionSearch where
  rangesStack := []
  res := ms.foldl (addMark minMarksForSeek) search.res
  exactRanges := search.exactRanges.map fun exactRanges => (ms.filter (exact test)).foldl (addMark minMarksForSeek) exactRanges

/-- Twice the marks of the stack, less its ranges: a bound on the steps that are left. -/
def weight (stack : List MarkRange) : ℕ := (stack.map fun range => 2 * (range.endMark - range.beginMark) - 1).sum

theorem weight_append (a b : List MarkRange) : weight (a ++ b) = weight a + weight b := by
  unfold weight
  rw [List.map_append, List.sum_append]

theorem weight_tiles : ∀ {pieces : List MarkRange} {b : ℕ}, Tiles b e pieces → weight pieces + pieces.length = 2 * (e - b) := by
  intro pieces
  induction pieces with
  | nil =>
    intro b h
    rw [show b = e from h]
    simp [weight]
  | cons range pieces ih =>
    rintro b ⟨rfl, hlt, hrest⟩
    have hle := hrest.le
    have hweight := ih hrest
    unfold weight at hweight ⊢
    rw [List.map_cons, List.sum_cons, List.length_cons]
    omega

theorem one_lt_length_splitRange (hcoarse : 2 ≤ coarseIndexGranularity) (hlong : range.beginMark + 1 < range.endMark) :
    1 < (splitRange coarseIndexGranularity range []).length := by
  obtain ⟨htiles, hshort⟩ := tiles_splitRange hcoarse hlong
  by_contra hnot
  match hsplit : splitRange coarseIndexGranularity range [] with
  | [] =>
    rw [hsplit] at htiles
    have heq : range.beginMark = range.endMark := htiles
    omega
  | [piece] =>
    rw [hsplit] at htiles hshort
    obtain ⟨hbegin, -, hend⟩ := htiles
    have hend : piece.endMark = range.endMark := hend
    have hsize := hshort piece List.mem_cons_self
    omega
  | first :: second :: rest =>
    rw [hsplit] at hnot
    simp at hnot

/-- **The loop** terminates, and adds the marks that are found on the stack in order. -/
theorem run_spec (hcoarse : 2 ≤ coarseIndexGranularity) (htest : test = testRange checkInRange findExactRanges) :
    ∀ {steps : ℕ} {search : ExclusionSearch}, search.exactRanges.isSome = findExactRanges →
      (∀ range ∈ search.rangesStack, range.beginMark < range.endMark) → weight search.rangesStack ≤ steps →
      run coarseIndexGranularity minMarksForSeek checkInRange steps search =
        some (afterMarks minMarksForSeek test search (search.rangesStack.flatMap (found coarseIndexGranularity test))) := by
  have hempty : ∀ {search : ExclusionSearch}, search.rangesStack = [] →
      search = afterMarks minMarksForSeek test search (search.rangesStack.flatMap (found coarseIndexGranularity test)) := by
    rintro ⟨stack, res, exactRanges⟩ rfl
    unfold afterMarks
    cases exactRanges <;> rfl
  have hnil : ∀ {search : ExclusionSearch}, (∀ range ∈ search.rangesStack, range.beginMark < range.endMark) →
      weight search.rangesStack = 0 → search.rangesStack = [] := by
    rintro ⟨stack, res, exactRanges⟩ hne hzero
    cases stack with
    | nil => rfl
    | cons range stack =>
      have hrange := hne range List.mem_cons_self
      unfold weight at hzero
      rw [List.map_cons, List.sum_cons] at hzero
      omega
  intro steps
  induction steps with
  | zero =>
    intro search _ hne hweight
    have hstack := hnil hne (Nat.le_zero.1 hweight)
    unfold run
    rw [hstack, List.isEmpty_nil, if_pos rfl, ← hstack, ← hempty hstack]
  | succ steps ih =>
    intro search hsome hne hweight
    unfold run
    rcases search with ⟨stack, res, exactRanges⟩
    cases stack with
    | nil => exact congrArg some (hempty rfl)
    | cons range stack =>
      have hrange : range.beginMark < range.endMark := hne range List.mem_cons_self
      have hstack : ∀ range ∈ stack, range.beginMark < range.endMark := fun r hr => hne r (List.mem_cons_of_mem _ hr)
      have hsplit : weight (range :: stack) = 2 * (range.endMark - range.beginMark) - 1 + weight stack := by
        unfold weight
        rw [List.map_cons, List.sum_cons]
      rw [hsplit] at hweight
      dsimp only at hsome
      rw [List.isEmpty_cons, if_neg Bool.false_ne_true, List.flatMap_cons]
      have hresult : testRange checkInRange exactRanges.isSome range = test range := by rw [htest, hsome]
      unfold step
      dsimp only
      rw [hresult]
      by_cases htrue : (test range).canBeTrue = true
      · rw [if_neg (not_not.2 htrue)]
        by_cases hmark : range.endMark = range.beginMark + 1
        · -- a single mark
          rw [if_pos hmark, found_of_mark hmark htrue]
          have hself : range = ⟨range.beginMark, range.beginMark + 1⟩ := by
            rw [← hmark]
          refine (ih (by rw [Option.isSome_map]; exact hsome) hstack (by dsimp only; omega)).trans ?_
          unfold afterMarks
          dsimp only
          rw [List.foldl_append, List.filter_append, Option.map_map]
          have hadd : MarkRanges.pushRange minMarksForSeek res range = addMark minMarksForSeek res range.beginMark := by
            conv_lhs => rw [hself]
            rfl
          have hexact : ∀ exactRanges, (if (test range).canBeFalse = true then exactRanges
              else MarkRanges.pushRange minMarksForSeek exactRanges range) =
                ([range.beginMark].filter (exact test)).foldl (addMark minMarksForSeek) exactRanges := by
            intro exactRanges
            unfold exact
            rw [List.filter_singleton, ← hself]
            cases (test range).canBeFalse with
            | true => rfl
            | false =>
              conv_lhs => rw [hself]
              rfl
          simp only [hadd, Function.comp_def, hexact, List.foldl_append, List.foldl_cons, List.foldl_nil]
        · -- the pieces of a longer segment
          have hlong : range.beginMark + 1 < range.endMark := by omega
          obtain ⟨htiles, -⟩ := tiles_splitRange hcoarse hlong
          have hpieces := weight_tiles htiles
          have hmany := one_lt_length_splitRange hcoarse hlong
          rw [if_neg hmark, splitRange_append, found_of_split hcoarse hlong htrue]
          refine (ih hsome (fun r hr => ?_) (by dsimp only; rw [weight_append]; omega)).trans ?_
          · rcases List.mem_append.1 hr with hr | hr
            · exact (htiles.mem r hr).2.1
            · exact hstack r hr
          · dsimp only
            rw [List.flatMap_append]
            rfl
      · rw [if_pos htrue, found_of_not_canBeTrue htrue, List.nil_append]
        exact ih hsome hstack (by dsimp only; omega)

/-- **All ranges**: the loop terminates for each, and the marks found are added in order. -/
theorem runAll_spec (hcoarse : 2 ≤ coarseIndexGranularity) (htest : test = testRange checkInRange findExactRanges)
    {ranges : MarkRanges} (hranges : ∀ range ∈ ranges, range.beginMark < range.endMark) {steps : ℕ}
    (hsteps : weight ranges ≤ steps) :
    runAll coarseIndexGranularity minMarksForSeek checkInRange steps ranges findExactRanges =
      some (afterMarks minMarksForSeek test ⟨[], [], if findExactRanges then some [] else none⟩
        (ranges.flatMap (found coarseIndexGranularity test))) := by
  have hloop : ∀ {ranges : MarkRanges} {search : ExclusionSearch}, search.rangesStack = [] →
      search.exactRanges.isSome = findExactRanges → (∀ range ∈ ranges, range.beginMark < range.endMark) →
      weight ranges ≤ steps →
      ranges.foldlM (fun search range =>
        run coarseIndexGranularity minMarksForSeek checkInRange steps { search with rangesStack := [range] }) search =
        some (afterMarks minMarksForSeek test search (ranges.flatMap (found coarseIndexGranularity test))) := by
    intro ranges
    induction ranges with
    | nil =>
      rintro ⟨stack, res, exactRanges⟩ rfl _ _ _
      unfold afterMarks
      cases exactRanges <;> rfl
    | cons range ranges ih =>
      intro search hstack hsome hne hweight
      have hsplit : weight (range :: ranges) = weight [range] + weight ranges := weight_append [range] ranges
      have hfirst : run coarseIndexGranularity minMarksForSeek checkInRange steps { search with rangesStack := [range] } =
          some (afterMarks minMarksForSeek test { search with rangesStack := [range] }
            ([range].flatMap (found coarseIndexGranularity test))) :=
        run_spec hcoarse htest hsome (fun r hr => hne r (List.mem_singleton.1 hr ▸ List.mem_cons_self)) (by dsimp only; omega)
      rw [List.foldlM_cons, hfirst, Option.bind_eq_bind, Option.bind_some]
      refine (ih rfl (by unfold afterMarks; rw [Option.isSome_map]; exact hsome) (fun r hr => hne r (List.mem_cons_of_mem _ hr))
        (by omega)).trans ?_
      unfold afterMarks
      dsimp only
      rw [List.flatMap_cons, List.flatMap_cons, List.flatMap_nil, List.append_nil, List.foldl_append, List.filter_append,
        Option.map_map]
      simp only [Function.comp_def, List.foldl_append]
  unfold runAll
  refine hloop rfl ?_ hranges hsteps
  cases findExactRanges <;> rfl

end Search

/-! ## Adding marks -/

section Merge

variable {minMarksForSeek : ℕ} {ms : List ℕ} {ranges : MarkRanges}

/-- A mark among `ms`, or in a gap between neighbours that is at most `min_marks_for_seek` long. -/
def Covered (minMarksForSeek : ℕ) (ms : List ℕ) (m : ℕ) : Prop :=
  m ∈ ms ∨ ∃ a ∈ ms, ∃ b ∈ ms, a < m ∧ m < b ∧ (∀ c ∈ ms, ¬ (a < c ∧ c < b)) ∧ b ≤ a + 1 + minMarksForSeek

/-- The ranges after the marks `ms`. -/
structure Merged (minMarksForSeek : ℕ) (ms : List ℕ) (ranges : MarkRanges) : Prop where
  nonempty : ∀ range ∈ ranges, range.beginMark < range.endMark
  apart : ranges.Pairwise fun r s => r.endMark + minMarksForSeek < s.beginMark
  covers : ∀ m, ranges.Covers m ↔ Covered minMarksForSeek ms m
  nil : ranges = [] → ms = []
  last : ∀ range, ranges.getLast? = some range → ∃ e ∈ ms, range.endMark = e + 1 ∧ ∀ c ∈ ms, c ≤ e

theorem Merged.start : Merged minMarksForSeek [] [] := by
  refine ⟨nofun, .nil, fun m => ⟨fun h => ?_, fun h => ?_⟩, fun _ => rfl, nofun⟩
  · obtain ⟨range, hrange, -⟩ := h
    cases hrange
  · rcases h with h | ⟨a, h, -⟩ <;> cases h

theorem covered_append {e m : ℕ} (he : e ∈ ms) (hmax : ∀ c ∈ ms, c ≤ e) (hlt : e < m) (x : ℕ) :
    Covered minMarksForSeek (ms ++ [m]) x ↔
      Covered minMarksForSeek ms x ∨ x = m ∨ (e < x ∧ x < m ∧ m ≤ e + 1 + minMarksForSeek) := by
  have hmem : ∀ c, c ∈ ms ++ [m] ↔ c ∈ ms ∨ c = m := by simp
  constructor
  · rintro (h | ⟨a, ha, b, hb, hax, hxb, hnone, hgap⟩)
    · rcases (hmem x).1 h with h | h
      · exact Or.inl (Or.inl h)
      · exact Or.inr (Or.inl h)
    · have hea : a ≠ m := by
        rintro rfl
        rcases (hmem b).1 hb with hb | rfl
        · have hle := hmax b hb
          omega
        · omega
      have hams := ((hmem a).1 ha).resolve_right hea
      rcases (hmem b).1 hb with hb | rfl
      · exact Or.inl (Or.inr ⟨a, hams, b, hb, hax, hxb, fun c hc => hnone c ((hmem c).2 (Or.inl hc)), hgap⟩)
      · -- the gap before the new mark starts at `e`
        have hae : a = e := by
          have hle := hmax a hams
          have hnot := hnone e ((hmem e).2 (Or.inl he))
          omega
        exact Or.inr (Or.inr (by omega))
  · rintro ((h | ⟨a, ha, b, hb, hax, hxb, hnone, hgap⟩) | rfl | ⟨hex, hxm, hgap⟩)
    · exact Or.inl ((hmem x).2 (Or.inl h))
    · refine Or.inr ⟨a, (hmem a).2 (Or.inl ha), b, (hmem b).2 (Or.inl hb), hax, hxb, fun c hc => ?_, hgap⟩
      rcases (hmem c).1 hc with hc | rfl
      · exact hnone c hc
      · have hle := hmax b hb
        omega
    · exact Or.inl ((hmem x).2 (Or.inr rfl))
    · refine Or.inr ⟨e, (hmem e).2 (Or.inl he), m, (hmem m).2 (Or.inr rfl), hex, hxm, fun c hc => ?_, hgap⟩
      rcases (hmem c).1 hc with hc | rfl
      · have hle := hmax c hc
        omega
      · omega

theorem Merged.addMark (h : Merged minMarksForSeek ms ranges) {m : ℕ} (hafter : ∀ c ∈ ms, c < m) (hsize : m < 2 ^ 64) :
    Merged minMarksForSeek (ms ++ [m]) (addMark minMarksForSeek ranges m) := by
  have hle : ∀ c ∈ ms ++ [m], c ≤ m := by
    intro c hc
    rcases List.mem_append.1 hc with hc | hc
    · exact (hafter c hc).le
    · rw [List.mem_singleton.1 hc]
  have hlast : ∀ range : MarkRange, range.endMark = m + 1 →
      ∃ e ∈ ms ++ [m], range.endMark = e + 1 ∧ ∀ c ∈ ms ++ [m], c ≤ e :=
    fun range hend => ⟨m, List.mem_append_right _ List.mem_cons_self, hend, hle⟩
  unfold ExclusionSearch.addMark MarkRanges.pushRange
  rcases List.eq_nil_or_concat ranges with rfl | ⟨init, last, rfl⟩
  · -- the first mark
    obtain rfl := h.nil rfl
    refine ⟨fun range hrange => ?_, List.pairwise_singleton _ _, fun x => ?_, nofun, fun range hrange => ?_⟩
    · rw [List.mem_singleton.1 hrange]
      exact Nat.lt_succ_self m
    · rw [List.getLast?_nil]
      dsimp only
      rw [MarkRanges.covers_singleton, List.nil_append]
      unfold Covered
      simp only [List.mem_singleton]
      constructor
      · rintro ⟨hle, hlt⟩
        exact Or.inl (by omega)
      · rintro (rfl | ⟨a, rfl, b, rfl, hax, hxb, -⟩) <;> omega
    · obtain rfl : (⟨m, m + 1⟩ : MarkRange) = range := by simpa using hrange
      exact hlast _ rfl
  · rw [List.concat_eq_append] at h ⊢
    obtain ⟨e, he, hend, hmax⟩ := h.last last List.getLast?_concat
    have hlt := hafter e he
    have hdistance : subSize m last.endMark = m - last.endMark := subSize_of_le (by omega) hsize
    obtain ⟨hinit, -, hbefore⟩ := List.pairwise_append.1 h.apart
    have hbefore : ∀ r ∈ init, r.endMark + minMarksForSeek < last.beginMark := fun r hr => hbefore r hr last List.mem_cons_self
    have hlastRange := h.nonempty last (List.mem_append_right _ List.mem_cons_self)
    rw [List.getLast?_concat]
    dsimp only
    rw [hdistance]
    by_cases hfar : minMarksForSeek < m - last.endMark
    · rw [if_pos hfar]
      refine ⟨fun range hrange => ?_, ?_, fun x => ?_, fun hnil => by simp at hnil, fun range hrange => ?_⟩
      · rcases List.mem_append.1 hrange with hrange | hrange
        · exact h.nonempty range hrange
        · rw [List.mem_singleton.1 hrange]
          exact Nat.lt_succ_self m
      · refine List.pairwise_append.2 ⟨h.apart, List.pairwise_singleton _ _, fun r hr s hs => ?_⟩
        rw [List.mem_singleton.1 hs]
        rcases List.mem_append.1 hr with hr | hr
        · have hr := hbefore r hr
          dsimp only
          omega
        · rw [List.mem_singleton.1 hr]
          dsimp only
          omega
      · rw [covered_append he hmax hlt, ← h.covers]
        rw [MarkRanges.covers_append, MarkRanges.covers_singleton]
        refine or_congr_right ?_
        dsimp only
        omega
      · obtain rfl : (⟨m, m + 1⟩ : MarkRange) = range := by simpa using hrange
        exact hlast _ rfl
    · rw [if_neg hfar, List.dropLast_concat]
      refine ⟨fun range hrange => ?_, ?_, fun x => ?_, fun hnil => by simp at hnil, fun range hrange => ?_⟩
      · rcases List.mem_append.1 hrange with hrange | hrange
        · exact h.nonempty range (List.mem_append_left _ hrange)
        · rw [List.mem_singleton.1 hrange]
          dsimp only
          omega
      · refine List.pairwise_append.2 ⟨hinit, List.pairwise_singleton _ _, fun r hr s hs => ?_⟩
        rw [List.mem_singleton.1 hs]
        exact hbefore r hr
      · rw [covered_append he hmax hlt, ← h.covers]
        rw [MarkRanges.covers_append, MarkRanges.covers_append, MarkRanges.covers_singleton, MarkRanges.covers_singleton, or_assoc]
        refine or_congr_right ?_
        dsimp only
        omega
      · obtain rfl : { last with endMark := m + 1 } = range := by simpa using hrange
        exact hlast _ rfl

/-- **The ranges** cover the marks and the small gaps between them. -/
theorem merged_foldl (hascending : ms.Pairwise (· < ·)) (hsize : ∀ m ∈ ms, m < 2 ^ 64) :
    Merged minMarksForSeek ms (ms.foldl (addMark minMarksForSeek) []) := by
  induction ms using List.reverseRecOn with
  | nil => exact Merged.start
  | append_singleton ms m ih =>
    obtain ⟨hms, -, hafter⟩ := List.pairwise_append.1 hascending
    rw [List.foldl_append]
    exact (ih hms fun c hc => hsize c (List.mem_append_left _ hc)).addMark (fun c hc => hafter c hc m List.mem_cons_self)
      (hsize m (List.mem_append_right _ List.mem_cons_self))

end Merge

/-! ## The claims on the branch -/

section Result

variable {coarseIndexGranularity minMarksForSeek : ℕ} {checkInRange : MarkRange → BoolMask → BoolMask}
  {findExactRanges : Bool} {ranges : MarkRanges} {test : MarkRange → BoolMask}

/-- The marks that are found in the ranges, in order. -/
noncomputable def foundAll (coarseIndexGranularity : ℕ) (test : MarkRange → BoolMask) (ranges : MarkRanges) : List ℕ :=
  ranges.flatMap (found coarseIndexGranularity test)

theorem mem_foundAll {m : ℕ} : m ∈ foundAll coarseIndexGranularity test ranges ↔
    ∃ range ∈ ranges, m ∈ range.marks ∧ Reached coarseIndexGranularity test range m := by
  unfold foundAll
  rw [List.mem_flatMap]
  simp only [mem_found]

theorem ascending_foundAll (hranges : ranges.Sorted) : (foundAll coarseIndexGranularity test ranges).Pairwise (· < ·) := by
  refine List.pairwise_flatMap.2 ⟨fun range _ => ?_, hranges.sorted.imp_of_mem fun hr hs hrs m hm m' hm' => ?_⟩
  · exact (List.pairwise_lt_range' _).sublist List.filter_sublist
  · have hm := MarkRange.mem_marks.1 (mem_found.1 hm).1
    have hm' := MarkRange.mem_marks.1 (mem_found.1 hm').1
    omega

theorem reached_of_around (hcoarse : 2 ≤ coarseIndexGranularity) {m e : ℕ}
    (htrue : ∀ s : MarkRange, m ∈ s.marks → s.endMark ≤ e → (test s).canBeTrue = true) :
    ∀ {range : MarkRange}, m ∈ range.marks → range.endMark ≤ e → Reached coarseIndexGranularity test range m := by
  have hlength : ∀ (n : ℕ) (range : MarkRange), range.endMark - range.beginMark = n → m ∈ range.marks → range.endMark ≤ e →
      Reached coarseIndexGranularity test range m := by
    intro n
    induction n using Nat.strong_induction_on with
    | _ n ih =>
      intro range hn hm he
      have hmem := MarkRange.mem_marks.1 hm
      by_cases hmark : range.endMark = range.beginMark + 1
      · obtain rfl : range = ⟨m, m + 1⟩ := by
          rw [show range = ⟨range.beginMark, range.endMark⟩ from rfl, hmark, show range.beginMark = m by omega]
        exact .mark (htrue _ hm he)
      · have hlong : range.beginMark + 1 < range.endMark := by omega
        obtain ⟨htiles, hshort⟩ := tiles_splitRange hcoarse hlong
        have hmarks : m ∈ (splitRange coarseIndexGranularity range []).flatMap MarkRange.marks := by
          rw [htiles.flatMap_marks]
          exact hm
        obtain ⟨piece, hpiece, hmpiece⟩ := List.mem_flatMap.1 hmarks
        exact .piece (htrue range hm he) hmark hpiece
          (ih _ (hn ▸ hshort piece hpiece) piece rfl hmpiece ((htiles.mem piece hpiece).2.2.trans he))
  exact fun {range} hm he => hlength _ range rfl hm he

theorem reached_of_canBeTrue (hcoarse : 2 ≤ coarseIndexGranularity)
    (hmonotone : ∀ r s : MarkRange, r.Within s → (test r).canBeTrue = true → (test s).canBeTrue = true) {m : ℕ}
    (htrue : (test ⟨m, m + 1⟩).canBeTrue = true) {range : MarkRange} (hm : m ∈ range.marks) :
    Reached coarseIndexGranularity test range m := by
  refine reached_of_around hcoarse (fun s hs _ => hmonotone ⟨m, m + 1⟩ s ?_ htrue) hm le_rfl
  have hmem := MarkRange.mem_marks.1 hs
  exact ⟨hmem.1, Nat.lt_succ_self m, hmem.2⟩

theorem markRanges_spec (minMarksForSeek : ℕ) (hcoarse : 2 ≤ coarseIndexGranularity) (hranges : ranges.Sorted)
    (hsize : ∀ range ∈ ranges, range.endMark < 2 ^ 64) (htest : test = testRange checkInRange findExactRanges) :
    ∃ res exactRanges, (∀ steps, weight ranges ≤ steps →
        markRanges coarseIndexGranularity minMarksForSeek checkInRange steps ranges findExactRanges =
          .ok (some (res, if findExactRanges then some exactRanges else none))) ∧
      Merged minMarksForSeek (foundAll coarseIndexGranularity test ranges) res ∧
      Merged minMarksForSeek ((foundAll coarseIndexGranularity test ranges).filter (exact test)) exactRanges := by
  have hascending : (foundAll coarseIndexGranularity test ranges).Pairwise (· < ·) := ascending_foundAll hranges
  have hbound : ∀ m ∈ foundAll coarseIndexGranularity test ranges, m < 2 ^ 64 := by
    intro m hm
    obtain ⟨range, hrange, hmem, -⟩ := mem_foundAll.1 hm
    exact (MarkRange.mem_marks.1 hmem).2.trans (hsize range hrange)
  refine ⟨_, _, fun steps hsteps => ?_, merged_foldl hascending hbound,
    merged_foldl (hascending.sublist List.filter_sublist) fun m hm => hbound m (List.mem_filter.1 hm).1⟩
  unfold markRanges
  rw [if_neg (by omega), runAll_spec hcoarse htest hranges.nonempty hsteps]
  unfold afterMarks
  cases findExactRanges <;> rfl

/-- **Completeness and termination**: enough steps give sorted, disjoint ranges that contain every mark whose
test can be true, and no other mark if nothing is read to save a seek. -/
theorem markRanges_complete (hcoarse : 2 ≤ coarseIndexGranularity) (hranges : ranges.Sorted) {marksCount : ℕ}
    (hmarks : ∀ range ∈ ranges, range.endMark ≤ marksCount) (hcount : marksCount < 2 ^ 64)
    (hmonotone : ∀ r s : MarkRange, r.Within s → (testRange checkInRange findExactRanges r).canBeTrue = true →
      (testRange checkInRange findExactRanges s).canBeTrue = true) :
    ∃ (res : MarkRanges) (exactRanges : Option MarkRanges) (enough : ℕ), (∀ steps, enough ≤ steps →
        markRanges coarseIndexGranularity minMarksForSeek checkInRange steps ranges findExactRanges =
          .ok (some (res, exactRanges))) ∧
      res.Sorted ∧
      (∀ m, MarkRanges.Covers ranges m → (testRange checkInRange findExactRanges ⟨m, m + 1⟩).canBeTrue = true → MarkRanges.Covers res m) ∧
      (minMarksForSeek = 0 → ∀ m, MarkRanges.Covers res m →
        MarkRanges.Covers ranges m ∧ (testRange checkInRange findExactRanges ⟨m, m + 1⟩).canBeTrue = true) := by
  obtain ⟨res, exactRanges, hrun, hres, -⟩ := markRanges_spec minMarksForSeek hcoarse hranges
    (fun range hrange => (hmarks range hrange).trans_lt hcount) (rfl : testRange checkInRange findExactRanges = _)
  refine ⟨res, _, weight ranges, hrun, ⟨hres.nonempty, hres.apart.imp fun h => by omega⟩, fun m hm htrue => ?_,
    fun hzero m hm => ?_⟩
  · obtain ⟨range, hrange, hmem⟩ := hm
    exact (hres.covers m).2 (Or.inl (mem_foundAll.2 ⟨range, hrange, MarkRange.mem_marks.2 hmem,
      reached_of_canBeTrue hcoarse hmonotone htrue (MarkRange.mem_marks.2 hmem)⟩))
  · rcases (hres.covers m).1 hm with hfound | ⟨a, -, b, -, hax, hxb, -, hgap⟩
    · obtain ⟨range, hrange, hmem, hreached⟩ := mem_foundAll.1 hfound
      exact ⟨⟨range, hrange, MarkRange.mem_marks.1 hmem⟩, hreached.mark_canBeTrue⟩
    · omega

/-- A mark of the ranges all of whose rows match, and that the search reaches. -/
def ExactMark (coarseIndexGranularity : ℕ) (test : MarkRange → BoolMask) (ranges : MarkRanges) (m : ℕ) : Prop :=
  (∃ range ∈ ranges, m ∈ range.marks ∧ Reached coarseIndexGranularity test range m) ∧ (test ⟨m, m + 1⟩).canBeFalse = false

/-- **When the exact ranges are exact**: if between neighbouring exact marks that are at most
`min_marks_for_seek` apart all marks match. -/
theorem markRanges_exact_iff (hcoarse : 2 ≤ coarseIndexGranularity) (hranges : ranges.Sorted)
    (hsize : ∀ range ∈ ranges, range.endMark < 2 ^ 64) :
    ∃ (res exactRanges : MarkRanges) (enough : ℕ), (∀ steps, enough ≤ steps →
        markRanges coarseIndexGranularity minMarksForSeek checkInRange steps ranges true =
          .ok (some (res, some exactRanges))) ∧
      ((∀ m, MarkRanges.Covers exactRanges m → MarkRanges.Covers ranges m ∧ testRange checkInRange true ⟨m, m + 1⟩ = ⟨true, false⟩) ↔
        ∀ a b, ExactMark coarseIndexGranularity (testRange checkInRange true) ranges a →
          ExactMark coarseIndexGranularity (testRange checkInRange true) ranges b →
          (∀ c, ExactMark coarseIndexGranularity (testRange checkInRange true) ranges c → ¬ (a < c ∧ c < b)) →
          b ≤ a + 1 + minMarksForSeek → ∀ m, a < m → m < b →
            MarkRanges.Covers ranges m ∧ testRange checkInRange true ⟨m, m + 1⟩ = ⟨true, false⟩) := by
  obtain ⟨res, exactRanges, hrun, -, hexact⟩ := markRanges_spec minMarksForSeek hcoarse hranges
    hsize (rfl : testRange checkInRange true = _)
  refine ⟨res, exactRanges, weight ranges, hrun, ?_⟩
  have hmem : ∀ m, m ∈ (foundAll coarseIndexGranularity (testRange checkInRange true) ranges).filter
      (exact (testRange checkInRange true)) ↔ ExactMark coarseIndexGranularity (testRange checkInRange true) ranges m := by
    intro m
    rw [List.mem_filter, mem_foundAll]
    unfold exact ExactMark
    rw [Bool.not_eq_true']
  have hcovers : ∀ m, MarkRanges.Covers exactRanges m ↔ _ := hexact.covers
  constructor
  · intro h a b ha hb hnone hgap m ham hmb
    refine h m ((hcovers m).2 (Or.inr ⟨a, (hmem a).2 ha, b, (hmem b).2 hb, ham, hmb, fun c hc => ?_, hgap⟩))
    exact hnone c ((hmem c).1 hc)
  · intro h m hm
    rcases (hcovers m).1 hm with hfound | ⟨a, ha, b, hb, ham, hmb, hnone, hgap⟩
    · obtain ⟨⟨range, hrange, hmark, hreached⟩, hfalse⟩ := (hmem m).1 hfound
      refine ⟨⟨range, hrange, MarkRange.mem_marks.1 hmark⟩, ?_⟩
      have htrue := hreached.mark_canBeTrue
      cases hresult : testRange checkInRange true ⟨m, m + 1⟩
      rw [hresult] at htrue hfalse
      dsimp only at htrue hfalse
      rw [htrue, hfalse]
    · exact h a b ((hmem a).1 ha) ((hmem b).1 hb) (fun c hc => hnone c ((hmem c).2 hc)) hgap m ham hmb

end Result

/-! ## A gap of one mark -/

/-- Marks 0 and 2 match, mark 1 does not. -/
def gapTest (range : MarkRange) (mask : BoolMask) : BoolMask :=
  if range.endMark = range.beginMark + 1 then if range.beginMark = 1 then ⟨false, true⟩ else ⟨true, mask.canBeFalse⟩
  else ⟨true, true⟩

theorem gapTest_monotone (r s : MarkRange) (h : r.Within s) (htrue : (testRange gapTest true r).canBeTrue = true) :
    (testRange gapTest true s).canBeTrue = true := by
  obtain ⟨hbegin, hne, hend⟩ := h
  unfold testRange gapTest at htrue ⊢
  by_cases hs : s.endMark = s.beginMark + 1
  · obtain rfl : r = s := by
      cases r
      cases s
      dsimp only at hbegin hne hend hs
      rw [MarkRange.mk.injEq]
      omega
    exact htrue
  · rw [if_neg hs]

theorem threeMarks_sorted : MarkRanges.Sorted [⟨0, 3⟩] := ⟨by decide, List.pairwise_singleton _ _⟩

/-- The search over three marks finds the two that match. -/
theorem markRanges_complete_gap : ∃ (res : MarkRanges) (exactRanges : Option MarkRanges) (enough : ℕ),
    (∀ steps, enough ≤ steps → markRanges 8 0 gapTest steps [⟨0, 3⟩] true = .ok (some (res, exactRanges))) ∧
      MarkRanges.Covers res 0 ∧ ¬ MarkRanges.Covers res 1 ∧ MarkRanges.Covers res 2 := by
  obtain ⟨res, exactRanges, enough, hrun, -, hcomplete, honly⟩ := @markRanges_complete 8 0 gapTest true [⟨0, 3⟩]
    (by decide) threeMarks_sorted 3 (by decide) (by decide) gapTest_monotone
  refine ⟨res, exactRanges, enough, hrun, hcomplete 0 ⟨_, List.mem_cons_self, by decide⟩ (by decide), fun h => ?_,
    hcomplete 2 ⟨_, List.mem_cons_self, by decide⟩ (by decide)⟩
  exact absurd (honly rfl 1 h).2 (by decide)

/-- With no gap to save a seek, the exact ranges are exact. -/
theorem markRanges_exact_iff_noGap : ∃ (res exactRanges : MarkRanges) (enough : ℕ), (∀ steps, enough ≤ steps →
    markRanges 8 0 gapTest steps [⟨0, 3⟩] true = .ok (some (res, some exactRanges))) ∧
      ∀ m, MarkRanges.Covers exactRanges m → MarkRanges.Covers [⟨0, 3⟩] m ∧ testRange gapTest true ⟨m, m + 1⟩ = ⟨true, false⟩ := by
  obtain ⟨res, exactRanges, enough, hrun, hiff⟩ := @markRanges_exact_iff 8 0 gapTest [⟨0, 3⟩] (by decide) threeMarks_sorted
    (by decide)
  exact ⟨res, exactRanges, enough, hrun, hiff.2 fun a b _ _ _ hgap m ham hmb => by omega⟩

/-- Mark 1 is swallowed. -/
theorem markRanges_exact_gap :
    markRanges 8 1 gapTest 5 [⟨0, 3⟩] true = .ok (some ([⟨0, 3⟩], some [⟨0, 3⟩])) ∧
      testRange gapTest true ⟨1, 2⟩ = ⟨false, true⟩ := by
  decide +kernel

end ExclusionSearch

end MergeTree
