import MergeTree.Lib.Lists
import MergeTree.Spec.PatchReader

/-!
# The results that are kept cover the block

A range of a patch part is summarised by the greatest offset of the source part in it
(`maxPartOffset_of_mem`), and by zero when it has no row of the source part
(`maxPartOffset_of_lt`). Zero is also the offset of the first row.

* `Keeps`: what has been dropped lies before the current block. It holds in every state.
* `Reaches`: what has not been read yet lies after the current block.
* `complete_iff`: every block finds each of its patch rows in exactly one result, unless the first
  block is the row with offset zero, the first range has no row of the source part and a later one
  has that row: then the reader takes the zero of the first range for the offset of the row.
-/

namespace MergeTree

/-! ## Sorted names -/

theorem exists_split {α κ : Type} [LinearOrder κ] {key : α → κ} {l : List α}
    (h : l.Pairwise fun a b => key a ≤ key b) (s : κ) :
    ∃ before at_ after, l = before ++ (at_ ++ after) ∧ (∀ a ∈ before, key a < s) ∧ (∀ a ∈ at_, key a = s) ∧
      ∀ a ∈ after, s < key a := by
  induction l with
  | nil => exact ⟨[], [], [], rfl, nofun, nofun, nofun⟩
  | cons a l ih =>
    obtain ⟨hle, hl⟩ := List.pairwise_cons.1 h
    obtain ⟨before, at_, after, rfl, hbefore, hat, hafter⟩ := ih hl
    rcases lt_trichotomy (key a) s with hlt | heq | hgt
    · refine ⟨a :: before, at_, after, rfl, ?_, hat, hafter⟩
      exact List.forall_mem_cons.2 ⟨hlt, hbefore⟩
    · -- nothing stands before the key
      have hnil : before = [] := List.eq_nil_iff_forall_not_mem.2 fun b hb =>
        absurd (hbefore b hb) (by rw [← heq]; exact not_lt.2 (hle b (List.mem_append_left _ hb)))
      subst hnil
      exact ⟨[], a :: at_, after, rfl, nofun, List.forall_mem_cons.2 ⟨heq, hat⟩, hafter⟩
    · have hnil : before ++ at_ = [] := List.eq_nil_iff_forall_not_mem.2 fun b hb => by
        have hb' : key b ≤ s := (List.mem_append.1 hb).elim (fun h => (hbefore b h).le) fun h => (hat b h).le
        have hb'' : b ∈ before ++ (at_ ++ after) := by
          rw [← List.append_assoc]
          exact List.mem_append_left _ hb
        exact absurd (hgt.trans_le (hle b hb'')) (not_lt.2 hb')
      obtain ⟨rfl, rfl⟩ := List.append_eq_nil_iff.1 hnil
      exact ⟨[], [], a :: after, rfl, nofun, nofun, List.forall_mem_cons.2 ⟨hgt, hafter⟩⟩

theorem findIdx_append_of {α : Type} {p : α → Bool} {l r : List α} (hl : ∀ a ∈ l, p a = false) (hr : ∀ a ∈ r, p a = true) :
    (l ++ r).findIdx p = l.length := by
  have hnone : l.findIdx p = l.length := List.findIdx_eq_length.2 hl
  rw [List.findIdx_append, hnone, if_neg (lt_irrefl _)]
  cases r with
  | nil => simp
  | cons a r => simp [List.findIdx_cons, hr a List.mem_cons_self]

/-- **The range of a name** in a sorted column. -/
theorem getPartNameRange_eq {before at_ after : List PatchRow} {s : String} (hbefore : ∀ a ∈ before, a.part < s)
    (hat : ∀ a ∈ at_, a.part = s) (hafter : ∀ a ∈ after, s < a.part) :
    getPartNameRange ((before ++ (at_ ++ after)).map PatchRow.part) s =
      (before.length, before.length + at_.length) := by
  unfold getPartNameRange
  rw [List.findIdx_map, List.findIdx_map, Prod.mk.injEq]
  constructor
  · refine findIdx_append_of ?_ ?_
    · intro a ha
      exact decide_eq_false (not_not.2 (hbefore a ha))
    · intro a ha
      rcases List.mem_append.1 ha with ha | ha
      · exact decide_eq_true (hat a ha).ge.not_gt
      · exact decide_eq_true (hafter a ha).not_gt
  · rw [← List.append_assoc, ← List.length_append]
    refine findIdx_append_of ?_ ?_
    · intro a ha
      rcases List.mem_append.1 ha with ha | ha
      · exact decide_eq_false (hbefore a ha).not_gt
      · exact decide_eq_false (hat a ha).le.not_gt
    · intro a ha
      exact decide_eq_true (hafter a ha)

/-! ## The interval of a block -/

namespace MergeTreePatchReaderMerge

variable {reader : MergeTreePatchReaderMerge}

/-- Two rows of the source part are in ascending order. -/
def Ascends (s : String) (a b : PatchRow) : Prop := a.part = s → b.part = s → a.partOffset < b.partOffset

instance (s : String) (a b : PatchRow) : Decidable (Ascends s a b) := inferInstanceAs (Decidable (_ → _ → _))

@[simp] theorem patchMergeReadResult_block (block : List PatchRow) :
    (reader.patchMergeReadResult block).block = block := by
  unfold patchMergeReadResult
  split
  · rfl
  · dsimp only
    split <;> rfl

/-- **The greatest offset** of a range with rows of the source part: no row of it is greater, and the
rows that follow it are. -/
theorem maxPartOffset_of_mem {block : List PatchRow} (hsorted : block.Pairwise fun a b => a.part ≤ b.part)
    (hasc : block.Pairwise (Ascends reader.sourcePart)) {row : PatchRow} (hrow : row ∈ block)
    (hpart : row.part = reader.sourcePart) :
    row.partOffset ≤ (reader.patchMergeReadResult block).maxPartOffset ∧
      ∃ last ∈ block, last.part = reader.sourcePart ∧
        last.partOffset = (reader.patchMergeReadResult block).maxPartOffset := by
  obtain ⟨before, at_, after, rfl, hbefore, hat, hafter⟩ := exists_split hsorted reader.sourcePart
  have hmem : row ∈ at_ := by
    rcases List.mem_append.1 hrow with h | h
    · exact absurd hpart (hbefore row h).ne
    · rcases List.mem_append.1 h with h | h
      · exact h
      · exact absurd hpart (hafter row h).ne'
  obtain ⟨init, last, hconcat⟩ := (List.eq_nil_or_concat at_).resolve_left (List.ne_nil_of_mem hmem)
  rw [List.concat_eq_append] at hconcat
  subst hconcat
  have hlast : last.part = reader.sourcePart := hat last (by simp)
  have hmax : (reader.patchMergeReadResult (before ++ (init ++ [last] ++ after))).maxPartOffset = last.partOffset := by
    unfold patchMergeReadResult
    rw [if_neg (by simp), getPartNameRange_eq hbefore hat hafter]
    dsimp only
    rw [if_pos (by simp)]
    have hidx : before.length + (init ++ [last]).length - 1 = (before ++ init).length := by
      simp
    have hsplit : before ++ (init ++ [last] ++ after) = (before ++ init) ++ last :: after := by simp
    rw [hidx, hsplit]
    simp
  rw [hmax]
  refine ⟨?_, last, by simp, hlast, rfl⟩
  rcases List.mem_append.1 hmem with h | h
  · have hpair := (List.pairwise_append.1 (List.pairwise_append.1 hasc).2.1).1
    exact ((List.pairwise_append.1 hpair).2.2 row h last (by simp) hpart hlast).le
  · rw [List.mem_singleton.1 h]

/-- **No offset**: the range lies before the rows of the source part. -/
theorem maxPartOffset_of_lt (reader : MergeTreePatchReaderMerge) {block : List PatchRow} (h : ∀ row ∈ block, row.part < reader.sourcePart) :
    (reader.patchMergeReadResult block).maxPartOffset = 0 := by
  have hrange : getPartNameRange ((block ++ ([] ++ [])).map PatchRow.part) reader.sourcePart = _ :=
    getPartNameRange_eq h nofun nofun
  rw [List.append_nil, List.append_nil] at hrange
  unfold patchMergeReadResult
  rw [hrange]
  dsimp only
  split
  · rfl
  · rw [if_neg (by simp)]

/-! ## The rows of ranges -/

/-- The rows of several ranges. -/
def rows (reader : MergeTreePatchReaderMerge) (ranges : MarkRanges) : List PatchRow :=
  ranges.flatMap reader.readPatchRange

@[simp] theorem rows_nil : reader.rows [] = [] := rfl

@[simp] theorem rows_append (a b : MarkRanges) : reader.rows (a ++ b) = reader.rows a ++ reader.rows b :=
  List.flatMap_append

@[simp] theorem rows_singleton (range : MarkRange) : reader.rows [range] = reader.readPatchRange range := by
  simp [rows]

/-- The ranges are disjoint and follow each other. -/
def Consecutive (ranges : MarkRanges) : Prop := ranges.Pairwise fun a b => a.endMark ≤ b.beginMark

instance (ranges : MarkRanges) : Decidable (Consecutive ranges) := inferInstanceAs (Decidable (List.Pairwise _ _))

theorem rows_sublist {ranges : MarkRanges} (h : Consecutive ranges) (mark : ℕ)
    (hmark : ∀ range ∈ ranges, mark ≤ range.beginMark) :
    (reader.rows ranges).Sublist (reader.patchPart.granules.drop mark).flatten := by
  induction ranges generalizing mark with
  | nil => exact List.nil_sublist _
  | cons range ranges ih =>
    obtain ⟨hrange, hrest⟩ := List.pairwise_cons.1 h
    change (reader.readPatchRange range ++ reader.rows ranges).Sublist _
    rcases Nat.lt_or_ge range.beginMark range.endMark with hlt | hge
    · have hlater := ih hrest range.endMark hrange
      have hfirst : reader.readPatchRange range ++ (reader.patchPart.granules.drop range.endMark).flatten =
          (reader.patchPart.granules.drop range.beginMark).flatten := by
        unfold readPatchRange
        rw [← List.flatten_append]
        have hend : range.endMark = range.beginMark + (range.endMark - range.beginMark) := by omega
        conv_lhs => rw [hend, ← List.drop_drop, Nat.add_sub_cancel_left]
        rw [List.take_append_drop]
      refine ((List.Sublist.refl _).append hlater).trans ?_
      rw [hfirst]
      have hbegin := hmark range List.mem_cons_self
      obtain ⟨k, hk⟩ := Nat.exists_eq_add_of_le hbegin
      rw [hk, ← List.drop_drop]
      exact (List.drop_sublist k _).flatten
    · -- the range is empty
      have hnil : reader.readPatchRange range = [] := by
        unfold readPatchRange
        rw [Nat.sub_eq_zero_of_le hge]
        rfl
      rw [hnil]
      exact ih hrest mark fun r hr => hmark r (List.mem_cons_of_mem _ hr)

/-! ## Reading -/

variable {V : Type} {mainResult : ReadResult V} {lo hi : ℕ}

theorem needPatch_of_le (hmax : mainResult.maxPartOffset = some hi) {result : PatchMergeReadResult}
    (hle : hi ≤ result.maxPartOffset) : needPatch mainResult (some result) = .ok false := by
  unfold needPatch needNewPatch
  rw [hmax]
  exact congrArg _ (decide_eq_false (not_lt.2 hle))

/-- **What is read**: ranges from the front, until none is left or the last result that is there
reaches the end of the block. -/
theorem readPatches_eq (reader : MergeTreePatchReaderMerge) (hmax : mainResult.maxPartOffset = some hi) (ranges : MarkRanges)
    (last : Option PatchMergeReadResult) :
    ∃ read left, reader.readPatches mainResult ranges last = .ok (left, read.map reader.readPatch) ∧
      ranges = read ++ left ∧
      (left = [] ∨ ∃ result, (last.toList ++ read.map reader.readPatch).getLast? = some result ∧ hi ≤ result.maxPartOffset) := by
  induction ranges generalizing last with
  | nil => exact ⟨[], [], rfl, rfl, Or.inl rfl⟩
  | cons range ranges ih =>
    by_cases hneed : ∃ result, last = some result ∧ hi ≤ result.maxPartOffset
    · obtain ⟨result, rfl, hle⟩ := hneed
      refine ⟨[], range :: ranges, ?_, rfl, Or.inr ⟨result, rfl, hle⟩⟩
      unfold readPatches
      rw [needPatch_of_le hmax hle]
      rfl
    · obtain ⟨read, left, heq, hsplit, hstop⟩ := ih (some (reader.readPatch range))
      refine ⟨range :: read, left, ?_, by rw [hsplit]; rfl, ?_⟩
      · have htrue : needPatch mainResult last = .ok true := by
          cases last with
          | none => rfl
          | some result =>
            unfold needPatch needNewPatch
            rw [hmax]
            exact congrArg _ (decide_eq_true (not_le.1 fun hle => hneed ⟨result, rfl, hle⟩))
        unfold readPatches
        rw [htrue]
        dsimp only
        rw [heq]
        rfl
      · refine hstop.imp_right ?_
        rintro ⟨result, hlast, hle⟩
        refine ⟨result, ?_, hle⟩
        rw [List.map_cons, ← hlast]
        cases last <;> simp

theorem readPatches_zero (reader : MergeTreePatchReaderMerge) (hmax : mainResult.maxPartOffset = some 0) (range : MarkRange) (ranges : MarkRanges) :
    reader.readPatches mainResult (range :: ranges) none = .ok (ranges, [reader.readPatch range]) := by
  have hstop : reader.readPatches mainResult ranges (some (reader.readPatch range)) = .ok (ranges, []) := by
    cases ranges with
    | nil => rfl
    | cons next ranges =>
      unfold readPatches
      rw [needPatch_of_le hmax (Nat.zero_le _)]
      rfl
  unfold readPatches
  dsimp only
  rw [hstop]
  rfl

end MergeTreePatchReaderMerge

namespace PatchReading

open MergeTreePatchReaderMerge

variable {V : Type} {mainResult : ReadResult V} {lo hi : ℕ}

/-- **What is dropped**: results from the front that end before the block. -/
theorem popOld_eq (hmin : mainResult.minPartOffset = some lo) (results : List PatchMergeReadResult) :
    ∃ popped kept, popOld mainResult results = .ok kept ∧ results = popped ++ kept ∧
      ∀ result ∈ popped, result.maxPartOffset < lo := by
  induction results with
  | nil => exact ⟨[], [], rfl, rfl, nofun⟩
  | cons result results ih =>
    have hneed : needOldPatch mainResult result = .ok (decide (lo ≤ result.maxPartOffset)) := by
      unfold needOldPatch
      rw [hmin]
    unfold popOld
    rw [hneed]
    by_cases hle : lo ≤ result.maxPartOffset
    · rw [decide_eq_true hle]
      exact ⟨[], result :: results, rfl, rfl, nofun⟩
    · rw [decide_eq_false hle]
      obtain ⟨popped, kept, heq, hsplit, hpopped⟩ := ih
      refine ⟨result :: popped, kept, heq, by rw [hsplit]; rfl, ?_⟩
      exact List.forall_mem_cons.2 ⟨not_le.1 hle, hpopped⟩

/-! ## One patch -/

/-- The rows of the source part ascend, and the ranges follow each other. -/
structure Valid (p : PatchReading) : Prop where
  consecutive : Consecutive p.ranges
  ascending : p.reader.patchPart.granules.flatten.Pairwise (Ascends p.reader.sourcePart)

/-- Before the first block. -/
structure Initial (p : PatchReading) : Prop extends Valid p where
  results : p.results = []

/-- **`q` is somewhere in the reading of `p`**, and what it has dropped lies before `lo`. -/
def Keeps (p : PatchReading) (lo : ℕ) (q : PatchReading) : Prop :=
  q.reader = p.reader ∧ ∃ dropped kept, p.ranges = dropped ++ (kept ++ q.ranges) ∧
    q.results = kept.map p.reader.readPatch ∧
    ∀ row ∈ p.reader.rows dropped, row.part = p.reader.sourcePart → row.partOffset < lo

/-- **What has not been read** lies after `hi`. -/
def Reaches (p : PatchReading) (hi : ℕ) (q : PatchReading) : Prop :=
  ∀ row ∈ p.reader.rows q.ranges, row.part = p.reader.sourcePart → hi < row.partOffset

/-- **The results cover the block**: each row of the source part in its interval is in exactly one of
them. -/
def Complete (p : PatchReading) (mainResult : ReadResult V) (q : PatchReading) : Prop :=
  ∀ lo hi, mainResult.interval = some (lo, hi) → ∀ row ∈ p.reader.rows p.ranges, row.part = p.reader.sourcePart →
    lo ≤ row.partOffset → row.partOffset ≤ hi → q.results.countP (fun result => row ∈ result.block) = 1

variable {p q : PatchReading}

theorem Valid.sorted (h : p.Valid) : (p.reader.rows p.ranges).Pairwise fun a b => a.part ≤ b.part :=
  p.reader.patchPart.sorted.sublist (rows_sublist h.consecutive 0 fun _ _ => Nat.zero_le _)

theorem Valid.pairwise (h : p.Valid) : (p.reader.rows p.ranges).Pairwise (Ascends p.reader.sourcePart) :=
  h.ascending.sublist (rows_sublist h.consecutive 0 fun _ _ => Nat.zero_le _)

theorem Valid.sorted_of_mem (h : p.Valid) {range : MarkRange} (hrange : range ∈ p.ranges) :
    (p.reader.readPatchRange range).Pairwise fun a b => a.part ≤ b.part :=
  (List.pairwise_flatMap.1 h.sorted).1 range hrange

theorem Valid.pairwise_of_mem (h : p.Valid) {range : MarkRange} (hrange : range ∈ p.ranges) :
    (p.reader.readPatchRange range).Pairwise (Ascends p.reader.sourcePart) :=
  (List.pairwise_flatMap.1 h.pairwise).1 range hrange

theorem countP_eq_one {α β : Type} {l : List α} {r : α → β → Bool} {b : β}
    (hdisj : l.Pairwise fun x y => r x b = true → r y b = true → False) {a : α} (ha : a ∈ l) (hr : r a b = true) :
    l.countP (fun x => r x b) = 1 := by
  induction l with
  | nil => cases ha
  | cons x l ih =>
    obtain ⟨hx, hl⟩ := List.pairwise_cons.1 hdisj
    rw [List.countP_cons]
    rcases List.mem_cons.1 ha with rfl | ha
    · have hrest : l.countP (fun x => r x b) = 0 := by
        rw [List.countP_eq_zero]
        exact fun y hy h => hx y hy hr h
      rw [hrest, if_pos hr]
    · rw [ih hl ha, if_neg fun h => hx a ha h hr]

/-- **The block is covered** when nothing of it has been dropped or left unread. -/
theorem Keeps.complete (hv : p.Valid) (hkeeps : p.Keeps lo q) (hreaches : p.Reaches hi q)
    (hinterval : mainResult.interval = some (lo, hi)) : p.Complete mainResult q := by
  obtain ⟨-, dropped, kept, hranges, hresults, hdropped⟩ := hkeeps
  intro lo' hi' hinterval' row hrow hpart hlo hhi
  obtain ⟨rfl, rfl⟩ : lo = lo' ∧ hi = hi' := by
    rw [hinterval, Option.some.injEq, Prod.mk.injEq] at hinterval'
    exact hinterval'
  have hpair := hv.pairwise
  rw [hranges, rows_append, rows_append] at hrow hpair
  have hmem : row ∈ p.reader.rows kept := by
    rcases List.mem_append.1 hrow with h | h
    · exact absurd hlo (not_le.2 (hdropped row h hpart))
    · rcases List.mem_append.1 h with h | h
      · exact h
      · exact absurd hhi (not_le.2 (hreaches row h hpart))
  obtain ⟨range, hrange, hin⟩ := List.mem_flatMap.1 hmem
  rw [hresults, List.countP_map]
  refine countP_eq_one (r := fun range row => decide (row ∈ (p.reader.readPatch range).block)) ?_ hrange ?_
  · have hkept := (List.pairwise_append.1 (List.pairwise_append.1 hpair).2.1).1
    refine (List.pairwise_flatMap.1 hkept).2.imp ?_
    intro a b hab ha hb
    rw [decide_eq_true_iff, readPatch, patchMergeReadResult_block] at ha hb
    exact lt_irrefl _ (hab row ha row hb hpart hpart)
  · rw [decide_eq_true_iff, readPatch, patchMergeReadResult_block]
    exact hin

/-- **One call**: later blocks lose nothing, and the reading goes on until a result reaches the end of
the block. -/
theorem Keeps.readPatches (hv : p.Valid) {lo' : ℕ} (hkeeps : p.Keeps lo' q) (hlo : lo' ≤ lo)
    (hmin : mainResult.minPartOffset = some lo) (hmax : mainResult.maxPartOffset = some hi) :
    ∃ q', PatchReading.readPatches mainResult q = .ok q' ∧ p.Keeps lo q' ∧
      (q'.ranges = [] ∨ ∃ result, q'.results.getLast? = some result ∧ hi ≤ result.maxPartOffset) := by
  obtain ⟨hreader, dropped, kept, hranges, hresults, hdropped⟩ := hkeeps
  obtain ⟨popped, stay, hpop, hsplit, hpopped⟩ := popOld_eq hmin q.results
  obtain ⟨read, left, hread, hleft, hstop⟩ := readPatches_eq q.reader hmax q.ranges stay.getLast?
  -- the ranges of the results that are dropped now
  obtain ⟨poppedRanges, stayRanges, rfl, hpoppedRanges, hstayRanges⟩ :
      ∃ a b, kept = a ++ b ∧ a.map p.reader.readPatch = popped ∧ b.map p.reader.readPatch = stay := by
    rw [hsplit] at hresults
    obtain ⟨a, b, hab, ha, hb⟩ := List.map_eq_append_iff.1 hresults.symm
    exact ⟨a, b, hab, ha, hb⟩
  refine ⟨{ q with ranges := left, results := stay ++ read.map q.reader.readPatch }, ?_, ⟨hreader, ?_⟩, ?_⟩
  · unfold PatchReading.readPatches
    rw [hpop]
    dsimp only [bind, Except.bind]
    rw [hread]
    rfl
  · refine ⟨dropped ++ poppedRanges, stayRanges ++ read, ?_, ?_, ?_⟩
    · rw [hranges, hleft]
      simp
    · rw [List.map_append, hstayRanges, hreader]
    · intro row hrow hpart
      rw [rows_append] at hrow
      rcases List.mem_append.1 hrow with h | h
      · exact (hdropped row h hpart).trans_le hlo
      · obtain ⟨range, hrange, hin⟩ := List.mem_flatMap.1 h
        have hmem : range ∈ p.ranges := by
          rw [hranges]
          exact List.mem_append_right _ (List.mem_append_left _ (List.mem_append_left _ hrange))
        have hle := (maxPartOffset_of_mem (hv.sorted_of_mem hmem) (hv.pairwise_of_mem hmem) hin hpart).1
        have hlt := hpopped (p.reader.readPatch range) (hpoppedRanges ▸ List.mem_map_of_mem hrange)
        exact hle.trans_lt hlt
  · refine hstop.imp_right ?_
    rintro ⟨result, hlast, hle⟩
    refine ⟨result, ?_, hle⟩
    change (stay ++ read.map q.reader.readPatch).getLast? = some result
    rw [← hlast, List.getLast?_append, List.getLast?_append]
    cases stay.getLast? <;> simp

/-- **The reading reaches the end of the block** when a result does, unless the block is the first row. -/
theorem Keeps.reaches (hv : p.Valid) (hkeeps : p.Keeps lo q) (hhi : 0 < hi)
    (hstop : q.ranges = [] ∨ ∃ result, q.results.getLast? = some result ∧ hi ≤ result.maxPartOffset) :
    p.Reaches hi q := by
  obtain ⟨-, dropped, kept, hranges, hresults, -⟩ := hkeeps
  intro row hrow hpart
  rcases hstop with hnil | ⟨result, hlast, hle⟩
  · rw [hnil] at hrow
    cases hrow
  rw [hresults, List.getLast?_map, Option.map_eq_some_iff] at hlast
  obtain ⟨range, hrange, rfl⟩ := hlast
  obtain ⟨init, rfl⟩ := List.getLast?_eq_some_iff.1 hrange
  have hmem : range ∈ p.ranges := by simp [hranges]
  -- the rows of the last range stand before those that have not been read
  have hsorted := hv.sorted
  have hpair := hv.pairwise
  rw [hranges, rows_append, rows_append, rows_append, rows_singleton] at hsorted hpair
  have hbefore := (List.pairwise_append.1 (List.pairwise_append.1 hsorted).2.1).2.2
  have hasc := (List.pairwise_append.1 (List.pairwise_append.1 hpair).2.1).2.2
  by_cases hsource : ∃ row ∈ p.reader.readPatchRange range, row.part = p.reader.sourcePart
  · obtain ⟨other, hother, hotherPart⟩ := hsource
    obtain ⟨-, last, hlast, hlastPart, hlastOffset⟩ := maxPartOffset_of_mem (hv.sorted_of_mem hmem) (hv.pairwise_of_mem hmem)
      hother hotherPart
    refine hle.trans_lt ?_
    change (p.reader.patchMergeReadResult _).maxPartOffset < _
    rw [← hlastOffset]
    exact hasc last (List.mem_append_right _ hlast) row hrow hlastPart hpart
  · -- the range lies before the rows of the source part, and its greatest offset is zero
    have hzero := maxPartOffset_of_lt p.reader fun other hother =>
      lt_of_le_of_ne (hpart ▸ hbefore other (List.mem_append_right _ hother) row hrow) fun h => hsource ⟨other, hother, h⟩
    change hi ≤ (p.reader.patchMergeReadResult _).maxPartOffset at hle
    rw [hzero] at hle
    exact absurd hle (not_le.2 hhi)

/-! ## The first block -/

theorem Initial.keeps (h : p.Initial) : p.Keeps 0 p := ⟨rfl, [], [], rfl, h.results, nofun⟩

/-- **The case that goes wrong**: the first block is the row with offset zero, the patch has new values
for it, and the first range of the patch has no row of the source part. -/
def SkipsFirstRow (p : PatchReading) (mains : List (ReadResult V)) : Prop :=
  (∃ mainResult ∈ mains.head?, mainResult.interval = some (0, 0)) ∧
    (∃ range ∈ p.ranges.head?, ∀ row ∈ p.reader.readPatchRange range, row.part ≠ p.reader.sourcePart) ∧
    ∃ row ∈ p.reader.rows p.ranges, row.part = p.reader.sourcePart ∧ row.partOffset = 0

theorem interval_eq_some {mainResult : ReadResult V} (h : mainResult.interval = some (lo, hi)) :
    mainResult.minPartOffset = some lo ∧ mainResult.maxPartOffset = some hi := by
  unfold ReadResult.interval at h
  split at h
  · next hmin hmax =>
    rw [Option.some.injEq, Prod.mk.injEq] at h
    rw [hmin, hmax, h.1, h.2]
    exact ⟨rfl, rfl⟩
  · cases h

theorem Initial.readPatches_zero (h : p.Initial) (hinterval : mainResult.interval = some (0, 0)) {range : MarkRange}
    {ranges : MarkRanges} (hranges : p.ranges = range :: ranges) :
    PatchReading.readPatches mainResult p = .ok { p with ranges, results := [p.reader.readPatch range] } := by
  have hread := MergeTreePatchReaderMerge.readPatches_zero p.reader (interval_eq_some hinterval).2 range ranges
  unfold PatchReading.readPatches
  rw [h.results, hranges, show popOld mainResult [] = .ok [] from rfl]
  dsimp only [bind, Except.bind, List.getLast?]
  rw [hread]
  rfl

/-- **The first block is covered**, unless the case that goes wrong is there. -/
theorem Initial.first (h : p.Initial) {rest : List (ReadResult V)} (hskip : ¬ p.SkipsFirstRow (mainResult :: rest))
    (hinterval : mainResult.interval = some (lo, hi)) (hle : lo ≤ hi) :
    ∃ q, PatchReading.readPatches mainResult p = .ok q ∧ p.Keeps lo q ∧ p.Reaches hi q := by
  obtain ⟨hmin, hmax⟩ := interval_eq_some hinterval
  rcases Nat.eq_zero_or_pos hi with rfl | hpos
  · obtain rfl := Nat.le_zero.1 hle
    obtain ⟨q, hread, hkeeps, hstop⟩ := h.keeps.readPatches h.toValid (Nat.zero_le _) hmin hmax
    refine ⟨q, hread, hkeeps, ?_⟩
    intro row hrow hpart
    refine Nat.pos_of_ne_zero fun hzero => hskip ⟨⟨mainResult, rfl, hinterval⟩, ?_⟩
    obtain ⟨-, dropped, kept, hsplit, -⟩ := hkeeps
    have hmem : row ∈ p.reader.rows p.ranges := by
      rw [hsplit, rows_append, rows_append]
      exact List.mem_append_right _ (List.mem_append_right _ hrow)
    refine ⟨?_, row, hmem, hpart, hzero⟩
    cases hranges : p.ranges with
    | nil =>
      rw [hranges] at hmem
      cases hmem
    | cons range ranges =>
      refine ⟨range, rfl, fun other hother hotherPart => ?_⟩
      -- a row of the source part in the first range would come before the row with offset zero
      rw [h.readPatches_zero hinterval hranges, Except.ok.injEq] at hread
      rw [← hread] at hrow
      have hpair := h.pairwise
      rw [hranges] at hpair
      have hlt := (List.pairwise_append.1 hpair).2.2 other hother row hrow hotherPart hpart
      rw [hzero] at hlt
      exact Nat.not_lt_zero _ hlt
  · obtain ⟨q, hread, hkeeps, hstop⟩ := h.keeps.readPatches h.toValid (Nat.zero_le _) hmin hmax
    exact ⟨q, hread, hkeeps, hkeeps.reaches h.toValid hpos hstop⟩

/-! ## Runs -/

/-- **The blocks of the source part**: none is empty, and their intervals ascend. -/
structure Ascending (mains : List (ReadResult V)) : Prop where
  interval : ∀ mainResult ∈ mains, ∃ lo hi, mainResult.interval = some (lo, hi) ∧ lo ≤ hi
  disjoint : mains.Pairwise fun a b => ∀ lo hi lo' hi', a.interval = some (lo, hi) → b.interval = some (lo', hi') → hi < lo'

/-- The reading of a patch through a sequence of blocks. -/
def run (mains : List (ReadResult V)) (p : PatchReading) : Except String PatchReading :=
  mains.foldlM (fun q mainResult => q.readPatches mainResult) p

theorem run_append (mains mains' : List (ReadResult V)) (p : PatchReading) :
    p.run (mains ++ mains') = p.run mains >>= fun q => q.run mains' := by
  unfold run
  rw [List.foldlM_append]

theorem run_singleton (mainResult : ReadResult V) (p : PatchReading) :
    p.run [mainResult] = p.readPatches mainResult := by
  unfold run
  rw [List.foldlM_cons]
  cases p.readPatches mainResult <;> rfl

/-- **Every run.** -/
theorem Initial.run_reaches (h : p.Initial) (before : List (ReadResult V)) {mainResult : ReadResult V}
    (hasc : Ascending (before ++ [mainResult])) (hskip : ¬ p.SkipsFirstRow (before ++ [mainResult]))
    (hinterval : mainResult.interval = some (lo, hi)) :
    ∃ q, p.run (before ++ [mainResult]) = .ok q ∧ p.Keeps lo q ∧ p.Reaches hi q := by
  induction before using List.reverseRecOn generalizing mainResult lo hi with
  | nil =>
    obtain ⟨lo', hi', hinterval', hle⟩ := hasc.interval mainResult (by simp)
    obtain ⟨rfl, rfl⟩ : lo = lo' ∧ hi = hi' := by
      rw [hinterval, Option.some.injEq, Prod.mk.injEq] at hinterval'
      exact hinterval'
    obtain ⟨q, hread, hq⟩ := h.first hskip hinterval hle
    refine ⟨q, ?_, hq⟩
    rw [List.nil_append, run_singleton, hread]
  | append_singleton before previous ih =>
    obtain ⟨lo', hi', hprevious, hle⟩ := hasc.interval previous (by simp)
    have hpair := hasc.disjoint
    have hlt : hi' < lo := (List.pairwise_append.1 hpair).2.2 previous (by simp) mainResult (by simp) _ _ _ _ hprevious hinterval
    obtain ⟨lo'', hi'', hinterval', hle'⟩ := hasc.interval mainResult (by simp)
    rw [hinterval, Option.some.injEq, Prod.mk.injEq] at hinterval'
    obtain ⟨rfl, rfl⟩ := hinterval'
    have hasc' : Ascending (before ++ [previous]) :=
      ⟨fun m hm => hasc.interval m (List.mem_append_left _ hm), (List.pairwise_append.1 hpair).1⟩
    have hskip' : ¬ p.SkipsFirstRow (before ++ [previous]) := by
      rintro ⟨⟨m, hm, hzero⟩, hrest⟩
      refine hskip ⟨⟨m, ?_, hzero⟩, hrest⟩
      rw [List.head?_append, Option.mem_def.1 hm]
      rfl
    obtain ⟨q, hrun, hkeeps, -⟩ := ih hasc' hskip' hprevious
    obtain ⟨hmin, hmax⟩ := interval_eq_some hinterval
    obtain ⟨q', hread, hkeeps', hstop⟩ := hkeeps.readPatches h.toValid (hle.trans hlt.le) hmin hmax
    refine ⟨q', ?_, hkeeps', hkeeps'.reaches h.toValid (by omega) hstop⟩
    rw [run_append, hrun]
    exact (run_singleton mainResult q).trans hread

/-- **The case that goes wrong**: the first row of the source part is in no result. -/
theorem Initial.not_complete (h : p.Initial) {rest : List (ReadResult V)} (hskip : p.SkipsFirstRow (mainResult :: rest)) :
    ∃ q, p.run [mainResult] = .ok q ∧ ¬ p.Complete mainResult q := by
  obtain ⟨⟨m, hm, hinterval⟩, ⟨range, hrange, hnone⟩, row, hrow, hpart, hzero⟩ := hskip
  obtain rfl : mainResult = m := Option.some.inj hm
  obtain ⟨ranges, hranges⟩ : ∃ ranges, p.ranges = range :: ranges := by
    cases hp : p.ranges with
    | nil =>
      rw [hp] at hrange
      cases hrange
    | cons r ranges =>
      rw [hp] at hrange
      obtain rfl : r = range := Option.some.inj hrange
      exact ⟨ranges, rfl⟩
  refine ⟨{ p with ranges, results := [p.reader.readPatch range] }, ?_, fun hcomplete => ?_⟩
  · rw [run_singleton, h.readPatches_zero hinterval hranges]
  · have hone := hcomplete 0 0 hinterval row hrow hpart (Nat.zero_le _) hzero.le
    refine absurd hone ?_
    rw [List.countP_singleton, if_neg]
    · exact Nat.zero_ne_one
    · rw [decide_eq_true_iff, readPatch, patchMergeReadResult_block]
      exact fun hmem => hnone row hmem hpart

/-! ## All patches of the chain -/

theorem exists_readPatches (q : PatchReading) (hinterval : mainResult.interval = some (lo, hi)) :
    ∃ q', PatchReading.readPatches mainResult q = .ok q' := by
  obtain ⟨hmin, hmax⟩ := interval_eq_some hinterval
  obtain ⟨popped, stay, hpop, -⟩ := popOld_eq hmin q.results
  obtain ⟨read, left, hread, -⟩ := readPatches_eq q.reader hmax q.ranges stay.getLast?
  refine ⟨{ q with ranges := left, results := stay ++ read.map q.reader.readPatch }, ?_⟩
  unfold PatchReading.readPatches
  rw [hpop]
  dsimp only [bind, Except.bind]
  rw [hread]
  rfl

end PatchReading

theorem exists_mapM {α β ε : Type} {f : α → Except ε β} {l : List α} (h : ∀ a ∈ l, ∃ b, f a = .ok b) :
    ∃ l' : List β, l.mapM f = .ok l' ∧ ∀ (i : ℕ) (a : α), l[i]? = some a → ∃ b, l'[i]? = some b ∧ f a = .ok b := by
  induction l with
  | nil => exact ⟨[], rfl, nofun⟩
  | cons a l ih =>
    obtain ⟨b, hb⟩ := h a List.mem_cons_self
    obtain ⟨l', hl', hall⟩ := ih fun x hx => h x (List.mem_cons_of_mem _ hx)
    refine ⟨b :: l', ?_, ?_⟩
    · rw [List.mapM_cons, hb, hl']
      rfl
    · intro i x hx
      cases i with
      | zero => exact ⟨b, rfl, Option.some.inj hx ▸ hb⟩
      | succ i => exact hall i x hx

namespace MergeTreeReadersChain

open PatchReading MergeTreePatchReaderMerge

variable {V : Type}

theorem run_readPatches (mains : List (ReadResult V)) (hmains : ∀ m ∈ mains, ∃ lo hi, m.interval = some (lo, hi))
    (patches : List PatchReading) :
    ∃ patches' : List PatchReading, mains.foldlM readPatches patches = .ok patches' ∧
      ∀ (i : ℕ) (p : PatchReading), patches[i]? = some p → ∃ q, patches'[i]? = some q ∧ p.run mains = .ok q := by
  induction mains generalizing patches with
  | nil => exact ⟨patches, rfl, fun i p hp => ⟨p, hp, rfl⟩⟩
  | cons m mains ih =>
    obtain ⟨lo, hi, hm⟩ := hmains m List.mem_cons_self
    obtain ⟨next, hnext, hstep⟩ :=
      exists_mapM (f := PatchReading.readPatches m) (l := patches) fun q _ => exists_readPatches q hm
    obtain ⟨patches', hrun, hall⟩ := ih (fun m' hm' => hmains m' (List.mem_cons_of_mem _ hm')) next
    refine ⟨patches', ?_, ?_⟩
    · rw [List.foldlM_cons, show readPatches patches m = .ok next from hnext]
      exact hrun
    · intro i p hp
      obtain ⟨q, hq, hpq⟩ := hstep i p hp
      obtain ⟨r, hr, hqr⟩ := hall i q hq
      refine ⟨r, hr, ?_⟩
      unfold run
      rw [List.foldlM_cons, hpq]
      exact hqr

/-- **Every block finds its patch rows**: after `readPatches` for a block, each row of the patch for
the interval of the block is in exactly one result, for every block, if and only if the reading does
not skip the first row. -/
theorem complete_iff {patches : List PatchReading} {i : ℕ} {p : PatchReading} (hp : patches[i]? = some p)
    (hinitial : p.Initial) {mains : List (ReadResult V)} (hmains : Ascending mains) :
    (∀ before mainResult after, mains = before ++ mainResult :: after →
      ∃ (patches' : List PatchReading) (q : PatchReading), (before ++ [mainResult]).foldlM readPatches patches = .ok patches' ∧ patches'[i]? = some q ∧
        p.Complete mainResult q) ↔ ¬ p.SkipsFirstRow mains := by
  constructor
  · intro hcomplete hskip
    cases hcons : mains with
    | nil =>
      rw [hcons] at hskip
      obtain ⟨⟨m, hm, -⟩, -⟩ := hskip
      cases hm
    | cons first rest =>
      rw [hcons] at hskip
      obtain ⟨q, hrun, hnot⟩ := hinitial.not_complete hskip
      obtain ⟨patches', q', hrun', hq', hcomplete'⟩ := hcomplete [] first rest hcons
      obtain ⟨lo, hi, hfirst, -⟩ := hmains.interval first (by simp [hcons])
      obtain ⟨patches'', hrun'', hall⟩ := run_readPatches [first] (by simpa using ⟨lo, hi, hfirst⟩) patches
      obtain ⟨r, hr, hrr⟩ := hall i p hp
      rw [List.nil_append, hrun'', Except.ok.injEq] at hrun'
      rw [← hrun', hr, Option.some.injEq] at hq'
      rw [hrun, Except.ok.injEq] at hrr
      rw [hrr, hq'] at hnot
      exact hnot hcomplete'
  · intro hskip before mainResult after hsplit
    obtain ⟨lo, hi, hinterval, -⟩ := hmains.interval mainResult (by simp [hsplit])
    have hasc : Ascending (before ++ [mainResult]) := by
      refine ⟨fun m hm => hmains.interval m ?_, hmains.disjoint.sublist ?_⟩
      · rw [hsplit]
        rcases List.mem_append.1 hm with h | h
        · exact List.mem_append_left _ h
        · exact List.mem_append_right _ (List.mem_singleton.1 h ▸ List.mem_cons_self)
      · rw [hsplit]
        exact (List.Sublist.refl _).append (List.singleton_sublist.2 List.mem_cons_self)
    have hskip' : ¬ p.SkipsFirstRow (before ++ [mainResult]) := by
      rintro ⟨⟨m, hm, hzero⟩, hrest⟩
      refine hskip ⟨⟨m, ?_, hzero⟩, hrest⟩
      rw [hsplit]
      cases before <;> exact hm
    obtain ⟨q, hrun, hkeeps, hreaches⟩ := hinitial.run_reaches before hasc hskip' hinterval
    obtain ⟨patches', hrun', hall⟩ := run_readPatches (before ++ [mainResult])
      (fun m hm => (hasc.interval m hm).imp fun _ h => h.imp fun _ h => h.1) patches
    obtain ⟨r, hr, hrr⟩ := hall i p hp
    rw [hrun, Except.ok.injEq] at hrr
    exact ⟨patches', r, hrun', hr, hrr ▸ hkeeps.complete hinitial.toValid hreaches hinterval⟩

/-! ## Two patches -/

/-- One row of the part `b`, in a granule of its own after the rows of the part `a`. -/
def secondGranule : PatchReading where
  reader := ⟨⟨[[⟨"a", 0⟩], [⟨"b", 0⟩]], by decide +kernel⟩, "b"⟩
  ranges := [⟨0, 1⟩, ⟨1, 2⟩]

/-- The first row of a part, read as a block of its own. -/
def firstRow : ReadResult Unit := (({} : ReadResult Unit).addGranule 1 ⟨0, 0⟩).fillVirtualColumns false

/-- The row of `b` is not read with the block it belongs to. -/
theorem not_complete_secondGranule :
    secondGranule.Initial ∧ Ascending [firstRow] ∧
      ∃ (patches' : List PatchReading) (q : PatchReading), [firstRow].foldlM readPatches [secondGranule] = .ok patches' ∧
        patches'[0]? = some q ∧ ¬ secondGranule.Complete firstRow q := by
  have hinitial : secondGranule.Initial := ⟨⟨by decide +kernel, by decide +kernel⟩, rfl⟩
  have hinterval : firstRow.interval = some (0, 0) := rfl
  have hskip : secondGranule.SkipsFirstRow [firstRow] :=
    ⟨⟨firstRow, rfl, hinterval⟩, ⟨⟨0, 1⟩, rfl, by decide +kernel⟩, ⟨"b", 0⟩, by decide +kernel, rfl, rfl⟩
  refine ⟨hinitial, ⟨?_, List.pairwise_singleton _ _⟩, ?_⟩
  · intro m hm
    exact ⟨0, 0, List.mem_singleton.1 hm ▸ hinterval, le_refl 0⟩
  · obtain ⟨q, hrun, hnot⟩ := hinitial.not_complete hskip
    obtain ⟨patches', hrun', hall⟩ := run_readPatches [firstRow]
      (fun m hm => ⟨0, 0, List.mem_singleton.1 hm ▸ hinterval⟩) [secondGranule]
    obtain ⟨r, hr, hrr⟩ := hall 0 secondGranule rfl
    rw [hrun, Except.ok.injEq] at hrr
    exact ⟨patches', r, hrun', hr, hrr ▸ hnot⟩

/-- A block of the rows from `startingOffset` on. -/
def blockFrom (startingOffset rows : ℕ) : ReadResult Unit :=
  (({} : ReadResult Unit).addGranule rows ⟨startingOffset, 0⟩).fillVirtualColumns true

theorem complete_secondGranule :
    ∃ (patches' : List PatchReading) (q : PatchReading),
      [blockFrom 0 3, blockFrom 3 2].foldlM readPatches [secondGranule] = .ok patches' ∧ patches'[0]? = some q ∧
        secondGranule.Complete (blockFrom 3 2) q := by
  have hfirst : (blockFrom 0 3).interval = some (0, 2) := rfl
  have hsecond : (blockFrom 3 2).interval = some (3, 4) := rfl
  have hascending : Ascending [blockFrom 0 3, blockFrom 3 2] := by
    refine ⟨?_, ?_⟩
    · intro m hm
      rcases List.mem_cons.1 hm with rfl | hm
      · exact ⟨0, 2, hfirst, by decide⟩
      · exact ⟨3, 4, List.mem_singleton.1 hm ▸ hsecond, by decide⟩
    · refine List.pairwise_pair.2 fun lo hi lo' hi' h h' => ?_
      rw [hfirst, Option.some.injEq, Prod.mk.injEq] at h
      rw [hsecond, Option.some.injEq, Prod.mk.injEq] at h'
      rw [← h.2, ← h'.1]
      decide
  have hfirstPatch : [secondGranule][0]? = some secondGranule := rfl
  have hiff := complete_iff hfirstPatch ⟨⟨by decide +kernel, by decide +kernel⟩, rfl⟩ hascending
  refine hiff.2 ?_ [blockFrom 0 3] (blockFrom 3 2) [] rfl
  rintro ⟨⟨m, hm, hzero⟩, -⟩
  rw [← Option.some.inj hm, hfirst] at hzero
  exact absurd hzero (by decide)

end MergeTreeReadersChain

end MergeTree
