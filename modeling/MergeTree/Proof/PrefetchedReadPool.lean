import MergeTree.Lib.Loops
import MergeTree.Proof.ReadPool
import MergeTree.Spec.PrefetchedReadPool

/-!
# The read pool with prefetches hands out every mark once

The marks of the tasks and of what is left of the parts stay those of the input while the tasks
are made (`Cut`), and every thread takes its share. Afterwards a call of `getTask` moves just one
task out of the lists, and answers null only when there is none (`Pool.WellFormed.getTask`).
-/

namespace MergeTree

namespace PrefetchedReadPool

open Loop

/-- The marks of a task, with its part. -/
def ThreadTask.marks (task : ThreadTask) : List (ℕ × ℕ) := PartIndexAndRange.marks ⟨task.partIdx, task.ranges⟩

/-- The marks of the input. -/
def inputOf (parts : List Part) : List (ℕ × ℕ) :=
  parts.zipIdx.flatMap fun part => PartIndexAndRange.marks ⟨part.2, part.1.ranges⟩

/-! ## Lists of tasks by thread -/

/-- All tasks. -/
def allTasks (entries : TasksPerThread) : List ThreadTask := entries.flatMap Prod.snd

/-- Every thread has one list, in the order of threads, and it is not empty. -/
structure ListsWellFormed (entries : TasksPerThread) : Prop where
  sorted : entries.Pairwise fun a b => a.1 < b.1
  nonempty : ∀ entry ∈ entries, entry.2 ≠ []

section Entries

variable {entries : TasksPerThread} {thread : ℕ} {task : ThreadTask}

theorem listsWellFormed_nil : ListsWellFormed [] := ⟨List.Pairwise.nil, by simp⟩

theorem fst_mem_pushTask {entry : ℕ × List ThreadTask} (h : entry ∈ pushTask thread task entries) :
    entry.1 = thread ∨ entry.1 ∈ entries.map Prod.fst := by
  induction entries with
  | nil => exact Or.inl (congrArg Prod.fst (List.mem_singleton.1 h))
  | cons head rest ih =>
    unfold pushTask at h
    rw [List.map_cons, List.mem_cons]
    split at h
    · rcases List.mem_cons.1 h with rfl | h
      · exact Or.inr (Or.inl rfl)
      · exact Or.inr (Or.inr (List.mem_map_of_mem h))
    · split at h
      · rcases List.mem_cons.1 h with rfl | h
        · exact Or.inl rfl
        · exact Or.inr (List.mem_cons.1 (List.mem_map_of_mem (f := Prod.fst) h))
      · rcases List.mem_cons.1 h with rfl | h
        · exact Or.inr (Or.inl rfl)
        · exact (ih h).imp_right Or.inr

theorem ListsWellFormed.pushTask (h : ListsWellFormed entries) : ListsWellFormed (pushTask thread task entries) := by
  induction entries with
  | nil => exact ⟨List.pairwise_singleton _ _, by simp [PrefetchedReadPool.pushTask]⟩
  | cons head rest ih =>
    obtain ⟨hhead, hrest⟩ := List.pairwise_cons.1 h.sorted
    have hne := h.nonempty head List.mem_cons_self
    have hnerest := fun entry he => h.nonempty entry (List.mem_cons_of_mem _ he)
    unfold PrefetchedReadPool.pushTask
    split_ifs with heq hlt
    · refine ⟨List.pairwise_cons.2 ⟨hhead, hrest⟩, fun entry he => ?_⟩
      rcases List.mem_cons.1 he with rfl | he
      · simp
      · exact hnerest entry he
    · refine ⟨List.pairwise_cons.2 ⟨fun entry he => ?_, h.sorted⟩, fun entry he => ?_⟩
      · rcases List.mem_cons.1 he with rfl | he
        · exact hlt
        · exact lt_trans hlt (hhead entry he)
      · rcases List.mem_cons.1 he with rfl | he
        · simp
        · exact h.nonempty entry he
    · have hpushed := ih ⟨hrest, hnerest⟩
      refine ⟨List.pairwise_cons.2 ⟨fun entry he => ?_, hpushed.sorted⟩, fun entry he => ?_⟩
      · rcases fst_mem_pushTask he with hthread | hmem
        · omega
        · obtain ⟨other, hother, hsame⟩ := List.mem_map.1 hmem
          rw [← hsame]
          exact hhead other hother
      · rcases List.mem_cons.1 he with rfl | he
        · exact hne
        · exact hpushed.nonempty entry he

theorem allTasks_pushTask (entries : TasksPerThread) : (allTasks (pushTask thread task entries)).Perm (task :: allTasks entries) := by
  induction entries with
  | nil => rfl
  | cons head rest ih =>
    unfold pushTask
    split_ifs with heq hlt
    · simp only [allTasks, List.flatMap_cons, List.append_assoc, List.singleton_append]
      exact List.perm_middle
    · rfl
    · simp only [allTasks, List.flatMap_cons] at ih ⊢
      exact (ih.append_left head.2).trans List.perm_middle

theorem mem_pushTask_of_ne {entry : ℕ × List ThreadTask} (hmem : entry ∈ entries) (hne : entry.1 ≠ thread) :
    entry ∈ pushTask thread task entries := by
  induction entries with
  | nil => exact absurd hmem List.not_mem_nil
  | cons head rest ih =>
    unfold pushTask
    split_ifs with heq hlt
    · rcases List.mem_cons.1 hmem with rfl | hmem
      · exact absurd heq.symm hne
      · exact List.mem_cons_of_mem _ hmem
    · exact List.mem_cons_of_mem _ hmem
    · rcases List.mem_cons.1 hmem with rfl | hmem
      · exact List.mem_cons_self
      · exact List.mem_cons_of_mem _ (ih hmem)

theorem ListsWellFormed.mem_pushTask (h : ListsWellFormed entries) {tasks : List ThreadTask} (hmem : (thread, tasks) ∈ entries) :
    (thread, tasks ++ [task]) ∈ PrefetchedReadPool.pushTask thread task entries := by
  induction entries with
  | nil => exact absurd hmem List.not_mem_nil
  | cons head rest ih =>
    obtain ⟨hhead, hrest⟩ := List.pairwise_cons.1 h.sorted
    unfold PrefetchedReadPool.pushTask
    rcases List.mem_cons.1 hmem with rfl | hmem
    · rw [if_pos rfl]
      exact List.mem_cons_self
    · have hlt : head.1 < thread := hhead _ hmem
      rw [if_neg hlt.ne', if_neg hlt.not_gt]
      exact List.mem_cons_of_mem _ (ih ⟨hrest, fun entry he => h.nonempty entry (List.mem_cons_of_mem _ he)⟩ hmem)

theorem mem_pushTask_new (hnew : ∀ entry ∈ entries, entry.1 ≠ thread) : (thread, [task]) ∈ pushTask thread task entries := by
  induction entries with
  | nil => exact List.mem_cons_self
  | cons head rest ih =>
    unfold pushTask
    rw [if_neg (hnew head List.mem_cons_self).symm]
    split_ifs with hlt
    · exact List.mem_cons_self
    · exact List.mem_cons_of_mem _ (ih fun entry he => hnew entry (List.mem_cons_of_mem _ he))

theorem ListsWellFormed.exists_split (h : ListsWellFormed entries) {tasks : List ThreadTask} (hmem : (thread, tasks) ∈ entries) :
    ∃ before after, entries = before ++ (thread, tasks) :: after ∧ (∀ entry ∈ before, entry.1 ≠ thread) ∧
      ∀ entry ∈ after, entry.1 ≠ thread := by
  obtain ⟨before, after, rfl⟩ := List.append_of_mem hmem
  obtain ⟨-, hafter, hbefore⟩ := List.pairwise_append.1 h.sorted
  exact ⟨before, after, rfl, fun entry he => (hbefore entry he _ List.mem_cons_self).ne,
    fun entry he => ((List.pairwise_cons.1 hafter).1 entry he).ne'⟩

theorem mem_of_lookup {tasks : List ThreadTask} (h : entries.lookup thread = some tasks) : (thread, tasks) ∈ entries := by
  obtain ⟨before, after, rfl, -⟩ := List.lookup_eq_some_iff.1 h
  simp

theorem ListsWellFormed.lookup_eq (h : ListsWellFormed entries) {tasks : List ThreadTask} (hmem : (thread, tasks) ∈ entries) :
    entries.lookup thread = some tasks := by
  obtain ⟨before, after, rfl, hbefore, -⟩ := h.exists_split hmem
  exact List.lookup_eq_some_iff.2 ⟨before, after, rfl, fun entry he => bne_iff_ne.2 (hbefore entry he).symm⟩

end Entries

/-! ## Cutting the parts -/

section Ranges

variable {ranges : MarkRanges}

/-- Ranges without marks are not there. -/
def AllNonempty (ranges : MarkRanges) : Prop := ∀ range ∈ ranges, range.beginMark < range.endMark

theorem countMarks_eq (ranges : MarkRanges) : countMarks ranges = ranges.marks.length := (length_marks ranges).symm

theorem sortRanges_eq (h : ranges.Sorted) : sortRanges ranges = .ok ranges := by
  have hpairs : ∀ a ∈ ranges, ∀ b ∈ ranges, isIntersection a b = false := by
    refine List.Pairwise.forall_of_forall_of_flip (fun a _ => by simp [isIntersection]) ?_ ?_
    · refine h.sorted.imp_of_mem fun {a b} ha hb hab => ?_
      have hapos := h.nonempty a ha
      have hbpos := h.nonempty b hb
      simp only [isIntersection, Bool.and_eq_false_iff, Bool.or_eq_false_iff, decide_eq_false_iff_not]
      omega
    · refine h.sorted.imp_of_mem fun {a b} ha hb hab => ?_
      have hapos := h.nonempty a ha
      have hbpos := h.nonempty b hb
      simp only [flip, isIntersection, Bool.and_eq_false_iff, Bool.or_eq_false_iff, decide_eq_false_iff_not]
      omega
  have hnone : (ranges.product ranges).find? (fun p => isIntersection p.1 p.2) = none := by
    rw [List.find?_eq_none]
    rintro ⟨a, b⟩ hmem
    obtain ⟨ha, hb⟩ := List.mem_product.1 hmem
    rw [hpairs a ha b hb]
    exact Bool.false_ne_true
  have hsorted : ranges.mergeSort (fun a b => !rangeLess b a) = ranges := by
    refine List.mergeSort_of_pairwise (h.sorted.imp_of_mem fun {a b} ha hb hab => ?_)
    have hapos := h.nonempty a ha
    simp only [rangeLess, Bool.not_eq_true', Bool.and_eq_false_iff, decide_eq_false_iff_not]
    omega
  unfold sortRanges
  rw [hnone, hsorted]

/-- **Getting marks** splits the ranges. -/
theorem exists_getMarks (step : ℕ) : ∀ {ranges : MarkRanges} (numMarks : ℕ), AllNonempty ranges → numMarks ≤ ranges.marks.length →
    ∃ taken extra left, getMarks step numMarks ranges = .ok (taken, extra, left) ∧ taken.marks ++ left.marks = ranges.marks ∧
      taken.marks.length = numMarks + extra ∧ AllNonempty left := by
  intro ranges
  induction ranges with
  | nil =>
    intro numMarks h hle
    obtain rfl : numMarks = 0 := Nat.le_zero.1 hle
    exact ⟨[], 0, [], rfl, rfl, rfl, h⟩
  | cons range rest ih =>
    intro numMarks h hle
    have hrange := h range List.mem_cons_self
    have hrest : AllNonempty rest := fun r hr => h r (List.mem_cons_of_mem _ hr)
    cases numMarks with
    | zero => exact ⟨[], 0, range :: rest, rfl, rfl, rfl, h⟩
    | succ numMarks =>
      have hlength : range.marks.length = range.endMark - range.beginMark := List.length_range'
      rw [MarkRanges.marks_cons, List.length_append, hlength] at hle
      unfold getMarks
      dsimp only
      by_cases hwhole : range.endMark - range.beginMark ≤ numMarks + 1
      · -- the whole range
        obtain ⟨taken, extra, left, hrun, hmarks, hcount, hleft⟩ :=
          ih (numMarks + 1 - (range.endMark - range.beginMark)) hrest (by omega)
        rw [min_eq_left hwhole, Nat.add_sub_cancel' hrange.le, if_pos rfl, hrun]
        refine ⟨_, extra, left, rfl, ?_, ?_, hleft⟩
        · rw [MarkRanges.marks_cons, MarkRanges.marks_cons, List.append_assoc, hmarks]
        · rw [MarkRanges.marks_cons, List.length_append, hcount]
          change (List.range' range.beginMark (range.endMark - range.beginMark)).length + _ = _
          rw [List.length_range']
          omega
      · -- the beginning of the range
        have hsplit : List.range' range.beginMark (numMarks + 1) ++
            List.range' (range.beginMark + (numMarks + 1)) (range.endMark - (range.beginMark + (numMarks + 1))) = range.marks := by
          rw [List.range'_append_1, MarkRange.marks]
          congr 1
          omega
        have hfirst : MarkRange.marks ⟨range.beginMark, range.beginMark + (numMarks + 1)⟩ =
            List.range' range.beginMark (numMarks + 1) := by
          rw [MarkRange.marks, Nat.add_sub_cancel_left]
        have hsecond : MarkRange.marks ⟨range.beginMark + (numMarks + 1), range.endMark⟩ =
            List.range' (range.beginMark + (numMarks + 1)) (range.endMark - (range.beginMark + (numMarks + 1))) := rfl
        have hnil : MarkRanges.marks [] = [] := rfl
        rw [min_eq_right (by omega), if_neg (by omega), Nat.sub_self]
        split_ifs with hsmall
        · refine ⟨_, _, _, rfl, ?_, ?_, hrest⟩
          · simp only [MarkRanges.marks_cons, hfirst, hsecond, hnil, List.append_nil, hsplit]
          · simp only [MarkRanges.marks_cons, hfirst, hsecond, hnil, List.append_nil, List.length_append, List.length_range']
        · refine ⟨_, _, _, rfl, ?_, ?_, fun r hr => ?_⟩
          · simp only [MarkRanges.marks_cons, hfirst, hsecond, hnil, List.append_nil]
            rw [← List.append_assoc, hsplit]
          · simp only [MarkRanges.marks_cons, hfirst, hnil, List.append_nil, List.length_range', Nat.add_zero]
          · rcases List.mem_cons.1 hr with rfl | hr
            · dsimp only
              omega
            · exact hrest r hr

end Ranges

/-- The marks that are left of a part. The ranges of a part stay when all its marks are taken. -/
def PartLeft.marks (part : PartLeft) : List (ℕ × ℕ) :=
  if part.sumMarks = 0 then [] else PartIndexAndRange.marks ⟨part.partIdx, part.ranges⟩

/-- The marks that are left of all parts, counted. -/
def Filling.leftSum (fill : Filling) : ℕ := (fill.parts.map PartLeft.sumMarks).sum

/-- A part while it is cut. -/
structure PartLeft.Valid (part : PartLeft) : Prop where
  nonempty : AllNonempty part.ranges
  step_pos : 0 < part.prefetchStepMarks
  sum : part.sumMarks ≠ 0 → part.sumMarks = part.ranges.marks.length

/-- **The marks of the tasks and of what is left are those of the input.** -/
structure Cut (input : List (ℕ × ℕ)) (fill : Filling) : Prop where
  marks : ((allTasks fill.perThreadTasks).flatMap ThreadTask.marks ++ fill.parts.flatMap PartLeft.marks).Perm input
  valid : ∀ part ∈ fill.parts, part.Valid
  lists : ListsWellFormed fill.perThreadTasks
  numbers : ((allTasks fill.perThreadTasks).map ThreadTask.number).Perm (List.range fill.totalTasks)
  queue : fill.prefetchQueue.Nodup ∧ ∀ number ∈ fill.prefetchQueue, number < fill.totalTasks

section Filling

variable {input : List (ℕ × ℕ)} {fill : Filling} {thread : ℕ}

theorem exists_ranges {part : PartLeft} (hvalid : part.Valid) (hsum : part.sumMarks ≠ 0) {marksToGet : ℕ}
    (hle : marksToGet ≤ part.sumMarks) :
    ∃ ranges extra left, (if part.sumMarks = marksToGet then .ok (part.ranges, 0, part.ranges)
        else if part.sumMarks < marksToGet then .error (requestedTooManyMarks marksToGet part.partIdx part.sumMarks)
        else getMarks part.prefetchStepMarks marksToGet part.ranges : Except String (MarkRanges × ℕ × MarkRanges)) =
          .ok (ranges, extra, left) ∧ marksToGet + extra ≤ part.sumMarks ∧ AllNonempty left ∧
      (part.sumMarks - (marksToGet + extra) ≠ 0 → part.sumMarks - (marksToGet + extra) = left.marks.length) ∧
      PartIndexAndRange.marks ⟨part.partIdx, ranges⟩ ++
        PartLeft.marks { part with sumMarks := part.sumMarks - (marksToGet + extra), ranges := left } = part.marks := by
  have hcount := hvalid.sum hsum
  have hmarks : part.marks = PartIndexAndRange.marks ⟨part.partIdx, part.ranges⟩ := if_neg hsum
  by_cases hall : part.sumMarks = marksToGet
  · refine ⟨part.ranges, 0, part.ranges, if_pos hall, by omega, hvalid.nonempty, fun h => absurd h (by omega), ?_⟩
    rw [PartLeft.marks, if_pos (show part.sumMarks - (marksToGet + 0) = 0 by omega), List.append_nil, hmarks]
  · obtain ⟨taken, extra, left, hrun, hsplit, hlength, hleft⟩ :=
      exists_getMarks part.prefetchStepMarks marksToGet hvalid.nonempty (by omega)
    have hlengths := congrArg List.length hsplit
    rw [List.length_append, hlength] at hlengths
    refine ⟨taken, extra, left, ?_, by omega, hleft, fun _ => by omega, ?_⟩
    · rw [if_neg hall, if_neg (by omega), hrun]
    · have hboth : PartIndexAndRange.marks ⟨part.partIdx, taken⟩ ++ PartIndexAndRange.marks ⟨part.partIdx, left⟩ =
          PartIndexAndRange.marks ⟨part.partIdx, part.ranges⟩ := by
        rw [PartIndexAndRange.marks, PartIndexAndRange.marks, ← List.map_append, hsplit]
        rfl
      rw [hmarks, ← hboth]
      unfold PartLeft.marks
      dsimp only
      by_cases hzero : part.sumMarks - (marksToGet + extra) = 0
      · have hnone : left.marks = [] := List.length_eq_zero_iff.1 (by omega)
        rw [if_pos hzero, PartIndexAndRange.marks, PartIndexAndRange.marks, hnone]
        rfl
      · rw [if_neg hzero]

/-- **Making a task.** -/
theorem Cut.exists_addTask (h : Cut input fill) {part : PartLeft} {rest : List PartLeft} (hparts : fill.parts = part :: rest)
    {needMarks : ℤ} (hneed : 0 < needMarks) (hsum : part.sumMarks ≠ 0) (priority : ℤ) :
    ∃ fill' marks, addTask thread needMarks priority part rest fill = .ok (fill', marks) ∧ Cut input fill' ∧ 0 < marks ∧
      fill'.leftSum + marks = fill.leftSum ∧ fill'.parts.length = fill.parts.length := by
  have hvalid := h.valid part (by rw [hparts]; exact List.mem_cons_self)
  have hstep := hvalid.step_pos
  let marksToGet := min (min needMarks.toNat part.sumMarks) part.prefetchStepMarks
  have hpos : 0 < marksToGet := by omega
  obtain ⟨ranges, extra, left, hrun, hle, hleft, hcount, hmarks⟩ :=
    exists_ranges hvalid hsum (show marksToGet ≤ part.sumMarks by omega)
  have hget : (if part.prefetchStepMarks ≠ 0 then min (min needMarks.toNat part.sumMarks) part.prefetchStepMarks
      else min needMarks.toNat part.sumMarks) = marksToGet := if_pos hstep.ne'
  unfold addTask
  simp only [hget, hrun, bind, Except.bind, pure, Except.pure]
  refine ⟨_, _, rfl, ⟨?_, ?_, h.lists.pushTask, ?_, ?_⟩, by omega, ?_, by rw [hparts]; rfl⟩
  · -- the marks of the new task come out of those of the part
    have htasks := (@allTasks_pushTask thread ⟨fill.totalTasks, part.partIdx, ranges, priority⟩
      fill.perThreadTasks).flatMap_right ThreadTask.marks
    have hold := h.marks
    rw [hparts, List.flatMap_cons, ← hmarks] at hold
    refine (htasks.append_right _).trans (List.Perm.trans ?_ hold)
    simp only [List.flatMap_cons, List.append_assoc]
    exact List.perm_append_comm_assoc _ _ _
  · intro p hp
    rcases List.mem_cons.1 hp with rfl | hp
    · exact ⟨hleft, hstep, hcount⟩
    · exact h.valid p (by rw [hparts]; exact List.mem_cons_of_mem _ hp)
  · have htasks := (@allTasks_pushTask thread ⟨fill.totalTasks, part.partIdx, ranges, priority⟩
      fill.perThreadTasks).map ThreadTask.number
    rw [List.range_succ]
    exact (htasks.trans (h.numbers.cons fill.totalTasks)).trans (List.perm_append_singleton _ _).symm
  · obtain ⟨hnodup, hlt⟩ := h.queue
    dsimp only
    split_ifs
    · refine ⟨List.nodup_append.2 ⟨hnodup, List.nodup_singleton _, fun a ha b hb => ?_⟩, fun number hn => ?_⟩
      · rw [List.mem_singleton.1 hb]
        exact (hlt a ha).ne
      · rcases List.mem_append.1 hn with hn | hn
        · exact Nat.lt_succ_of_lt (hlt number hn)
        · rw [List.mem_singleton.1 hn]
          exact Nat.lt_succ_self _
    · exact ⟨hnodup, fun number hn => Nat.lt_succ_of_lt (hlt number hn)⟩
  · rw [Filling.leftSum, Filling.leftSum, hparts]
    simp only [List.map_cons, List.sum_cons]
    omega

/-- **One thread** gets its share, or all that is left. -/
theorem Cut.exists_fillThread : ∀ (fuel : ℕ) {fill : Filling} (needMarks priority : ℤ), Cut input fill →
    fill.leftSum + fill.parts.length < fuel →
    ∃ fill', fillThread thread fuel needMarks priority fill = .ok fill' ∧ Cut input fill' ∧
      fill'.leftSum + fill'.parts.length ≤ fill.leftSum + fill.parts.length ∧
      (fill'.leftSum = 0 ∨ (fill'.leftSum : ℤ) + needMarks ≤ fill.leftSum) := by
  intro fuel
  induction fuel with
  | zero => exact fun _ _ _ hfuel => absurd hfuel (Nat.not_lt_zero _)
  | succ fuel ih =>
    intro fill needMarks priority h hfuel
    unfold fillThread
    by_cases hneed : 0 < needMarks
    · rw [if_pos hneed]
      cases hparts : fill.parts with
      | nil =>
        have hzero : fill.leftSum = 0 := by
          rw [Filling.leftSum, hparts]
          rfl
        exact ⟨fill, rfl, h, by rw [hparts], Or.inl hzero⟩
      | cons part rest =>
        dsimp only
        by_cases hsum : part.sumMarks = 0
        · -- the next part
          rw [if_pos hsum]
          have hnext : Filling.leftSum { fill with parts := rest } = fill.leftSum := by
            rw [Filling.leftSum, Filling.leftSum, hparts, List.map_cons, List.sum_cons, hsum, Nat.zero_add]
          have hcut : Cut input { fill with parts := rest } := by
            refine ⟨?_, fun p hp => h.valid p (by rw [hparts]; exact List.mem_cons_of_mem _ hp), h.lists, h.numbers, h.queue⟩
            have hmarks := h.marks
            rwa [hparts, List.flatMap_cons, PartLeft.marks, if_pos hsum, List.nil_append] at hmarks
          have hlen : fill.parts.length = rest.length + 1 := by rw [hparts, List.length_cons]
          obtain ⟨fill', hrun, hcut', hle, hshare⟩ := ih needMarks priority hcut (by dsimp only; omega)
          rw [hnext] at hle hshare
          exact ⟨fill', hrun, hcut', by rw [List.length_cons]; dsimp only at hle; omega, hshare⟩
        · rw [if_neg hsum]
          obtain ⟨fill₁, marks, hadd, hcut₁, hpos, hleft, hlen⟩ := @Cut.exists_addTask _ _ thread h _ _ hparts _ hneed hsum priority
          rw [hparts] at hlen
          obtain ⟨fill', hrun, hcut', hle, hshare⟩ := ih (needMarks - marks) (priority + 1) hcut₁ (by rw [hparts] at hfuel; omega)
          refine ⟨fill', ?_, hcut', by omega, by omega⟩
          rw [hadd]
          exact hrun
    · rw [if_neg hneed]
      exact ⟨fill, rfl, h, le_rfl, Or.inr (by omega)⟩

/-- The whole input: sorted ranges that are not empty, and tasks of some marks. -/
structure PartsValid (parts : List Part) : Prop where
  sorted : ∀ part ∈ parts, part.ranges.Sorted
  minMarks : ∀ part ∈ parts, 0 < part.minMarksPerTask

/-- The number of marks of the input. -/
def sumMarksOf (parts : List Part) : ℕ := (parts.map fun part => countMarks part.ranges).sum

/-- A part before it is cut. -/
def prepared (settings : Settings) (part : Part × ℕ) : PartLeft :=
  ⟨part.2, countMarks part.1.ranges, prefetchStepMarks settings part.1, part.1.estimatedMemoryUsageForSinglePrefetch,
    part.1.requiredReadersNum, part.1.ranges⟩

theorem PartsValid.step_pos {parts : List Part} (h : PartsValid parts) (settings : Settings) {part : Part}
    (hpart : part ∈ parts) : 0 < prefetchStepMarks settings part :=
  lt_of_lt_of_le (h.minMarks part hpart) (le_max_right _ _)

theorem mem_of_mem_zipIdx {parts : List Part} {part : Part × ℕ} (h : part ∈ parts.zipIdx) : part.1 ∈ parts := by
  obtain ⟨part, i⟩ := part
  exact List.mem_of_getElem? (List.mk_mem_zipIdx_iff_getElem?.1 h)

theorem PartsValid.cut_start {parts : List Part} (h : PartsValid parts) (settings : Settings) (allowedMemoryUsage : ℕ)
    (allowedPrefetchesNum : Option ℕ) :
    Cut (inputOf parts) { parts := parts.zipIdx.map (prepared settings), allowedMemoryUsage, allowedPrefetchesNum } := by
  refine ⟨?_, fun part hpart => ?_, listsWellFormed_nil, .refl _, List.nodup_nil, by simp⟩
  · refine List.Perm.of_eq ?_
    change [] ++ (parts.zipIdx.map (prepared settings)).flatMap PartLeft.marks = _
    rw [List.nil_append, List.flatMap_map, inputOf]
    refine List.flatMap_congr fun part hpart => ?_
    unfold PartLeft.marks prepared
    dsimp only
    by_cases hzero : countMarks part.1.ranges = 0
    · rw [if_pos hzero, PartIndexAndRange.marks, List.length_eq_zero_iff.1 ((countMarks_eq _).symm.trans hzero)]
      rfl
    · rw [if_neg hzero]
  · obtain ⟨source, hsource, rfl⟩ := List.mem_map.1 hpart
    have hmem := mem_of_mem_zipIdx hsource
    exact ⟨(h.sorted _ hmem).nonempty, h.step_pos settings hmem, fun _ => countMarks_eq _⟩

theorem forM_checkStep {settings : Settings} {parts : List Part} (h : ∀ part ∈ parts, 0 < prefetchStepMarks settings part) :
    parts.forM (checkStep settings) = .ok () := by
  induction parts with
  | nil => rfl
  | cons part rest ih =>
    have hcheck : checkStep settings part = .ok () := if_neg (h part List.mem_cons_self).ne'
    change (checkStep settings part >>= fun _ => rest.forM (checkStep settings)) = _
    rw [hcheck]
    exact ih fun p hp => h p (List.mem_cons_of_mem _ hp)

/-- **`fillPerThreadTasks`** cuts all marks into tasks. -/
theorem PartsValid.exists_fillPerThreadTasks {parts : List Part} (h : PartsValid parts) {settings : Settings}
    (hthreads : 0 < settings.threads) :
    ∃ pool, fillPerThreadTasks settings parts (sumMarksOf parts) = .ok pool ∧ ListsWellFormed pool.perThreadTasks ∧
      ((allTasks pool.perThreadTasks).flatMap ThreadTask.marks).Perm (inputOf parts) ∧
      ((allTasks pool.perThreadTasks).map ThreadTask.number).Nodup ∧ pool.prefetchQueue.Nodup ∧
      pool.startedPrefetches = false ∧ pool.validFutures = [] := by
  unfold fillPerThreadTasks
  by_cases hempty : parts = []
  · subst hempty
    exact ⟨{}, rfl, listsWellFormed_nil, .refl _, List.nodup_nil, List.nodup_nil, rfl, rfl⟩
  · have hsteps : parts.forM (checkStep settings) = .ok () := forM_checkStep fun part hpart => h.step_pos settings hpart
    have hprepared : parts.zipIdx.mapM (preparePart settings) = .ok (parts.zipIdx.map (prepared settings)) :=
      mapM_eq_ok fun part hpart => by
        unfold preparePart
        rw [sortRanges_eq (h.sorted _ (mem_of_mem_zipIdx hpart))]
        rfl
    obtain ⟨minMarks, hminMarks⟩ : ∃ minMarks, minMarks = (sumMarksOf parts - 1) / settings.threads + 1 := ⟨_, rfl⟩
    have hshare : sumMarksOf parts ≤ settings.threads * minMarks := by
      have hdiv := Nat.lt_mul_div_succ (sumMarksOf parts - 1) hthreads
      rw [hminMarks]
      omega
    have hsums : ((parts.zipIdx.map (prepared settings)).map PartLeft.sumMarks).sum = sumMarksOf parts := by
      rw [List.map_map, sumMarksOf]
      have hfst : (parts.zipIdx.map Prod.fst).map (fun part => countMarks part.ranges) =
          parts.map fun part => countMarks part.ranges := by rw [List.zipIdx_map_fst]
      rw [← hfst, List.map_map]
      rfl
    -- every thread takes its share, so nothing is left in the end
    obtain ⟨fill, hrun, hcut, -, hleft⟩ := exists_foldlM
      (f := fillNext settings minMarks (sumMarksOf parts + parts.length + 1))
      (I := fun rest fill => Cut (inputOf parts) fill ∧ fill.leftSum + fill.parts.length < sumMarksOf parts + parts.length + 1 ∧
        (fill.leftSum = 0 ∨ fill.leftSum ≤ rest.length * minMarks))
      (fun thread rest fill hI => by
        obtain ⟨hcut, hfuel, hleft⟩ := hI
        unfold fillNext
        by_cases hparts : fill.parts = []
        · have hzero : fill.leftSum = 0 := by
            rw [Filling.leftSum, hparts]
            rfl
          rw [if_pos (by rw [hparts]; rfl)]
          exact ⟨fill, rfl, hcut, hfuel, Or.inl hzero⟩
        · rw [if_neg (by simpa using hparts)]
          obtain ⟨fill', hrun, hcut', hle, hshare⟩ := @Cut.exists_fillThread _ thread _ _ (minMarks : ℤ)
            (settings.readPriority + 1) hcut hfuel
          refine ⟨fill', hrun, hcut', by omega, ?_⟩
          rw [List.length_cons, Nat.succ_mul] at hleft
          omega)
      (l := List.range settings.threads)
      ⟨h.cut_start settings settings.filesystemPrefetchMaxMemoryUsage
          (if settings.filesystemPrefetchesLimit ≠ 0 then some settings.filesystemPrefetchesLimit else none),
        by rw [Filling.leftSum, hsums, List.length_map, List.length_zipIdx]; omega,
        Or.inr (by rw [Filling.leftSum, hsums, List.length_range]; exact hshare)⟩
    have hnone : fill.parts.flatMap PartLeft.marks = [] := by
      have hzero : fill.leftSum = 0 := by
        rw [List.length_nil, Nat.zero_mul] at hleft
        omega
      refine List.flatMap_eq_nil_iff.2 fun part hpart => ?_
      have hpartSum : part.sumMarks = 0 := by
        have hle := List.single_le_sum (fun _ _ => Nat.zero_le _) _ (List.mem_map_of_mem (f := PartLeft.sumMarks) hpart)
        rw [Filling.leftSum] at hzero
        omega
      exact if_pos hpartSum
    have hmarks := hcut.marks
    rw [hnone, List.append_nil] at hmarks
    refine ⟨{ perThreadTasks := fill.perThreadTasks, prefetchQueue := fill.prefetchQueue }, ?_, hcut.lists, hmarks,
      hcut.numbers.nodup_iff.2 List.nodup_range, hcut.queue.1, rfl, rfl⟩
    rw [if_neg (by simpa using hempty), hsteps, hprepared]
    simp only [bind, Except.bind, hsums, ← hminMarks, hrun]
    rfl

end Filling

/-! ## `getTask` -/

namespace Pool

variable {pool : Pool} {thread : ℕ}

/-- The tasks that are not handed out. -/
def tasks (pool : Pool) : List ThreadTask := allTasks pool.perThreadTasks

/-- The lists are not empty, and a prefetch that is not started has no reader. -/
structure WellFormed (pool : Pool) : Prop where
  lists : ListsWellFormed pool.perThreadTasks
  queue : pool.startedPrefetches = false → pool.prefetchQueue.Nodup ∧ ∀ number ∈ pool.prefetchQueue, number ∉ pool.validFutures

theorem ListsWellFormed.setTasks (h : ListsWellFormed pool.perThreadTasks) {old tasks removed : List ThreadTask}
    (hmem : (thread, old) ∈ pool.perThreadTasks) (hperm : old.Perm (removed ++ tasks)) :
    ListsWellFormed (pool.setTasks thread tasks).perThreadTasks ∧
      pool.tasks.Perm (removed ++ (pool.setTasks thread tasks).tasks) := by
  obtain ⟨before, after, hsplit, hbefore, hafter⟩ := h.exists_split hmem
  have hsorted := h.sorted
  have hnonempty := h.nonempty
  rw [hsplit] at hsorted hnonempty
  obtain ⟨hsbefore, hsafter, hcross⟩ := List.pairwise_append.1 hsorted
  have htasks : pool.tasks = allTasks before ++ (old ++ allTasks after) := by
    rw [Pool.tasks, hsplit]
    simp [allTasks]
  have hmove : ∀ middle : List ThreadTask, (allTasks before ++ ((removed ++ middle) ++ allTasks after)).Perm
      (removed ++ (allTasks before ++ (middle ++ allTasks after))) := by
    intro middle
    rw [List.append_assoc removed]
    exact List.perm_append_comm_assoc _ _ _
  by_cases hempty : tasks = []
  · subst hempty
    have hentries : (pool.setTasks thread []).perThreadTasks = before ++ after := by
      have hkeep : ∀ l : TasksPerThread, (∀ entry ∈ l, entry.1 ≠ thread) → (l.filter fun entry => entry.1 ≠ thread) = l :=
        fun l hl => List.filter_eq_self.2 fun entry he => by simpa using hl entry he
      simp only [Pool.setTasks, List.isEmpty_nil, if_true, hsplit, List.filter_append, hkeep before hbefore, List.filter_cons,
        hkeep after hafter]
      simp
    refine ⟨?_, ?_⟩
    · rw [hentries]
      refine ⟨List.pairwise_append.2 ⟨hsbefore, (List.pairwise_cons.1 hsafter).2, fun a ha b hb =>
        hcross a ha b (List.mem_cons_of_mem _ hb)⟩, fun entry he => hnonempty entry ?_⟩
      rcases List.mem_append.1 he with he | he
      · exact List.mem_append_left _ he
      · exact List.mem_append_right _ (List.mem_cons_of_mem _ he)
    · have hnew : (pool.setTasks thread []).tasks = allTasks before ++ ([] ++ allTasks after) := by
        rw [Pool.tasks, hentries]
        simp [allTasks]
      rw [htasks, hnew]
      exact ((hperm.append_right _).append_left _).trans (hmove [])
  · have hentries : (pool.setTasks thread tasks).perThreadTasks = before ++ (thread, tasks) :: after := by
      have hkeep : ∀ l : TasksPerThread, (∀ entry ∈ l, entry.1 ≠ thread) →
          (l.map fun entry => if entry.1 = thread then (entry.1, tasks) else entry) = l :=
        fun l hl => (List.map_congr_left fun entry he => if_neg (hl entry he)).trans (List.map_id l)
      have hisEmpty : tasks.isEmpty = false := by simpa using hempty
      simp only [Pool.setTasks, hisEmpty, Bool.false_eq_true, if_false, hsplit, List.map_append, List.map_cons,
        hkeep before hbefore, hkeep after hafter, if_true]
    refine ⟨?_, ?_⟩
    · rw [hentries]
      refine ⟨List.pairwise_append.2 ⟨hsbefore, List.pairwise_cons.2 ⟨(List.pairwise_cons.1 hsafter).1,
        (List.pairwise_cons.1 hsafter).2⟩, fun a ha b hb => ?_⟩, fun entry he => ?_⟩
      · rcases List.mem_cons.1 hb with rfl | hb
        · exact hcross a ha (thread, old) List.mem_cons_self
        · exact hcross a ha b (List.mem_cons_of_mem _ hb)
      · rcases List.mem_append.1 he with he | he
        · exact hnonempty entry (List.mem_append_left _ he)
        · rcases List.mem_cons.1 he with rfl | he
          · exact hempty
          · exact hnonempty entry (List.mem_append_right _ (List.mem_cons_of_mem _ he))
    · have hnew : (pool.setTasks thread tasks).tasks = allTasks before ++ (tasks ++ allTasks after) := by
        rw [Pool.tasks, hentries]
        simp [allTasks]
      rw [htasks, hnew]
      exact ((hperm.append_right _).append_left _).trans (hmove tasks)

theorem ListsWellFormed.insertTasks (h : ListsWellFormed pool.perThreadTasks) (tasks : List ThreadTask) :
    ListsWellFormed (pool.insertTasks thread tasks).perThreadTasks ∧
      (pool.insertTasks thread tasks).tasks.Perm (tasks ++ pool.tasks) := by
  have hfold : ∀ (tasks : List ThreadTask) (entries : TasksPerThread), ListsWellFormed entries →
      ListsWellFormed (tasks.foldl (fun entries task => pushTask thread task entries) entries) ∧
        (allTasks (tasks.foldl (fun entries task => pushTask thread task entries) entries)).Perm (tasks ++ allTasks entries) := by
    intro tasks
    induction tasks with
    | nil => exact fun entries he => ⟨he, .refl _⟩
    | cons task rest ih =>
      intro entries he
      obtain ⟨hlists, hperm⟩ := ih (pushTask thread task entries) he.pushTask
      exact ⟨hlists, (hperm.trans ((allTasks_pushTask entries).append_left rest)).trans List.perm_middle⟩
  exact hfold tasks pool.perThreadTasks h

theorem mem_insertTasks_of_ne {entry : ℕ × List ThreadTask} (hmem : entry ∈ pool.perThreadTasks) (hne : entry.1 ≠ thread)
    (tasks : List ThreadTask) : entry ∈ (pool.insertTasks thread tasks).perThreadTasks := by
  unfold Pool.insertTasks
  dsimp only
  generalize pool.perThreadTasks = entries at hmem ⊢
  induction tasks generalizing entries with
  | nil => exact hmem
  | cons task rest ih => exact ih _ (mem_pushTask_of_ne hmem hne)

theorem ListsWellFormed.mem_insertTasks (h : ListsWellFormed pool.perThreadTasks)
    (hnew : ∀ entry ∈ pool.perThreadTasks, entry.1 ≠ thread) {tasks : List ThreadTask} (hne : tasks ≠ []) :
    (thread, tasks) ∈ (pool.insertTasks thread tasks).perThreadTasks := by
  have hfold : ∀ (tasks before : List ThreadTask) (entries : TasksPerThread), ListsWellFormed entries →
      (thread, before) ∈ entries → (thread, before ++ tasks) ∈ tasks.foldl (fun entries task => pushTask thread task entries) entries := by
    intro tasks
    induction tasks with
    | nil =>
      intro before entries _ hmem
      rw [List.append_nil]
      exact hmem
    | cons task rest ih =>
      intro before entries he hmem
      have hpushed := ih (before ++ [task]) (pushTask thread task entries) he.pushTask (he.mem_pushTask hmem)
      rwa [List.append_assoc, List.singleton_append] at hpushed
  obtain ⟨task, rest, rfl⟩ := List.exists_cons_of_ne_nil hne
  exact hfold rest [task] (pushTask thread task pool.perThreadTasks) h.pushTask (mem_pushTask_new hnew)

theorem mem_setTasks_of_ne {entry : ℕ × List ThreadTask} (hmem : entry ∈ pool.perThreadTasks) (hne : entry.1 ≠ thread)
    (tasks : List ThreadTask) : entry ∈ (pool.setTasks thread tasks).perThreadTasks := by
  unfold Pool.setTasks
  dsimp only
  split_ifs with hempty
  · exact List.mem_filter.2 ⟨hmem, by simpa using hne⟩
  · exact List.mem_map.2 ⟨entry, hmem, if_neg hne⟩

/-! ### What is stolen -/

theorem prefetchedTasksToSteal_eq (pool : Pool) :
    match pool.prefetchedTasksToSteal with
    | some (victim, task) => ∃ tasks, (victim, tasks) ∈ pool.perThreadTasks ∧ tasks.find? pool.isValidReadersFuture = some task
    | none => ∀ entry ∈ pool.perThreadTasks, entry.2.find? pool.isValidReadersFuture = none := by
  unfold prefetchedTasksToSteal
  induction pool.perThreadTasks using List.reverseRecOn with
  | nil => simp
  | append_singleton entries entry ih =>
    rw [List.foldl_append, List.foldl_cons, List.foldl_nil]
    generalize List.foldl _ none entries = best at ih ⊢
    cases hfind : entry.2.find? pool.isValidReadersFuture with
    | none =>
      cases best with
      | none =>
        intro other hother
        rcases List.mem_append.1 hother with hother | hother
        · exact ih other hother
        · rw [List.mem_singleton.1 hother]
          exact hfind
      | some best =>
        obtain ⟨tasks, hmem, htask⟩ := ih
        exact ⟨tasks, List.mem_append_left _ hmem, htask⟩
    | some task =>
      have hhere : ∃ tasks, (entry.1, tasks) ∈ entries ++ [entry] ∧ tasks.find? pool.isValidReadersFuture = some task :=
        ⟨entry.2, by simp, hfind⟩
      cases best with
      | none => exact hhere
      | some best =>
        obtain ⟨tasks, hmem, htask⟩ := ih
        dsimp only
        by_cases hpriority : task.priority < best.2.priority
        · rw [if_pos hpriority]
          exact hhere
        · rw [if_neg hpriority]
          exact ⟨tasks, List.mem_append_left _ hmem, htask⟩

theorem nonPrefetchedTasksToSteal_eq (pool : Pool) :
    match pool.nonPrefetchedTasksToSteal with
    | some entry => entry ∈ pool.perThreadTasks
    | none => ∀ entry ∈ pool.perThreadTasks, entry.2.find? pool.isValidReadersFuture ≠ none := by
  unfold nonPrefetchedTasksToSteal
  induction pool.perThreadTasks using List.reverseRecOn with
  | nil => simp
  | append_singleton entries entry ih =>
    rw [List.foldl_append, List.foldl_cons, List.foldl_nil]
    generalize List.foldl _ none entries = best at ih ⊢
    cases hfind : entry.2.find? pool.isValidReadersFuture with
    | some task =>
      cases best with
      | none =>
        intro other hother
        rcases List.mem_append.1 hother with hother | hother
        · exact ih other hother
        · rw [List.mem_singleton.1 hother, hfind]
          exact Option.some_ne_none task
      | some best => exact List.mem_append_left _ ih
    | none =>
      cases best with
      | none => exact List.mem_append_right _ List.mem_cons_self
      | some best =>
        dsimp only
        by_cases hlonger : best.2.length < entry.2.length
        · rw [if_pos hlonger]
          exact List.mem_append_right _ List.mem_cons_self
        · rw [if_neg hlonger]
          exact List.mem_append_left _ ih

/-- What an answer of the pool does to its tasks. -/
def Answered (pool : Pool) (answer : Option ThreadTask) (pool' : Pool) : Prop :=
  match answer with
  | some task => pool.tasks.Perm (task :: pool'.tasks)
  | none => pool.tasks = [] ∧ pool'.tasks = []

theorem perm_eraseP {p : ThreadTask → Bool} {l : List ThreadTask} {task : ThreadTask} (h : l.find? p = some task) :
    l.Perm ([task] ++ l.eraseP p) := by
  induction l with
  | nil => cases h
  | cons head rest ih =>
    rw [List.find?_cons] at h
    rw [List.eraseP_cons]
    cases hp : p head with
    | true =>
      rw [hp] at h
      obtain rfl : head = task := Option.some.inj h
      exact .refl _
    | false =>
      rw [hp] at h
      exact ((ih h).cons head).trans (List.Perm.swap task head _)

/-- **Stealing** takes a task that is there, whenever there is one. -/
theorem ListsWellFormed.stealTask (h : ListsWellFormed pool.perThreadTasks) (hthread : pool.find thread = none) :
    ListsWellFormed (pool.stealTask thread).2.perThreadTasks ∧ Answered pool (pool.stealTask thread).1 (pool.stealTask thread).2 := by
  have hprefetched := pool.prefetchedTasksToSteal_eq
  have hnonPrefetched := pool.nonPrefetchedTasksToSteal_eq
  unfold Pool.stealTask
  cases hbest : pool.prefetchedTasksToSteal with
  | some best =>
    rw [hbest] at hprefetched
    obtain ⟨tasks, hmem, htask⟩ := hprefetched
    have hfind : pool.find best.1 = some tasks := h.lookup_eq hmem
    dsimp only
    rw [hfind, Option.getD_some]
    exact ListsWellFormed.setTasks h hmem (perm_eraseP htask)
  | none =>
    rw [hbest] at hprefetched
    cases hmost : pool.nonPrefetchedTasksToSteal with
    | none =>
      rw [hmost] at hnonPrefetched
      -- there is no thread with tasks
      have hentries : pool.perThreadTasks = [] := by
        rw [List.eq_nil_iff_forall_not_mem]
        exact fun entry hentry => hnonPrefetched entry hentry (hprefetched entry hentry)
      have htasks : pool.tasks = [] := by
        rw [Pool.tasks, hentries]
        rfl
      exact ⟨h, htasks, htasks⟩
    | some entry =>
      rw [hmost] at hnonPrefetched
      dsimp only
      obtain ⟨victim, tasks⟩ := entry
      have hne : victim ≠ thread := by
        rintro rfl
        rw [Pool.find, h.lookup_eq hnonPrefetched] at hthread
        cases hthread
      have hnew : ∀ entry ∈ pool.perThreadTasks, entry.1 ≠ thread := by
        rintro ⟨other, tasks⟩ hentry rfl
        rw [Pool.find, h.lookup_eq hentry] at hthread
        cases hthread
      have hpos : 0 < tasks.length := List.length_pos_of_ne_nil (h.nonempty _ hnonPrefetched)
      have hhalf : tasks.drop (tasks.length / 2) ≠ [] := by
        rw [← List.length_pos_iff, List.length_drop]
        omega
      -- the tasks move to the current thread
      obtain ⟨hlists₁, hperm₁⟩ := @ListsWellFormed.insertTasks _ thread h (tasks.drop (tasks.length / 2))
      have hvictim := mem_insertTasks_of_ne hnonPrefetched hne (tasks.drop (tasks.length / 2))
      have hmoved := ListsWellFormed.mem_insertTasks h hnew hhalf
      have hsplit : tasks.Perm (tasks.drop (tasks.length / 2) ++ tasks.take (tasks.length / 2)) := by
        have happend := List.take_append_drop (tasks.length / 2) tasks
        exact (List.Perm.of_eq happend.symm).trans List.perm_append_comm
      obtain ⟨hlists₂, hperm₂⟩ := ListsWellFormed.setTasks hlists₁ hvictim hsplit
      have hmoved₂ := mem_setTasks_of_ne hmoved hne.symm (tasks.take (tasks.length / 2))
      have hsame := (List.perm_append_left_iff _).1 (hperm₁.symm.trans hperm₂)
      -- and the current thread takes the first of them
      have hfind : ((pool.insertTasks thread (tasks.drop (tasks.length / 2))).setTasks victim
          (tasks.take (tasks.length / 2))).find thread = some (tasks.drop (tasks.length / 2)) := hlists₂.lookup_eq hmoved₂
      obtain ⟨task, rest, hcons⟩ := List.exists_cons_of_ne_nil hhalf
      rw [hcons] at hfind hmoved₂ hlists₂ hsame ⊢
      rw [hfind]
      obtain ⟨hlists₃, hperm₃⟩ := ListsWellFormed.setTasks hlists₂ hmoved₂ (show (task :: rest).Perm ([task] ++ rest) from .refl _)
      exact ⟨hlists₃, hsame.trans hperm₃⟩

/-! ### Calls -/

theorem exists_startPrefetches (created : ℕ → Bool) (hnodup : pool.prefetchQueue.Nodup)
    (hnew : ∀ number ∈ pool.prefetchQueue, number ∉ pool.validFutures) :
    ∃ pool', pool.startPrefetches created = .ok pool' ∧ pool'.perThreadTasks = pool.perThreadTasks ∧
      pool'.startedPrefetches = pool.startedPrefetches := by
  obtain ⟨pool', hrun, -, -, hsame, hstarted⟩ := exists_foldlM (f := createPrefetchedReadersForTask created)
    (I := fun rest current => rest.Nodup ∧ (∀ number ∈ rest, number ∉ current.validFutures) ∧
      current.perThreadTasks = pool.perThreadTasks ∧ current.startedPrefetches = pool.startedPrefetches)
    (fun number rest current hI => by
      obtain ⟨hrest, hnot, hsame, hstarted⟩ := hI
      obtain ⟨hfirst, hrest⟩ := List.nodup_cons.1 hrest
      have hother : ∀ other ∈ rest, other ∉ current.validFutures := fun other ho => hnot other (List.mem_cons_of_mem _ ho)
      unfold createPrefetchedReadersForTask
      rw [if_neg (hnot number List.mem_cons_self)]
      cases created number with
      | false => exact ⟨current, rfl, hrest, hother, hsame, hstarted⟩
      | true =>
        refine ⟨_, rfl, hrest, fun other ho hmem => ?_, hsame, hstarted⟩
        rcases List.mem_append.1 hmem with hmem | hmem
        · exact hother other ho hmem
        · rw [List.mem_singleton.1 hmem] at ho
          exact hfirst ho)
    ⟨hnodup, hnew, rfl, rfl⟩
  refine ⟨{ pool' with prefetchQueue := [] }, ?_, hsame, hstarted⟩
  unfold startPrefetches
  rw [hrun]
  rfl

theorem setTasks_started (pool : Pool) (thread : ℕ) (tasks : List ThreadTask) :
    (pool.setTasks thread tasks).startedPrefetches = pool.startedPrefetches := rfl

theorem stealTask_started (pool : Pool) (thread : ℕ) : (pool.stealTask thread).2.startedPrefetches = pool.startedPrefetches := by
  unfold Pool.stealTask
  cases pool.prefetchedTasksToSteal with
  | some best => rfl
  | none =>
    cases pool.nonPrefetchedTasksToSteal with
    | none => rfl
    | some entry =>
      dsimp only
      split <;> rfl

/-- **One call** hands out one task, and null only when there is none. -/
theorem WellFormed.getTask (h : pool.WellFormed) (created : ℕ → Bool) (taskIdx : ℕ) :
    ∃ answer pool', pool.getTask created taskIdx = .ok (answer, pool') ∧ pool'.WellFormed ∧ Answered pool answer pool' := by
  unfold Pool.getTask
  by_cases hempty : pool.perThreadTasks = []
  · have htasks : pool.tasks = [] := by
      rw [Pool.tasks, hempty]
      rfl
    rw [if_pos (by rw [hempty]; rfl)]
    exact ⟨none, pool, rfl, h, htasks, htasks⟩
  · rw [if_neg (by simpa using hempty)]
    have hstart : ∃ started : Pool, (if pool.startedPrefetches then .ok pool
        else ({ pool with startedPrefetches := true } : Pool).startPrefetches created : Except String Pool) = .ok started ∧
        started.perThreadTasks = pool.perThreadTasks ∧ started.startedPrefetches = true := by
      cases hs : pool.startedPrefetches with
      | true => exact ⟨pool, rfl, rfl, hs⟩
      | false =>
        obtain ⟨hnodup, hnew⟩ := h.queue hs
        exact @exists_startPrefetches { pool with startedPrefetches := true } created hnodup hnew
    obtain ⟨started, hrun, hsame, hstarted⟩ := hstart
    have hlists := h.lists
    have htasks : pool.tasks = started.tasks := by rw [Pool.tasks, Pool.tasks, hsame]
    rw [← hsame] at hlists
    rw [hrun]
    simp only [bind, Except.bind]
    have hanswered : ∀ {answer pool'}, Answered started answer pool' → Answered pool answer pool' := by
      intro answer pool' ha
      unfold Answered at ha ⊢
      rwa [htasks]
    cases hfind : started.find taskIdx with
    | none =>
      obtain ⟨hlists', ha⟩ := ListsWellFormed.stealTask hlists hfind
      refine ⟨(started.stealTask taskIdx).1, (started.stealTask taskIdx).2, rfl, ⟨hlists', fun hs => ?_⟩, hanswered ha⟩
      exact absurd (hs.symm.trans ((stealTask_started started taskIdx).trans hstarted)) Bool.false_ne_true
    | some tasks =>
      have hmem := mem_of_lookup hfind
      cases tasks with
      | nil => exact absurd rfl (hlists.nonempty _ hmem)
      | cons task rest =>
        obtain ⟨hlists', hperm⟩ := ListsWellFormed.setTasks hlists hmem (show (task :: rest).Perm ([task] ++ rest) from .refl _)
        refine ⟨some task, _, rfl, ⟨hlists', fun hs => ?_⟩, hanswered hperm⟩
        rw [setTasks_started, hstarted] at hs
        cases hs

/-- **Any calls of any threads.** -/
theorem WellFormed.run (created : ℕ → Bool) : ∀ (calls : List ℕ) {pool : Pool}, pool.WellFormed →
    ∃ answers pool', pool.run created calls = .ok (answers, pool') ∧ pool'.WellFormed ∧ answers.map Prod.fst = calls ∧
      (answers.filterMap Prod.snd ++ pool'.tasks).Perm pool.tasks ∧
      ((∃ thread, (thread, none) ∈ answers) → pool'.tasks = []) := by
  intro calls
  induction calls with
  | nil => exact fun {pool} h => ⟨[], pool, rfl, h, rfl, .refl _, fun ⟨_, hmem⟩ => absurd hmem List.not_mem_nil⟩
  | cons thread calls ih =>
    intro pool h
    obtain ⟨answer, pool₁, hfirst, h₁, hanswered⟩ := h.getTask created thread
    obtain ⟨answers, pool₂, hrest, h₂, hthreads, hperm, hnone⟩ := ih h₁
    refine ⟨(thread, answer) :: answers, pool₂, ?_, h₂, by rw [List.map_cons, hthreads], ?_, ?_⟩
    · unfold Pool.run
      simp only [hfirst, hrest, bind, Except.bind, pure, Except.pure]
    · cases answer with
      | none =>
        obtain ⟨hbefore, hafter⟩ := hanswered
        rw [hbefore, ← hafter]
        exact hperm
      | some task => exact (hperm.cons task).trans hanswered.symm
    · rintro ⟨other, hmem⟩
      rcases List.mem_cons.1 hmem with heq | hmem
      · obtain rfl : none = answer := congrArg Prod.snd heq
        have hall := hperm.length_eq
        rw [hanswered.2, List.length_append, List.length_nil] at hall
        exact List.length_eq_zero_iff.1 (by omega)
      · exact hnone ⟨other, hmem⟩

end Pool

/-! ## The whole pool -/

theorem nodup_inputOf {parts : List Part} (h : PartsValid parts) : (inputOf parts).Nodup := by
  have hinput : inputOf parts = inputMarks (parts.map fun part => { ranges := part.ranges }) := by
    unfold inputOf inputMarks
    rw [List.zipIdx_map, List.flatMap_map]
    rfl
  rw [hinput]
  refine MergeTreeReadPool.nodup_inputMarks fun part hpart => ?_
  obtain ⟨source, hsource, rfl⟩ := List.mem_map.1 hpart
  exact h.sorted source hsource

/-- **Every mark is handed out once.** `fillPerThreadTasks` throws nothing, makes no empty list and
puts every mark of the input in just one task. In any order of calls every task is returned by at most
one call or still there, no list gets empty, and after null was returned all marks have been. -/
theorem fillPerThreadTasks_handsOutOnce {parts : List Part} (hparts : PartsValid parts) {settings : Settings}
    (hthreads : 0 < settings.threads) :
    ∃ pool, fillPerThreadTasks settings parts (sumMarksOf parts) = .ok pool ∧
      (∀ entry ∈ pool.perThreadTasks, entry.2 ≠ []) ∧ (pool.tasks.map ThreadTask.number).Nodup ∧
      (pool.tasks.flatMap ThreadTask.marks).Perm (inputOf parts) ∧ (inputOf parts).Nodup ∧
      ∀ (created : ℕ → Bool) (calls : List ℕ), ∃ answers pool', pool.run created calls = .ok (answers, pool') ∧
        answers.map Prod.fst = calls ∧ (answers.filterMap Prod.snd ++ pool'.tasks).Perm pool.tasks ∧
        (∀ entry ∈ pool'.perThreadTasks, entry.2 ≠ []) ∧
        ((∃ thread, (thread, none) ∈ answers) → ((answers.filterMap Prod.snd).flatMap ThreadTask.marks).Perm (inputOf parts)) := by
  obtain ⟨pool, hrun, hlists, hmarks, hnumbers, hqueue, -, hfutures⟩ := hparts.exists_fillPerThreadTasks hthreads
  have hpool : pool.WellFormed := ⟨hlists, fun _ => ⟨hqueue, fun number _ => by rw [hfutures]; exact List.not_mem_nil⟩⟩
  refine ⟨pool, hrun, hlists.nonempty, hnumbers, hmarks, nodup_inputOf hparts, fun created calls => ?_⟩
  obtain ⟨answers, pool', hcalls, hpool', hthread, hperm, hnone⟩ := hpool.run created calls
  refine ⟨answers, pool', hcalls, hthread, hperm, hpool'.lists.nonempty, fun hnull => ?_⟩
  rw [hnone hnull, List.append_nil] at hperm
  exact (hperm.flatMap_right ThreadTask.marks).trans hmarks

namespace TwoParts

/-- Two threads; steps of three marks. -/
def settings : Settings := ⟨2, 3, 0, 1000, 2, 0, fun a b => a / b⟩

/-- Two parts, one with a small rest. -/
def parts : List Part := [⟨[⟨0, 4⟩, ⟨6, 8⟩], 1, 10, 100, 1⟩, ⟨[⟨0, 5⟩], 2, 10, 100, 2⟩]

theorem partsValid : PartsValid parts :=
  ⟨by intro part hpart
      simp only [parts, List.mem_cons, List.not_mem_nil, or_false] at hpart
      rcases hpart with rfl | rfl
      · exact ⟨by decide, by decide⟩
      · exact ⟨by decide, by decide⟩, by decide⟩

end TwoParts

theorem fillPerThreadTasks_handsOutOnce_twoParts :
    ∃ pool, fillPerThreadTasks TwoParts.settings TwoParts.parts (sumMarksOf TwoParts.parts) = .ok pool ∧
      (pool.tasks.flatMap ThreadTask.marks).Perm (inputOf TwoParts.parts) := by
  obtain ⟨pool, hrun, -, -, hmarks, -⟩ := @fillPerThreadTasks_handsOutOnce _ TwoParts.partsValid TwoParts.settings
    (by decide)
  exact ⟨pool, hrun, hmarks⟩

end PrefetchedReadPool

end MergeTree
