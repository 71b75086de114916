import MergeTree.Spec.MarkRanges
import MergeTree.Spec.ReadPool

/-!
# Every mark is handed out once

Taking marks from ranges splits them (`takeMarks_spec`), so the marks of the queue and of
the threads together stay those of the input while the threads are filled (`Filling`), and
the marks of the threads and of the tasks do while they read (`Inv`). Every thread takes at
least its share of the marks, so the queue is empty in the end (`exists_fillPerThreadInfo`).
-/

namespace MergeTree

/-! ## Marks -/

/-- The marks of a part, with its index. -/
def PartIndexAndRange.marks (task : PartIndexAndRange) : List (ℕ × ℕ) := task.ranges.marks.map fun m => (task.partIdx, m)

/-- The marks of the input. -/
def inputMarks (parts : List PoolPart) : List (ℕ × ℕ) :=
  parts.zipIdx.flatMap fun part => PartIndexAndRange.marks ⟨part.2, part.1.ranges⟩

section Marks

variable {ranges : MarkRanges} {needMarks : ℕ}

theorem length_marks (ranges : MarkRanges) : ranges.marks.length = sumMarks ranges := by
  unfold MarkRanges.marks sumMarks
  rw [List.length_flatMap]
  simp only [List.length_range']

theorem MarkRanges.marks_cons (range : MarkRange) (ranges : MarkRanges) :
    MarkRanges.marks (range :: ranges) = range.marks ++ ranges.marks := List.flatMap_cons

theorem MarkRanges.Sorted.sortedDisjoint (h : ranges.Sorted) : ranges.SortedDisjoint :=
  ⟨fun range hrange => (h.nonempty range hrange).le, h.sorted⟩

theorem MarkRanges.Sorted.tail {range : MarkRange} (h : MarkRanges.Sorted (range :: ranges)) : ranges.Sorted :=
  ⟨fun r hr => h.nonempty r (List.mem_cons_of_mem _ hr), (List.pairwise_cons.1 h.sorted).2⟩

theorem MarkRanges.Sorted.cons {range : MarkRange} (hrange : range.beginMark < range.endMark)
    (hbefore : ∀ r ∈ ranges, range.endMark ≤ r.beginMark) (h : ranges.Sorted) : MarkRanges.Sorted (range :: ranges) := by
  refine ⟨fun r hr => ?_, List.pairwise_cons.2 ⟨hbefore, h.sorted⟩⟩
  rcases List.mem_cons.1 hr with rfl | hr
  · exact hrange
  · exact h.nonempty r hr

theorem sumMarks_pos (h : ranges.Sorted) (hne : ranges ≠ []) : 0 < sumMarks ranges := by
  obtain ⟨range, rest, rfl⟩ := List.exists_cons_of_ne_nil hne
  have hrange := h.nonempty range List.mem_cons_self
  unfold sumMarks
  rw [List.map_cons, List.sum_cons]
  omega

/-- What the loop through part ranges takes and leaves. -/
structure Taken (ranges : MarkRanges) (needMarks : ℕ) (taken left : MarkRanges) : Prop where
  marks : taken.marks ++ left.marks = ranges.marks
  length : taken.marks.length = needMarks
  sorted_taken : taken.Sorted
  sorted_left : left.Sorted
  bound : ∀ lo, (∀ range ∈ ranges, lo ≤ range.beginMark) → ∀ range ∈ taken, lo ≤ range.beginMark

/-- **Taking marks** splits the ranges, if they have as many. -/
theorem takeMarks_spec : ∀ {ranges : MarkRanges} (needMarks : ℕ), ranges.Sorted → needMarks ≤ sumMarks ranges →
    ∃ taken left, takeMarks needMarks ranges = (taken, left, 0) ∧ Taken ranges needMarks taken left := by
  have hnone : ∀ {ranges : MarkRanges}, ranges.Sorted →
      ∃ taken left, takeMarks 0 ranges = (taken, left, 0) ∧ Taken ranges 0 taken left := fun {ranges} h =>
    ⟨[], ranges, by unfold takeMarks; rfl, rfl, rfl, ⟨nofun, .nil⟩, h, fun _ _ => nofun⟩
  intro ranges
  induction ranges with
  | nil =>
    intro needMarks h hle
    obtain rfl : needMarks = 0 := Nat.le_zero.1 hle
    exact hnone h
  | cons range ranges ih =>
    intro needMarks h hle
    obtain ⟨hbefore, -⟩ := List.pairwise_cons.1 h.sorted
    have hrange := h.nonempty range List.mem_cons_self
    have hsum : sumMarks (range :: ranges) = range.endMark - range.beginMark + sumMarks ranges := by
      unfold sumMarks
      rw [List.map_cons, List.sum_cons]
    cases needMarks with
    | zero => exact hnone h
    | succ needMarks =>
      unfold takeMarks
      dsimp only
      by_cases hwhole : range.endMark - range.beginMark ≤ needMarks + 1
      · -- the whole range
        rw [min_eq_left hwhole, Nat.add_sub_cancel' hrange.le, if_pos rfl]
        obtain ⟨taken, left, htake, hmarks, hlength, htaken, hleft, hbound⟩ :=
          ih (needMarks + 1 - (range.endMark - range.beginMark)) h.tail (by omega)
        rw [htake]
        refine ⟨_, _, rfl, ?_, ?_, htaken.cons hrange (hbound _ hbefore), hleft, fun lo hlo r hr => ?_⟩
        · rw [MarkRanges.marks_cons, MarkRanges.marks_cons, List.append_assoc, hmarks]
        · rw [MarkRanges.marks_cons, List.length_append, hlength]
          unfold MarkRange.marks
          rw [List.length_range']
          dsimp only
          omega
        · rcases List.mem_cons.1 hr with rfl | hr
          · exact hlo range List.mem_cons_self
          · exact hbound lo (fun s hs => hlo s (List.mem_cons_of_mem _ hs)) r hr
      · -- a part of the range
        rw [min_eq_right (by omega), if_neg (by omega), Nat.sub_self]
        refine ⟨_, _, rfl, ?_, ?_, ?_, ?_, fun lo hlo r hr => ?_⟩
        · rw [MarkRanges.marks_cons, MarkRanges.marks_cons, MarkRanges.marks_cons, ← List.append_assoc]
          congr 1
          rw [show MarkRanges.marks [] = [] from rfl, List.append_nil]
          unfold MarkRange.marks
          dsimp only
          rw [Nat.add_sub_cancel_left, List.range'_append_1]
          congr 1
          omega
        · rw [MarkRanges.marks_cons, show MarkRanges.marks [] = [] from rfl, List.append_nil]
          unfold MarkRange.marks
          rw [List.length_range']
          dsimp only
          omega
        · exact MarkRanges.Sorted.cons (by dsimp only; omega) nofun ⟨nofun, .nil⟩
        · exact h.tail.cons (by dsimp only; omega) hbefore
        · rw [List.mem_singleton.1 hr]
          exact hlo range List.mem_cons_self

theorem Taken.sumMarks_left {taken left : MarkRanges} (h : Taken ranges needMarks taken left) :
    sumMarks left = sumMarks ranges - needMarks := by
  have hlength := congrArg List.length h.marks
  rw [List.length_append, h.length, length_marks, length_marks] at hlength
  omega

theorem Taken.sumMarks_taken {taken left : MarkRanges} (h : Taken ranges needMarks taken left) :
    sumMarks taken = needMarks := by rw [← length_marks, h.length]

theorem ne_nil_of_sumMarks_pos (h : 0 < sumMarks ranges) : ranges ≠ [] := by
  rintro rfl
  exact Nat.lt_irrefl 0 h

end Marks

/-! ## Threads -/

section Threads

variable {parts : List PoolPart} {threads : ℕ} {threadsTasks : ℕ → ThreadTask}

/-- The marks of a thread. -/
def ThreadTask.marks (threadTask : ThreadTask) : Multiset (ℕ × ℕ) :=
  (threadTask.partsAndRanges.map fun entry => (entry.marks : Multiset (ℕ × ℕ))).sum

/-- The marks of all threads. -/
def allMarks (threads : ℕ) (threadsTasks : ℕ → ThreadTask) : Multiset (ℕ × ℕ) :=
  ∑ i ∈ Finset.range threads, (threadsTasks i).marks

/-- An entry of a thread and the number beside it. -/
structure EntryValid (entry : PartIndexAndRange) (sumMarksInPart : ℕ) : Prop where
  sorted : entry.ranges.Sorted
  nonempty : entry.ranges ≠ []
  sum : sumMarksInPart = sumMarks entry.ranges

/-- The numbers of marks of a thread agree with the ranges beside them. -/
def ThreadTask.Valid (threadTask : ThreadTask) : Prop :=
  List.Forall₂ EntryValid threadTask.partsAndRanges threadTask.sumMarksInParts

/-- The threads own valid tasks, and the set of remaining threads is right. -/
structure ThreadsValid (threads : ℕ) (threadsTasks : ℕ → ThreadTask) (remaining : Finset ℕ) : Prop where
  valid : ∀ i, (threadsTasks i).Valid
  idle : ∀ i, threads ≤ i → threadsTasks i = {}
  remaining : ∀ i, i ∈ remaining ↔ (threadsTasks i).partsAndRanges ≠ []

theorem ThreadTask.valid_empty : ThreadTask.Valid {} := .nil

theorem ThreadTask.Valid.nil_iff {threadTask : ThreadTask} (h : threadTask.Valid) :
    threadTask.sumMarksInParts = [] ↔ threadTask.partsAndRanges = [] := by
  have hlength := List.Forall₂.length_eq h
  rw [← List.length_eq_zero_iff, ← hlength, List.length_eq_zero_iff]

theorem ThreadTask.marks_cons (entry : PartIndexAndRange) (partsAndRanges : List PartIndexAndRange) (sums sums' : List ℕ) :
    ThreadTask.marks ⟨entry :: partsAndRanges, sums⟩ = entry.marks + ThreadTask.marks ⟨partsAndRanges, sums'⟩ := by
  unfold marks
  rw [List.map_cons, List.sum_cons]

theorem allMarks_update (threadsTasks : ℕ → ThreadTask) {i : ℕ} (hi : i < threads) (threadTask : ThreadTask) :
    allMarks threads (Function.update threadsTasks i threadTask) + (threadsTasks i).marks =
      allMarks threads threadsTasks + threadTask.marks := by
  have hmem := Finset.mem_range.2 hi
  unfold allMarks
  rw [← Finset.add_sum_erase _ _ hmem, ← Finset.add_sum_erase _ _ hmem, Function.update_self]
  have hrest : ∀ j ∈ (Finset.range threads).erase i, (Function.update threadsTasks i threadTask j).marks = (threadsTasks j).marks := by
    intro j hj
    rw [Function.update_of_ne (Finset.ne_of_mem_erase hj)]
  rw [Finset.sum_congr rfl hrest]
  abel

theorem allMarks_eq_zero (h : ∀ i < threads, (threadsTasks i).partsAndRanges = []) : allMarks threads threadsTasks = 0 := by
  refine Finset.sum_eq_zero fun i hi => ?_
  unfold ThreadTask.marks
  rw [h i (Finset.mem_range.1 hi)]
  rfl

theorem ThreadsValid.update {remaining remaining' : Finset ℕ} (h : ThreadsValid threads threadsTasks remaining) {i : ℕ}
    (hi : i < threads) {threadTask : ThreadTask} (hvalid : threadTask.Valid)
    (hremaining : ∀ j, j ∈ remaining' ↔ (j ≠ i ∧ j ∈ remaining) ∨ (j = i ∧ threadTask.partsAndRanges ≠ [])) :
    ThreadsValid threads (Function.update threadsTasks i threadTask) remaining' := by
  refine ⟨fun j => ?_, fun j hj => ?_, fun j => ?_⟩
  · by_cases hji : j = i
    · subst hji
      rwa [Function.update_self]
    · rw [Function.update_of_ne hji]
      exact h.valid j
  · rw [Function.update_of_ne (by omega)]
    exact h.idle j hj
  · rw [hremaining]
    by_cases hji : j = i
    · subst hji
      simp only [ne_eq, not_true_eq_false, false_and, true_and, false_or, Function.update_self]
    · rw [Function.update_of_ne hji, ← h.remaining j]
      simp only [ne_eq, hji, not_false_eq_true, true_and, false_and, or_false]

theorem sum_map_coe {α β : Type} (f : α → List β) (l : List α) :
    (l.map fun a => (f a : Multiset β)).sum = (l.flatMap f : List β) := by
  induction l with
  | nil => rfl
  | cons a l ih => rw [List.map_cons, List.sum_cons, ih, List.flatMap_cons, Multiset.coe_add]

theorem ThreadTask.Valid.exists_entryValid {threadTask : ThreadTask} (h : threadTask.Valid) {entry : PartIndexAndRange}
    (hentry : entry ∈ threadTask.partsAndRanges) : ∃ n, EntryValid entry n := by
  obtain ⟨partsAndRanges, sums⟩ := threadTask
  unfold ThreadTask.Valid at h
  dsimp only at h hentry
  induction h with
  | nil => cases hentry
  | cons hhead _ ih =>
    rcases List.mem_cons.1 hentry with rfl | hentry
    · exact ⟨_, hhead⟩
    · exact ih hentry

theorem mem_allMarks {threads : ℕ} {threadsTasks : ℕ → ThreadTask} {mark : ℕ × ℕ} :
    mark ∈ allMarks threads threadsTasks ↔ ∃ i < threads, mark ∈ (threadsTasks i).marks := by
  unfold allMarks
  rw [Multiset.mem_sum]
  simp only [Finset.mem_range]

theorem ThreadTask.mem_marks {threadTask : ThreadTask} {mark : ℕ × ℕ} :
    mark ∈ threadTask.marks ↔ ∃ entry ∈ threadTask.partsAndRanges, mark ∈ entry.marks := by
  unfold ThreadTask.marks
  rw [sum_map_coe, Multiset.mem_coe, List.mem_flatMap]

theorem mem_inputMarks {mark : ℕ × ℕ} (h : mark ∈ inputMarks parts) : mark.1 < parts.length := by
  obtain ⟨⟨part, i⟩, hpart, hmark⟩ := List.mem_flatMap.1 h
  obtain ⟨m, -, rfl⟩ := List.mem_map.1 hmark
  obtain ⟨-, hlt, -⟩ := List.mem_zipIdx hpart
  simpa using hlt

theorem exists_mem_marks {ranges : MarkRanges} (h : ranges.Sorted) (hne : ranges ≠ []) : ∃ m, m ∈ ranges.marks := by
  refine List.exists_mem_of_length_pos ?_
  rw [length_marks]
  exact sumMarks_pos h hne

end Threads

/-! ## Filling the threads -/

section Fill

variable {parts : List PoolPart} {threads : ℕ} {minMarksPerTask : ℕ → ℕ} {fill : PoolFill}

/-- The marks of a part in the queue. -/
def PoolPartInfo.marks (part : PoolPartInfo) : List (ℕ × ℕ) := PartIndexAndRange.marks ⟨part.partIdx, part.ranges⟩

/-- The marks in the queue. -/
def queueMarks (queue : List (List PoolPartInfo)) : Multiset (ℕ × ℕ) := (queue.flatten.flatMap PoolPartInfo.marks : List (ℕ × ℕ))

/-- The number of marks in the queue. -/
def queueSum (queue : List (List PoolPartInfo)) : ℕ := (queue.flatten.map PoolPartInfo.sumMarks).sum

/-- A part in the queue. -/
structure PoolPartInfo.Valid (parts : List PoolPart) (part : PoolPartInfo) : Prop where
  sorted : part.ranges.Sorted
  nonempty : part.ranges ≠ []
  sum : part.sumMarks = MergeTree.sumMarks part.ranges
  partIdx_lt : part.partIdx < parts.length

/-- The state while the threads are filled. -/
structure Filling (parts : List PoolPart) (threads : ℕ) (fill : PoolFill) : Prop where
  disks : ∀ disk ∈ fill.partsQueue, disk ≠ []
  valid : ∀ disk ∈ fill.partsQueue, ∀ part ∈ disk, part.Valid parts
  threadsValid : ThreadsValid threads fill.threadsTasks fill.remainingThreadTasks
  marks : queueMarks fill.partsQueue + allMarks threads fill.threadsTasks = inputMarks parts

theorem le_adjustNeedMarks (marksInPart minMarks needMarks : ℕ) : needMarks ≤ adjustNeedMarks marksInPart minMarks needMarks := by
  unfold adjustNeedMarks
  dsimp only
  split <;> split <;> omega

theorem ThreadsValid.assign (h : ThreadsValid threads fill.threadsTasks fill.remainingThreadTasks) {i : ℕ} (hi : i < threads)
    {partIdx : ℕ} {ranges : MarkRanges} {n : ℕ} (hentry : EntryValid ⟨partIdx, ranges⟩ n) (queue : List (List PoolPartInfo)) :
    ThreadsValid threads ({ fill with partsQueue := queue }.assign i partIdx ranges n).threadsTasks
        ({ fill with partsQueue := queue }.assign i partIdx ranges n).remainingThreadTasks ∧
      allMarks threads ({ fill with partsQueue := queue }.assign i partIdx ranges n).threadsTasks =
        (PartIndexAndRange.marks ⟨partIdx, ranges⟩ : Multiset (ℕ × ℕ)) + allMarks threads fill.threadsTasks := by
  have hpos : n ≠ 0 := by
    have hsum := sumMarks_pos hentry.sorted hentry.nonempty
    rw [hentry.sum]
    omega
  unfold PoolFill.assign
  dsimp only
  rw [if_pos hpos]
  constructor
  · refine h.update hi (.cons hentry (h.valid i)) fun j => ?_
    rw [Finset.mem_insert]
    by_cases hji : j = i
    · simp [hji]
    · simp [hji]
  · have hupdate := allMarks_update fill.threadsTasks hi
      ⟨⟨partIdx, ranges⟩ :: (fill.threadsTasks i).partsAndRanges, n :: (fill.threadsTasks i).sumMarksInParts⟩
    rw [ThreadTask.marks_cons _ _ _ (fill.threadsTasks i).sumMarksInParts, add_left_comm] at hupdate
    refine add_right_cancel (b := (fill.threadsTasks i).marks) (hupdate.trans ?_)
    abel

theorem queue_cons (part : PoolPartInfo) (currentParts : List PoolPartInfo) (disks : List (List PoolPartInfo)) :
    queueMarks ((part :: currentParts) :: disks) = (part.marks : Multiset (ℕ × ℕ)) + queueMarks (currentParts :: disks) ∧
      queueSum ((part :: currentParts) :: disks) = part.sumMarks + queueSum (currentParts :: disks) := by
  unfold queueMarks queueSum
  constructor
  · rw [List.flatten_cons, List.cons_append, List.flatMap_cons, ← Multiset.coe_add]
    rfl
  · rw [List.flatten_cons, List.cons_append, List.map_cons, List.sum_cons]
    rfl

theorem queue_popDisk (currentParts : List PoolPartInfo) (disks : List (List PoolPartInfo)) :
    queueMarks (if currentParts.isEmpty then disks else currentParts :: disks) = queueMarks (currentParts :: disks) ∧
      queueSum (if currentParts.isEmpty then disks else currentParts :: disks) = queueSum (currentParts :: disks) := by
  cases currentParts with
  | nil => exact ⟨rfl, rfl⟩
  | cons part currentParts => exact ⟨rfl, rfl⟩

/-- **One thread** takes at least what it needs, or all that is left. -/
theorem exists_fillThread (hmin : ∀ partIdx < parts.length, 0 < minMarksPerTask partIdx) {i : ℕ} (hi : i < threads) :
    ∀ (needMarks : ℕ) {fill : PoolFill}, Filling parts threads fill →
      ∃ fill', fillThread minMarksPerTask i needMarks fill = .ok fill' ∧ Filling parts threads fill' ∧
        (fill'.partsQueue = [] ∨ queueSum fill'.partsQueue + needMarks ≤ queueSum fill.partsQueue) := by
  have hstrong : ∀ (n : ℕ) {needMarks : ℕ} {fill : PoolFill}, fill.queuedParts = n → Filling parts threads fill →
      ∃ fill', fillThread minMarksPerTask i needMarks fill = .ok fill' ∧ Filling parts threads fill' ∧
        (fill'.partsQueue = [] ∨ queueSum fill'.partsQueue + needMarks ≤ queueSum fill.partsQueue) := by
    intro n
    induction n using Nat.strong_induction_on with
    | _ n ih =>
      intro needMarks fill hn h
      unfold fillThread
      by_cases hneed : needMarks = 0
      · rw [if_pos hneed]
        exact ⟨fill, rfl, h, Or.inr (by omega)⟩
      rw [if_neg hneed]
      obtain ⟨queue, threadsTasks, remaining⟩ := fill
      match queue with
      | [] => exact ⟨_, rfl, h, Or.inl rfl⟩
      | [] :: disks => exact absurd rfl (h.disks [] List.mem_cons_self)
      | (part :: currentParts) :: disks =>
        have hpart := h.valid _ List.mem_cons_self part List.mem_cons_self
        have hminPart := hmin _ hpart.partIdx_lt
        have hadjust := le_adjustNeedMarks part.sumMarks (minMarksPerTask part.partIdx) needMarks
        obtain ⟨hmarks, hsum⟩ := queue_cons part currentParts disks
        have hall := h.marks
        dsimp only at hall ⊢
        rw [hmarks] at hall
        rw [if_neg (by omega), hsum]
        split
        · -- the whole part
          rename_i hwhole
          obtain ⟨hpopMarks, hpopSum⟩ := queue_popDisk currentParts disks
          obtain ⟨hthreads, hassigned⟩ := ThreadsValid.assign h.threadsValid hi ⟨hpart.sorted, hpart.nonempty, hpart.sum⟩
            (if currentParts.isEmpty then disks else currentParts :: disks)
          have hfilling : Filling parts threads (PoolFill.assign
              ⟨if currentParts.isEmpty then disks else currentParts :: disks, threadsTasks, remaining⟩ i part.partIdx part.ranges
                part.sumMarks) := by
            refine ⟨fun disk hdisk => ?_, fun disk hdisk p hp => ?_, hthreads, ?_⟩
            · cases currentParts with
              | nil => exact h.disks disk (List.mem_cons_of_mem _ hdisk)
              | cons next currentParts =>
                rcases List.mem_cons.1 hdisk with rfl | hdisk
                · exact List.cons_ne_nil _ _
                · exact h.disks disk (List.mem_cons_of_mem _ hdisk)
            · cases currentParts with
              | nil => exact h.valid disk (List.mem_cons_of_mem _ hdisk) p hp
              | cons next currentParts =>
                rcases List.mem_cons.1 hdisk with rfl | hdisk
                · exact h.valid _ List.mem_cons_self p (List.mem_cons_of_mem _ hp)
                · exact h.valid disk (List.mem_cons_of_mem _ hdisk) p hp
            · refine Eq.trans ?_ hall
              rw [hassigned]
              change queueMarks (if currentParts.isEmpty then disks else currentParts :: disks) + _ = _
              rw [hpopMarks]
              change _ + ((part.marks : Multiset (ℕ × ℕ)) + _) = _
              abel
          obtain ⟨fill', hrun, hfill', hqueue⟩ := ih _ (by
            rw [← hn]
            simp only [PoolFill.queuedParts, PoolFill.assign]
            cases currentParts <;> simp) rfl hfilling
          refine ⟨fill', hrun, hfill', hqueue.imp_right fun hle => ?_⟩
          change _ ≤ queueSum (if currentParts.isEmpty then disks else currentParts :: disks) at hle
          rw [hpopSum] at hle
          omega
        · -- some marks of the part
          rename_i hmore
          obtain ⟨taken, left, htake, htaken⟩ := takeMarks_spec
            (adjustNeedMarks part.sumMarks (minMarksPerTask part.partIdx) needMarks) hpart.sorted
            (by rw [← hpart.sum]; omega)
          rw [htake]
          have htakenPos : 0 < sumMarks taken := by rw [htaken.sumMarks_taken]; omega
          have hleft : 0 < sumMarks left := by rw [htaken.sumMarks_left, ← hpart.sum]; omega
          obtain ⟨hthreads, hassigned⟩ := ThreadsValid.assign h.threadsValid hi
            (show EntryValid ⟨part.partIdx, taken⟩ _ from ⟨htaken.sorted_taken, ne_nil_of_sumMarks_pos htakenPos, htaken.sumMarks_taken.symm⟩)
            ((⟨left, part.sumMarks - adjustNeedMarks part.sumMarks (minMarksPerTask part.partIdx) needMarks, part.partIdx⟩ ::
              currentParts) :: disks)
          refine ⟨_, rfl, ⟨fun disk hdisk => ?_, fun disk hdisk p hp => ?_, hthreads, ?_⟩, Or.inr ?_⟩
          · rcases List.mem_cons.1 hdisk with rfl | hdisk
            · exact List.cons_ne_nil _ _
            · exact h.disks disk (List.mem_cons_of_mem _ hdisk)
          · rcases List.mem_cons.1 hdisk with rfl | hdisk
            · rcases List.mem_cons.1 hp with rfl | hp
              · exact ⟨htaken.sorted_left, ne_nil_of_sumMarks_pos hleft, by rw [htaken.sumMarks_left, hpart.sum], hpart.partIdx_lt⟩
              · exact h.valid _ List.mem_cons_self p (List.mem_cons_of_mem _ hp)
            · exact h.valid disk (List.mem_cons_of_mem _ hdisk) p hp
          · have hsplit : part.marks = PartIndexAndRange.marks ⟨part.partIdx, taken⟩ ++
                PartIndexAndRange.marks ⟨part.partIdx, left⟩ := by
              unfold PoolPartInfo.marks PartIndexAndRange.marks
              rw [← List.map_append, htaken.marks]
            refine Eq.trans ?_ hall
            rw [hassigned]
            change queueMarks ((_ :: currentParts) :: disks) + _ = _
            rw [(queue_cons _ _ _).1, hsplit, ← Multiset.coe_add]
            change ((PartIndexAndRange.marks ⟨part.partIdx, left⟩ : Multiset (ℕ × ℕ)) + _) + _ = _
            abel
          · change queueSum ((_ :: currentParts) :: disks) + _ ≤ _
            rw [(queue_cons _ _ _).2]
            dsimp only
            omega
  exact fun needMarks fill h => hstrong _ rfl h

theorem Filling.changeDisk (h : Filling parts threads fill) :
    Filling parts threads fill.changeDisk ∧ queueSum fill.changeDisk.partsQueue = queueSum fill.partsQueue ∧
      (fill.changeDisk.partsQueue = [] ↔ fill.partsQueue = []) := by
  obtain ⟨queue, threadsTasks, remaining⟩ := fill
  match queue with
  | [] => exact ⟨h, rfl, Iff.rfl⟩
  | [_] => exact ⟨h, rfl, Iff.rfl⟩
  | first :: second :: rest =>
    have hperm : (second :: rest ++ [first]).Perm (first :: second :: rest) := List.perm_append_singleton _ _
    have hmarks : queueMarks (second :: rest ++ [first]) = queueMarks (first :: second :: rest) :=
      Multiset.coe_eq_coe.2 (hperm.flatten.flatMap_right _)
    refine ⟨⟨fun disk hdisk => h.disks disk (hperm.subset hdisk), fun disk hdisk => h.valid disk (hperm.subset hdisk),
      h.threadsValid, ?_⟩, (hperm.flatten.map _).sum_eq, ?_⟩
    · unfold PoolFill.changeDisk
      dsimp only
      rw [hmarks]
      exact h.marks
    · unfold PoolFill.changeDisk
      simp

/-- **All threads**: together they take their shares, or all that is left. -/
theorem exists_fillThreads (hmin : ∀ partIdx < parts.length, 0 < minMarksPerTask partIdx) (minMarksPerThread total : ℕ) :
    ∀ {left i : ℕ} {fill : PoolFill}, i + left = threads → Filling parts threads fill →
      (fill.partsQueue = [] ∨ queueSum fill.partsQueue + i * minMarksPerThread ≤ total) →
      ∃ fill', fillThreads minMarksPerTask minMarksPerThread left i fill = .ok fill' ∧ Filling parts threads fill' ∧
        (fill'.partsQueue = [] ∨ queueSum fill'.partsQueue + threads * minMarksPerThread ≤ total) := by
  intro left
  induction left with
  | zero =>
    intro i fill hi h hqueue
    rw [show i = threads by omega] at hqueue
    exact ⟨fill, rfl, h, hqueue⟩
  | succ left ih =>
    intro i fill hi h hqueue
    unfold fillThreads
    by_cases hempty : fill.partsQueue = []
    · rw [hempty, List.isEmpty_nil, if_pos rfl]
      exact ⟨fill, rfl, h, Or.inl hempty⟩
    · rw [if_neg (by rwa [List.isEmpty_iff])]
      obtain ⟨fill₁, hrun, h₁, htaken⟩ := exists_fillThread hmin (show i < threads by omega) minMarksPerThread h
      obtain ⟨h₂, hsum, hnil⟩ := h₁.changeDisk
      obtain ⟨fill', hrest, h', hqueue'⟩ := ih (i := i + 1) (by omega) h₂ (by
        rcases htaken with htaken | htaken
        · exact Or.inl (hnil.2 htaken)
        · refine Or.inr ?_
          have hle := hqueue.resolve_left hempty
          rw [hsum, Nat.add_mul, Nat.one_mul]
          omega)
      refine ⟨fill', ?_, h', hqueue'⟩
      rw [hrun]
      exact hrest

theorem pushPart_spec (diskName : String) (part : PoolPartInfo) : ∀ {disks : List (String × List PoolPartInfo)},
    (∀ disk ∈ disks, disk.2 ≠ []) →
      (∀ disk ∈ pushPart diskName part disks, disk.2 ≠ []) ∧
        ((pushPart diskName part disks).flatMap Prod.snd).Perm (part :: disks.flatMap Prod.snd) := by
  intro disks
  induction disks with
  | nil =>
    refine fun _ => ⟨fun disk hdisk => ?_, List.Perm.refl _⟩
    rw [List.mem_singleton.1 hdisk]
    exact List.cons_ne_nil _ _
  | cons disk disks ih =>
    intro h
    have hrest : ∀ disk ∈ disks, disk.2 ≠ [] := fun d hd => h d (List.mem_cons_of_mem _ hd)
    unfold pushPart
    split
    · refine ⟨fun d hd => ?_, List.Perm.refl _⟩
      rcases List.mem_cons.1 hd with rfl | hd
      · exact List.cons_ne_nil _ _
      · exact hrest d hd
    · split
      · refine ⟨fun d hd => ?_, List.Perm.refl _⟩
        rcases List.mem_cons.1 hd with rfl | hd
        · exact List.cons_ne_nil _ _
        · exact h d hd
      · obtain ⟨hne, hperm⟩ := ih hrest
        refine ⟨fun d hd => ?_, ?_⟩
        · rcases List.mem_cons.1 hd with rfl | hd
          · exact h _ List.mem_cons_self
          · exact hne d hd
        · rw [List.flatMap_cons, List.flatMap_cons]
          exact (hperm.append_left _).trans List.perm_middle

theorem partsPerDisk_spec : ∀ (rest : List PoolPart) (i : ℕ) {disks : List (String × List PoolPartInfo)},
    (∀ disk ∈ disks, disk.2 ≠ []) →
      (∀ disk ∈ partsPerDisk i rest disks, disk.2 ≠ []) ∧
        ((partsPerDisk i rest disks).flatMap Prod.snd).Perm (disks.flatMap Prod.snd ++
          (rest.zipIdx i).map fun part => ⟨part.1.ranges, sumMarks part.1.ranges, part.2⟩) := by
  intro rest
  induction rest with
  | nil =>
    intro i disks h
    refine ⟨h, ?_⟩
    rw [List.zipIdx_nil, List.map_nil, List.append_nil]
    exact List.Perm.refl _
  | cons part rest ih =>
    intro i disks h
    obtain ⟨hne, hperm⟩ := pushPart_spec part.diskName ⟨part.ranges, sumMarks part.ranges, i⟩ h
    obtain ⟨hne', hperm'⟩ := ih (i + 1) hne
    refine ⟨hne', hperm'.trans ?_⟩
    rw [List.zipIdx_cons, List.map_cons]
    exact (hperm.append_right _).trans List.perm_middle.symm

/-- The parts to read: their ranges are not empty, in order and disjoint, and so is the list of them. -/
structure PoolPartsValid (parts : List PoolPart) : Prop where
  sorted : ∀ part ∈ parts, part.ranges.Sorted
  nonempty : ∀ part ∈ parts, part.ranges ≠ []
  minMarks : ∀ part ∈ parts, 0 < part.minMarksPerTask

theorem PoolPartsValid.minMarks_pos (h : PoolPartsValid parts) {partIdx : ℕ} (hlt : partIdx < parts.length) :
    0 < minMarksPerTaskOf parts partIdx := by
  unfold minMarksPerTaskOf
  rw [List.getD_eq_getElem _ _ hlt]
  exact h.minMarks _ (List.getElem_mem hlt)

theorem filling_start (threads : ℕ) (h : PoolPartsValid parts) :
    Filling parts threads ⟨(partsPerDisk 0 parts []).map Prod.snd, fun _ => {}, ∅⟩ ∧
      queueSum ((partsPerDisk 0 parts []).map Prod.snd) = (parts.map fun part => sumMarks part.ranges).sum := by
  obtain ⟨hne, hperm⟩ := @partsPerDisk_spec parts 0 [] nofun
  rw [List.flatMap_nil, List.nil_append] at hperm
  have hflatten : ((partsPerDisk 0 parts []).map Prod.snd).flatten = (partsPerDisk 0 parts []).flatMap Prod.snd := rfl
  refine ⟨⟨fun disk hdisk => ?_, fun disk hdisk part hpart => ?_, ?_, ?_⟩, ?_⟩
  · obtain ⟨d, hd, rfl⟩ := List.mem_map.1 hdisk
    exact hne d hd
  · obtain ⟨d, hd, rfl⟩ := List.mem_map.1 hdisk
    obtain ⟨⟨source, i⟩, hsource, rfl⟩ := List.mem_map.1 (hperm.subset (List.mem_flatMap.2 ⟨d, hd, hpart⟩))
    obtain ⟨-, hlt, heq⟩ := List.mem_zipIdx hsource
    have hmem : source ∈ parts := heq ▸ List.getElem_mem _
    exact ⟨h.sorted source hmem, h.nonempty source hmem, rfl, by simpa using hlt⟩
  · exact ⟨fun _ => ThreadTask.valid_empty, fun _ _ => rfl, fun i => by simp⟩
  · rw [allMarks_eq_zero fun _ _ => rfl, add_zero]
    unfold queueMarks inputMarks
    rw [hflatten]
    refine Multiset.coe_eq_coe.2 ((hperm.flatMap_right _).trans ?_)
    rw [List.flatMap_map]
    exact List.Perm.refl _
  · unfold queueSum
    rw [hflatten, (hperm.map _).sum_eq, List.map_map]
    conv_rhs => rw [← List.zipIdx_map_fst 0 parts, List.map_map]
    rfl

/-- **The threads are filled**: nothing is thrown, the queue is empty in the end, and every mark belongs to
one thread. -/
theorem exists_fillPerThreadInfo (h : PoolPartsValid parts) {settings : PoolSettings} (hthreads : 0 < settings.threads)
    (hmax : settings.threads ≤ 1000000) (hsum : (parts.map fun part => sumMarks part.ranges).sum = settings.sumMarks) :
    ∃ fill, fillPerThreadInfo parts settings = .ok fill ∧
      ThreadsValid settings.threads fill.threadsTasks fill.remainingThreadTasks ∧
      allMarks settings.threads fill.threadsTasks = inputMarks parts := by
  unfold fillPerThreadInfo
  rw [if_neg (not_lt.2 hmax)]
  rcases eq_or_ne parts [] with rfl | hne
  · refine ⟨_, rfl, ⟨fun _ => ThreadTask.valid_empty, fun _ _ => rfl, fun i => by simp⟩, ?_⟩
    rw [allMarks_eq_zero fun _ _ => rfl]
    rfl
  rw [if_neg (by rwa [List.isEmpty_iff])]
  obtain ⟨hstart, hstartSum⟩ := filling_start settings.threads h
  obtain ⟨fill, hrun, hfill, hqueue⟩ := exists_fillThreads (fun partIdx hlt => h.minMarks_pos hlt)
    ((settings.sumMarks - 1) / settings.threads + 1) settings.sumMarks (Nat.zero_add settings.threads) hstart
    (Or.inr (by rw [hstartSum, hsum, Nat.zero_mul, Nat.add_zero]))
  refine ⟨fill, hrun, hfill.threadsValid, ?_⟩
  have hempty : fill.partsQueue = [] := by
    rcases hqueue with hqueue | hqueue
    · exact hqueue
    · -- the shares of all threads are all marks
      have hshares : settings.sumMarks ≤ settings.threads * ((settings.sumMarks - 1) / settings.threads + 1) := by
        have hdiv := Nat.div_add_mod (settings.sumMarks - 1) settings.threads
        have hmod := Nat.mod_lt (settings.sumMarks - 1) hthreads
        rw [Nat.mul_add, Nat.mul_one]
        omega
      by_contra hcons
      obtain ⟨disk, disks, hdisks⟩ := List.exists_cons_of_ne_nil hcons
      obtain ⟨part, rest, rfl⟩ := List.exists_cons_of_ne_nil (hfill.disks disk (hdisks ▸ List.mem_cons_self))
      have hpart := hfill.valid _ (hdisks ▸ List.mem_cons_self) part List.mem_cons_self
      have hpos := sumMarks_pos hpart.sorted hpart.nonempty
      rw [hdisks, (queue_cons part rest disks).2, hpart.sum] at hqueue
      omega
  have hmarks := hfill.marks
  rw [hempty] at hmarks
  exact (zero_add _).symm.trans hmarks

end Fill

/-! ## Reading -/

namespace MergeTreeReadPool

section Reading

variable {parts : List PoolPart} {pool : MergeTreeReadPool} {taskIdx : ℕ}

theorem lowerBound_eq_some {s : Finset ℕ} {k i : ℕ} (h : lowerBound s k = some i) : i ∈ s ∧ k ≤ i := by
  unfold lowerBound at h
  split at h
  · rename_i hne
    rw [← Option.some.inj h]
    exact Finset.mem_filter.1 (Finset.min'_mem _ hne)
  · cases h

theorem lowerBound_eq_none {s : Finset ℕ} {k : ℕ} (h : lowerBound s k = none) : ∀ i ∈ s, i < k := by
  unfold lowerBound at h
  split at h
  · cases h
  · rename_i hne
    intro i hi
    by_contra hle
    exact hne ⟨i, Finset.mem_filter.2 ⟨hi, not_lt.1 hle⟩⟩

/-- The pool as it was, but for the tasks of the threads. -/
structure SameSettings (pool pool' : MergeTreeReadPool) : Prop where
  partsRanges : pool'.partsRanges = pool.partsRanges
  poolSettings : pool'.poolSettings = pool.poolSettings
  backoffSettings : pool'.backoffSettings = pool.backoffSettings

theorem SameSettings.refl (pool : MergeTreeReadPool) : SameSettings pool pool := ⟨rfl, rfl, rfl⟩

theorem SameSettings.trans {pool pool' pool'' : MergeTreeReadPool} (h : SameSettings pool pool')
    (h' : SameSettings pool' pool'') : SameSettings pool pool'' :=
  ⟨h'.partsRanges.trans h.partsRanges, h'.poolSettings.trans h.poolSettings, h'.backoffSettings.trans h.backoffSettings⟩

/-- The threads of a pool are valid, and every part can be read in tasks. -/
structure PoolValid (pool : MergeTreeReadPool) : Prop where
  threads : ThreadsValid pool.poolSettings.threads pool.threadsTasks pool.remainingThreadTasks
  current_le : pool.backoffState.currentThreads ≤ pool.poolSettings.threads

theorem PoolValid.lt_threads (h : PoolValid pool) {i : ℕ} (hi : i ∈ pool.remainingThreadTasks) :
    i < pool.poolSettings.threads := by
  by_contra hle
  exact (h.threads.remaining i).1 hi (by rw [h.threads.idle i (not_lt.1 hle)])

/-- What choosing a thread does: the tasks of a killed thread may move. -/
structure Chosen (pool pool' : MergeTreeReadPool) (taskIdx threadIdx : ℕ) : Prop where
  valid : PoolValid pool'
  mem : threadIdx ∈ pool'.remainingThreadTasks
  marks : allMarks pool.poolSettings.threads pool'.threadsTasks = allMarks pool.poolSettings.threads pool.threadsTasks
  same : SameSettings pool pool'
  backoff : pool'.backoffState = pool.backoffState
  own : (pool.threadsTasks taskIdx).sumMarksInParts ≠ [] → pool' = pool ∧ threadIdx = taskIdx

theorem PoolValid.chooseThread (h : PoolValid pool) (htask : taskIdx < pool.backoffState.currentThreads)
    (hremaining : pool.remainingThreadTasks ≠ ∅) :
    Chosen pool (pool.chooseThread taskIdx).1 taskIdx (pool.chooseThread taskIdx).2 := by
  have hthread : taskIdx < pool.poolSettings.threads := htask.trans_le h.current_le
  unfold MergeTreeReadPool.chooseThread
  by_cases hown : (pool.threadsTasks taskIdx).sumMarksInParts = []
  · rw [hown, List.isEmpty_nil, Bool.not_true, if_neg Bool.false_ne_true]
    have hnotin : taskIdx ∉ pool.remainingThreadTasks := by
      rw [h.threads.remaining, not_not, ← (h.threads.valid taskIdx).nil_iff]
      exact hown
    split
    · -- a killed thread
      rename_i killed hkilled
      obtain ⟨hmem, hle⟩ := lowerBound_eq_some hkilled
      have hne : killed ≠ taskIdx := by omega
      have hlt := h.lt_threads hmem
      have hmoved := (h.threads.remaining killed).1 hmem
      have hfirst : ThreadsValid pool.poolSettings.threads
          (Function.update pool.threadsTasks taskIdx (pool.threadsTasks killed)) (insert taskIdx pool.remainingThreadTasks) := by
        refine h.threads.update hthread (h.threads.valid killed) fun j => ?_
        rw [Finset.mem_insert]
        by_cases hj : j = taskIdx
        · simp [hj, hmoved]
        · simp [hj]
      refine ⟨⟨hfirst.update hlt ThreadTask.valid_empty fun j => ?_, h.current_le⟩, Finset.mem_insert_self _ _, ?_, ⟨rfl, rfl, rfl⟩,
        rfl, fun hnot => absurd hown hnot⟩
      · dsimp only
        rw [Finset.mem_insert, Finset.mem_insert, Finset.mem_erase]
        by_cases hj : j = killed
        · simp [hj, hne]
        · simp [hj]
      · dsimp only
        have hone := allMarks_update pool.threadsTasks hthread (pool.threadsTasks killed)
        have htwo := allMarks_update (Function.update pool.threadsTasks taskIdx (pool.threadsTasks killed)) hlt {}
        rw [Function.update_of_ne hne] at htwo
        have hidle : (pool.threadsTasks taskIdx).marks = 0 := by
          unfold ThreadTask.marks
          rw [(h.threads.valid taskIdx).nil_iff.1 hown]
          rfl
        rw [hidle, add_zero] at hone
        rw [hone, show ThreadTask.marks {} = 0 from rfl, add_zero] at htwo
        exact add_right_cancel htwo
    · rename_i hnone
      split
      · -- the next thread
        rename_i next hnext
        exact ⟨h, (lowerBound_eq_some hnext).1, rfl, SameSettings.refl _, rfl, fun hnot => absurd hown hnot⟩
      · -- the first thread
        rename_i hnoNext
        obtain ⟨j, hj⟩ := Finset.nonempty_iff_ne_empty.2 hremaining
        refine ⟨h, ?_, rfl, SameSettings.refl _, rfl, fun hnot => absurd hown hnot⟩
        cases hfirst : lowerBound pool.remainingThreadTasks 0 with
        | none => exact absurd (lowerBound_eq_none hfirst j hj) (Nat.not_lt_zero j)
        | some first => exact (lowerBound_eq_some hfirst).1
  · rw [if_pos (by rw [Bool.not_eq_true', List.isEmpty_eq_false_iff]; exact hown)]
    refine ⟨h, ?_, rfl, SameSettings.refl _, rfl, fun _ => ⟨rfl, rfl⟩⟩
    rw [h.threads.remaining, ne_eq, ← (h.threads.valid taskIdx).nil_iff]
    exact hown

/-- What taking a task from a thread does: its marks are not empty and in order, and are no longer those of a thread. -/
structure TaskTaken (pool pool' : MergeTreeReadPool) (task : PartIndexAndRange) : Prop where
  valid : PoolValid pool'
  sorted : task.ranges.Sorted
  nonempty : task.ranges ≠ []
  marks : allMarks pool.poolSettings.threads pool'.threadsTasks + (task.marks : Multiset (ℕ × ℕ)) =
    allMarks pool.poolSettings.threads pool.threadsTasks
  same : SameSettings pool pool'
  backoff : pool'.backoffState = pool.backoffState

theorem PoolValid.partIdx_lt (h : PoolValid pool)
    (hmarks : allMarks pool.poolSettings.threads pool.threadsTasks ≤ inputMarks pool.partsRanges) {i : ℕ} {entry : PartIndexAndRange}
    (hentry : entry ∈ (pool.threadsTasks i).partsAndRanges) : entry.partIdx < pool.partsRanges.length := by
  have hi : i < pool.poolSettings.threads := by
    by_contra hle
    rw [h.threads.idle i (not_lt.1 hle)] at hentry
    cases hentry
  obtain ⟨n, hvalid⟩ := (h.threads.valid i).exists_entryValid hentry
  obtain ⟨m, hm⟩ := exists_mem_marks hvalid.sorted hvalid.nonempty
  have hmem : (entry.partIdx, m) ∈ allMarks pool.poolSettings.threads pool.threadsTasks :=
    mem_allMarks.2 ⟨i, hi, ThreadTask.mem_marks.2 ⟨entry, hentry, List.mem_map.2 ⟨m, hm, rfl⟩⟩⟩
  exact mem_inputMarks (Multiset.mem_coe.1 (Multiset.mem_of_le hmarks hmem))

theorem PoolValid.takeTask (h : PoolValid pool) (hparts : PoolPartsValid pool.partsRanges) {threadIdx : ℕ}
    (hmem : threadIdx ∈ pool.remainingThreadTasks)
    (hidx : ∀ entry ∈ (pool.threadsTasks threadIdx).partsAndRanges, entry.partIdx < pool.partsRanges.length) :
    ∃ pool' task, pool.takeTask threadIdx = (pool', some task) ∧ TaskTaken pool pool' task ∧
      ∀ j ≠ threadIdx, pool'.threadsTasks j = pool.threadsTasks j := by
  have hlt := h.lt_threads hmem
  obtain ⟨entry, rest, hcons⟩ := List.exists_cons_of_ne_nil ((h.threads.remaining threadIdx).1 hmem)
  have hvalid := h.threads.valid threadIdx
  rcases hthread : pool.threadsTasks threadIdx with ⟨partsAndRanges, sumMarksInParts⟩
  rw [hthread] at hcons hvalid hidx
  dsimp only at hcons hidx
  subst hcons
  unfold ThreadTask.Valid at hvalid
  dsimp only at hvalid
  rcases hvalid with _ | ⟨hentry, hrest⟩
  rename_i marksInPart sums
  have hpos := sumMarks_pos hentry.sorted hentry.nonempty
  have hpart := hparts.minMarks_pos (hidx entry List.mem_cons_self)
  have hneed : 0 < pool.needMarks entry.partIdx marksInPart := by
    have hsum := hentry.sum
    unfold minMarksPerTaskOf at hpart
    unfold MergeTreeReadPool.needMarks
    dsimp only
    split <;> split <;> omega
  unfold MergeTreeReadPool.takeTask
  rw [hthread]
  dsimp only
  have hmarks := ThreadTask.marks_cons entry rest (marksInPart :: sums) sums
  split
  · -- the whole part
    refine ⟨_, _, rfl, ⟨⟨?_, h.current_le⟩, hentry.sorted, hentry.nonempty, ?_, ⟨rfl, rfl, rfl⟩, rfl⟩, fun j hj =>
      Function.update_of_ne hj _ _⟩
    · refine h.threads.update hlt hrest fun j => ?_
      have hempty : sums = [] ↔ rest = [] := ThreadTask.Valid.nil_iff (show ThreadTask.Valid ⟨rest, sums⟩ from hrest)
      dsimp only
      by_cases hj : j = threadIdx
      · subst hj
        by_cases hsums : sums = []
        · simp [hsums, hempty.1 hsums]
        · simp [hsums, (not_congr hempty).1 hsums, hmem]
      · split
        · simp [hj]
        · simp [hj]
    · have hupdate := allMarks_update pool.threadsTasks hlt ⟨rest, sums⟩
      rw [hthread, hmarks, ← add_assoc] at hupdate
      exact add_right_cancel hupdate
  · -- some marks of the part
    rename_i hmore
    obtain ⟨taken, left, htake, htaken⟩ := takeMarks_spec (pool.needMarks entry.partIdx marksInPart) hentry.sorted
      (by rw [← hentry.sum]; omega)
    have htakenPos : 0 < sumMarks taken := by rw [htaken.sumMarks_taken]; exact hneed
    have hleft : 0 < sumMarks left := by
      have hsum := hentry.sum
      rw [htaken.sumMarks_left]
      omega
    rw [htake]
    refine ⟨_, _, rfl, ⟨⟨?_, h.current_le⟩, htaken.sorted_taken, ne_nil_of_sumMarks_pos htakenPos, ?_, ⟨rfl, rfl, rfl⟩, rfl⟩,
      fun j hj => Function.update_of_ne hj _ _⟩
    · refine h.threads.update hlt (.cons ⟨htaken.sorted_left, ne_nil_of_sumMarks_pos hleft, ?_⟩ hrest) fun j => ?_
      · dsimp only
        rw [htaken.sumMarks_left, hentry.sum, Nat.sub_zero]
      · by_cases hj : j = threadIdx
        · subst hj
          simp [hmem]
        · simp [hj]
    · have hsplit : PartIndexAndRange.marks { entry with ranges := taken } ++ PartIndexAndRange.marks { entry with ranges := left } =
          entry.marks := by
        unfold PartIndexAndRange.marks
        rw [← List.map_append, htaken.marks]
      have hupdate := allMarks_update pool.threadsTasks hlt ⟨{ entry with ranges := left } :: rest,
        (marksInPart - (pool.needMarks entry.partIdx marksInPart - 0)) :: sums⟩
      rw [hthread, hmarks, ThreadTask.marks_cons _ _ _ sums, ← hsplit, ← Multiset.coe_add, add_assoc, ← add_assoc] at hupdate
      exact add_right_cancel hupdate

/-- Why a thread gets no task. -/
def Denied (pool : MergeTreeReadPool) (taskIdx : ℕ) : Prop :=
  pool.backoffState.currentThreads ≤ taskIdx ∨ pool.remainingThreadTasks = ∅ ∨
    ((pool.threadsTasks taskIdx).partsAndRanges = [] ∧ pool.poolSettings.doNotStealTasks = true)

/-- **A thread asks for a task**: it gets one, or there is a reason why not. -/
theorem PoolValid.getTask (h : PoolValid pool) (hparts : PoolPartsValid pool.partsRanges)
    (hmarks : allMarks pool.poolSettings.threads pool.threadsTasks ≤ inputMarks pool.partsRanges) (taskIdx : ℕ) :
    (pool.getTask taskIdx = (pool, none) ∧ Denied pool taskIdx) ∨
      ∃ pool' task, pool.getTask taskIdx = (pool', some task) ∧ TaskTaken pool pool' task ∧
        (pool.poolSettings.doNotStealTasks = true → ∀ j ≠ taskIdx, pool'.threadsTasks j = pool.threadsTasks j) := by
  unfold MergeTreeReadPool.getTask
  by_cases hcurrent : pool.backoffState.currentThreads ≤ taskIdx
  · rw [if_pos hcurrent]
    exact Or.inl ⟨rfl, Or.inl hcurrent⟩
  rw [if_neg hcurrent]
  by_cases hempty : pool.remainingThreadTasks = ∅
  · rw [if_pos hempty]
    exact Or.inl ⟨rfl, Or.inr (Or.inl hempty)⟩
  rw [if_neg hempty]
  have hnil := (h.threads.valid taskIdx).nil_iff
  by_cases hsteal : (pool.threadsTasks taskIdx).sumMarksInParts.isEmpty ∧ pool.poolSettings.doNotStealTasks
  · rw [if_pos hsteal]
    exact Or.inl ⟨rfl, Or.inr (Or.inr ⟨hnil.1 (List.isEmpty_iff.1 hsteal.1), hsteal.2⟩)⟩
  rw [if_neg hsteal]
  have hchosen := h.chooseThread (not_le.1 hcurrent) hempty
  dsimp only
  generalize pool.chooseThread taskIdx = chosen at hchosen
  obtain ⟨pool₁, threadIdx⟩ := chosen
  dsimp only at hchosen ⊢
  have hidx₁ : ∀ entry ∈ (pool₁.threadsTasks threadIdx).partsAndRanges, entry.partIdx < pool₁.partsRanges.length := fun entry =>
    hchosen.valid.partIdx_lt (by rwa [hchosen.same.poolSettings, hchosen.marks, hchosen.same.partsRanges])
  obtain ⟨pool', task, htake, htaken, hother⟩ := hchosen.valid.takeTask (hchosen.same.partsRanges ▸ hparts) hchosen.mem hidx₁
  refine Or.inr ⟨pool', task, htake, ⟨htaken.valid, htaken.sorted, htaken.nonempty, ?_, hchosen.same.trans htaken.same,
    htaken.backoff.trans hchosen.backoff⟩, fun hnot j hj => ?_⟩
  · have htakenMarks := htaken.marks
    rw [hchosen.same.poolSettings] at htakenMarks
    exact htakenMarks.trans hchosen.marks
  · -- the thread has tasks of its own, so it takes one of these
    obtain ⟨rfl, rfl⟩ := hchosen.own fun hown => hsteal ⟨List.isEmpty_iff.2 hown, hnot⟩
    exact hother j hj

theorem profileFeedback_cases (pool : MergeTreeReadPool) (bytesRead nanoseconds sincePrevEvent : ℕ) :
    ∃ state, pool.profileFeedback bytesRead nanoseconds sincePrevEvent = { pool with backoffState := state } ∧
      state.currentThreads ≤ pool.backoffState.currentThreads ∧
      (pool.poolSettings.doNotStealTasks = true → state = pool.backoffState) ∧
      (state.currentThreads = pool.backoffState.currentThreads ∨ pool.backoffSettings.minConcurrency ≤ state.currentThreads) := by
  have hsame : ∃ state, pool = { pool with backoffState := state } ∧
      state.currentThreads ≤ pool.backoffState.currentThreads ∧
      (pool.poolSettings.doNotStealTasks = true → state = pool.backoffState) ∧
      (state.currentThreads = pool.backoffState.currentThreads ∨ pool.backoffSettings.minConcurrency ≤ state.currentThreads) :=
    ⟨pool.backoffState, rfl, le_rfl, fun _ => rfl, Or.inl rfl⟩
  unfold profileFeedback
  by_cases hoff : pool.backoffSettings.minReadLatencyMs = 0 ∨ pool.poolSettings.doNotStealTasks
  · rw [if_pos hoff]
    exact hsame
  rw [if_neg hoff]
  have hsteal : ¬ pool.poolSettings.doNotStealTasks = true := fun h => hoff (Or.inr h)
  split
  · exact hsame
  split
  · exact hsame
  rename_i hconcurrency
  split
  · exact hsame
  split
  · exact hsame
  split
  · exact ⟨_, rfl, le_rfl, fun h => absurd h hsteal, Or.inl rfl⟩
  · exact ⟨_, rfl, Nat.sub_le _ _, fun h => absurd h hsteal, Or.inr (by dsimp only; omega)⟩

theorem getTask_of_eq_empty (h : pool.remainingThreadTasks = ∅) : pool.getTask taskIdx = (pool, none) := by
  unfold MergeTreeReadPool.getTask
  rw [if_pos h, ite_self]

/-- What holds while threads read with a pool. -/
structure Inv (start : MergeTreeReadPool) (reading : Reading) : Prop where
  same : SameSettings start reading.pool
  valid : PoolValid reading.pool
  currentThreads_pos : 0 < reading.pool.backoffState.currentThreads
  currentThreads_eq : start.poolSettings.doNotStealTasks = true →
    reading.pool.backoffState.currentThreads = start.poolSettings.threads
  marks : allMarks start.poolSettings.threads reading.pool.threadsTasks +
    (reading.tasks.flatMap PartIndexAndRange.marks : List (ℕ × ℕ)) = inputMarks start.partsRanges
  tasks : ∀ task ∈ reading.tasks, task.ranges.Sorted ∧ task.ranges ≠ []
  finished : ∀ i ∈ reading.finished, Denied reading.pool i

theorem Inv.step {start : MergeTreeReadPool} {reading reading' : Reading} (h : Inv start reading)
    (hparts : PoolPartsValid start.partsRanges) (hconcurrency : 0 < start.backoffSettings.minConcurrency)
    (hstep : Reading.Step reading reading') : Inv start reading' := by
  cases hstep with
  | @getTask taskIdx hthread hreading =>
    have hle : allMarks reading.pool.poolSettings.threads reading.pool.threadsTasks ≤ inputMarks reading.pool.partsRanges := by
      rw [h.same.poolSettings, h.same.partsRanges, ← h.marks]
      exact Multiset.le_add_right _ _
    obtain ⟨htask, hdenied⟩ | ⟨pool', task, htask, htaken, hother⟩ :=
      h.valid.getTask (h.same.partsRanges ▸ hparts) hle taskIdx
    · -- null
      rw [htask]
      refine { h with finished := fun i hi => ?_ }
      rcases Finset.mem_insert.1 hi with rfl | hi
      · exact hdenied
      · exact h.finished i hi
    · rw [htask]
      refine ⟨h.same.trans htaken.same, htaken.valid, ?_, ?_, ?_, fun t ht => ?_, fun i hi => ?_⟩
      · dsimp only [Reading.received]
        rw [htaken.backoff]
        exact h.currentThreads_pos
      · dsimp only [Reading.received]
        rw [htaken.backoff]
        exact h.currentThreads_eq
      · have hmarks := htaken.marks
        rw [h.same.poolSettings] at hmarks
        dsimp only [Reading.received]
        rw [← h.marks, ← hmarks, List.flatMap_append, List.flatMap_singleton, ← Multiset.coe_add]
        abel
      · rcases List.mem_append.1 ht with ht | ht
        · exact h.tasks t ht
        · rw [List.mem_singleton.1 ht]
          exact ⟨htaken.sorted, htaken.nonempty⟩
      · -- a thread that has received null would receive it again
        have hne : i ≠ taskIdx := fun heq => hreading (heq ▸ hi)
        rcases h.finished i hi with hcurrent | hempty | ⟨hown, hsteal⟩
        · exact Or.inl (htaken.backoff ▸ hcurrent)
        · rw [getTask_of_eq_empty hempty] at htask
          cases htask
        · refine Or.inr (Or.inr ⟨?_, ?_⟩)
          · dsimp only [Reading.received]
            rw [hother hsteal i hne]
            exact hown
          · dsimp only [Reading.received]
            rw [htaken.same.poolSettings]
            exact hsteal
  | profileFeedback bytesRead nanoseconds sincePrevEvent =>
    obtain ⟨state, hfeedback, hle, hsteal, hlow⟩ := profileFeedback_cases reading.pool bytesRead nanoseconds sincePrevEvent
    rw [hfeedback]
    have hpos := h.currentThreads_pos
    have hmin := h.same.backoffSettings
    refine ⟨⟨h.same.partsRanges, h.same.poolSettings, hmin⟩, ⟨h.valid.threads, hle.trans h.valid.current_le⟩, ?_, ?_, h.marks, h.tasks,
      fun i hi => ?_⟩
    · rw [hmin] at hlow
      dsimp only
      omega
    · intro hnot
      dsimp only
      rw [hsteal (h.same.poolSettings ▸ hnot)]
      exact h.currentThreads_eq hnot
    · rcases h.finished i hi with hcurrent | hrest
      · exact Or.inl (hle.trans hcurrent)
      · exact Or.inr hrest

theorem Inv.run {start : MergeTreeReadPool} {reading : Reading} (h : Inv start ⟨start, [], ∅⟩)
    (hparts : PoolPartsValid start.partsRanges) (hconcurrency : 0 < start.backoffSettings.minConcurrency)
    (hreach : Reading.Reachable start reading) : Inv start reading := by
  induction hreach with
  | refl => exact h
  | tail _ hstep ih => exact ih.step hparts hconcurrency hstep

theorem Inv.allMarks_eq_zero {start : MergeTreeReadPool} {reading : Reading} (h : Inv start reading)
    (hthreads : 0 < start.poolSettings.threads) (hfinished : ∀ i < start.poolSettings.threads, i ∈ reading.finished) :
    allMarks start.poolSettings.threads reading.pool.threadsTasks = 0 := by
  by_cases hempty : reading.pool.remainingThreadTasks = ∅
  · refine MergeTree.allMarks_eq_zero fun i _ => ?_
    by_contra hne
    have hmem := (h.valid.threads.remaining i).2 hne
    rw [hempty] at hmem
    exact Finset.notMem_empty i hmem
  · -- thread 0 is below the number of current threads, so it owns nothing and may not steal
    have hsteal : start.poolSettings.doNotStealTasks = true := by
      rcases h.finished 0 (hfinished 0 hthreads) with hcurrent | hcase | ⟨-, hsteal⟩
      · exact absurd h.currentThreads_pos (not_lt.2 hcurrent)
      · exact absurd hcase hempty
      · rwa [h.same.poolSettings] at hsteal
    refine MergeTree.allMarks_eq_zero fun i hi => ?_
    rcases h.finished i (hfinished i hi) with hcurrent | hcase | ⟨hown, -⟩
    · rw [h.currentThreads_eq hsteal] at hcurrent
      exact absurd hi (not_lt.2 hcurrent)
    · exact absurd hcase hempty
    · exact hown

end Reading

/-! ## The pool -/

theorem nodup_inputMarks {parts : List PoolPart} (h : ∀ part ∈ parts, part.ranges.Sorted) : (inputMarks parts).Nodup := by
  have hpart : ∀ part ∈ parts, ∀ i, (PartIndexAndRange.marks ⟨i, part.ranges⟩).Nodup := fun part hpart i =>
    List.Nodup.map (fun _ _ heq => (Prod.mk.inj heq).2)
      ((h part hpart).sortedDisjoint.pairwise_marks.imp fun hlt => Nat.ne_of_lt hlt)
  unfold inputMarks
  refine List.nodup_flatMap.2 ⟨fun part hmem => ?_, ?_⟩
  · obtain ⟨-, -, heq⟩ := List.mem_zipIdx hmem
    exact hpart part.1 (heq ▸ List.getElem_mem _) part.2
  · -- the parts have different indices
    have hindices : parts.zipIdx.Pairwise fun a b => a.2 ≠ b.2 := by
      rw [← List.pairwise_map (f := Prod.snd), List.zipIdx_map_snd]
      exact List.nodup_range'
    refine hindices.imp fun {a b} hne => ?_
    unfold Function.onFun
    intro mark hmark hmark'
    obtain ⟨m, -, rfl⟩ := List.mem_map.1 hmark
    obtain ⟨m', -, heq⟩ := List.mem_map.1 hmark'
    exact hne (Prod.mk.inj heq).1.symm

/-- Every mark of the input belongs to exactly one thread, and only once. -/
structure MarksAssigned (parts : List PoolPart) (threadsTasks : ℕ → ThreadTask) : Prop where
  existsUnique : ∀ mark ∈ inputMarks parts, ∃! i, mark ∈ (threadsTasks i).marks
  nodup : ∀ i, (threadsTasks i).marks.Nodup
  mem_inputMarks : ∀ i, ∀ mark ∈ (threadsTasks i).marks, mark ∈ inputMarks parts

theorem marksAssigned {parts : List PoolPart} {threads : ℕ} {threadsTasks : ℕ → ThreadTask} {remaining : Finset ℕ}
    (h : ThreadsValid threads threadsTasks remaining) (hmarks : allMarks threads threadsTasks = inputMarks parts)
    (hnodup : (inputMarks parts).Nodup) : MarksAssigned parts threadsTasks := by
  have hidle : ∀ i mark, mark ∈ (threadsTasks i).marks → i < threads := by
    intro i mark hmark
    by_contra hle
    rw [h.idle i (not_lt.1 hle)] at hmark
    exact Multiset.notMem_zero mark hmark
  have hall : (allMarks threads threadsTasks).Nodup := by
    rw [hmarks]
    exact Multiset.coe_nodup.2 hnodup
  have hle : ∀ i < threads, (threadsTasks i).marks ≤ allMarks threads threadsTasks := fun i hi =>
    Finset.single_le_sum (f := fun i => (threadsTasks i).marks) (fun _ _ => Multiset.zero_le _) (Finset.mem_range.2 hi)
  have hmem : ∀ i mark, mark ∈ (threadsTasks i).marks → mark ∈ inputMarks parts := fun i mark hmark =>
    Multiset.mem_coe.1 (hmarks ▸ Multiset.mem_of_le (hle i (hidle i mark hmark)) hmark)
  refine ⟨fun mark hmark => ?_, fun i => ?_, hmem⟩
  · obtain ⟨i, hi, hown⟩ := mem_allMarks.1 (hmarks ▸ Multiset.mem_coe.2 hmark)
    refine ⟨i, hown, fun j hj => ?_⟩
    by_contra hne
    -- the mark would be twice in the sum
    have hpair : (threadsTasks j).marks + (threadsTasks i).marks ≤ allMarks threads threadsTasks := by
      unfold allMarks
      rw [← Finset.add_sum_erase _ _ (Finset.mem_range.2 (hidle j mark hj))]
      exact add_le_add_right (Finset.single_le_sum (f := fun i => (threadsTasks i).marks) (fun _ _ => Multiset.zero_le _)
        (Finset.mem_erase.2 ⟨fun heq => hne heq.symm, Finset.mem_range.2 hi⟩)) _
    have hdisjoint := (Multiset.nodup_add.1 (Multiset.nodup_of_le hpair hall)).2.2
    exact Multiset.disjoint_left.1 hdisjoint hj hown
  · by_cases hi : i < threads
    · exact Multiset.nodup_of_le (hle i hi) hall
    · rw [h.idle i (not_lt.1 hi)]
      exact Multiset.nodup_zero

/-- The state of a pool that threads read with. -/
structure ReadingValid (parts : List PoolPart) (threads : ℕ) (reading : Reading) : Prop where
  /-- The remaining threads are those that own marks. -/
  remaining : ∀ i, i ∈ reading.pool.remainingThreadTasks ↔ ∃ mark, mark ∈ (reading.pool.threadsTasks i).marks
  sumMarksInParts : ∀ i, (reading.pool.threadsTasks i).sumMarksInParts =
    (reading.pool.threadsTasks i).partsAndRanges.map fun entry => sumMarks entry.ranges
  /-- A task has marks of one part, in order. -/
  tasks : ∀ task ∈ reading.tasks, task.ranges.marks ≠ [] ∧ task.ranges.marks.Pairwise (· < ·) ∧
    ∀ mark ∈ task.marks, mark ∈ inputMarks parts
  /-- In the end, every mark of the input was in one task. -/
  finished : (∀ i < threads, i ∈ reading.finished) →
    (reading.tasks.flatMap PartIndexAndRange.marks).Perm (inputMarks parts)

theorem Inv.readingValid {start : MergeTreeReadPool} {reading : Reading} (h : Inv start reading)
    (hthreads : 0 < start.poolSettings.threads) :
    ReadingValid start.partsRanges start.poolSettings.threads reading := by
  refine ⟨fun i => ?_, fun i => ?_, fun task htask => ?_, fun hfinished => ?_⟩
  · rw [h.valid.threads.remaining]
    constructor
    · intro hne
      obtain ⟨entry, hentry⟩ := List.exists_mem_of_ne_nil _ hne
      obtain ⟨n, hvalid⟩ := ThreadTask.Valid.exists_entryValid (h.valid.threads.valid i) hentry
      obtain ⟨m, hm⟩ := exists_mem_marks hvalid.sorted hvalid.nonempty
      exact ⟨(entry.partIdx, m), ThreadTask.mem_marks.2 ⟨entry, hentry, List.mem_map.2 ⟨m, hm, rfl⟩⟩⟩
    · rintro ⟨mark, hmark⟩
      obtain ⟨entry, hentry, -⟩ := ThreadTask.mem_marks.1 hmark
      exact List.ne_nil_of_mem hentry
  · refine List.forall₂_eq_eq_eq ▸ ?_
    rw [List.forall₂_map_right_iff]
    exact (h.valid.threads.valid i).flip.imp fun _ _ hentry => hentry.sum
  · obtain ⟨hsorted, hne⟩ := h.tasks task htask
    obtain ⟨m, hm⟩ := exists_mem_marks hsorted hne
    refine ⟨List.ne_nil_of_mem hm, hsorted.sortedDisjoint.pairwise_marks, fun mark hmark => ?_⟩
    rw [← Multiset.mem_coe, ← h.marks]
    exact Multiset.mem_add.2 (Or.inr (List.mem_flatMap.2 ⟨task, htask, hmark⟩))
  · have hmarks := h.marks
    rw [h.allMarks_eq_zero hthreads hfinished, zero_add] at hmarks
    exact Multiset.coe_eq_coe.1 hmarks

section Pool

variable {parts : List PoolPart} {settings : PoolSettings} {backoffSettings : BackoffSettings}

/-- **The pool hands out every mark once.** -/
theorem make_readingValid (hparts : PoolPartsValid parts) (hthreads : 0 < settings.threads) (hmax : settings.threads ≤ 1000000)
    (hsum : (parts.map fun part => sumMarks part.ranges).sum = settings.sumMarks) (hconcurrency : 0 < backoffSettings.minConcurrency) :
    (inputMarks parts).Nodup ∧ ∃ pool, make parts settings backoffSettings = .ok pool ∧ MarksAssigned parts pool.threadsTasks ∧
      ∀ reading, Reading.Reachable pool reading → ReadingValid parts settings.threads reading := by
  have hnodup := nodup_inputMarks hparts.sorted
  obtain ⟨fill, hfill, hvalid, hmarks⟩ := exists_fillPerThreadInfo hparts hthreads hmax hsum
  refine ⟨hnodup, ⟨parts, settings, backoffSettings, { currentThreads := settings.threads }, fill.threadsTasks,
    fill.remainingThreadTasks⟩, ?_, marksAssigned hvalid hmarks hnodup, fun reading hreach => ?_⟩
  · unfold make
    rw [hfill]
    rfl
  · refine Inv.readingValid (Inv.run ⟨SameSettings.refl _, ⟨hvalid, le_rfl⟩, hthreads, fun _ => rfl, ?_, nofun, fun i hi =>
      absurd hi (Finset.notMem_empty i)⟩ hparts hconcurrency hreach) hthreads
    exact (add_zero _).trans hmarks

end Pool

theorem make_readingValid_twoDisks :
    (inputMarks [⟨[⟨0, 3⟩, ⟨5, 7⟩], "a", 2, false⟩, ⟨[⟨0, 4⟩], "b", 1, true⟩]).Nodup ∧
      ∃ pool, make [⟨[⟨0, 3⟩, ⟨5, 7⟩], "a", 2, false⟩, ⟨[⟨0, 4⟩], "b", 1, true⟩] ⟨2, 9, false, false⟩ {} = .ok pool ∧
        MarksAssigned [⟨[⟨0, 3⟩, ⟨5, 7⟩], "a", 2, false⟩, ⟨[⟨0, 4⟩], "b", 1, true⟩] pool.threadsTasks ∧
        ∀ reading, Reading.Reachable pool reading →
          ReadingValid [⟨[⟨0, 3⟩, ⟨5, 7⟩], "a", 2, false⟩, ⟨[⟨0, 4⟩], "b", 1, true⟩] 2 reading :=
  make_readingValid ⟨by
    intro part hpart
    simp only [List.mem_cons, List.not_mem_nil, or_false] at hpart
    rcases hpart with rfl | rfl <;> exact ⟨by decide, by decide⟩, by decide, by decide⟩ (by decide) (by decide) (by decide)
    (by decide)

/-- The number of threads is limited, and a part without ranges gives a task without marks. -/
theorem fillPerThreadInfo_tooManyThreads :
    fillPerThreadInfo [⟨[⟨0, 1⟩], "a", 1, false⟩] ⟨1000001, 1, false, false⟩ = .error (tooManyThreads 1000001) ∧
      (make [⟨[⟨0, 1⟩], "a", 1, false⟩, ⟨[], "a", 1, false⟩] ⟨1, 1, false, false⟩ {}).map
        (fun pool => ((pool.getTask 0).1.getTask 0).2) = .ok (some ⟨1, []⟩) :=
  ⟨if_pos (by decide), by decide +kernel⟩

end MergeTreeReadPool

end MergeTree
