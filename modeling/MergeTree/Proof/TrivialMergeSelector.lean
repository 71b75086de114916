import MergeTree.Lib.Lists
import MergeTree.Proof.MergeSelectors
import MergeTree.Spec.TrivialMergeSelector

/-!
# The trivial merge selector carries a comparison over to the next partition

In a partition the loop closes the windows of `windows`, whatever it accepts
(`collect_partition`). When it moves on, the last block of the turn still compares the levels of the
partition that is done, so the next one is cut as if its second part had that relation to its
first one. It is scanned on its own exactly when this makes no difference (`concatenates_iff`).
-/

namespace MergeTree

namespace TrivialMergeSelector

variable {settings : Settings} {partsRanges : List (List SelectorPart)} {sortedPartitionIndices : List ℕ}
variable {partition : List SelectorPart}

/-! ## Turns -/

/-- Where the cursors are when a turn begins. -/
structure InPartition (n : ℕ) (partition : List SelectorPart) (left right : ℕ) : Prop where
  le : left ≤ right
  lt_length : right < partition.length
  lt_add : right < left + n
  fits : left = right ∨ left + n ≤ partition.length

/-- A window of a partition. -/
def toSlice (i : ℕ) (window : HalfOpen ℕ) : PartsSlice := { rangeIt := i, bounds := window }

/-- The window is a candidate. -/
def accepted (settings : Settings) (partsRanges : List (List SelectorPart)) (candidate : PartsSlice) : Bool :=
  accepts settings (candidate.parts partsRanges)

theorem closeWindow_of_full {n i left right partitionIdx : ℕ} {candidates : List PartsSlice}
    (hn : settings.numPartsToMerge = n) (hp : partsRanges[i]? = some partition) (hlt : right < partition.length)
    (hfull : left ≤ right ∧ right + 1 = left + n) :
    closeWindow settings i partition ⟨partitionIdx, left, right⟩ candidates =
      some (candidates ++ [toSlice i ⟨left, right + 1, Nat.lt_succ_of_le hfull.1⟩].filter (accepted settings partsRanges),
        ⟨partitionIdx, right + 1, right + 1⟩) := by
  have hcount : checkedSub (1 + right) left = some n := by
    unfold checkedSub
    rw [if_pos (by omega), Option.some.injEq]
    omega
  have hparts : (toSlice i ⟨left, right + 1, Nat.lt_succ_of_le hfull.1⟩).parts partsRanges = partition.extract left (right + 1) := by
    unfold PartsSlice.parts toSlice
    rw [List.getD_eq_getElem?_getD, hp]
    rfl
  unfold closeWindow
  simp only [hcount, hn, if_true]
  rw [dif_pos ⟨Nat.lt_succ_of_le hfull.1, hlt⟩, List.filter_singleton, accepted, hparts]
  cases accepts settings (partition.extract left (right + 1)) with
  | true => rfl
  | false => simp

theorem closeWindow_of_not_full {n i left right partitionIdx : ℕ} {candidates : List PartsSlice}
    (hn : settings.numPartsToMerge = n) (hle : left ≤ right) (hfull : ¬(left ≤ right ∧ right + 1 = left + n)) :
    closeWindow settings i partition ⟨partitionIdx, left, right⟩ candidates = some (candidates, ⟨partitionIdx, left, right⟩) := by
  have hcount : checkedSub (1 + right) left = some (1 + right - left) := if_pos (by omega)
  unfold closeWindow
  simp only [hcount, hn]
  exact if_neg fun h => hfull ⟨hle, by omega⟩

theorem nextPartition_eq {n left right partitionIdx : ℕ} (hn : settings.numPartsToMerge = n) (hle : left ≤ partition.length) :
    nextPartition settings sortedPartitionIndices partition ⟨partitionIdx, left, right⟩ =
      if partition.length < left + n then
        if partitionIdx + 1 = sortedPartitionIndices.length then some none else some (some ⟨partitionIdx + 1, 0, 0⟩)
      else some (some ⟨partitionIdx, left, right⟩) := by
  have hrest : checkedSub partition.length left = some (partition.length - left) := if_pos hle
  unfold nextPartition
  simp only [hrest, hn]
  by_cases hlt : partition.length < left + n
  · rw [if_pos hlt, if_pos (by omega)]
  · rw [if_neg hlt, if_neg (by omega)]

theorem moveRight_eq {left right partitionIdx : ℕ} (hle : left ≤ right) (hlt : right + 1 < partition.length) :
    moveRight partition ⟨partitionIdx, left, right⟩ =
      some ⟨partitionIdx, nextLeft partition left (right + 1), right + 1⟩ := by
  unfold moveRight nextLeft lowerLevel
  dsimp only
  rw [if_pos hlt, List.getElem?_eq_getElem hlt, List.getElem?_eq_getElem (show left < partition.length by omega)]
  simp only [decide_eq_true_eq]

/-- What the loop returns when all windows of a partition are closed. -/
def afterPartition (settings : Settings) (partsRanges : List (List SelectorPart)) (sortedPartitionIndices : List ℕ) (partitionIdx : ℕ)
    (partition : List SelectorPart) (found : List PartsSlice) (turns : ℕ) : Option (List PartsSlice) :=
  if settings.numRangesToChoose ≤ found.length then some (found.take settings.numRangesToChoose)
  else if partitionIdx + 1 = sortedPartitionIndices.length then some found
  else collect settings partsRanges sortedPartitionIndices turns ⟨partitionIdx + 1, if beginsLower partition then 1 else 0, 1⟩ found

section Partition

variable {n i partitionIdx left right left' right' turns : ℕ} {partition : List SelectorPart} {candidates candidates' : List PartsSlice}

theorem collect_done (hn : settings.numPartsToMerge = n) (htwo : 2 ≤ n) (hi : sortedPartitionIndices[partitionIdx]? = some i)
    (hp : partsRanges[i]? = some partition) (hlength : n ≤ partition.length) (hfew : candidates.length < settings.numRangesToChoose)
    (hclose : closeWindow settings i partition ⟨partitionIdx, left, right⟩ candidates = some (candidates', ⟨partitionIdx, left', right'⟩))
    (hle : left' ≤ partition.length) (hdone : partition.length < left' + n) (hfew' : candidates'.length ≤ settings.numRangesToChoose) :
    collect settings partsRanges sortedPartitionIndices (turns + 1) ⟨partitionIdx, left, right⟩ candidates =
      afterPartition settings partsRanges sortedPartitionIndices partitionIdx partition candidates' turns := by
  have hnext : moveRight partition ⟨partitionIdx + 1, 0, 0⟩ =
      some ⟨partitionIdx + 1, if beginsLower partition then 1 else 0, 1⟩ := moveRight_eq le_rfl (by omega)
  rw [collect, if_pos hfew]
  simp only [hi, hp, hclose, nextPartition_eq hn hle, if_pos hdone]
  unfold afterPartition
  by_cases henough : candidates'.length = settings.numRangesToChoose
  · rw [if_pos henough, if_pos henough.ge, List.take_of_length_le henough.le]
  · rw [if_neg henough, if_neg (show ¬settings.numRangesToChoose ≤ candidates'.length by omega)]
    by_cases hlast : partitionIdx + 1 = sortedPartitionIndices.length
    · simp only [if_pos hlast]
    · simp only [if_neg hlast, hnext]

theorem collect_more (hn : settings.numPartsToMerge = n) (hi : sortedPartitionIndices[partitionIdx]? = some i)
    (hp : partsRanges[i]? = some partition) (hfew : candidates.length < settings.numRangesToChoose)
    (hclose : closeWindow settings i partition ⟨partitionIdx, left, right⟩ candidates = some (candidates', ⟨partitionIdx, left', right'⟩))
    (hle : left' ≤ right') (hlt : right' + 1 < partition.length) (hmore : ¬partition.length < left' + n)
    (hfew' : candidates'.length < settings.numRangesToChoose) :
    collect settings partsRanges sortedPartitionIndices (turns + 1) ⟨partitionIdx, left, right⟩ candidates =
      collect settings partsRanges sortedPartitionIndices turns
        ⟨partitionIdx, nextLeft partition left' (right' + 1), right' + 1⟩ candidates' := by
  rw [collect, if_pos hfew]
  simp only [hi, hp, hclose, nextPartition_eq hn (show left' ≤ partition.length by omega), if_neg hmore, if_neg hfew'.ne,
    moveRight_eq hle hlt]

theorem collect_enough (hi : sortedPartitionIndices[partitionIdx]? = some i) (hp : partsRanges[i]? = some partition)
    (hfew : candidates.length < settings.numRangesToChoose)
    (hclose : closeWindow settings i partition ⟨partitionIdx, left, right⟩ candidates = some (candidates', ⟨partitionIdx, left', right'⟩))
    (henough : candidates'.length = settings.numRangesToChoose) :
    collect settings partsRanges sortedPartitionIndices (turns + 1) ⟨partitionIdx, left, right⟩ candidates = some candidates' := by
  rw [collect, if_pos hfew]
  simp only [hi, hp, hclose, if_pos henough]

theorem InPartition.move (htwo : 2 ≤ n) (hle : left ≤ right) (hlt : right + 1 < left + n) (hmore : ¬partition.length < left + n) :
    InPartition n partition (nextLeft partition left (right + 1)) (right + 1) := by
  unfold nextLeft
  split
  · exact ⟨le_rfl, by omega, by omega, .inl rfl⟩
  · exact ⟨by omega, by omega, by omega, .inr (by omega)⟩

/-- **One partition**: from cursors in it the loop closes its windows, and goes on with the next
partition unless it has enough. -/
theorem collect_partition (hn : settings.numPartsToMerge = n) (htwo : 2 ≤ n) (hi : sortedPartitionIndices[partitionIdx]? = some i)
    (hp : partsRanges[i]? = some partition) (hlength : n ≤ partition.length) (hin : InPartition n partition left right)
    (hfew : candidates.length < settings.numRangesToChoose) :
    ∃ k, ∀ turns, collect settings partsRanges sortedPartitionIndices (turns + k) ⟨partitionIdx, left, right⟩ candidates =
      afterPartition settings partsRanges sortedPartitionIndices partitionIdx partition
        (candidates ++ ((windows n partition left right).map (toSlice i)).filter (accepted settings partsRanges)) turns := by
  fun_induction windows n partition left right generalizing candidates with
  | case1 left right hlt hfull hdone =>
    refine ⟨1, fun turns => ?_⟩
    refine collect_done hn htwo hi hp hlength hfew (closeWindow_of_full hn hp hlt hfull) hlt hdone ?_
    rw [List.length_append]
    exact (Nat.add_le_add_left (List.length_filter_le _ _) _).trans hfew
  | case2 left right hlt hfull hmore ih =>
    have hclose := @closeWindow_of_full settings partsRanges partition n i left right partitionIdx candidates hn hp hlt hfull
    set candidates' := candidates ++ [toSlice i ⟨left, right + 1, Nat.lt_succ_of_le hfull.1⟩].filter (accepted settings partsRanges) with hdef
    have hfound : candidates ++ ((⟨left, right + 1, Nat.lt_succ_of_le hfull.1⟩ :: windows n partition
          (nextLeft partition (right + 1) (right + 2)) (right + 2)).map (toSlice i)).filter (accepted settings partsRanges) =
        candidates' ++ ((windows n partition (nextLeft partition (right + 1) (right + 2)) (right + 2)).map (toSlice i)).filter (accepted settings partsRanges) := by
      rw [hdef, List.append_assoc, ← List.filter_append]
      rfl
    have hle : candidates'.length ≤ settings.numRangesToChoose := by
      rw [hdef, List.length_append]
      exact (Nat.add_le_add_left (List.length_filter_le _ _) _).trans hfew
    rw [hfound]
    rcases hle.eq_or_lt with henough | hfew'
    · refine ⟨1, fun turns => ?_⟩
      rw [collect_enough hi hp hfew hclose henough, afterPartition, if_pos, List.take_append_of_le_length henough.ge,
        List.take_of_length_le henough.le]
      rw [List.length_append]
      omega
    · obtain ⟨k, hk⟩ := ih (InPartition.move htwo le_rfl (by omega) hmore) hfew'
      refine ⟨k + 1, fun turns => ?_⟩
      rw [← hk turns, ← Nat.add_assoc]
      exact collect_more hn hi hp hfew hclose le_rfl (by omega) hmore hfew'
  | case3 left right hlt hfull hdone =>
    refine ⟨1, fun turns => ?_⟩
    rw [List.map_nil, List.filter_nil, List.append_nil]
    exact collect_done hn htwo hi hp hlength hfew (closeWindow_of_not_full hn hin.le hfull) (by have := hin.le; omega) hdone hfew.le
  | case4 left right hlt hfull hmore ih =>
    have hmoved : right + 1 < left + n := by
      have hlt' := hin.lt_add
      have hne : right + 1 ≠ left + n := fun heq => hfull ⟨hin.le, heq⟩
      omega
    obtain ⟨k, hk⟩ := ih (InPartition.move htwo hin.le hmoved hmore) hfew
    refine ⟨k + 1, fun turns => ?_⟩
    rw [← hk turns, ← Nat.add_assoc]
    exact collect_more hn hi hp hfew (closeWindow_of_not_full hn hin.le hfull) hin.le (by omega) hmore hfew
  | case5 left right hge => exact absurd hin.lt_length hge

end Partition

/-! ## All partitions -/

/-- The windows of the partitions one after the other; `lower` is what is carried over to the first of them. -/
def scanned (n : ℕ) (partsRanges : List (List SelectorPart)) : Bool → List ℕ → List PartsSlice
  | _, [] => []
  | lower, i :: rest =>
    (windowsFrom n (partsRanges.getD i []) lower).map (toSlice i) ++ scanned n partsRanges (beginsLower (partsRanges.getD i [])) rest

/-- The partitions that are scanned: they exist and have enough parts. -/
def EnoughParts (n : ℕ) (partsRanges : List (List SelectorPart)) (indices : List ℕ) : Prop :=
  ∀ i ∈ indices, i < partsRanges.length ∧ n ≤ (partsRanges.getD i []).length

theorem inPartition_begin {n : ℕ} (htwo : 2 ≤ n) (hlength : n ≤ partition.length) (lower : Bool) :
    InPartition n partition (if lower then 1 else 0) 1 := by
  split
  · exact ⟨le_rfl, by omega, by omega, .inl rfl⟩
  · exact ⟨by omega, by omega, by omega, .inr (by omega)⟩

/-- **The whole loop**: the windows of all partitions, from the second one on with the comparison of the one before. -/
theorem collect_scanned {n : ℕ} (hn : settings.numPartsToMerge = n) (htwo : 2 ≤ n) (henough : EnoughParts n partsRanges sortedPartitionIndices) :
    ∀ {rest : List ℕ} {partitionIdx : ℕ} {lower : Bool} {candidates : List PartsSlice}, rest ≠ [] →
      sortedPartitionIndices.drop partitionIdx = rest → candidates.length < settings.numRangesToChoose →
      ∃ k, ∀ turns, collect settings partsRanges sortedPartitionIndices (turns + k) ⟨partitionIdx, if lower then 1 else 0, 1⟩ candidates =
        some ((candidates ++ (scanned n partsRanges lower rest).filter (accepted settings partsRanges)).take settings.numRangesToChoose) := by
  intro rest
  induction rest with
  | nil => exact fun h => absurd rfl h
  | cons i rest ih =>
    intro partitionIdx lower candidates _ hdrop hfew
    have hi : sortedPartitionIndices[partitionIdx]? = some i := by
      rw [← List.head?_drop, hdrop]
      rfl
    obtain ⟨hexists, hlength⟩ := henough i (List.mem_of_getElem? hi)
    have hp : partsRanges[i]? = some (partsRanges.getD i []) := by
      rw [List.getD_eq_getElem _ _ hexists]
      exact List.getElem?_eq_getElem hexists
    have hrest : sortedPartitionIndices.drop (partitionIdx + 1) = rest := by
      rw [← List.tail_drop, hdrop]
      rfl
    obtain ⟨k, hk⟩ := collect_partition hn htwo hi hp hlength (inPartition_begin htwo hlength lower) hfew
    rw [scanned, List.filter_append, ← List.append_assoc, windowsFrom]
    set found := candidates ++ ((windows n (partsRanges.getD i []) (if lower then 1 else 0) 1).map (toSlice i)).filter
      (accepted settings partsRanges) with hfound
    by_cases hfull : settings.numRangesToChoose ≤ found.length
    · refine ⟨k, fun turns => ?_⟩
      rw [hk, afterPartition, if_pos hfull, List.take_append_of_le_length hfull]
    · have hfew' : found.length < settings.numRangesToChoose := not_le.1 hfull
      by_cases hlast : partitionIdx + 1 = sortedPartitionIndices.length
      · have hnil : rest = [] := by
          rw [← hrest, hlast, List.drop_length]
        refine ⟨k, fun turns => ?_⟩
        rw [hk, afterPartition, if_neg hfull, if_pos hlast, hnil, scanned, List.filter_nil, List.append_nil,
          List.take_of_length_le hfew'.le]
      · have hne : rest ≠ [] := by
          rintro rfl
          have hlt := (List.getElem?_eq_some_iff.1 hi).1
          have hle := List.drop_eq_nil_iff.1 hrest
          omega
        obtain ⟨k', hk'⟩ := @ih (partitionIdx + 1) (beginsLower (partsRanges.getD i [])) found hne hrest hfew'
        refine ⟨k' + k, fun turns => ?_⟩
        rw [← Nat.add_assoc, hk, afterPartition, if_neg hfull, if_neg hlast, hk']

/-- **The first turn** leads into the first partition, with the comparison of its own levels. -/
theorem exists_collect {n : ℕ} (hn : settings.numPartsToMerge = n) (htwo : 2 ≤ n) (hchoose : 1 ≤ settings.numRangesToChoose) {i : ℕ}
    {rest : List ℕ} (henough : EnoughParts n partsRanges (i :: rest)) :
    ∃ k, ∀ turns, collect settings partsRanges (i :: rest) (turns + k) {} [] =
      some (((scanned n partsRanges (beginsLower (partsRanges.getD i [])) (i :: rest)).filter (accepted settings partsRanges)).take
        settings.numRangesToChoose) := by
  obtain ⟨hexists, hlength⟩ := henough i List.mem_cons_self
  have hp : partsRanges[i]? = some (partsRanges.getD i []) := by
    rw [List.getD_eq_getElem _ _ hexists]
    exact List.getElem?_eq_getElem hexists
  obtain ⟨k, hk⟩ := @collect_scanned settings partsRanges (i :: rest) n hn htwo henough (i :: rest) 0
    (beginsLower (partsRanges.getD i [])) [] (List.cons_ne_nil i rest) rfl hchoose
  refine ⟨k + 1, fun turns => ?_⟩
  have hturn : collect settings partsRanges (i :: rest) (turns + k + 1) {} [] =
      collect settings partsRanges (i :: rest) (turns + k) ⟨0, if beginsLower (partsRanges.getD i []) then 1 else 0, 1⟩ [] :=
    collect_more hn rfl hp hchoose (closeWindow_of_not_full hn le_rfl (by omega)) le_rfl (by omega) (by omega) hchoose
  rw [← Nat.add_assoc, hturn, hk]
  rfl

theorem collect_add {turns : ℕ} {cursors : Cursors} {candidates result : List PartsSlice}
    (h : collect settings partsRanges sortedPartitionIndices turns cursors candidates = some result) (more : ℕ) :
    collect settings partsRanges sortedPartitionIndices (turns + more) cursors candidates = some result := by
  induction turns generalizing cursors candidates with
  | zero => cases h
  | succ turns ih =>
    rw [Nat.add_right_comm]
    rw [collect] at h ⊢
    split at h
    · next hfew =>
      rw [if_pos hfew]
      cases hi : sortedPartitionIndices[cursors.partitionIdx]? with
      | none => simp only [hi] at h; cases h
      | some i =>
        simp only [hi] at h ⊢
        cases hp : partsRanges[i]? with
        | none => simp only [hp] at h; cases h
        | some partition =>
          simp only [hp] at h ⊢
          cases hclose : closeWindow settings i partition cursors candidates with
          | none => simp only [hclose] at h; cases h
          | some closed =>
            simp only [hclose] at h ⊢
            split at h
            · next henough => rwa [if_pos henough]
            · next henough =>
              rw [if_neg henough]
              cases hnext : nextPartition settings sortedPartitionIndices partition closed.2 with
              | none => simp only [hnext] at h; cases h
              | some next =>
                cases next with
                | none =>
                  simp only [hnext] at h ⊢
                  exact h
                | some next =>
                  simp only [hnext] at h ⊢
                  cases hmove : moveRight partition next with
                  | none => simp only [hmove] at h; cases h
                  | some moved =>
                    simp only [hmove] at h ⊢
                    exact ih h
    · next hfew => rwa [if_neg hfew]

theorem collectCandidates_unique {turns turns' : ℕ} {result result' : List PartsSlice}
    (h : collectCandidates settings partsRanges sortedPartitionIndices turns = some result)
    (h' : collectCandidates settings partsRanges sortedPartitionIndices turns' = some result') : result = result' := by
  unfold collectCandidates at h h'
  split at h
  · next hnil =>
    rw [if_pos hnil] at h'
    exact Option.some.inj (h.symm.trans h')
  · next hne =>
    rw [if_neg hne] at h'
    have hadd := collect_add h turns'
    have hadd' := collect_add h' turns
    rw [Nat.add_comm] at hadd'
    exact Option.some.inj (hadd.symm.trans hadd')

theorem exists_collectCandidates {n : ℕ} (hn : settings.numPartsToMerge = n) (htwo : 2 ≤ n) (hchoose : 1 ≤ settings.numRangesToChoose)
    (henough : EnoughParts n partsRanges sortedPartitionIndices) :
    ∃ turns, ∀ more, collectCandidates settings partsRanges sortedPartitionIndices (more + turns) =
      some (((scanned n partsRanges (beginsLower (partsRanges.getD (sortedPartitionIndices.headD 0) [])) sortedPartitionIndices).filter
        (accepted settings partsRanges)).take settings.numRangesToChoose) := by
  cases sortedPartitionIndices with
  | nil =>
    refine ⟨0, fun _ => ?_⟩
    rw [scanned, List.filter_nil, List.take_nil]
    rfl
  | cons i rest =>
    obtain ⟨k, hk⟩ := exists_collect hn htwo hchoose henough
    exact ⟨k, fun more => (if_neg (List.cons_ne_nil i rest)).trans (hk more)⟩

/-! ## Legal candidates -/

/-- **Windows are full, within the partition and one after the other.** -/
theorem windows_spec {n left right : ℕ} (htwo : 2 ≤ n) (hin : InPartition n partition left right) :
    (∀ window ∈ windows n partition left right,
        left ≤ window.left ∧ window.right = window.left + n ∧ window.right ≤ partition.length) ∧
      (windows n partition left right).Pairwise HalfOpen.Disjoint := by
  have hnextLeft : ∀ left right, left ≤ right → left ≤ nextLeft partition left right := by
    intro left right hle
    unfold nextLeft
    split
    · exact hle
    · exact le_rfl
  fun_induction windows n partition left right with
  | case1 left right hlt hfull hdone =>
    refine ⟨fun window hwindow => ?_, List.pairwise_singleton _ _⟩
    rw [List.mem_singleton.1 hwindow]
    exact ⟨le_rfl, hfull.2, hlt⟩
  | case2 left right hlt hfull hmore ih =>
    obtain ⟨hall, hpairwise⟩ := ih (InPartition.move htwo le_rfl (by omega) hmore)
    have hbegin := hnextLeft (right + 1) (right + 2) (Nat.le_succ _)
    refine ⟨fun window hwindow => ?_, List.pairwise_cons.2 ⟨fun window hwindow => .inl (hbegin.trans (hall window hwindow).1), hpairwise⟩⟩
    rcases List.mem_cons.1 hwindow with rfl | hwindow
    · exact ⟨le_rfl, hfull.2, hlt⟩
    · obtain ⟨hle, hcount⟩ := hall window hwindow
      exact ⟨by omega, hcount⟩
  | case3 left right hlt hfull hdone => exact ⟨List.forall_mem_nil _, List.Pairwise.nil⟩
  | case4 left right hlt hfull hmore ih =>
    have hlt' := hin.lt_add
    have hle := hin.le
    have hmoved : right + 1 < left + n := by
      have hne : right + 1 ≠ left + n := fun heq => hfull ⟨hle, heq⟩
      omega
    obtain ⟨hall, hpairwise⟩ := ih (InPartition.move htwo hle hmoved hmore)
    exact ⟨fun window hwindow => ⟨(hnextLeft left (right + 1) (by omega)).trans (hall window hwindow).1, (hall window hwindow).2⟩, hpairwise⟩
  | case5 left right hge => exact absurd hin.lt_length hge

theorem scanned_spec {n : ℕ} (htwo : 2 ≤ n) : ∀ {rest : List ℕ} {lower : Bool}, rest.Nodup → EnoughParts n partsRanges rest →
    (∀ candidate ∈ scanned n partsRanges lower rest, candidate.rangeIt ∈ rest ∧
        candidate.bounds.right = candidate.bounds.left + n ∧ candidate.bounds.right ≤ (partsRanges.getD candidate.rangeIt []).length) ∧
      (scanned n partsRanges lower rest).Pairwise PartsSlice.Disjoint := by
  intro rest
  induction rest with
  | nil => exact fun _ _ => ⟨List.forall_mem_nil _, List.Pairwise.nil⟩
  | cons i rest ih =>
    intro lower hnodup henough
    obtain ⟨hi, hnodup⟩ := List.nodup_cons.1 hnodup
    obtain ⟨hfirst, henough⟩ := List.forall_mem_cons.1 henough
    obtain ⟨hwindows, hpairwise⟩ := windows_spec htwo (inPartition_begin htwo hfirst.2 lower)
    obtain ⟨hall, hrest⟩ := @ih (beginsLower (partsRanges.getD i [])) hnodup henough
    rw [scanned]
    refine ⟨fun candidate hcandidate => ?_, List.pairwise_append.2 ⟨?_, hrest, ?_⟩⟩
    · rcases List.mem_append.1 hcandidate with h | h
      · obtain ⟨window, hwindow, rfl⟩ := List.mem_map.1 h
        exact ⟨List.mem_cons_self, (hwindows window hwindow).2⟩
      · exact ⟨List.mem_cons_of_mem _ (hall candidate h).1, (hall candidate h).2⟩
    · refine List.pairwise_map.2 (hpairwise.imp ?_)
      exact fun hdisjoint _ => hdisjoint
    · intro candidate hcandidate later hlater hsame
      obtain ⟨window, -, rfl⟩ := List.mem_map.1 hcandidate
      exact absurd ((hall later hlater).1) (hsame ▸ hi)

theorem accepts_iff {parts : List SelectorPart} :
    accepts settings parts ↔ SelectorPart.WithinSizeT parts settings.constraint ∧ settings.rangeFilter.accepts parts := by
  have hfold : ∀ (parts : List SelectorPart) (size rows : ℕ),
      parts.foldl (fun total part => (addSize total.1 part.size, addSize total.2 part.rows)) (size % 2 ^ 64, rows % 2 ^ 64) =
        ((size + SelectorPart.totalSize parts) % 2 ^ 64, (rows + SelectorPart.totalRows parts) % 2 ^ 64) := by
    intro parts
    induction parts with
    | nil => exact fun _ _ => rfl
    | cons part parts ih =>
      intro size rows
      have hsize : addSize (size % 2 ^ 64) part.size = (size + part.size) % 2 ^ 64 := Nat.mod_add_mod _ _ _
      have hrows : addSize (rows % 2 ^ 64) part.rows = (rows + part.rows) % 2 ^ 64 := Nat.mod_add_mod _ _ _
      rw [List.foldl_cons, hsize, hrows, ih, Nat.add_assoc, Nat.add_assoc]
      rfl
  have htotal := hfold parts 0 0
  rw [Nat.zero_mod, Nat.zero_add, Nat.zero_add] at htotal
  unfold accepts SelectorPart.WithinSizeT
  rw [htotal]
  simp only [Bool.and_eq_true, decide_eq_true_eq]

/-! ## Each partition on its own -/

/-- The windows of a partition alone. -/
def ownWindows (n : ℕ) (partsRanges : List (List SelectorPart)) (i : ℕ) : List PartsSlice :=
  (windowsFrom n (partsRanges.getD i []) (beginsLower (partsRanges.getD i []))).map (toSlice i)

/-- The candidates of partition `j`, cut as if its second part had the relation to its first one that is so in partition `i`. -/
def candidatesFrom (settings : Settings) (partsRanges : List (List SelectorPart)) (i j : ℕ) : List PartsSlice :=
  ((windowsFrom settings.numPartsToMerge (partsRanges.getD j []) (beginsLower (partsRanges.getD i []))).map (toSlice j)).filter
    (accepted settings partsRanges)

/-- **What is carried over makes no difference** to the partitions that are scanned after partition `i` until there are `k` more
candidates. -/
def SameCandidates (settings : Settings) (partsRanges : List (List SelectorPart)) : ℕ → ℕ → List ℕ → Prop
  | _, _, [] => True
  | k, i, j :: rest =>
    (candidatesFrom settings partsRanges i j).take k = (candidatesFrom settings partsRanges j j).take k ∧
      SameCandidates settings partsRanges (k - (candidatesFrom settings partsRanges j j).length) j rest

instance (settings : Settings) (partsRanges : List (List SelectorPart)) : ∀ (rest : List ℕ) (k i : ℕ),
    Decidable (SameCandidates settings partsRanges k i rest)
  | [], _, _ => .isTrue trivial
  | _ :: rest, _, _ => @instDecidableAnd _ _ _ (instDecidableSameCandidates settings partsRanges rest _ _)

theorem rangeIt_of_mem_map {j : ℕ} {windows : List (HalfOpen ℕ)} : ∀ slice ∈ windows.map (toSlice j), decide (slice.rangeIt = j) = true := by
  intro slice hslice
  obtain ⟨window, -, rfl⟩ := List.mem_map.1 hslice
  exact decide_eq_true rfl

theorem rangeIt_ne_of_mem_ownWindows {n j : ℕ} {rest : List ℕ} (hj : j ∉ rest) :
    ∀ slice ∈ rest.flatMap (ownWindows n partsRanges), ¬decide (slice.rangeIt = j) = true := by
  intro slice hslice heq
  obtain ⟨k, hk, hslice⟩ := List.mem_flatMap.1 hslice
  have hrange := of_decide_eq_true (rangeIt_of_mem_map slice hslice)
  exact hj (of_decide_eq_true heq ▸ hrange ▸ hk)

theorem rangeIt_ne_of_mem_scanned {n j : ℕ} {lower : Bool} {rest : List ℕ} (htwo : 2 ≤ n) (hnodup : (j :: rest).Nodup)
    (henough : EnoughParts n partsRanges rest) : ∀ slice ∈ scanned n partsRanges lower rest, ¬decide (slice.rangeIt = j) = true := by
  intro slice hslice heq
  have hmem := (scanned_spec htwo (List.nodup_cons.1 hnodup).2 henough).1 slice hslice
  exact (List.nodup_cons.1 hnodup).1 (of_decide_eq_true heq ▸ hmem.1)

/-- **The scans agree exactly when what is carried over makes no difference**, by induction on the partitions. -/
theorem take_scanned_iff {n : ℕ} (hn : settings.numPartsToMerge = n) (htwo : 2 ≤ n) : ∀ {rest : List ℕ} {k i : ℕ}, rest.Nodup →
    EnoughParts n partsRanges rest →
    (((scanned n partsRanges (beginsLower (partsRanges.getD i [])) rest).filter (accepted settings partsRanges)).take k =
        ((rest.flatMap (ownWindows n partsRanges)).filter (accepted settings partsRanges)).take k ↔
      SameCandidates settings partsRanges k i rest) := by
  subst hn
  intro rest
  induction rest with
  | nil => exact fun _ _ => iff_of_true rfl trivial
  | cons j rest ih =>
    intro k i hnodup henough
    have hj := (List.nodup_cons.1 hnodup).1
    have henough' := (List.forall_mem_cons.1 henough).2
    rw [scanned, List.flatMap_cons, List.filter_append, List.filter_append, SameCandidates]
    refine (take_append_eq_iff_of_forall (p := fun slice : PartsSlice => decide (slice.rangeIt = j)) ?_ ?_ ?_ ?_ k).trans
      (and_congr Iff.rfl (ih (List.nodup_cons.1 hnodup).2 henough'))
    · exact fun slice hslice => rangeIt_of_mem_map slice (List.mem_filter.1 hslice).1
    · exact fun slice hslice => rangeIt_of_mem_map slice (List.mem_filter.1 hslice).1
    · exact fun slice hslice => rangeIt_ne_of_mem_scanned htwo hnodup henough' slice (List.mem_filter.1 hslice).1
    · exact fun slice hslice => rangeIt_ne_of_mem_ownWindows hj slice (List.mem_filter.1 hslice).1

theorem sameCandidates_of_isChain {n : ℕ} (hn : settings.numPartsToMerge = n) : ∀ {rest : List ℕ} {k i : ℕ},
    (i :: rest).IsChain (SameWindows n partsRanges) → SameCandidates settings partsRanges k i rest := by
  subst hn
  intro rest
  induction rest with
  | nil => exact fun _ => trivial
  | cons j rest ih =>
    intro k i hchain
    obtain ⟨hsame, hchain⟩ := List.isChain_cons_cons.1 hchain
    have hcandidates : candidatesFrom settings partsRanges i j = candidatesFrom settings partsRanges j j :=
      congrArg (fun windows => (windows.map (toSlice j)).filter (accepted settings partsRanges)) hsame
    exact ⟨congrArg (List.take k) hcandidates, ih hchain⟩

theorem isChain_of_scanned {n : ℕ} (htwo : 2 ≤ n) : ∀ {rest : List ℕ} {i : ℕ}, (i :: rest).Nodup → EnoughParts n partsRanges (i :: rest) →
    scanned n partsRanges (beginsLower (partsRanges.getD i [])) rest = rest.flatMap (ownWindows n partsRanges) →
      (i :: rest).IsChain (SameWindows n partsRanges) := by
  intro rest
  induction rest with
  | nil => exact fun _ _ _ => List.isChain_singleton _
  | cons j rest ih =>
    intro i hnodup henough heq
    have hnodup' := (List.nodup_cons.1 hnodup).2
    have henough' := (List.forall_mem_cons.1 henough).2
    rw [scanned, List.flatMap_cons] at heq
    -- the slices of partition `j` are the same on both sides
    obtain ⟨hblock, hrest⟩ := append_inj_of_forall (p := fun slice : PartsSlice => decide (slice.rangeIt = j)) rangeIt_of_mem_map
      rangeIt_of_mem_map (rangeIt_ne_of_mem_scanned htwo hnodup' (List.forall_mem_cons.1 henough').2)
      (rangeIt_ne_of_mem_ownWindows (List.nodup_cons.1 hnodup').1) heq
    have hinjective : Function.Injective (toSlice j) := fun a b h => congrArg PartsSlice.bounds h
    exact List.isChain_cons_cons.2 ⟨List.map_injective_iff.2 hinjective hblock, ih hnodup' henough' hrest⟩

theorem sortPartitions_perm (std : StdSort) (n : ℕ) : (sortPartitions partsRanges std n).Perm
    ((List.range partsRanges.length).filter fun i => n ≤ (partsRanges.getD i []).length) := by
  refine (std.lawful _ (fun i => -((partsRanges.getD i []).length : ℤ)) _ fun i _ j _ => ?_).1
  rw [decide_eq_decide]
  omega

theorem nodup_sortPartitions (std : StdSort) (n : ℕ) : (sortPartitions partsRanges std n).Nodup :=
  (sortPartitions_perm std n).nodup_iff.2 (List.nodup_range.filter _)

theorem enoughParts_sortPartitions (std : StdSort) (n : ℕ) : EnoughParts n partsRanges (sortPartitions partsRanges std n) := by
  intro i hi
  obtain ⟨hrange, hlength⟩ := List.mem_filter.1 ((sortPartitions_perm std n).mem_iff.1 hi)
  exact ⟨List.mem_range.1 hrange, of_decide_eq_true hlength⟩

theorem exists_collectCandidates_alone {n i : ℕ} (hn : settings.numPartsToMerge = n) (htwo : 2 ≤ n) (hchoose : 1 ≤ settings.numRangesToChoose)
    (henough : EnoughParts n partsRanges [i]) :
    ∃ turns, collectCandidates settings partsRanges [i] turns =
      some (((ownWindows n partsRanges i).filter (accepted settings partsRanges)).take settings.numRangesToChoose) := by
  obtain ⟨turns, hturns⟩ := exists_collectCandidates hn htwo hchoose henough
  refine ⟨turns, ?_⟩
  have hzero := hturns 0
  rw [Nat.zero_add, scanned, scanned, List.append_nil] at hzero
  exact hzero

theorem concatenates_iff_sameCandidates {n : ℕ} (hn : settings.numPartsToMerge = n) (htwo : 2 ≤ n) (hchoose : 1 ≤ settings.numRangesToChoose)
    (hnodup : sortedPartitionIndices.Nodup) (henough : EnoughParts n partsRanges sortedPartitionIndices) :
    Concatenates settings partsRanges sortedPartitionIndices ↔
      SameCandidates settings partsRanges settings.numRangesToChoose (sortedPartitionIndices.headD 0) sortedPartitionIndices := by
  obtain ⟨turns, hturns⟩ := exists_collectCandidates hn htwo hchoose henough
  have halone : ∀ i ∈ sortedPartitionIndices, ∃ turns, collectCandidates settings partsRanges [i] turns =
      some (((ownWindows n partsRanges i).filter (accepted settings partsRanges)).take settings.numRangesToChoose) := fun i hi =>
    exists_collectCandidates_alone hn htwo hchoose fun j hj => List.mem_singleton.1 hj ▸ henough i hi
  rw [← take_scanned_iff hn htwo hnodup henough, List.filter_flatMap, ← take_flatMap_take _ _ le_rfl]
  constructor
  · rintro ⟨turns', candidates, alone, hcollect, hown, rfl⟩
    rw [← collectCandidates_unique hcollect (hturns 0)]
    refine congrArg (List.take settings.numRangesToChoose) (List.flatMap_congr fun i hi => ?_)
    obtain ⟨t, ht⟩ := hown i hi
    obtain ⟨t', ht'⟩ := halone i hi
    exact collectCandidates_unique ht ht'
  · intro heq
    exact ⟨turns, _, fun i => ((ownWindows n partsRanges i).filter (accepted settings partsRanges)).take settings.numRangesToChoose,
      (Nat.zero_add turns) ▸ hturns 0, halone, heq⟩

/-- **When each partition is scanned on its own**, for given settings and for all of them, with what always holds: the loop ends
without an index out of range, and its candidates are legal and disjoint. -/
theorem concatenates_iff (std : StdSort) (partsRanges : List (List SelectorPart)) (n : ℕ) (htwo : 2 ≤ n) :
    (∀ settings : Settings, settings.numPartsToMerge = n → 1 ≤ settings.numRangesToChoose →
      (Concatenates settings partsRanges (sortPartitions partsRanges std n) ↔
        SameCandidates settings partsRanges settings.numRangesToChoose ((sortPartitions partsRanges std n).headD 0)
          (sortPartitions partsRanges std n))) ∧
    ((∀ settings : Settings, settings.numPartsToMerge = n → 1 ≤ settings.numRangesToChoose →
        Concatenates settings partsRanges (sortPartitions partsRanges std n)) ↔
      (sortPartitions partsRanges std n).IsChain (SameWindows n partsRanges)) ∧
    ∀ settings : Settings, settings.numPartsToMerge = n → 1 ≤ settings.numRangesToChoose →
      ∃ turns candidates,
        (∀ more, collectCandidates settings partsRanges (sortPartitions partsRanges std n) (more + turns) = some candidates) ∧
        (∀ candidate ∈ candidates, LegalCandidate settings partsRanges (sortPartitions partsRanges std n) candidate) ∧
        candidates.Pairwise PartsSlice.Disjoint ∧ candidates.length ≤ settings.numRangesToChoose := by
  have henough := @enoughParts_sortPartitions partsRanges std n
  have hnodup := @nodup_sortPartitions partsRanges std n
  set indices := sortPartitions partsRanges std n with hindices
  refine ⟨fun settings hn hchoose => concatenates_iff_sameCandidates hn htwo hchoose hnodup henough,
    ⟨fun h => ?_, fun hchain settings hn hchoose => (concatenates_iff_sameCandidates hn htwo hchoose hnodup henough).2 ?_⟩, ?_⟩
  · -- settings that accept every window and choose enough of them
    set all := scanned n partsRanges (beginsLower (partsRanges.getD (indices.headD 0) [])) indices with hall
    set alone := indices.flatMap (ownWindows n partsRanges) with halone
    obtain ⟨settings, hn, hchoose, heverything⟩ : ∃ settings : Settings, settings.numPartsToMerge = n ∧
        settings.numRangesToChoose = all.length + alone.length + 1 ∧ ∀ candidate, accepted settings partsRanges candidate = true := by
      refine ⟨{ numPartsToMerge := n, numRangesToChoose := all.length + alone.length + 1, constraint := ⟨2 ^ 64, 2 ^ 64⟩ }, rfl, rfl,
        fun candidate => accepts_iff.2 ⟨⟨?_, ?_⟩, rfl⟩⟩
      · exact (Nat.mod_lt _ (by norm_num)).le
      · exact (Nat.mod_lt _ (by norm_num)).le
    have hfilter : ∀ l : List PartsSlice, l.filter (accepted settings partsRanges) = l :=
      fun l => List.filter_eq_self.2 fun candidate _ => heverything candidate
    have hone : 1 ≤ settings.numRangesToChoose := by omega
    obtain ⟨turns, candidates, own, hcollect, hown, heq⟩ := h settings hn hone
    obtain ⟨turns', hturns⟩ := exists_collectCandidates hn htwo hone henough
    have hcandidates := collectCandidates_unique hcollect (hturns 0)
    -- a partition scanned alone gives its own windows, and candidates do not depend on the number of turns
    have hownEq : ∀ i ∈ indices, own i = (ownWindows n partsRanges i).take settings.numRangesToChoose := by
      intro i hi
      obtain ⟨t, ht⟩ := hown i hi
      obtain ⟨t', ht'⟩ := @exists_collectCandidates_alone settings partsRanges n i hn htwo hone
        fun j hj => List.mem_singleton.1 hj ▸ henough i hi
      rw [hfilter] at ht'
      exact collectCandidates_unique ht ht'
    rw [hcandidates, hfilter, List.flatMap_congr hownEq, take_flatMap_take _ _ le_rfl, ← hall, ← halone,
      List.take_of_length_le (show all.length ≤ _ by omega), List.take_of_length_le (show alone.length ≤ _ by omega)] at heq
    cases hcases : indices with
    | nil => exact List.isChain_nil
    | cons i rest =>
      rw [hcases] at hall halone hnodup henough
      rw [hall, halone, scanned, List.flatMap_cons, List.headD_cons] at heq
      exact isChain_of_scanned htwo hnodup henough (List.append_cancel_left heq)
  · cases hcases : indices with
    | nil => trivial
    | cons i rest =>
      rw [hcases] at hchain
      exact ⟨rfl, sameCandidates_of_isChain hn hchain⟩
  · intro settings hn hchoose
    obtain ⟨turns, hturns⟩ := exists_collectCandidates hn htwo hchoose henough
    obtain ⟨hall, hpairwise⟩ := @scanned_spec partsRanges n htwo indices
      (beginsLower (partsRanges.getD (indices.headD 0) [])) hnodup henough
    refine ⟨turns, _, hturns, fun candidate hcandidate => ?_, ?_, List.length_take_le _ _⟩
    · obtain ⟨hmem, haccepted⟩ := List.mem_filter.1 (List.mem_of_mem_take hcandidate)
      obtain ⟨hrange, hcount, hlength⟩ := hall candidate hmem
      obtain ⟨hwithin, hfilter⟩ := accepts_iff.1 haccepted
      exact ⟨hrange, hn ▸ hcount, hlength, hwithin, hfilter⟩
    · exact hpairwise.sublist ((List.take_sublist _ _).trans List.filter_sublist)

/-- The second part of the first partition has a lower level. One candidate is found before the next partition is begun, but not five. -/
theorem concatenates_iff_levels :
    let part : String → ℕ → SelectorPart := fun name level => { name := name, info := { level := level }, size := 1, rows := 1 }
    let partsRanges := [[part "a" 1, part "b" 0, part "c" 0], [part "d" 0, part "e" 0]]
    Concatenates { numPartsToMerge := 2, numRangesToChoose := 1, constraint := ⟨10, 10⟩ } partsRanges
        (sortPartitions partsRanges StdSort.insertion 2) ∧
      ¬Concatenates { numPartsToMerge := 2, numRangesToChoose := 5, constraint := ⟨10, 10⟩ } partsRanges
        (sortPartitions partsRanges StdSort.insertion 2) := by
  intro part partsRanges
  exact ⟨((concatenates_iff StdSort.insertion partsRanges 2 le_rfl).1 _ rfl le_rfl).2 (by decide +kernel),
    mt ((concatenates_iff StdSort.insertion partsRanges 2 le_rfl).1 _ rfl (by decide)).1 (by decide +kernel)⟩

/-- The largest partition has a lower second part, the next one has two parts of one level: its only window is skipped. -/
theorem not_concatenates_lowerLevel : ¬∀ (std : StdSort) (partsRanges : List (List SelectorPart)) (settings : Settings),
    2 ≤ settings.numPartsToMerge → 1 ≤ settings.numRangesToChoose →
      Concatenates settings partsRanges (sortPartitions partsRanges std settings.numPartsToMerge) := by
  intro h
  set part : String → ℕ → SelectorPart := fun name level => { name := name, info := { level := level }, size := 1, rows := 1 } with hpart
  set partsRanges : List (List SelectorPart) := [[part "a" 1, part "b" 0, part "c" 0], [part "d" 0, part "e" 0]] with hranges
  set settings : Settings := { numPartsToMerge := 2, numRangesToChoose := 5, constraint := ⟨10, 10⟩ } with hsettings
  have hsorted : sortPartitions partsRanges StdSort.insertion 2 = [0, 1] := by decide +kernel
  obtain ⟨turns, candidates, alone, hcollect, halone, heq⟩ := h StdSort.insertion partsRanges settings le_rfl (by decide)
  rw [hsorted] at hcollect halone heq
  have htogether : collectCandidates settings partsRanges [0, 1] 20 = some [⟨0, 1, 3, by decide⟩] := by decide +kernel
  have hfirst : collectCandidates settings partsRanges [0] 20 = some [⟨0, 1, 3, by decide⟩] := by decide +kernel
  have hsecond : collectCandidates settings partsRanges [1] 20 = some [⟨1, 0, 2, by decide⟩] := by decide +kernel
  obtain ⟨first, halone0⟩ := halone 0 (by decide)
  obtain ⟨second, halone1⟩ := halone 1 (by decide)
  rw [collectCandidates_unique hcollect htogether, List.flatMap_cons, List.flatMap_cons, collectCandidates_unique halone0 hfirst,
    collectCandidates_unique halone1 hsecond] at heq
  have hlength : 1 = 2 := congrArg List.length heq
  exact absurd hlength (by decide)

/-! ## The range filter -/

theorem mem_closeWindow {i : ℕ} {cursors cursors' : Cursors} {candidates candidates' : List PartsSlice}
    (hp : partsRanges[i]? = some partition) (h : closeWindow settings i partition cursors candidates = some (candidates', cursors')) :
    ∀ candidate ∈ candidates', candidate ∈ candidates ∨ accepted settings partsRanges candidate := by
  intro candidate hcandidate
  unfold closeWindow at h
  split at h
  · cases h
  · split at h
    · dsimp only at h
      split at h
      · next hlt =>
        cases h
        split at hcandidate
        · next haccepts =>
          rcases List.mem_append.1 hcandidate with hmem | hmem
          · exact .inl hmem
          · refine .inr ?_
            rw [List.mem_singleton.1 hmem]
            unfold accepted PartsSlice.parts
            rw [List.getD_eq_getElem?_getD, hp]
            exact haccepts
        · exact .inl hcandidate
      · cases h
    · cases h
      exact .inl hcandidate

/-- **Every candidate was accepted**, however many turns there are. -/
theorem collect_accepted {turns : ℕ} {cursors : Cursors} {candidates result : List PartsSlice}
    (h : collect settings partsRanges sortedPartitionIndices turns cursors candidates = some result)
    (hcandidates : ∀ candidate ∈ candidates, accepted settings partsRanges candidate) :
    ∀ candidate ∈ result, accepted settings partsRanges candidate := by
  induction turns generalizing cursors candidates with
  | zero => cases h
  | succ turns ih =>
    rw [collect] at h
    split at h
    · split at h
      · cases h
      · split at h
        · cases h
        · next hp =>
          split at h
          · cases h
          · next candidates' cursors' hclose =>
            have hall : ∀ candidate ∈ candidates', accepted settings partsRanges candidate := fun candidate hcandidate =>
              (mem_closeWindow hp hclose candidate hcandidate).elim (hcandidates candidate) id
            split at h
            · cases h
              exact hall
            · split at h
              · cases h
              · cases h
                exact hall
              · split at h
                · cases h
                · exact ih h hall
    · cases h
      exact hcandidates

theorem select_accepted {std : StdSort} {random turns : ℕ} {result : List PartsSlice}
    (h : select settings partsRanges std random turns = some result) :
    ∀ slice ∈ result, settings.rangeFilter.accepts (slice.parts partsRanges) := by
  intro slice hslice
  obtain ⟨candidates, hcollect, rfl⟩ := Option.map_eq_some_iff.1 h
  have hmem : slice ∈ candidates := List.mem_of_getElem? (Option.mem_toList.1 hslice)
  unfold collectCandidates at hcollect
  split at hcollect
  · cases hcollect
    exact absurd hmem List.not_mem_nil
  · exact (accepts_iff.1 (collect_accepted hcollect (List.forall_mem_nil _) slice hmem)).2

end TrivialMergeSelector

/-- **When the range filter is honoured.** The TTL selectors and the trivial one return only what the filter accepts. The
simple selector does, whatever the scores are, when the filter accepts every slice that it considers also without its small
parts at the right, as without the heuristic that removes them; and only then, when the sums of the ranges fit `size_t`. -/
theorem select_acceptsFilter (settings : SimpleMergeSelector.Settings) (estimates : SimpleMergeSelector.Estimates)
    (selector : ITTLMergeSelector) (trivialSettings : TrivialMergeSelector.Settings) (heap : StdHeap) (std : StdSort)
    (partsRanges : List (List SelectorPart)) (constraint : MergeConstraint) (constraints : List MergeConstraint)
    (rangeFilter : RangeFilter) (random turns : ℕ) :
    (SimpleMergeSelector.AcceptsTrimmed settings estimates constraint rangeFilter partsRanges →
        ∀ score, ∀ slice ∈ SimpleMergeSelector.select settings (estimates.withScore score) heap partsRanges constraint constraints rangeFilter,
          rangeFilter.accepts (slice.parts partsRanges)) ∧
      ((∀ parts ∈ partsRanges, SelectorPart.totalSize parts < 2 ^ 64 ∧ SelectorPart.totalRows parts < 2 ^ 64) →
        ((∀ score, ∀ slice ∈ SimpleMergeSelector.select settings (estimates.withScore score) heap partsRanges constraint constraints
            rangeFilter, rangeFilter.accepts (slice.parts partsRanges)) ↔
          SimpleMergeSelector.AcceptsTrimmed settings estimates constraint rangeFilter partsRanges)) ∧
      (settings.enableHeuristicToRemoveSmallPartsAtRight = false →
        SimpleMergeSelector.AcceptsTrimmed settings estimates constraint rangeFilter partsRanges) ∧
      (∀ slice ∈ selector.select heap partsRanges (constraint :: constraints) rangeFilter, rangeFilter.accepts (slice.parts partsRanges)) ∧
      ∀ result, TrivialMergeSelector.select { trivialSettings with rangeFilter := rangeFilter } partsRanges std random turns = some result →
        ∀ slice ∈ result, rangeFilter.accepts (slice.parts partsRanges) := by
  have hsufficient : SimpleMergeSelector.AcceptsTrimmed settings estimates constraint rangeFilter partsRanges →
      ∀ score, ∀ slice ∈ SimpleMergeSelector.select settings (estimates.withScore score) heap partsRanges constraint constraints rangeFilter,
        rangeFilter.accepts (slice.parts partsRanges) := fun h score slice hslice =>
    SimpleMergeSelector.select_accepts_of (SimpleMergeSelector.acceptsTrimmed_iff.1 h) score heap constraints hslice
  refine ⟨hsufficient, fun hfits => ⟨fun h => ?_, hsufficient⟩, SimpleMergeSelector.acceptsTrimmed_of_disabled, ?_,
    fun _ hresult => TrivialMergeSelector.select_accepted hresult⟩
  · exact SimpleMergeSelector.acceptsTrimmed_iff.2 fun candidate hcandidate =>
      h _ _ (SimpleMergeSelector.mem_select_of_best heap hfits hcandidate)
  · obtain ⟨-, hall⟩ := @ITTLMergeSelector.select_spec partsRanges selector heap (constraint :: constraints) rangeFilter
    exact ((List.forall₂_and_left (p := fun slice : PartsSlice => rangeFilter.accepts (slice.parts partsRanges) = true)
      (R := fun _ _ => True) _ _).1 (hall.imp fun slice within h => ⟨h.2.2, trivial⟩)).1

/-- Two large parts before a small one. -/
def smallPartAtRight : List (List SelectorPart) :=
  [[{ name := "a", info := {}, size := 1000, rows := 1000, age := 10 }, { name := "b", info := {}, size := 1000, rows := 1000, age := 10 },
    { name := "c", info := {}, size := 1, rows := 1, age := 10 }]]

/-- A part of less than a hundredth is small. -/
def hundredthEstimates : SimpleMergeSelector.Estimates where
  calculateRangeWithStochasticSliding _ := 0
  loweredMaxPartsToMergeAtOnce _ := 0
  fitsBase _ := false
  isSmall size sumSize := size * 100 < sumSize
  score _ := 0
  address _ part := part

/-- A filter that accepts large parts and three parts accepts the two large parts, which are returned; one that wants three parts does not,
for some scores, unless small parts are kept. -/
theorem select_acceptsFilter_smallPart :
    let filter : RangeFilter := some fun parts => parts.length = 3 ∨ parts.all fun part => 100 ≤ part.size
    let three : RangeFilter := some fun parts => parts.length = 3
    (SimpleMergeSelector.select { minAgeToForceMerge := 5 } (hundredthEstimates.withScore fun _ => 0) .sorting smallPartAtRight
        ⟨10000, 10000⟩ [] filter).map (PartsSlice.count) = [2] ∧
      (∀ slice ∈ SimpleMergeSelector.select { minAgeToForceMerge := 5 } (hundredthEstimates.withScore fun _ => 0) .sorting smallPartAtRight
        ⟨10000, 10000⟩ [] filter, filter.accepts (slice.parts smallPartAtRight)) ∧
      (¬∀ score, ∀ slice ∈ SimpleMergeSelector.select { minAgeToForceMerge := 5 } (hundredthEstimates.withScore score) .sorting smallPartAtRight
        ⟨10000, 10000⟩ [] three, three.accepts (slice.parts smallPartAtRight)) ∧
      ∀ score, ∀ slice ∈ SimpleMergeSelector.select { minAgeToForceMerge := 5, enableHeuristicToRemoveSmallPartsAtRight := false }
        (hundredthEstimates.withScore score) .sorting smallPartAtRight ⟨10000, 10000⟩ [] three, three.accepts (slice.parts smallPartAtRight) := by
  intro filter three
  have hall := fun (settings : SimpleMergeSelector.Settings) (rangeFilter : RangeFilter) =>
    select_acceptsFilter settings hundredthEstimates (TTLPartDropMergeSelector 0 0) ⟨2, 1, ⟨10000, 10000⟩, none⟩ .sorting .insertion smallPartAtRight ⟨10000, 10000⟩ [] rangeFilter 0 0
  obtain ⟨haccepts, -⟩ := hall { minAgeToForceMerge := 5 } filter
  obtain ⟨-, hiff, -⟩ := hall { minAgeToForceMerge := 5 } three
  obtain ⟨hkept, -, hdisabled, -⟩ := hall { minAgeToForceMerge := 5, enableHeuristicToRemoveSmallPartsAtRight := false } three
  refine ⟨by decide +kernel, haccepts (SimpleMergeSelector.acceptsTrimmed_iff.2 (by decide +kernel)) _, ?_, hkept (hdisabled rfl)⟩
  rw [hiff (by decide +kernel), SimpleMergeSelector.acceptsTrimmed_iff]
  decide +kernel

/-- A filter that wants three parts, and two large parts before a small one: the slice of all three is considered, but the two
large parts are returned. -/
theorem not_select_acceptsFilter_smallPart : ¬∀ (settings : SimpleMergeSelector.Settings) (estimates : SimpleMergeSelector.Estimates)
    (heap : StdHeap) (partsRanges : List (List SelectorPart)) (constraint : MergeConstraint) (constraints : List MergeConstraint)
    (rangeFilter : RangeFilter), ∀ slice ∈ SimpleMergeSelector.select settings estimates heap partsRanges constraint constraints rangeFilter,
      rangeFilter.accepts (slice.parts partsRanges) := by
  intro h
  have haccepts := h { minAgeToForceMerge := 5 } hundredthEstimates StdHeap.sorting smallPartAtRight ⟨10000, 10000⟩ []
    (some fun parts => parts.length = 3) { rangeIt := 0, bounds := ⟨0, 2, by decide⟩ } (by decide +kernel)
  exact absurd haccepts (by decide)

end MergeTree
