import MergeTree.Lib.Selection
import MergeTree.Spec.TopK

/-!
# Which rows the selection by a minmax index keeps

The bounded queue keeps a choice of the best `n` items (`pushBounded_isBest`), the loops with ties keep the best with
all that tie (`takeWithTies_isBest`), and so do the parts and the whole. The items are marks, with the extremes of their
index granules: if every index granule is one mark the marks hold a choice of the best
rows, and with ties a mark is returned exactly when few marks have a better extreme
(`Directs.keepsAnswer_iff`).
-/

namespace MergeTree

section TopK

variable {V κ : Type} [LinearOrder V] [LinearOrder κ] {direction : ℤ} {key : V → κ} {heap : StdHeap} {n : ℕ}

/-- The key puts the values in this direction. -/
structure Directs (direction : ℤ) (key : V → κ) : Prop where
  valid : direction = 1 ∨ direction = -1
  lt_iff : ∀ a b, (if direction = 1 then a < b else b < a) ↔ key a < key b

theorem directs_ascending : Directs 1 (id : V → V) := ⟨Or.inl rfl, fun _ _ => Iff.rfl⟩

theorem directs_descending : Directs (-1) (OrderDual.toDual : V → Vᵒᵈ) := ⟨Or.inr rfl, fun _ _ => Iff.rfl⟩

theorem Directs.notWorse_iff (h : Directs direction key) {a b : V} : NotWorse direction a b ↔ key a ≤ key b := by
  rw [← not_lt, ← h.lt_iff b a]
  unfold NotWorse
  split <;> exact not_lt.symm

theorem Directs.injective (h : Directs direction key) {a b : V} (heq : key a = key b) : a = b := by
  have hab := (h.notWorse_iff (a := a) (b := b)).2 heq.le
  have hba := (h.notWorse_iff (a := b) (b := a)).2 heq.ge
  unfold NotWorse at hab hba
  split at hab
  · rw [if_pos ‹_›] at hba
    exact le_antisymm hab hba
  · rw [if_neg ‹_›] at hba
    exact le_antisymm hba hab

theorem Directs.less_eq (h : Directs direction key) {a b : MinMaxGranuleItem V} (ha : a.direction = direction) :
    a.less b = decide (key a.minOrMaxValue < key b.minOrMaxValue) := by
  have hiff := h.lt_iff a.minOrMaxValue b.minOrMaxValue
  unfold MinMaxGranuleItem.less
  rw [ha]
  split
  · rename_i hdirection
    rw [if_pos hdirection] at hiff
    exact decide_eq_decide.2 hiff
  · rename_i hdirection
    rw [if_neg hdirection] at hiff
    exact decide_eq_decide.2 hiff

theorem Directs.less_neg_eq (h : Directs direction key) {a b : MinMaxGranuleItem V} (ha : a.direction = -direction) :
    a.less b = decide (OrderDual.toDual (key a.minOrMaxValue) < OrderDual.toDual (key b.minOrMaxValue)) := by
  have hiff := h.lt_iff b.minOrMaxValue a.minOrMaxValue
  unfold MinMaxGranuleItem.less
  rw [ha]
  rcases h.valid with rfl | rfl
  · rw [if_neg (by decide)]
    exact decide_eq_decide.2 hiff
  · rw [if_pos (by decide)]
    exact decide_eq_decide.2 hiff

/-! ## The bounded queue -/

/-- The key of an item. -/
def itemKey (key : V → κ) (item : MinMaxGranuleItem V) : κ := key item.minOrMaxValue

theorem pushBounded_isBest (h : Directs direction key) (hn : 0 < n) {items queue : List (MinMaxGranuleItem V)}
    {item : MinMaxGranuleItem V} (hdirection : ∀ a ∈ items, a.direction = direction) (hitem : item.direction = direction)
    (hbest : IsBest (itemKey key) n items queue) :
    IsBest (itemKey key) n (items ++ [item]) (pushBounded heap n queue item) := by
  obtain ⟨rest, hperm, hlength, hle⟩ := hbest
  have hsizes : items.length = queue.length + rest.length := by rw [hperm.length_eq, List.length_append]
  unfold pushBounded
  split
  · rename_i hroom
    -- nothing was dropped yet
    obtain rfl : rest = [] := List.length_eq_zero_iff.1 (by omega)
    rw [List.append_nil] at hperm
    have hpush := heap.push_perm MinMaxGranuleItem.less item queue
    refine ⟨[], ?_, ?_, fun _ _ _ hz => by cases hz⟩
    · rw [List.append_nil]
      exact ((hperm.append_right [item]).trans List.perm_append_comm).trans hpush.symm
    · rw [hpush.length_eq, List.length_cons, List.length_append, List.length_singleton]
      rw [List.length_nil] at hsizes
      omega
  · rename_i hfull
    have hne : queue ≠ [] := by
      rintro rfl
      exact hfull hn
    have hqueue : ∀ a ∈ queue, a.direction = direction :=
      fun a ha => hdirection a (hperm.mem_iff.2 (List.mem_append_left _ ha))
    obtain ⟨top, others, hpop, hpopPerm, hgreatest⟩ := heap.lawful MinMaxGranuleItem.less (itemKey key) queue hne
      fun a ha b _ => h.less_eq (hqueue a ha)
    have htop : top ∈ queue := hpopPerm.mem_iff.2 List.mem_cons_self
    rw [hpop]
    dsimp only
    have hbetter : (item.direction = 1 ∧ item.minOrMaxValue < top.minOrMaxValue ∨
        item.direction = -1 ∧ top.minOrMaxValue < item.minOrMaxValue) ↔ itemKey key item < itemKey key top := by
      have hiff := h.lt_iff item.minOrMaxValue top.minOrMaxValue
      unfold itemKey
      rw [hitem]
      rcases h.valid with rfl | rfl
      · simpa using hiff
      · simpa using hiff
    split
    · rename_i hlt
      rw [hbetter] at hlt
      have hpush := heap.push_perm MinMaxGranuleItem.less item others
      refine ⟨top :: rest, ?_, ?_, fun y hy z hz => ?_⟩
      · calc (items ++ [item]).Perm (item :: items) := List.perm_append_comm
          List.Perm _ (item :: (top :: others ++ rest)) := (hperm.trans (hpopPerm.append_right rest)).cons item
          List.Perm _ (item :: (others ++ top :: rest)) := List.perm_middle.symm.cons item
          _ = item :: others ++ top :: rest := rfl
          List.Perm _ (heap.push MinMaxGranuleItem.less item others ++ top :: rest) := (hpush.append_right _).symm
      · have hcount := hpopPerm.length_eq
        rw [List.length_cons] at hcount
        rw [hpush.length_eq, List.length_cons, List.length_append, List.length_singleton]
        omega
      · have hbefore : itemKey key y ≤ itemKey key top := by
          rcases List.mem_cons.1 (hpush.mem_iff.1 hy) with rfl | hy
          · exact hlt.le
          · exact hgreatest y (hpopPerm.mem_iff.2 (List.mem_cons_of_mem _ hy))
        rcases List.mem_cons.1 hz with rfl | hz
        · exact hbefore
        · exact hbefore.trans (hle top htop z hz)
    · rename_i hnot
      rw [hbetter, not_lt] at hnot
      refine ⟨item :: rest, ?_, ?_, fun y hy z hz => ?_⟩
      · calc (items ++ [item]).Perm (item :: items) := List.perm_append_comm
          List.Perm _ (item :: (queue ++ rest)) := hperm.cons item
          List.Perm _ (queue ++ item :: rest) := List.perm_middle.symm
      · rw [List.length_append, List.length_singleton]
        omega
      · rcases List.mem_cons.1 hz with rfl | hz
        · exact (hgreatest y hy).trans hnot
        · exact hle y hy z hz

variable (heap)

/-- **The bounded queue keeps a choice of the best items.** -/
theorem foldl_pushBounded_isBest (h : Directs direction key) (hn : 0 < n) {items : List (MinMaxGranuleItem V)}
    (hdirection : ∀ a ∈ items, a.direction = direction) :
    IsBest (itemKey key) n items (items.foldl (pushBounded heap n) []) := by
  induction items using List.reverseRecOn with
  | nil => exact isBest_self (Nat.zero_le n)
  | append_singleton items item ih =>
    rw [List.foldl_append]
    exact pushBounded_isBest h hn (fun a ha => hdirection a (List.mem_append_left _ ha))
      (hdirection item (List.mem_append_right _ List.mem_cons_self)) (ih fun a ha => hdirection a (List.mem_append_left _ ha))

/-! ## With ties -/

theorem takeWithTies_max (minGranulesToSelect : ℕ) (popped : List (MinMaxGranuleItem V)) :
    takeWithTies minGranulesToSelect popped = takeWithTies (max 1 minGranulesToSelect) popped := by
  rcases Nat.eq_zero_or_pos minGranulesToSelect with rfl | hpos
  · cases popped with
    | nil => rfl
    | cons top popped =>
      unfold takeWithTies
      simp
  · rw [max_eq_right hpos]

theorem exists_threshold {minGranulesToSelect : ℕ} (hpos : 0 < minGranulesToSelect) {popped : List (MinMaxGranuleItem V)}
    (hne : popped ≠ []) : ∃ front threshold, popped.take minGranulesToSelect = front ++ [threshold] ∧
      takeWithTies minGranulesToSelect popped = popped.take minGranulesToSelect ++
        (popped.drop minGranulesToSelect).takeWhile fun item => decide (item.minOrMaxValue = threshold.minOrMaxValue) := by
  cases popped with
  | nil => exact absurd rfl hne
  | cons top others =>
    rcases List.eq_nil_or_concat' ((top :: others).take minGranulesToSelect) with hnil | ⟨front, threshold, hselected⟩
    · rw [List.take_eq_nil_iff] at hnil
      rcases hnil with hzero | hnil
      · omega
      · cases hnil
    · refine ⟨front, threshold, hselected, ?_⟩
      unfold takeWithTies
      dsimp only
      rw [hselected, List.getLastD_concat]

/-- **The loops with ties keep the best items and all that tie with them.** -/
theorem takeWithTies_isBest (h : Directs direction key) {minGranulesToSelect : ℕ} (hpos : 0 < minGranulesToSelect)
    {popped : List (MinMaxGranuleItem V)} (hsorted : popped.Pairwise fun a b => itemKey key a ≤ itemKey key b) :
    IsBestWithTies (itemKey key) minGranulesToSelect popped (takeWithTies minGranulesToSelect popped) := by
  by_cases hne : popped = []
  · subst hne
    exact ⟨holdsBest_self _ _ _, fun y hy => absurd hy List.not_mem_nil⟩
  · obtain ⟨front, threshold, hselected, heq⟩ := exists_threshold hpos hne
    rw [heq]
    have hsplit := List.take_append_drop minGranulesToSelect popped
    have happend := List.pairwise_append.1 (hsplit ▸ hsorted)
    have hfront := List.pairwise_append.1 (hselected ▸ happend.1)
    have hthreshold : threshold ∈ popped.take minGranulesToSelect := by
      rw [hselected]
      exact List.mem_append_right _ List.mem_cons_self
    generalize hp : (fun item : MinMaxGranuleItem V => decide (item.minOrMaxValue = threshold.minOrMaxValue)) = p
    have htie : ∀ item, p item = true → itemKey key item = itemKey key threshold := fun item hitem => by
      rw [← hp] at hitem
      exact congrArg key (of_decide_eq_true hitem)
    -- no selected item is after the last one that was popped
    have hle : ∀ y ∈ popped.take minGranulesToSelect ++ (popped.drop minGranulesToSelect).takeWhile p,
        itemKey key y ≤ itemKey key threshold := by
      intro y hy
      rcases List.mem_append.1 hy with hy | hy
      · rw [hselected] at hy
        rcases List.mem_append.1 hy with hy | hy
        · exact hfront.2.2 y hy threshold List.mem_cons_self
        · exact (List.mem_singleton.1 hy ▸ le_rfl)
      · exact (htie y (List.mem_takeWhile_imp hy)).le
    have hafter : ∀ z ∈ (popped.drop minGranulesToSelect).dropWhile p, itemKey key threshold < itemKey key z := by
      intro z hz
      cases hrest : (popped.drop minGranulesToSelect).dropWhile p with
      | nil =>
        rw [hrest] at hz
        cases hz
      | cons w rest =>
        have hw : p w = false := by
          have hhead := List.head?_dropWhile_not p (popped.drop minGranulesToSelect)
          rw [hrest] at hhead
          simpa using hhead
        have hsuffix : (w :: rest).Sublist (popped.drop minGranulesToSelect) := hrest ▸ List.dropWhile_sublist p
        have hne : itemKey key threshold ≠ itemKey key w := fun heq => by
          rw [← hp] at hw
          exact of_decide_eq_false hw (h.injective heq.symm)
        have hlt := lt_of_le_of_ne (happend.2.2 threshold hthreshold w (hsuffix.subset List.mem_cons_self)) hne
        rw [hrest] at hz
        rcases List.mem_cons.1 hz with rfl | hz
        · exact hlt
        · exact lt_of_lt_of_le hlt ((List.pairwise_cons.1 (happend.2.1.sublist hsuffix)).1 z hz)
    refine ⟨⟨(popped.drop minGranulesToSelect).dropWhile p, ?_, ?_, fun y hy z hz => lt_of_le_of_lt (hle y hy) (hafter z hz)⟩,
      fun y hy => ?_⟩
    · rw [List.append_assoc, List.takeWhile_append_dropWhile, hsplit]
    · rcases Nat.lt_or_ge popped.length minGranulesToSelect with hshort | hlong
      · rw [List.drop_of_length_le hshort.le]
        exact Or.inr rfl
      · refine Or.inl ?_
        rw [List.length_append, List.length_take, min_eq_left hlong]
        exact Nat.le_add_right _ _
    · -- only items before the last one that was popped can be better
      have hties : ((popped.drop minGranulesToSelect).takeWhile p).countP
          (fun x => decide (itemKey key x < itemKey key y)) = 0 :=
        List.countP_eq_zero.2 fun x hx => by
          rw [decide_eq_false (not_lt.2 ((htie x (List.mem_takeWhile_imp hx)).symm ▸ hle y hy))]
          decide
      have hless : (popped.take minGranulesToSelect).countP (fun x => decide (itemKey key x < itemKey key y)) <
          (popped.take minGranulesToSelect).length :=
        List.countP_lt_length_iff.2 ⟨threshold, hthreshold, decide_eq_false (not_lt.2 (hle y hy))⟩
      rw [List.countP_append, hties]
      exact lt_of_lt_of_le hless (List.length_take_le _ _)

/-! ## Parts and the whole -/

/-- What is left of an item: its part and its mark. -/
def MinMaxGranuleItem.mark (item : MinMaxGranuleItem V) : ℕ × MinMaxGranule V :=
  (item.partIndex, ⟨item.granuleNum, item.minOrMaxValue⟩)

/-- The key of a mark of a part. -/
def markKey (key : V → κ) (mark : ℕ × MinMaxGranule V) : κ := key mark.2.minOrMaxValue

theorem drain_pushAll (h : Directs direction key) (items : List (MinMaxGranuleItem V)) :
    let queue := heap.pushAll MinMaxGranuleItem.less (items.map fun item => { item with direction := -direction })
    ((heap.drain MinMaxGranuleItem.less queue.length queue).map MinMaxGranuleItem.mark).Perm
        (items.map MinMaxGranuleItem.mark) ∧
      (heap.drain MinMaxGranuleItem.less queue.length queue).Pairwise fun a b => itemKey key a ≤ itemKey key b := by
  intro queue
  have hqueue : queue.Perm (items.map fun item => { item with direction := -direction }) := StdHeap.pushAll_perm
  have hdirection : ∀ a ∈ queue, a.direction = -direction := fun a ha => by
    obtain ⟨item, -, rfl⟩ := List.mem_map.1 (hqueue.mem_iff.1 ha)
    rfl
  obtain ⟨hperm, hsorted⟩ := heap.drain_spec (fun a => OrderDual.toDual (itemKey key a))
    fun a ha b _ => h.less_neg_eq (b := b) (hdirection a ha)
  refine ⟨?_, hsorted.imp fun hle => OrderDual.toDual_le_toDual.1 hle⟩
  have hmarks := (hperm.trans hqueue).map MinMaxGranuleItem.mark
  rwa [List.map_map] at hmarks

theorem selectItems_isBest (h : Directs direction key) (hn : 0 < n) (indexGranularity : ℕ) (items : List (MinMaxGranuleItem V)) :
    IsBest (markKey key) n (items.map MinMaxGranuleItem.mark)
      ((selectItems heap direction n indexGranularity false items).map MinMaxGranuleItem.mark) := by
  have hdirection : ∀ a ∈ items.map (fun item => ({ item with direction } : MinMaxGranuleItem V)), a.direction = direction :=
    fun a ha => by
      obtain ⟨item, -, rfl⟩ := List.mem_map.1 ha
      rfl
  have hbest := foldl_pushBounded_isBest heap h hn hdirection
  obtain ⟨hperm, -⟩ := heap.drain_spec (itemKey key)
    fun a ha b _ => h.less_eq (b := b) (hdirection a (hbest.subset ha))
  have hmap := (hbest.perm_right hperm).map (markKey key) MinMaxGranuleItem.mark
  rwa [List.map_map] at hmap

theorem selectItems_isBestWithTies (h : Directs direction key) (indexGranularity : ℕ) (items : List (MinMaxGranuleItem V)) :
    IsBestWithTies (markKey key) (max 1 (mulSize n indexGranularity)) (items.map MinMaxGranuleItem.mark)
      ((selectItems heap direction n indexGranularity true items).map MinMaxGranuleItem.mark) := by
  obtain ⟨hperm, hsorted⟩ := drain_pushAll heap h items
  unfold selectItems
  rw [if_pos rfl]
  dsimp only
  rw [takeWithTies_max]
  exact ((takeWithTies_isBest h (Nat.one_pos.trans_le (le_max_left _ _)) hsorted).map (markKey key) MinMaxGranuleItem.mark).perm hperm.symm

theorem selectItems_subset (h : Directs direction key) (hn : 0 < n) (indexGranularity : ℕ) (handleTies : Bool)
    (items : List (MinMaxGranuleItem V)) :
    (selectItems heap direction n indexGranularity handleTies items).map MinMaxGranuleItem.mark ⊆ items.map MinMaxGranuleItem.mark := by
  cases handleTies with
  | false => exact (selectItems_isBest heap h hn indexGranularity items).subset
  | true =>
    obtain ⟨hperm, -⟩ := drain_pushAll heap h items
    refine List.Subset.trans (List.map_subset _ ?_) hperm.subset
    unfold selectItems takeWithTies
    rw [if_pos rfl]
    dsimp only
    split
    · exact List.nil_subset _
    · rename_i top others hpopped
      rw [hpopped]
      exact List.append_subset.2 ⟨List.take_subset _ _, List.Subset.trans (List.takeWhile_subset _) (List.drop_subset _ _)⟩

/-- The key of a granule. -/
def granuleKey (key : V → κ) (granule : MinMaxGranule V) : κ := key granule.minOrMaxValue

theorem getTopKMarksOfPart_isBest (h : Directs direction key) (hn : 0 < n) (indexGranularity : ℕ)
    (granules : List (MinMaxGranule V)) :
    IsBest (granuleKey key) n granules (getTopKMarksOfPart heap direction indexGranularity n false granules) := by
  unfold getTopKMarksOfPart
  rw [if_neg hn.ne']
  split
  · exact isBest_self ‹_›
  · have hbest := (selectItems_isBest heap h hn indexGranularity
      (granules.map fun granule => ⟨direction, 0, granule.granuleNum, granule.minOrMaxValue⟩)).map (granuleKey key) Prod.snd
    simpa [List.map_map, Function.comp_def, MinMaxGranuleItem.mark] using hbest

theorem getTopKMarksOfPart_holdsBest (h : Directs direction key) (hn : 0 < n) (indexGranularity : ℕ)
    (granules : List (MinMaxGranule V)) :
    HoldsBest (granuleKey key) (max 1 (mulSize n indexGranularity)) granules
      (getTopKMarksOfPart heap direction indexGranularity n true granules) := by
  unfold getTopKMarksOfPart
  rw [if_neg hn.ne']
  split
  · exact holdsBest_self _ _ _
  · have hbest := (selectItems_isBestWithTies (n := n) heap h indexGranularity
      (granules.map fun granule => ⟨direction, 0, granule.granuleNum, granule.minOrMaxValue⟩)).1.map (granuleKey key) Prod.snd
    simpa [List.map_map, Function.comp_def, MinMaxGranuleItem.mark] using hbest

theorem getTopKMarksOfPart_subset (h : Directs direction key) (hn : 0 < n) (indexGranularity : ℕ) (handleTies : Bool)
    (granules : List (MinMaxGranule V)) :
    getTopKMarksOfPart heap direction indexGranularity n handleTies granules ⊆ granules := by
  unfold getTopKMarksOfPart
  rw [if_neg hn.ne']
  split
  · exact List.Subset.refl _
  · have hsubset := List.map_subset Prod.snd (selectItems_subset heap h hn indexGranularity handleTies
      (granules.map fun granule => ⟨direction, 0, granule.granuleNum, granule.minOrMaxValue⟩))
    simpa [List.map_map, Function.comp_def, MinMaxGranuleItem.mark] using hsubset

variable {heap}

/-- The granules of all parts, with their parts. -/
def taggedGranules (parts : List (List (MinMaxGranule V))) : List (ℕ × MinMaxGranule V) :=
  parts.zipIdx.flatMap fun (granules, partIndex) => granules.map (Prod.mk partIndex)

/-- What is returned for marks that were selected: these and no others, in sorted and disjoint ranges if no mark was
selected twice. -/
structure ReturnsMarks (selected : List (ℕ × MinMaxGranule V)) (returned : List MarkRanges) : Prop where
  covers_iff : ∀ partIndex m, (∃ ranges, returned[partIndex]? = some ranges ∧ ranges.Covers m) ↔
    (partIndex, m) ∈ selected.map fun x => (x.1, x.2.granuleNum)
  sorted_iff : (∀ ranges ∈ returned, ranges.SortedDisjoint) ↔ (selected.map fun x => (x.1, x.2.granuleNum)).Nodup

omit [LinearOrder V] in
theorem map_mark_items (direction : ℤ) (parts : List (List (MinMaxGranule V))) :
    (parts.zipIdx.flatMap fun (granules, partIndex) => granules.map fun granule =>
      (⟨direction, partIndex, granule.granuleNum, granule.minOrMaxValue⟩ : MinMaxGranuleItem V)).map MinMaxGranuleItem.mark =
      taggedGranules parts := by
  unfold taggedGranules
  rw [List.map_flatMap]
  refine List.flatMap_congr fun x _ => ?_
  rw [List.map_map]
  rfl

theorem sort_singleMarks (std : StdSort) {marks : List ℕ} (hfits : ∀ m ∈ marks, m + 1 < 2 ^ 64) :
    let ranges := std.sort (fun a b : MarkRange => decide (a.beginMark < b.beginMark ∧ a.endMark ≤ b.beginMark))
      (marks.map fun m => ⟨m, addSize m 1⟩)
    (∀ m, MarkRanges.Covers ranges m ↔ m ∈ marks) ∧ (MarkRanges.SortedDisjoint ranges ↔ marks.Nodup) := by
  intro ranges
  have hshape : ∀ range ∈ marks.map (fun m => (⟨m, addSize m 1⟩ : MarkRange)), range.endMark = range.beginMark + 1 := by
    intro range hrange
    obtain ⟨m, hm, rfl⟩ := List.mem_map.1 hrange
    exact addSize_of_lt (hfits m hm)
  have hless : ∀ a ∈ marks.map (fun m => (⟨m, addSize m 1⟩ : MarkRange)), ∀ b ∈ marks.map (fun m => (⟨m, addSize m 1⟩ : MarkRange)),
      decide (a.beginMark < b.beginMark ∧ a.endMark ≤ b.beginMark) = decide (a.beginMark < b.beginMark) := by
    intro a ha b _
    rw [decide_eq_decide, hshape a ha]
    omega
  have hperm := std.perm hless
  have hsorted := std.sorted hless
  have hbegins : (ranges.map MarkRange.beginMark).Nodup ↔ marks.Nodup := by
    rw [(hperm.map MarkRange.beginMark).nodup_iff, List.map_map]
    exact iff_of_eq (congrArg List.Nodup (List.map_id marks))
  refine ⟨fun m => ⟨?_, fun hm => ⟨⟨m, addSize m 1⟩, hperm.mem_iff.2 (List.mem_map_of_mem hm), le_rfl, ?_⟩⟩, ?_⟩
  · rintro ⟨range, hrange, hbegin, hend⟩
    have hmem := hperm.mem_iff.1 hrange
    have hone := hshape range hmem
    obtain ⟨k, hk, rfl⟩ := List.mem_map.1 hmem
    dsimp only at hbegin hend hone
    rwa [show m = k by omega]
  · rw [addSize_of_lt (hfits m hm)]
    exact Nat.lt_succ_self m
  rw [← hbegins]
  constructor
  · rintro ⟨-, hdisjoint⟩
    refine List.pairwise_map.2 (hdisjoint.imp_of_mem fun {a b} ha _ hab => ?_)
    rw [hshape a (hperm.mem_iff.1 ha)] at hab
    exact (Nat.lt_of_succ_le hab).ne
  · intro hnodup
    refine ⟨fun range hrange => ?_, (hsorted.and (List.pairwise_map.1 hnodup)).imp_of_mem fun {a b} ha _ hab => ?_⟩
    · rw [hshape range (hperm.mem_iff.1 hrange)]
      exact Nat.le_succ _
    · rw [hshape a (hperm.mem_iff.1 ha)]
      exact lt_of_le_of_ne hab.1 hab.2

/-- Pairs are different exactly when those with the same first part differ in the second. -/
theorem nodup_pairs_iff {B : Type} {f : B → ℕ × ℕ} {l : List B} :
    (l.map f).Nodup ↔ ∀ i, ((l.filter fun x => (f x).1 = i).map fun x => (f x).2).Nodup := by
  have hcount : ∀ i m, (l.map f).count (i, m) = ((l.filter fun x => (f x).1 = i).map fun x => (f x).2).count m := by
    intro i m
    rw [List.count_eq_countP, List.count_eq_countP, List.countP_map, List.countP_map, List.countP_filter]
    refine List.countP_congr fun x _ => ?_
    simp [Prod.ext_iff, and_comm]
  simp only [List.nodup_iff_count_le_one, Prod.forall, hcount]

theorem nodup_filter_iff {l : List ℕ} {p : ℕ → Bool} : (l.filter p).Nodup ↔ ∀ i ∈ l, 1 < l.count i → ¬p i = true := by
  rw [List.nodup_iff_count_le_one]
  refine forall_congr' fun i => ?_
  by_cases hp : p i = true
  · rw [List.count_filter hp]
    constructor
    · intro hle _ hlt
      omega
    · intro hno
      by_contra hlt
      exact hno (List.count_pos_iff.1 (by omega)) (not_le.1 hlt) hp
  · rw [List.count_eq_zero.2 fun hmem => hp (List.mem_filter.1 hmem).2]
    exact iff_of_true (Nat.zero_le 1) fun _ _ => hp

theorem getTopKMarks_returns (std : StdSort) (hn : 0 < n) {indexGranularity : ℕ} {handleTies : Bool}
    {parts : List (List (MinMaxGranule V))} (hfits : ∀ granules ∈ parts, ∀ granule ∈ granules, granule.granuleNum + 1 < 2 ^ 64)
    {items : List (MinMaxGranuleItem V)}
    (hitems : items = parts.zipIdx.flatMap fun (granules, partIndex) => granules.map fun granule =>
      ⟨direction, partIndex, granule.granuleNum, granule.minOrMaxValue⟩)
    (hsubset : (selectItems heap direction n indexGranularity handleTies items).map MinMaxGranuleItem.mark ⊆ taggedGranules parts) :
    ReturnsMarks ((selectItems heap direction n indexGranularity handleTies items).map MinMaxGranuleItem.mark)
      (getTopKMarks heap std direction n indexGranularity handleTies parts) := by
  unfold getTopKMarks
  rw [if_neg hn.ne', ← hitems]
  dsimp only
  generalize selectItems heap direction n indexGranularity handleTies items = selected at *
  have hin : ∀ item ∈ selected, item.partIndex < parts.length ∧ item.granuleNum + 1 < 2 ^ 64 := by
    intro item hitem
    obtain ⟨⟨granules, partIndex⟩, hpart, hgranule⟩ := List.mem_flatMap.1 (hsubset (List.mem_map_of_mem hitem))
    obtain ⟨granule, hgranule, heq⟩ := List.mem_map.1 hgranule
    obtain ⟨hindex, hnum⟩ := Prod.mk.inj heq
    have hget := List.mem_zipIdx_iff_getElem?.1 hpart
    have hlt := (List.getElem?_eq_some_iff.1 hget).1
    refine ⟨hindex ▸ hlt, ?_⟩
    rw [show item.granuleNum = granule.granuleNum from (congrArg MinMaxGranule.granuleNum hnum).symm]
    exact hfits granules (List.mem_of_getElem? hget) granule hgranule
  have hpairs : (selected.map MinMaxGranuleItem.mark).map (fun x => (x.1, x.2.granuleNum)) =
      selected.map fun item => (item.partIndex, item.granuleNum) := by rw [List.map_map]; rfl
  by_cases hempty : items = []
  · have hnone : selected = [] := by
      have hmarks := map_mark_items direction parts
      rw [← hitems, hempty, List.map_nil] at hmarks
      rw [← hmarks, List.subset_nil, List.map_eq_nil_iff] at hsubset
      exact hsubset
    rw [hempty, hnone]
    exact ⟨by simp, by simp⟩
  rw [List.isEmpty_eq_false_iff.2 hempty, if_neg Bool.false_ne_true]
  have hmarks : ∀ partIndex, ((selected.filter fun item => item.partIndex = partIndex).map fun item =>
      (⟨item.granuleNum, addSize item.granuleNum 1⟩ : MarkRange)) =
      ((selected.filter fun item => item.partIndex = partIndex).map MinMaxGranuleItem.granuleNum).map
        fun m => ⟨m, addSize m 1⟩ := fun partIndex => by rw [List.map_map]; rfl
  have hsmall : ∀ partIndex,
      ∀ m ∈ (selected.filter fun item => item.partIndex = partIndex).map MinMaxGranuleItem.granuleNum, m + 1 < 2 ^ 64 := by
    intro partIndex m hm
    obtain ⟨item, hitem, rfl⟩ := List.mem_map.1 hm
    exact (hin item (List.mem_of_mem_filter hitem)).2
  have hsort := fun partIndex => sort_singleMarks std (hsmall partIndex)
  simp only [hmarks]
  have hfilter : ∀ partIndex m, m ∈ (selected.filter fun item => item.partIndex = partIndex).map MinMaxGranuleItem.granuleNum ↔
      (partIndex, m) ∈ selected.map fun item => (item.partIndex, item.granuleNum) := by
    intro partIndex m
    simp [and_assoc]
  constructor
  · intro partIndex m
    rw [hpairs]
    constructor
    · rintro ⟨ranges, hranges, hcovers⟩
      rw [List.getElem?_map] at hranges
      obtain ⟨i, hi, rfl⟩ := Option.map_eq_some_iff.1 hranges
      obtain ⟨hlt, heq⟩ := List.getElem?_eq_some_iff.1 hi
      rw [List.getElem_range] at heq
      subst heq
      exact (hfilter _ _).1 (((hsort partIndex).1 m).1 hcovers)
    · intro hm
      obtain ⟨item, hitem, heq⟩ := List.mem_map.1 hm
      obtain ⟨rfl, rfl⟩ := Prod.mk.inj heq
      refine ⟨_, ?_, ((hsort item.partIndex).1 _).2 ((hfilter _ _).2 hm)⟩
      rw [List.getElem?_map, List.getElem?_range (hin item hitem).1]
      rfl
  · rw [hpairs, nodup_pairs_iff]
    constructor
    · intro hall partIndex
      by_cases hlt : partIndex < parts.length
      · exact (hsort partIndex).2.1 (hall _ (List.mem_map.2 ⟨partIndex, List.mem_range.2 hlt, rfl⟩))
      · rw [List.filter_eq_nil_iff.2 fun item hitem => ?_]
        · exact List.nodup_nil
        · rw [decide_eq_true_iff]
          rintro rfl
          exact hlt (hin item hitem).1
    · intro hnodup ranges hranges
      obtain ⟨partIndex, -, rfl⟩ := List.mem_map.1 hranges
      exact (hsort partIndex).2.2 (hnodup partIndex)

/-! ## Reading -/

section Reading

variable {part : TopKPart V} {g : ℕ}

omit [LinearOrder V] in
theorem mem_indexMarks_iff {range : MarkRange} (hg : 0 < g) (hfits : range.endMark + g < 2 ^ 64) {i : ℕ} :
    i ∈ range.indexMarks g ↔ range.beginMark / g ≤ i ∧ i * g < range.endMark := by
  unfold MarkRange.indexMarks MarkRange.indexRange
  dsimp only
  rw [addSize_of_lt hfits, subSize_of_le (by omega) (by omega), List.mem_range'_1]
  have hceil : i < (range.endMark + g - 1) / g ↔ i * g < range.endMark := by
    rw [Nat.lt_div_iff_mul_lt hg]
    omega
  rw [← hceil]
  omega

theorem TopKPart.WellFormed.indexMark_lt (hwell : part.WellFormed g) (hg : 0 < g) {i : ℕ} (hi : i ∈ part.indexMarks g) :
    i * g < part.marks.length := by
  obtain ⟨range, hrange, hi⟩ := List.mem_flatMap.1 hi
  have hend := hwell.inPart range hrange
  have hfits := hwell.fits
  exact lt_of_lt_of_le ((mem_indexMarks_iff hg (by omega)).1 hi).2 hend

omit [LinearOrder V] in
theorem takeWhile_range' (bound : ℕ) : ∀ (k start : ℕ),
    (List.range' start k).takeWhile (fun m => decide (m < bound)) = List.range' start (min k (bound - start)) := by
  intro k
  induction k with
  | zero =>
    intro start
    rw [Nat.zero_min]
    rfl
  | succ k ih =>
    intro start
    rw [List.range'_succ]
    rcases Nat.lt_or_ge start bound with hlt | hge
    · rw [List.takeWhile_cons, if_pos (decide_eq_true hlt), ih, show min (k + 1) (bound - start) = min k (bound - (start + 1)) + 1 by omega,
        List.range'_succ]
    · rw [List.takeWhile_cons, if_neg (by simpa using hge), show min (k + 1) (bound - start) = 0 by omega]
      rfl

theorem deserializeMinMax_eq (hwell : part.WellFormed g) (direction : ℤ) {i : ℕ} (hi : i * g < part.marks.length) :
    deserializeMinMax direction g part.marks.length i (part.stored i) =
      (part.granuleMarks g i).map fun m => ⟨m, part.extreme direction i⟩ := by
  have hfits := hwell.fits
  have hmarks : (List.range g).map (fun k => addSize (mulSize i g) k) = List.range' (i * g) g := by
    rw [List.range'_eq_map_range]
    refine List.map_congr_left fun k hk => ?_
    have hk := List.mem_range.1 hk
    rw [mulSize_of_lt (by omega), addSize_of_lt (by omega)]
  unfold deserializeMinMax TopKPart.granuleMarks
  dsimp only
  rw [hmarks, takeWhile_range']
  rfl

/-- **What is read**: the marks of the index granules, with the extremes of these. -/
theorem getMinMaxIndexGranules_eq (hwell : part.WellFormed g) (hg : 0 < g) (direction : ℤ) :
    getMinMaxIndexGranules direction g part =
      (part.indexMarks g).flatMap fun i => (part.granuleMarks g i).map fun m => ⟨m, part.extreme direction i⟩ := by
  unfold getMinMaxIndexGranules
  rw [← List.flatMap_eq_foldl]
  exact List.flatMap_congr fun i hi => deserializeMinMax_eq hwell direction (hwell.indexMark_lt hg hi)

omit [LinearOrder V] in
theorem mem_granuleMarks {i m : ℕ} (hg : 0 < g) : m ∈ part.granuleMarks g i ↔ m / g = i ∧ m < part.marks.length := by
  unfold TopKPart.granuleMarks
  rw [List.mem_range'_1]
  have hdiv : m / g = i ↔ i * g ≤ m ∧ m < i * g + g := by
    rw [Nat.div_eq_iff hg]
    omega
  rw [hdiv]
  omega

theorem TopKPart.WellFormed.covers (hwell : part.WellFormed g) (hg : 0 < g) {m : ℕ} (hm : part.ranges.Covers m) :
    m / g ∈ part.indexMarks g ∧ m ∈ part.granuleMarks g (m / g) := by
  obtain ⟨range, hrange, hbegin, hend⟩ := hm
  have hpart := hwell.inPart range hrange
  have hfits := hwell.fits
  refine ⟨List.mem_flatMap.2 ⟨range, hrange, (mem_indexMarks_iff hg (by omega)).2 ⟨Nat.div_le_div_right hbegin, ?_⟩⟩,
    (mem_granuleMarks hg).2 ⟨rfl, by omega⟩⟩
  exact lt_of_le_of_lt (Nat.div_mul_le_self m g) hend

/-- Every index granule that is read is in the ranges. -/
def TopKPart.Aligned (part : TopKPart V) (g : ℕ) : Prop :=
  ∀ i ∈ part.indexMarks g, ∀ m ∈ part.granuleMarks g i, part.ranges.Covers m

theorem TopKPart.Single.aligned (hsingle : part.Single g) (hwell : part.WellFormed g) (hg : 0 < g) : part.Aligned g := by
  intro i hi m hm
  obtain ⟨range, hrange, hirange⟩ := List.mem_flatMap.1 hi
  have hpart := hwell.inPart range hrange
  have hfits := hwell.fits
  have hnonempty := hwell.sorted.nonempty range hrange
  obtain ⟨hbegin, hend⟩ := (mem_indexMarks_iff hg (by omega)).1 hirange
  -- the first mark of the range in the index granule
  have hfirst : max range.beginMark (i * g) ∈ part.granuleMarks g i := by
    refine (mem_granuleMarks hg).2 ⟨?_, by omega⟩
    rw [Nat.div_eq_iff hg]
    have := Nat.lt_mul_of_div_lt (Nat.lt_succ_of_le hbegin) hg
    rw [Nat.succ_mul] at this
    omega
  have heq : m = max range.beginMark (i * g) := by
    have hlength := hsingle i hi
    match hmarks : part.granuleMarks g i with
    | [] =>
      rw [hmarks] at hm
      cases hm
    | [k] =>
      rw [hmarks] at hm hfirst
      rw [List.mem_singleton.1 hm, List.mem_singleton.1 hfirst]
    | k :: k' :: rest =>
      rw [hmarks] at hlength
      simp at hlength
  exact ⟨range, hrange, by omega, by omega⟩

theorem TopKPart.WellFormed.nodup_granuleMarks_iff (hwell : part.WellFormed g) (hg : 0 < g) {indexMarks : List ℕ}
    (hread : indexMarks ⊆ part.indexMarks g) : (indexMarks.flatMap (part.granuleMarks g)).Nodup ↔ indexMarks.Nodup := by
  rw [List.nodup_flatMap]
  constructor
  · rintro ⟨-, hdisjoint⟩
    refine hdisjoint.imp_of_mem fun {i j} hi _ hij heq => ?_
    have hfirst : i * g ∈ part.granuleMarks g i :=
      (mem_granuleMarks hg).2 ⟨Nat.mul_div_cancel i hg, hwell.indexMark_lt hg (hread hi)⟩
    exact hij hfirst (heq ▸ hfirst)
  · intro h
    refine ⟨fun i _ => List.nodup_range', h.imp fun {i j} hij m hm hm' => hij ?_⟩
    exact ((mem_granuleMarks hg).1 hm).1.symm.trans ((mem_granuleMarks hg).1 hm').1

/-- **If every index granule is read once and is in the ranges, what is read are the marks of the ranges.** -/
theorem TopKPart.WellFormed.marks_perm (hwell : part.WellFormed g) (hg : 0 < g) (honce : part.ReadOnce g) (haligned : part.Aligned g) :
    part.ranges.marks.Perm ((part.indexMarks g).flatMap (part.granuleMarks g)) := by
  have hdisjoint : part.ranges.SortedDisjoint := ⟨fun range hrange => (hwell.sorted.nonempty range hrange).le, hwell.sorted.sorted⟩
  refine (List.perm_ext_iff_of_nodup (hdisjoint.pairwise_marks.imp fun h => h.ne) 
    ((hwell.nodup_granuleMarks_iff hg (List.Subset.refl _)).2 honce)).2 fun m => ?_
  rw [MarkRanges.mem_marks, List.mem_flatMap]
  exact ⟨fun hm => ⟨_, hwell.covers hg hm⟩, fun ⟨i, hi, hm⟩ => haligned i hi m hm⟩

end Reading

/-! ## Rows -/

section Rows

variable {parts : List (TopKPart V)} {g : ℕ}

/-- The index granules that are read, with their parts. -/
def indexGranules (g : ℕ) (parts : List (TopKPart V)) : List ((TopKPart V × ℕ) × ℕ) :=
  parts.zipIdx.flatMap fun x => (x.1.indexMarks g).map (Prod.mk x)

/-- The marks of an index granule, with its extreme. -/
def granuleItems (direction : ℤ) (g : ℕ) (x : (TopKPart V × ℕ) × ℕ) : List (ℕ × MinMaxGranule V) :=
  (x.1.1.granuleMarks g x.2).map fun m => (x.1.2, ⟨m, x.1.1.extreme direction x.2⟩)

/-- The rows of an index granule. -/
def indexGranuleRows (g : ℕ) (x : (TopKPart V × ℕ) × ℕ) : List (TopKRow V) :=
  (x.1.1.granuleMarks g x.2).flatMap fun m => x.1.1.rowsOfMark x.1.2 m

theorem taggedGranules_eq (hwell : ∀ part ∈ parts, part.WellFormed g) (hg : 0 < g) (direction : ℤ) :
    taggedGranules (parts.map (getMinMaxIndexGranules direction g)) = (indexGranules g parts).flatMap (granuleItems direction g) := by
  unfold taggedGranules indexGranules
  rw [List.zipIdx_map, List.flatMap_map, List.flatMap_assoc]
  refine List.flatMap_congr fun ⟨part, partIndex⟩ hx => ?_
  have hpart := hwell part (List.mem_of_getElem? (List.mem_zipIdx_iff_getElem?.1 hx))
  rw [List.flatMap_map]
  change (getMinMaxIndexGranules direction g part).map (Prod.mk partIndex) = _
  rw [getMinMaxIndexGranules_eq hpart hg, List.map_flatMap]
  refine List.flatMap_congr fun i _ => ?_
  rw [List.map_map]
  rfl

theorem rowsOfRanges_perm (hwell : ∀ part ∈ parts, part.WellFormed g) (hg : 0 < g) (honce : ∀ part ∈ parts, part.ReadOnce g)
    (haligned : ∀ part ∈ parts, part.Aligned g) :
    (rowsOfRanges parts).Perm ((indexGranules g parts).flatMap (indexGranuleRows g)) := by
  unfold rowsOfRanges indexGranules
  rw [List.flatMap_assoc]
  refine List.Perm.flatMap_left _ fun x hx => ?_
  have hmem := List.mem_of_getElem? (List.mem_zipIdx_iff_getElem?.1 hx)
  rw [List.flatMap_map]
  have hperm := ((hwell x.1 hmem).marks_perm hg (honce x.1 hmem) (haligned x.1 hmem)).flatMap_right fun m => x.1.rowsOfMark x.2 m
  rw [List.flatMap_assoc] at hperm
  exact hperm

theorem indexGranuleRows_extreme (h : Directs direction key) (hwell : ∀ part ∈ parts, part.WellFormed g) (hg : 0 < g)
    {x : (TopKPart V × ℕ) × ℕ} (hx : x ∈ indexGranules g parts) :
    (∃ r ∈ indexGranuleRows g x, key r.value = key (x.1.1.extreme direction x.2)) ∧
      ∀ r ∈ indexGranuleRows g x, key (x.1.1.extreme direction x.2) ≤ key r.value := by
  obtain ⟨⟨part, partIndex⟩, hpart, hmap⟩ := List.mem_flatMap.1 hx
  obtain ⟨i, hi, rfl⟩ := List.mem_map.1 hmap
  have hwell := hwell part (List.mem_of_getElem? (List.mem_zipIdx_iff_getElem?.1 hpart))
  have hlt := hwell.indexMark_lt hg hi
  have hbest : (∃ mark ∈ part.granuleMarks g i, part.extreme direction i ∈ part.marks.getD mark []) ∧
      ∀ mark ∈ part.granuleMarks g i, ∀ v ∈ part.marks.getD mark [], NotWorse direction (part.extreme direction i) v := by
    unfold TopKPart.extreme NotWorse
    split
    · exact hwell.minimum i hlt
    · exact hwell.maximum i hlt
  obtain ⟨⟨mark, hmark, hvalue⟩, hle⟩ := hbest
  refine ⟨⟨⟨partIndex, mark, part.extreme direction i⟩, ?_, rfl⟩, fun r hr => ?_⟩
  · exact List.mem_flatMap.2 ⟨mark, hmark, List.mem_map_of_mem hvalue⟩
  · obtain ⟨mark', hmark', hr⟩ := List.mem_flatMap.1 hr
    obtain ⟨v, hv, rfl⟩ := List.mem_map.1 hr
    exact h.notWorse_iff.1 (hle mark' hmark' v hv)

omit [LinearOrder V] in
theorem map_items (direction : ℤ) (g : ℕ) (parts : List (TopKPart V)) :
    ((indexGranules g parts).flatMap (granuleItems direction g)).map (fun x => x.2.minOrMaxValue) =
      extremesRead direction g parts := by
  unfold indexGranules granuleItems extremesRead
  have hparts : parts = parts.zipIdx.map Prod.fst := (List.zipIdx_map_fst 0 parts).symm
  conv_rhs => rw [hparts]
  rw [List.flatMap_assoc, List.map_flatMap, List.flatMap_map]
  refine List.flatMap_congr fun x _ => ?_
  simp only [List.flatMap_map, List.map_flatMap, List.map_map]
  rfl

theorem betterRead_eq (h : Directs direction key) (g : ℕ) (parts : List (TopKPart V)) (value : V) :
    betterRead direction g parts value =
      ((indexGranules g parts).flatMap (granuleItems direction g)).countP fun y => decide (markKey key y < key value) := by
  unfold betterRead
  rw [← map_items, List.countP_map]
  refine List.countP_congr fun y _ => ?_
  rw [Function.comp_apply, Bool.not_eq_true', decide_eq_false_iff_not, decide_eq_true_iff, h.notWorse_iff, not_le]
  rfl

omit [LinearOrder V] in
theorem map_filter_granuleItems (direction : ℤ) (keep : V → Bool) (x : TopKPart V × ℕ) (indexMarks : List ℕ) :
    ((indexMarks.map (Prod.mk x)).flatMap fun y => (granuleItems direction g y).filter fun z => keep z.2.minOrMaxValue).map
        (fun z => (z.1, z.2.granuleNum)) =
      ((indexMarks.filter fun i => keep (x.1.extreme direction i)).flatMap (x.1.granuleMarks g)).map (Prod.mk x.2) := by
  induction indexMarks with
  | nil => rfl
  | cons i indexMarks ih =>
    rw [List.map_cons, List.flatMap_cons, List.map_append, ih, List.filter_cons]
    -- all items of an index granule have its stored extreme: they are kept together or not at all
    have hvalue : ∀ z ∈ granuleItems direction g (x, i), z.2.minOrMaxValue = x.1.extreme direction i := by
      intro z hz
      obtain ⟨m, -, rfl⟩ := List.mem_map.1 hz
      rfl
    by_cases hkeep : keep (x.1.extreme direction i) = true
    · rw [if_pos hkeep, List.flatMap_cons, List.map_append, List.filter_eq_self.2 fun z hz => by rwa [hvalue z hz]]
      unfold granuleItems
      rw [List.map_map]
      rfl
    · rw [if_neg hkeep, List.filter_eq_nil_iff.2 fun z hz => by rwa [hvalue z hz]]
      rfl

/-- **Marks that are kept by their extremes are different** exactly when every index granule that is kept is read once. -/
theorem nodup_items_iff (hwell : ∀ part ∈ parts, part.WellFormed g) (hg : 0 < g) (direction : ℤ) (keep : V → Bool) :
    ((((indexGranules g parts).flatMap (granuleItems direction g)).filter fun x => keep x.2.minOrMaxValue).map
      fun x => (x.1, x.2.granuleNum)).Nodup ↔
      ∀ part ∈ parts, ((part.indexMarks g).filter fun i => keep (part.extreme direction i)).Nodup := by
  have heq : ((((indexGranules g parts).flatMap (granuleItems direction g)).filter fun x => keep x.2.minOrMaxValue).map
      fun x => (x.1, x.2.granuleNum)) = parts.zipIdx.flatMap fun x =>
        (((x.1.indexMarks g).filter fun i => keep (x.1.extreme direction i)).flatMap (x.1.granuleMarks g)).map (Prod.mk x.2) := by
    unfold indexGranules
    rw [List.filter_flatMap, List.flatMap_assoc, List.map_flatMap]
    exact List.flatMap_congr fun x _ => map_filter_granuleItems direction keep x _
  rw [heq, List.nodup_flatMap, and_iff_left]
  · have hpart : ∀ x ∈ parts.zipIdx,
        ((((x.1.indexMarks g).filter fun i => keep (x.1.extreme direction i)).flatMap (x.1.granuleMarks g)).map (Prod.mk x.2)).Nodup ↔
          ((x.1.indexMarks g).filter fun i => keep (x.1.extreme direction i)).Nodup := by
      intro x hx
      have hwell := hwell x.1 (List.mem_of_getElem? (List.mem_zipIdx_iff_getElem?.1 hx))
      rw [List.nodup_map_iff fun _ _ hab => (Prod.mk.inj hab).2]
      exact hwell.nodup_granuleMarks_iff hg List.filter_sublist.subset
    constructor
    · intro hall part hmem
      obtain ⟨i, hi⟩ := List.mem_iff_getElem?.1 hmem
      have hx : (part, i) ∈ parts.zipIdx := List.mem_zipIdx_iff_getElem?.2 hi
      exact (hpart _ hx).1 (hall _ hx)
    · intro hall x hx
      exact (hpart x hx).2 (hall x.1 (List.mem_of_getElem? (List.mem_zipIdx_iff_getElem?.1 hx)))
  · -- items of two parts differ in the index of their part
    have hindices : (parts.zipIdx.map Prod.snd).Nodup := by
      rw [List.zipIdx_map_snd]
      exact List.nodup_range'
    refine (List.pairwise_map.1 hindices).imp fun {x y} hxy a ha hb => hxy ?_
    obtain ⟨_, -, rfl⟩ := List.mem_map.1 ha
    obtain ⟨_, -, hy⟩ := List.mem_map.1 hb
    exact (Prod.mk.inj hy).1.symm

theorem mem_items_iff (hwell : ∀ part ∈ parts, part.WellFormed g) (hg : 0 < g) (direction : ℤ) (keep : V → Bool)
    {x : TopKPart V × ℕ} (hx : x ∈ parts.zipIdx) {m : ℕ} (hm : m ∈ x.1.ranges.marks) :
    (x.2, m) ∈ (((indexGranules g parts).flatMap (granuleItems direction g)).filter fun x => keep x.2.minOrMaxValue).map
      (fun x => (x.1, x.2.granuleNum)) ↔ keep (x.1.extreme direction (m / g)) = true := by
  rw [List.mem_map]
  constructor
  · rintro ⟨item, hitem, heq⟩
    obtain ⟨hitem, hkeep⟩ := List.mem_filter.1 hitem
    obtain ⟨y, hy, hitem⟩ := List.mem_flatMap.1 hitem
    obtain ⟨z, hz, hmap⟩ := List.mem_flatMap.1 hy
    obtain ⟨i, -, rfl⟩ := List.mem_map.1 hmap
    obtain ⟨k, hk, rfl⟩ := List.mem_map.1 hitem
    obtain ⟨hindex, rfl⟩ := Prod.mk.inj heq
    have hzx : z = x := by
      have hget := List.mem_zipIdx_iff_getElem?.1 hx
      rw [← hindex, List.mem_zipIdx_iff_getElem?.1 hz] at hget
      exact Prod.ext (Option.some.inj hget) hindex
    subst hzx
    rw [((mem_granuleMarks hg).1 hk).1]
    exact hkeep
  · intro hkeep
    obtain ⟨hi, hmark⟩ := (hwell x.1 (List.mem_of_getElem? (List.mem_zipIdx_iff_getElem?.1 hx))).covers hg (MarkRanges.mem_marks.1 hm)
    refine ⟨(x.2, ⟨m, x.1.extreme direction (m / g)⟩), List.mem_filter.2 ⟨List.mem_flatMap.2 ⟨(x, m / g), ?_, ?_⟩, hkeep⟩, rfl⟩
    · exact List.mem_flatMap.2 ⟨x, hx, List.mem_map_of_mem hi⟩
    · exact List.mem_map_of_mem hmark

omit [LinearOrder V] in
theorem taggedGranules_of_parts {P : List (ℕ × MinMaxGranule V) → Prop} {Q : List (ℕ × MinMaxGranule V) → List (ℕ × MinMaxGranule V) → Prop}
    {granules : List (List (MinMaxGranule V))} {select : List (MinMaxGranule V) → List (MinMaxGranule V)}
    (hflatten : ∀ {xs ys}, List.Forall₂ Q xs ys → P ys.flatten → P xs.flatten)
    (hselect : ∀ l ∈ granules, ∀ partIndex, Q (l.map (Prod.mk partIndex)) ((select l).map (Prod.mk partIndex)))
    (h : P (taggedGranules (granules.map select))) : P (taggedGranules granules) := by
  unfold taggedGranules at *
  rw [List.flatMap_def] at h ⊢
  refine hflatten ?_ h
  rw [List.zipIdx_map, List.map_map, List.forall₂_map_left_iff, List.forall₂_map_right_iff, List.forall₂_same]
  exact fun x hx => hselect x.1 (List.mem_of_getElem? (List.mem_zipIdx_iff_getElem?.1 hx)) x.2

variable {handleTies : Bool}

/-- **What is selected**: some of the marks that are read, and those are returned. Without ties they are a choice of
the best, with ties the best with all that tie. -/
theorem exists_selected (h : Directs direction key) (std : StdSort) (hn : 0 < n) (hg : 0 < g)
    (hwell : ∀ part ∈ parts, part.WellFormed g) :
    ∃ selected, ReturnsMarks selected (topKMarks heap std direction n g handleTies parts) ∧
      (handleTies = false → IsBest (markKey key) n ((indexGranules g parts).flatMap (granuleItems direction g)) selected) ∧
      (handleTies = true → IsBestWithTies (markKey key) (max 1 (mulSize n g))
        ((indexGranules g parts).flatMap (granuleItems direction g)) selected) := by
  set read := parts.map (getMinMaxIndexGranules direction g) with hread
  have hall : taggedGranules read = (indexGranules g parts).flatMap (granuleItems direction g) := taggedGranules_eq hwell hg direction
  set kept := read.map (getTopKMarksOfPart heap direction g n handleTies) with hkept
  set items : List (MinMaxGranuleItem V) := kept.zipIdx.flatMap fun (granules, partIndex) => granules.map fun granule =>
    ⟨direction, partIndex, granule.granuleNum, granule.minOrMaxValue⟩ with hitems
  have hmarks : items.map MinMaxGranuleItem.mark = taggedGranules kept := map_mark_items direction kept
  have hwhole : topKMarks heap std direction n g handleTies parts = getTopKMarks heap std direction n g handleTies kept := by
    unfold topKMarks
    rw [hkept, hread, List.map_map]
    rfl
  have hsubset := hmarks ▸ selectItems_subset heap h hn g handleTies items
  have hfits : ∀ granules ∈ kept, ∀ granule ∈ granules, granule.granuleNum + 1 < 2 ^ 64 := by
    intro granules hgranules granule hgranule
    obtain ⟨l, hl, rfl⟩ := List.mem_map.1 hgranules
    obtain ⟨part, hpart, rfl⟩ := List.mem_map.1 hl
    have hgranule := getTopKMarksOfPart_subset heap h hn g handleTies _ hgranule
    rw [getMinMaxIndexGranules_eq (hwell part hpart) hg] at hgranule
    obtain ⟨i, -, hgranule⟩ := List.mem_flatMap.1 hgranule
    obtain ⟨m, hm, rfl⟩ := List.mem_map.1 hgranule
    have hlt := ((mem_granuleMarks hg).1 hm).2
    have hpartFits := (hwell part hpart).fits
    dsimp only
    omega
  refine ⟨(selectItems heap direction n g handleTies items).map MinMaxGranuleItem.mark, ?_, ?_, ?_⟩
  · rw [hwhole]
    exact getTopKMarks_returns std hn hfits hitems hsubset
  -- each part keeps its best, and the best of these are the best of all
  · rintro rfl
    rw [← hall]
    have hpart : ∀ l ∈ read, ∀ partIndex, IsBest (markKey key) n (l.map (Prod.mk partIndex))
        ((getTopKMarksOfPart heap direction g n false l).map (Prod.mk partIndex)) := by
      intro l _ partIndex
      have hbest : IsBest (markKey key ∘ Prod.mk partIndex) n l (getTopKMarksOfPart heap direction g n false l) :=
        getTopKMarksOfPart_isBest heap h hn g l
      exact hbest.map (markKey key) (Prod.mk partIndex)
    have hitemsBest : IsBest (markKey key) n (taggedGranules kept)
        ((selectItems heap direction n g false items).map MinMaxGranuleItem.mark) :=
      hmarks ▸ selectItems_isBest heap h hn g items
    exact @taggedGranules_of_parts _ (fun xs => IsBest (markKey key) n xs _) _ _ _ IsBest.flatten hpart hitemsBest
  · rintro rfl
    rw [← hall]
    have hpart : ∀ l ∈ read, ∀ partIndex, HoldsBest (markKey key) (max 1 (mulSize n g)) (l.map (Prod.mk partIndex))
        ((getTopKMarksOfPart heap direction g n true l).map (Prod.mk partIndex)) := by
      intro l _ partIndex
      have hbest : HoldsBest (markKey key ∘ Prod.mk partIndex) (max 1 (mulSize n g)) l
          (getTopKMarksOfPart heap direction g n true l) := getTopKMarksOfPart_holdsBest heap h hn g l
      exact hbest.map (markKey key) (Prod.mk partIndex)
    have hitemsBest : IsBestWithTies (markKey key) (max 1 (mulSize n g)) (taggedGranules kept)
        ((selectItems heap direction n g true items).map MinMaxGranuleItem.mark) :=
      hmarks ▸ selectItems_isBestWithTies heap h g items
    exact @taggedGranules_of_parts _ (fun xs => IsBestWithTies (markKey key) (max 1 (mulSize n g)) xs _) _ _ _
      IsBestWithTies.flatten hpart hitemsBest

/-! ## The answer -/

/-- The rows of a mark that is read. -/
def itemRows (parts : List (TopKPart V)) (item : ℕ × MinMaxGranule V) : List (TopKRow V) :=
  (parts[item.1]?).elim [] fun part => part.rowsOfMark item.1 item.2.granuleNum

omit [LinearOrder V] in
theorem flatMap_itemRows (direction : ℤ) {x : (TopKPart V × ℕ) × ℕ} (hx : x ∈ indexGranules g parts) :
    (granuleItems direction g x).flatMap (itemRows parts) = indexGranuleRows g x := by
  obtain ⟨⟨part, partIndex⟩, hpart, hmap⟩ := List.mem_flatMap.1 hx
  obtain ⟨i, -, rfl⟩ := List.mem_map.1 hmap
  have hget : parts[partIndex]? = some part := List.mem_zipIdx_iff_getElem?.1 hpart
  unfold granuleItems indexGranuleRows
  rw [List.flatMap_map]
  refine List.flatMap_congr fun m _ => ?_
  unfold itemRows
  dsimp only
  rw [hget]
  rfl

omit [LinearOrder V] in
theorem ReturnsMarks.returned_iff {selected : List (ℕ × MinMaxGranule V)} {returned : List MarkRanges}
    (h : ReturnsMarks selected returned) {row : TopKRow V} :
    Returned returned row ↔ (row.partIndex, row.mark) ∈ selected.map fun x => (x.1, x.2.granuleNum) :=
  h.covers_iff _ _

theorem exists_best_rows (h : Directs direction key) (hg : 0 < g) (hwell : ∀ part ∈ parts, part.WellFormed g)
    (honce : ∀ part ∈ parts, part.ReadOnce g) (hsingle : ∀ part ∈ parts, part.Single g)
    {selected : List (ℕ × MinMaxGranule V)}
    (hbest : IsBest (markKey key) n ((indexGranules g parts).flatMap (granuleItems direction g)) selected) :
    ∃ best, IsBest (fun row : TopKRow V => key row.value) n (rowsOfRanges parts) best ∧
      best ⊆ selected.flatMap (itemRows parts) := by
  have hgroup : ∀ item ∈ (indexGranules g parts).flatMap (granuleItems direction g),
      (∃ r ∈ itemRows parts item, key r.value = markKey key item) ∧
        ∀ r ∈ itemRows parts item, markKey key item ≤ key r.value := by
    intro item hitem
    obtain ⟨x, hx, hitem⟩ := List.mem_flatMap.1 hitem
    have hextreme := indexGranuleRows_extreme h hwell hg hx
    have hrows := flatMap_itemRows direction hx
    obtain ⟨y, hy, hmap⟩ := List.mem_flatMap.1 hx
    obtain ⟨i, hi, rfl⟩ := List.mem_map.1 hmap
    have hlength := hsingle y.1 (List.mem_of_getElem? (List.mem_zipIdx_iff_getElem?.1 hy)) i hi
    obtain ⟨m, hm, rfl⟩ := List.mem_map.1 hitem
    -- the index granule is this mark
    have hmarks : y.1.granuleMarks g i = [m] := by
      match hmarks : y.1.granuleMarks g i with
      | [] => exact absurd (hmarks ▸ hm) List.not_mem_nil
      | [k] => rw [List.mem_singleton.1 (hmarks ▸ hm : m ∈ [k])]
      | k :: k' :: rest =>
        rw [hmarks] at hlength
        exact absurd hlength (by simp)
    have hone : granuleItems direction g (y, i) = [(y.2, ⟨m, y.1.extreme direction i⟩)] := by
      unfold granuleItems
      rw [hmarks]
      rfl
    rw [hone, List.flatMap_singleton] at hrows
    rw [hrows]
    exact hextreme
  obtain ⟨best, hbestRows, hsubset⟩ := hbest.exists_rows hgroup
  have haligned : ∀ part ∈ parts, part.Aligned g := fun part hpart => (hsingle part hpart).aligned (hwell part hpart) hg
  have hsame : ((indexGranules g parts).flatMap (granuleItems direction g)).flatMap (itemRows parts) =
      (indexGranules g parts).flatMap (indexGranuleRows g) := by
    rw [List.flatMap_assoc]
    exact List.flatMap_congr fun x hx => flatMap_itemRows direction hx
  exact ⟨best, hbestRows.perm (hsame ▸ rowsOfRanges_perm hwell hg honce haligned), hsubset⟩

/-- **With ties the answer is kept exactly when the extremes suffice.** -/
theorem Directs.keepsAnswer_iff (h : Directs direction key) (std : StdSort) (hn : 0 < n) (hg : 0 < g)
    (hwell : ∀ part ∈ parts, part.WellFormed g) :
    KeepsAnswer direction n true parts (topKMarks heap std direction n g true parts) ↔
      TiesSuffice direction n g (max 1 (mulSize n g)) parts := by
  obtain ⟨selected, hreturns, -, hties⟩ := @exists_selected _ _ _ _ _ _ heap _ _ _ true h std hn hg hwell
  -- a mark is selected exactly when few marks have a better extreme
  have hperm := (hties rfl).perm_filter.map fun x => (x.1, x.2.granuleNum)
  have hfilter : (((indexGranules g parts).flatMap (granuleItems direction g)).filter fun x =>
      decide (((indexGranules g parts).flatMap (granuleItems direction g)).countP
        (fun y => decide (markKey key y < markKey key x)) < max 1 (mulSize n g))) =
      ((indexGranules g parts).flatMap (granuleItems direction g)).filter fun x =>
        decide (betterRead direction g parts x.2.minOrMaxValue < max 1 (mulSize n g)) :=
    List.filter_congr fun x _ => by rw [betterRead_eq h]; rfl
  rw [hfilter] at hperm
  have hreturned : ∀ x ∈ parts.zipIdx, ∀ mark ∈ x.1.ranges.marks, ∀ row ∈ x.1.rowsOfMark x.2 mark,
      (Returned (topKMarks heap std direction n g true parts) row ↔
        betterRead direction g parts (x.1.extreme direction (mark / g)) < max 1 (mulSize n g)) := by
    intro x hx mark hmark row hrow
    obtain ⟨v, -, rfl⟩ := List.mem_map.1 hrow
    rw [hreturns.returned_iff, hperm.mem_iff]
    refine (mem_items_iff hwell hg direction (fun value => decide (betterRead direction g parts value < max 1 (mulSize n g)))
      hx hmark).trans decide_eq_true_iff
  have hsorted : (∀ ranges ∈ topKMarks heap std direction n g true parts, ranges.SortedDisjoint) ↔
      ∀ part ∈ parts, ∀ i ∈ part.indexMarks g, 1 < (part.indexMarks g).count i →
        max 1 (mulSize n g) ≤ betterRead direction g parts (part.extreme direction i) := by
    rw [hreturns.sorted_iff, hperm.nodup_iff,
      nodup_items_iff hwell hg direction fun value => decide (betterRead direction g parts value < max 1 (mulSize n g))]
    refine forall₂_congr fun part _ => nodup_filter_iff.trans ?_
    simp only [decide_eq_true_iff, not_lt]
  constructor
  · intro hkeeps
    refine ⟨fun x hx mark hmark row hrow hfew => ?_, hsorted.1 hkeeps.sorted⟩
    refine (hreturned x hx mark hmark row hrow).1 (hkeeps.ties rfl row ?_ hfew)
    exact List.mem_flatMap.2 ⟨x, hx, List.mem_flatMap.2 ⟨mark, hmark, hrow⟩⟩
  · intro hsuffice
    refine ⟨hsorted.2 hsuffice.once, fun hno => absurd hno (by decide), fun _ row hrow hfew => ?_⟩
    obtain ⟨x, hx, hrow⟩ := List.mem_flatMap.1 hrow
    obtain ⟨mark, hmark, hrow⟩ := List.mem_flatMap.1 hrow
    exact (hreturned x hx mark hmark row hrow).2 (hsuffice.rows x hx mark hmark row hrow hfew)

theorem Directs.keepsAnswer_of_suffice (h : Directs direction key) (std : StdSort) (hn : 0 < n) (hg : 0 < g)
    (hwell : ∀ part ∈ parts, part.WellFormed g) (honce : ∀ part ∈ parts, part.ReadOnce g)
    (hfit : (extremesRead direction g parts).length ≤ n ∨ ∀ part ∈ parts, part.Single g) :
    KeepsAnswer direction n false parts (topKMarks heap std direction n g false parts) := by
  obtain ⟨selected, hreturns, hbest, -⟩ := @exists_selected _ _ _ _ _ _ heap _ _ _ false h std hn hg hwell
  have hbest := hbest rfl
  have hnodup : (((indexGranules g parts).flatMap (granuleItems direction g)).map fun x => (x.1, x.2.granuleNum)).Nodup := by
    have hall := nodup_items_iff hwell hg direction fun _ => true
    rw [List.filter_true] at hall
    refine hall.2 fun part hpart => ?_
    rw [List.filter_true]
    exact honce part hpart
  have hchoice : ∃ best, IsBest (fun row : TopKRow V => key row.value) n (rowsOfRanges parts) best ∧
      ∀ r ∈ best, Returned (topKMarks heap std direction n g false parts) r := by
    rcases hfit with hall | hsingle
    · -- everything that is read is selected
      obtain ⟨best, hchoice⟩ := exists_isBest (fun row : TopKRow V => key row.value) n (rowsOfRanges parts)
      rw [← map_items, List.length_map] at hall
      refine ⟨best, hchoice, fun r hr => ?_⟩
      obtain ⟨x, hx, hrow⟩ := List.mem_flatMap.1 (hchoice.subset hr)
      obtain ⟨mark, hmark, hrow⟩ := List.mem_flatMap.1 hrow
      obtain ⟨v, -, rfl⟩ := List.mem_map.1 hrow
      have hmem := (mem_items_iff hwell hg direction (fun _ => true) hx hmark).2 rfl
      rw [List.filter_true] at hmem
      rw [hreturns.returned_iff, ((hbest.perm_of_length_le hall).map _).mem_iff]
      exact hmem
    · -- a mark that is alone in its index granule has a row with the stored extreme
      obtain ⟨best, hchoice, hin⟩ := exists_best_rows h hg hwell honce hsingle hbest
      refine ⟨best, hchoice, fun r hr => ?_⟩
      obtain ⟨item, hitem, hr⟩ := List.mem_flatMap.1 (hin hr)
      unfold itemRows at hr
      cases hpart : parts[item.1]? with
      | none =>
        rw [hpart] at hr
        exact absurd hr List.not_mem_nil
      | some part =>
        rw [hpart] at hr
        obtain ⟨v, -, rfl⟩ := List.mem_map.1 hr
        exact hreturns.returned_iff.2 (List.mem_map.2 ⟨item, hitem, rfl⟩)
  refine ⟨hreturns.sorted_iff.2 ?_, fun _ => ?_, fun hno => absurd hno (by decide)⟩
  · obtain ⟨rest, hrest, -⟩ := hbest
    rw [(hrest.map _).nodup_iff, List.map_append] at hnodup
    exact hnodup.of_append_left
  · obtain ⟨best, ⟨others, hperm, hlength, hle⟩, hin⟩ := hchoice
    exact ⟨best, others, hperm, hlength, fun r hr z hz => h.notWorse_iff.2 (hle r hr z hz), hin⟩

omit [LinearOrder V] in
theorem indexMarks_one {range : MarkRange} (hfits : range.endMark + 1 < 2 ^ 64) :
    range.indexMarks 1 = range.marks := by
  unfold MarkRange.indexMarks MarkRange.indexRange MarkRange.marks
  dsimp only
  rw [addSize_of_lt hfits, subSize_of_le (by omega) (by omega), Nat.div_one, Nat.div_one, Nat.add_sub_cancel]

theorem readOnce_and_single {part : TopKPart V} (hwell : part.WellFormed 1) : part.ReadOnce 1 ∧ part.Single 1 := by
  have hfits := hwell.fits
  have hmarks : part.indexMarks 1 = part.ranges.marks :=
    List.flatMap_congr fun range hrange =>
      have hend := hwell.inPart range hrange
      indexMarks_one (by omega)
  have hdisjoint : part.ranges.SortedDisjoint := ⟨fun range hrange => (hwell.sorted.nonempty range hrange).le, hwell.sorted.sorted⟩
  refine ⟨?_, fun i _ => ?_⟩
  · unfold TopKPart.ReadOnce
    rw [hmarks]
    exact hdisjoint.pairwise_marks.imp fun h => h.ne
  · unfold TopKPart.granuleMarks
    rw [List.length_range']
    exact min_le_left _ _

theorem Directs.keepsAnswer (h : Directs direction key) (std : StdSort) (hn : 0 < n) (hg : 0 < g)
    (hwell : ∀ part ∈ parts, part.WellFormed g) :
    (ExtremesSuffice direction n g handleTies parts →
      KeepsAnswer direction n handleTies parts (topKMarks heap std direction n g handleTies parts)) ∧
    (handleTies = true ∨ g = 1 →
      KeepsAnswer direction n handleTies parts (topKMarks heap std direction n g handleTies parts) →
      ExtremesSuffice direction n g handleTies parts) := by
  cases handleTies with
  | true => exact ⟨(h.keepsAnswer_iff std hn hg hwell).2, fun _ => (h.keepsAnswer_iff std hn hg hwell).1⟩
  | false =>
    refine ⟨fun ⟨honce, hfit⟩ => h.keepsAnswer_of_suffice std hn hg hwell honce hfit, ?_⟩
    rintro (hno | rfl) -
    · cases hno
    · exact ⟨fun part hpart => (readOnce_and_single (hwell part hpart)).1,
        Or.inr fun part hpart => (readOnce_and_single (hwell part hpart)).2⟩

/-- **Selecting the best marks by a minmax index keeps the answer, if the extremes of the index granules that are read may stand
for their marks**, and only then if ties are kept or index granules are single marks. -/
theorem topKMarks_keepsAnswer (heap : StdHeap) (std : StdSort) {direction : ℤ} (hdirection : direction = 1 ∨ direction = -1)
    {n g : ℕ} (hn : 0 < n) (hg : 0 < g) {handleTies : Bool} {parts : List (TopKPart V)}
    (hwell : ∀ part ∈ parts, part.WellFormed g) :
    (ExtremesSuffice direction n g handleTies parts →
      KeepsAnswer direction n handleTies parts (topKMarks heap std direction n g handleTies parts)) ∧
    (handleTies = true ∨ g = 1 →
      KeepsAnswer direction n handleTies parts (topKMarks heap std direction n g handleTies parts) →
      ExtremesSuffice direction n g handleTies parts) := by
  rcases hdirection with rfl | rfl
  · exact directs_ascending.keepsAnswer std hn hg hwell
  · exact directs_descending.keepsAnswer std hn hg hwell

/-- Index granules of two marks with one row each. -/
def pairsOfMarks (ranges : MarkRanges) : TopKPart ℕ where
  marks := [[1], [5], [3], [4], [7], [8]]
  ranges := ranges
  stored indexMark := if indexMark = 0 then (1, 5) else if indexMark = 1 then (3, 4) else (7, 8)

theorem pairsOfMarks_wellFormed {ranges : MarkRanges} (hsorted : ranges.Sorted) (hin : ∀ range ∈ ranges, range.endMark ≤ 6) :
    (pairsOfMarks ranges).WellFormed 2 := by
  have hindex : ∀ indexMark, indexMark * 2 < (pairsOfMarks ranges).marks.length → indexMark < 3 := fun indexMark hlt => by
    have hlt : indexMark * 2 < 6 := hlt
    omega
  -- what is stored does not depend on the ranges
  have hstored : ∀ i < 3,
      ((∃ mark ∈ (pairsOfMarks []).granuleMarks 2 i, ((pairsOfMarks []).stored i).1 ∈ (pairsOfMarks []).marks.getD mark []) ∧
        ∀ mark ∈ (pairsOfMarks []).granuleMarks 2 i, ∀ v ∈ (pairsOfMarks []).marks.getD mark [], ((pairsOfMarks []).stored i).1 ≤ v) ∧
      (∃ mark ∈ (pairsOfMarks []).granuleMarks 2 i, ((pairsOfMarks []).stored i).2 ∈ (pairsOfMarks []).marks.getD mark []) ∧
        ∀ mark ∈ (pairsOfMarks []).granuleMarks 2 i, ∀ v ∈ (pairsOfMarks []).marks.getD mark [], v ≤ ((pairsOfMarks []).stored i).2 := by
    decide
  exact ⟨hsorted, hin, (by decide : ∀ rows ∈ (pairsOfMarks []).marks, rows ≠ []), fun i hi => (hstored i (hindex i hi)).1,
    fun i hi => (hstored i (hindex i hi)).2, (by decide : (pairsOfMarks []).marks.length + 2 < 2 ^ 64)⟩

/-- The third index granule is read twice, and another one has the best row. -/
theorem topKMarks_keepsAnswer_pairs :
    topKMarks StdHeap.sorting StdSort.insertion 1 1 2 true [pairsOfMarks [⟨0, 3⟩, ⟨4, 5⟩, ⟨5, 6⟩]] = [[⟨0, 1⟩, ⟨1, 2⟩]] ∧
      KeepsAnswer 1 1 true [pairsOfMarks [⟨0, 3⟩, ⟨4, 5⟩, ⟨5, 6⟩]]
        (topKMarks StdHeap.sorting StdSort.insertion 1 1 2 true [pairsOfMarks [⟨0, 3⟩, ⟨4, 5⟩, ⟨5, 6⟩]]) := by
  refine ⟨by decide +kernel, (topKMarks_keepsAnswer StdHeap.sorting StdSort.insertion (Or.inl rfl) Nat.one_pos Nat.two_pos
    fun part hpart => ?_).1 ⟨by decide +kernel, by decide +kernel⟩⟩
  rw [List.mem_singleton.1 hpart]
  exact pairsOfMarks_wellFormed ⟨by decide, by decide⟩ (by decide)

/-- The range begins inside the first index granule, whose best row it does not have: both marks of that index granule are selected,
and the mark of the best row of the range is not. -/
theorem pairsOfMarks_loses : ∃ (heap : StdHeap) (std : StdSort), (pairsOfMarks [⟨1, 4⟩]).WellFormed 2 ∧
    ¬ KeepsAnswer 1 1 true [pairsOfMarks [⟨1, 4⟩]] (topKMarks heap std 1 1 2 true [pairsOfMarks [⟨1, 4⟩]]) := by
  refine ⟨StdHeap.sorting, StdSort.insertion, pairsOfMarks_wellFormed ⟨by decide, by decide⟩ (by decide), fun hkeeps => ?_⟩
  have hreturned : topKMarks StdHeap.sorting StdSort.insertion 1 1 2 true [pairsOfMarks [⟨1, 4⟩]] = [[⟨0, 1⟩, ⟨1, 2⟩]] := by
    decide +kernel
  have hbest : Returned [[⟨0, 1⟩, ⟨1, 2⟩]] (⟨0, 2, 3⟩ : TopKRow ℕ) :=
    hreturned ▸ hkeeps.ties rfl ⟨0, 2, 3⟩ (by decide +kernel) (by decide +kernel)
  obtain ⟨ranges, hranges, range, hrange, -, hend⟩ := hbest
  obtain rfl := Option.some.inj hranges
  simp only [List.mem_cons, List.not_mem_nil, or_false] at hrange
  rcases hrange with rfl | rfl <;> exact absurd hend (by decide)

end Rows

end TopK

end MergeTree
