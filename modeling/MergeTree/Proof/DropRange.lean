import MergeTree.Proof.WorkingSetRuns
import MergeTree.Spec.DropRange

/-!
# What a drop range removes

The loop of `grabActivePartsToRemoveForDropRange` stops at the first part behind the range, which
is right for parts in the order of their blocks. With a transaction the visible Outdated parts
follow the Active ones, and an Active part behind the range hides them.

* `grab_cases`: the three ways the loop can end.
* `grabOk_iff`: the right parts are grabbed exactly when nothing is hidden (`GrabClear`).
* `reportsOnce_iff`: every part is reported once exactly when no visible Outdated part is grabbed
  that the range contains.
* `emptyOk_iff`: the empty part, when one is asked for, contains what was removed and nothing that stays Active.
-/

namespace MergeTree

open DataParts

namespace PartInfo

/-- The part has blocks of the range. -/
def Overlaps (part dropRange : PartInfo) : Prop :=
  dropRange.minBlock ≤ part.maxBlock ∧ part.minBlock ≤ dropRange.maxBlock

/-- All blocks of the part are in the range. -/
def Inside (part dropRange : PartInfo) : Prop :=
  dropRange.minBlock ≤ part.minBlock ∧ part.maxBlock ≤ dropRange.maxBlock

instance (part dropRange : PartInfo) : Decidable (part.Inside dropRange) := inferInstanceAs (Decidable (_ ∧ _))

/-- The part has blocks of the range, and others. -/
def Crosses (part dropRange : PartInfo) : Prop := part.Overlaps dropRange ∧ ¬part.Inside dropRange

variable {p q d : PartInfo}

theorem Inside.overlaps (h : p.Inside d) (hp : p.minBlock ≤ p.maxBlock) : p.Overlaps d :=
  ⟨h.1.trans hp, hp.trans h.2⟩

theorem CoversBlocks.crosses (h : p.CoversBlocks d) (hd : d.minBlock ≤ d.maxBlock) : p.Crosses d := by
  obtain ⟨hother, hmin, hmax⟩ := h
  refine ⟨⟨hd.trans hmax, hmin.trans hd⟩, ?_⟩
  rintro ⟨hmin', hmax'⟩
  omega

theorem CoversBlocks.not_isDisjoint (h : p.CoversBlocks d) (hq : q.Overlaps d) (hid : p.partitionId = q.partitionId) :
    ¬p.IsDisjoint q := by
  obtain ⟨-, hmin, hmax⟩ := h
  obtain ⟨hlo, hhi⟩ := hq
  rintro (hd | hd | hd)
  · exact hd hid
  · omega
  · omega

theorem Contains.inside (h : d.Contains p) : p.Inside d := ⟨h.2.1, h.2.2.1⟩

end PartInfo

namespace DataParts

variable {parts : DataParts} {txn : Option (DataPart → Bool)} {dropRange : PartInfo} {l more : List StatedPart}
  {acc : List DataPart}

/-! ## The loop -/

/-- The parts of a list that lie inside the range. -/
def insideOf (dropRange : PartInfo) (l : List StatedPart) : List DataPart :=
  (l.filter fun part => part.info.Inside dropRange).map StatedPart.toDataPart

theorem mem_insideOf {q : DataPart} : q ∈ insideOf dropRange l ↔ ∃ p ∈ l, p.info.Inside dropRange ∧ p.toDataPart = q := by
  simp only [insideOf, List.mem_map, List.mem_filter, decide_eq_true_eq, and_assoc]

theorem insideOf_cons_of_not {p : StatedPart} (h : ¬p.info.Inside dropRange) :
    insideOf dropRange (p :: l) = insideOf dropRange l := by
  rw [insideOf, List.filter_cons_of_neg (by simpa using h)]
  rfl

theorem insideOf_eq_nil (h : ∀ p ∈ l, ¬p.info.Inside dropRange) : insideOf dropRange l = [] := by
  rw [insideOf, List.filter_eq_nil_iff.2 fun p hp => by simpa using h p hp]
  rfl

/-- **The loop over parts in the order of their blocks** ends at a part that crosses the range, at a
part behind it, or goes on with the parts that follow. -/
theorem grabLoop_append (hd : dropRange.minBlock ≤ dropRange.maxBlock) (hid : ∀ p ∈ l, p.info.partitionId = dropRange.partitionId)
    (hblocks : ∀ p ∈ l, p.info.minBlock ≤ p.info.maxBlock) (hsorted : l.Pairwise fun a b => a.info.minBlock ≤ b.info.minBlock) :
    (∃ p ∈ l, p.info.Crosses dropRange ∧ grabLoop dropRange (l ++ more) acc =
        if dropRange.IsDropPart ∧ p.info.CoversBlocks dropRange then .ok [] else .error .logicalError) ∨
      ((∀ p ∈ l, ¬p.info.Crosses dropRange) ∧ (∃ p ∈ l, dropRange.maxBlock < p.info.minBlock) ∧
        grabLoop dropRange (l ++ more) acc = .ok (acc ++ insideOf dropRange l)) ∨
      ((∀ p ∈ l, ¬p.info.Crosses dropRange) ∧ (∀ p ∈ l, ¬dropRange.maxBlock < p.info.minBlock) ∧
        grabLoop dropRange (l ++ more) acc = grabLoop dropRange more (acc ++ insideOf dropRange l)) := by
  induction l generalizing acc with
  | nil =>
    refine Or.inr (Or.inr ⟨fun p hp => absurd hp List.not_mem_nil, fun p hp => absurd hp List.not_mem_nil, ?_⟩)
    rw [insideOf, List.filter_nil, List.map_nil, List.append_nil, List.nil_append]
  | cons p l ih =>
    obtain ⟨hfirst, hsorted⟩ := List.pairwise_cons.1 hsorted
    have hp := hblocks p List.mem_cons_self
    have hrest := fun acc => @ih acc (fun q hq => hid q (List.mem_cons_of_mem p hq))
      (fun q hq => hblocks q (List.mem_cons_of_mem p hq)) hsorted
    rw [List.cons_append, grabLoop, if_neg (not_not.2 (hid p List.mem_cons_self))]
    by_cases hcross : p.info.Crosses dropRange
    · -- the first part that crosses the range decides
      refine Or.inl ⟨p, List.mem_cons_self, hcross, ?_⟩
      split
      · rfl
      · obtain ⟨⟨hlo, hhi⟩, hout⟩ := hcross
        unfold PartInfo.Inside at hout
        split
        · rfl
        · rw [if_neg (by omega), if_pos (by omega)]
    · have hcover : ¬(dropRange.IsDropPart ∧ p.info.CoversBlocks dropRange) := fun h => hcross (h.2.crosses hd)
      rw [if_neg hcover]
      unfold PartInfo.Crosses PartInfo.Overlaps PartInfo.Inside at hcross
      by_cases hleft : p.info.maxBlock < dropRange.minBlock
      · -- in front of the range
        have hinside : ¬p.info.Inside dropRange := fun h => by
          have hmin := h.1
          omega
        rw [if_pos (by omega), if_neg (by omega), insideOf_cons_of_not hinside]
        refine (hrest acc).imp ?_ (Or.imp ?_ ?_)
        · rintro ⟨q, hq, h⟩
          exact ⟨q, List.mem_cons_of_mem p hq, h⟩
        · rintro ⟨hall, ⟨q, hq, hbehind⟩, h⟩
          exact ⟨List.forall_mem_cons.2 ⟨fun h => by have := h.1.1; omega, hall⟩, ⟨q, List.mem_cons_of_mem p hq, hbehind⟩, h⟩
        · rintro ⟨hall, hnone, h⟩
          exact ⟨List.forall_mem_cons.2 ⟨fun h => by have := h.1.1; omega, hall⟩,
            List.forall_mem_cons.2 ⟨by omega, hnone⟩, h⟩
      · by_cases hright : dropRange.maxBlock < p.info.minBlock
        · -- behind the range, as all that follow
          have hbehind : ∀ q ∈ p :: l, dropRange.maxBlock < q.info.minBlock := by
            refine List.forall_mem_cons.2 ⟨hright, fun q hq => ?_⟩
            have hle := hfirst q hq
            omega
          have hinside : ∀ q ∈ p :: l, ¬q.info.Inside dropRange := fun q hq h => by
            have hlt := hbehind q hq
            have hle := hblocks q hq
            have hmax := h.2
            omega
          refine Or.inr (Or.inl ⟨fun q hq h => ?_, ⟨p, List.mem_cons_self, hright⟩, ?_⟩)
          · have hlt := hbehind q hq
            have hle := h.1.2
            omega
          · rw [insideOf_eq_nil hinside, List.append_nil, if_neg (by omega), if_pos hright]
        · -- inside the range
          have hinside : p.info.Inside dropRange := ⟨by omega, by omega⟩
          have hcons : acc ++ insideOf dropRange (p :: l) = (acc ++ [p.toDataPart]) ++ insideOf dropRange l := by
            rw [insideOf, List.filter_cons_of_pos (by simpa using hinside), List.map_cons, List.append_assoc]
            rfl
          rw [if_neg (by omega), if_neg hright, if_neg (by omega), hcons]
          refine (hrest (acc ++ [p.toDataPart])).imp ?_ (Or.imp ?_ ?_)
          · rintro ⟨q, hq, h⟩
            exact ⟨q, List.mem_cons_of_mem p hq, h⟩
          · rintro ⟨hall, ⟨q, hq, hbehind⟩, h⟩
            exact ⟨List.forall_mem_cons.2 ⟨fun h => h.2 hinside, hall⟩, ⟨q, List.mem_cons_of_mem p hq, hbehind⟩, h⟩
          · rintro ⟨hall, hnone, h⟩
            exact ⟨List.forall_mem_cons.2 ⟨fun h => h.2 hinside, hall⟩, List.forall_mem_cons.2 ⟨hright, hnone⟩, h⟩

/-! ## The visible parts -/

/-- The visible parts of a partition. -/
def visibleParts (parts : DataParts) (txn : Option (DataPart → Bool)) (dropRange : PartInfo) : List StatedPart :=
  parts.getVisibleDataPartsVectorInPartition txn dropRange.partitionId

theorem mem_inPartition {state : DataPartState} {partitionId : String} {p : StatedPart} :
    p ∈ parts.inPartition state partitionId ↔ p ∈ parts ∧ p.state = state ∧ p.info.partitionId = partitionId := by
  rw [inPartition, List.mem_filter, decide_eq_true_eq]
  rfl

theorem sorted_inPartition (hproper : ∀ p ∈ parts, p.info.Proper) (state : DataPartState) (partitionId : String) :
    (parts.inPartition state partitionId).Pairwise fun a b => a.info.minBlock ≤ b.info.minBlock := by
  refine (parts.sorted.filter _).imp_of_mem ?_
  intro a b ha hb hlt
  obtain ⟨ha', -, haid⟩ := mem_inPartition.1 ha
  obtain ⟨hb', -, hbid⟩ := mem_inPartition.1 hb
  by_contra hle
  have hback := PartInfo.toTuple_lt_of_minBlock_lt (hproper b hb') (hproper a ha') (hbid.trans haid.symm) (by omega)
  exact lt_asymm hlt hback

/-- The visible parts: Active ones in order, then Outdated ones in order. -/
structure Visible (parts : DataParts) (txn : Option (DataPart → Bool)) (dropRange : PartInfo) (active outdated : List StatedPart) :
    Prop where
  visible_eq : parts.visibleParts txn dropRange = active ++ outdated
  mem : ∀ p ∈ active ++ outdated, p ∈ parts ∧ p.info.partitionId = dropRange.partitionId
  state_active : ∀ p ∈ active, p.state = .active
  state_outdated : ∀ p ∈ outdated, p.state = .outdated
  sorted_active : active.Pairwise fun a b => a.info.minBlock ≤ b.info.minBlock
  sorted_outdated : outdated.Pairwise fun a b => a.info.minBlock ≤ b.info.minBlock

theorem exists_visible (hproper : ∀ p ∈ parts, p.info.Proper) (txn : Option (DataPart → Bool)) (dropRange : PartInfo) :
    ∃ active outdated, Visible parts txn dropRange active outdated := by
  cases txn with
  | none =>
    refine ⟨parts.inPartition .active dropRange.partitionId, [], (List.append_nil _).symm, fun p hp => ?_, fun p hp => ?_,
      fun p hp => absurd hp List.not_mem_nil, sorted_inPartition hproper _ _, List.Pairwise.nil⟩
    · rw [List.append_nil] at hp
      exact ⟨(mem_inPartition.1 hp).1, (mem_inPartition.1 hp).2.2⟩
    · exact (mem_inPartition.1 hp).2.1
  | some isVisible =>
    refine ⟨_, _, List.filter_append _ _, fun p hp => ?_, fun p hp => ?_, fun p hp => ?_,
      (sorted_inPartition hproper _ _).filter _, (sorted_inPartition hproper _ _).filter _⟩
    · rcases List.mem_append.1 hp with hp | hp
      · have hmem := mem_inPartition.1 (List.mem_filter.1 hp).1
        exact ⟨hmem.1, hmem.2.2⟩
      · have hmem := mem_inPartition.1 (List.mem_filter.1 hp).1
        exact ⟨hmem.1, hmem.2.2⟩
    · exact (mem_inPartition.1 (List.mem_filter.1 hp).1).2.1
    · exact (mem_inPartition.1 (List.mem_filter.1 hp).1).2.1

/-- What is assumed of the parts: proper infos, and visible parts of the partition that are disjoint. -/
structure Disjoint (parts : DataParts) (txn : Option (DataPart → Bool)) (dropRange : PartInfo) : Prop where
  proper : ∀ p ∈ parts, p.info.Proper
  range : dropRange.minBlock ≤ dropRange.maxBlock
  disjoint : ∀ p ∈ parts.visibleParts txn dropRange, ∀ q ∈ parts.visibleParts txn dropRange, p ≠ q → p.info.IsDisjoint q.info

/-- **The three ways the loop ends**: at a part that crosses the range, at an Active part behind the
range, or at the end of the visible parts. -/
theorem grab_cases (h : Disjoint parts txn dropRange) {active outdated : List StatedPart}
    (hv : Visible parts txn dropRange active outdated) :
    (((∃ p ∈ active, p.info.Crosses dropRange) ∨ ∀ p ∈ active, ¬dropRange.maxBlock < p.info.minBlock) ∧
        ∃ p ∈ active ++ outdated, p.info.Crosses dropRange ∧ parts.grabActivePartsToRemoveForDropRange txn dropRange =
          if dropRange.IsDropPart ∧ p.info.CoversBlocks dropRange then .ok [] else .error .logicalError) ∨
      ((∀ p ∈ active, ¬p.info.Crosses dropRange) ∧ (∃ p ∈ active, dropRange.maxBlock < p.info.minBlock) ∧
        parts.grabActivePartsToRemoveForDropRange txn dropRange = .ok (insideOf dropRange active)) ∨
      ((∀ p ∈ active ++ outdated, ¬p.info.Crosses dropRange) ∧ (∀ p ∈ active, ¬dropRange.maxBlock < p.info.minBlock) ∧
        parts.grabActivePartsToRemoveForDropRange txn dropRange = .ok (insideOf dropRange (active ++ outdated))) := by
  have hrun : parts.grabActivePartsToRemoveForDropRange txn dropRange = grabLoop dropRange (active ++ outdated) [] := by
    rw [grabActivePartsToRemoveForDropRange, if_neg (not_lt.2 h.range), ← hv.visible_eq]
    rfl
  have hid : ∀ p ∈ active ++ outdated, p.info.partitionId = dropRange.partitionId := fun p hp => (hv.mem p hp).2
  have hblocks : ∀ p ∈ active ++ outdated, p.info.minBlock ≤ p.info.maxBlock := fun p hp => (h.proper p (hv.mem p hp).1).blocks
  rw [hrun]
  rcases @grabLoop_append _ _ outdated [] h.range (fun p hp => hid p (List.mem_append_left _ hp))
      (fun p hp => hblocks p (List.mem_append_left _ hp)) hv.sorted_active with
    ⟨p, hp, hcross, hend⟩ | ⟨hnone, hbehind, hend⟩ | ⟨hnone, hbehind, hend⟩
  · exact Or.inl ⟨Or.inl ⟨p, hp, hcross⟩, p, List.mem_append_left _ hp, hcross, hend⟩
  · exact Or.inr (Or.inl ⟨hnone, hbehind, hend⟩)
  · rw [hend]
    have happend : insideOf dropRange (active ++ outdated) = insideOf dropRange active ++ insideOf dropRange outdated := by
      rw [insideOf, List.filter_append, List.map_append]
      rfl
    have houtdated := @grabLoop_append _ _ [] ([] ++ insideOf dropRange active) h.range
      (fun p hp => hid p (List.mem_append_right active hp)) (fun p hp => hblocks p (List.mem_append_right active hp))
      hv.sorted_outdated
    rw [List.append_nil] at houtdated
    rw [List.nil_append] at houtdated ⊢
    rcases houtdated with ⟨p, hp, hcross, hend'⟩ | ⟨hnone', -, hend'⟩ | ⟨hnone', -, hend'⟩
    · exact Or.inl ⟨Or.inr hbehind, p, List.mem_append_right _ hp, hcross, hend'⟩
    · refine Or.inr (Or.inr ⟨List.forall_mem_append.2 ⟨hnone, hnone'⟩, hbehind, ?_⟩)
      rw [hend', happend]
    · refine Or.inr (Or.inr ⟨List.forall_mem_append.2 ⟨hnone, hnone'⟩, hbehind, ?_⟩)
      rw [hend', happend]
      rfl

/-! ## What is grabbed -/

/-- The range is a dropped part, and a visible part with other blocks covers it. -/
def DropCovered (parts : DataParts) (txn : Option (DataPart → Bool)) (dropRange : PartInfo) : Prop :=
  ¬dropRange.isFakeDropRangePart = true ∧ 0 < dropRange.minBlock ∧
    ∃ p ∈ parts.visibleParts txn dropRange, p.info.CoversBlocks dropRange

/-- **What `grabActivePartsToRemoveForDropRange` is to do.** -/
structure GrabOk (parts : DataParts) (txn : Option (DataPart → Bool)) (dropRange : PartInfo) : Prop where
  covered : DropCovered parts txn dropRange → parts.grabActivePartsToRemoveForDropRange txn dropRange = .ok []
  throws_iff : ¬DropCovered parts txn dropRange →
    ((∃ e, parts.grabActivePartsToRemoveForDropRange txn dropRange = .error e) ↔
      ∃ p ∈ parts.visibleParts txn dropRange, p.info.Crosses dropRange)
  grabs : ¬DropCovered parts txn dropRange → (∀ p ∈ parts.visibleParts txn dropRange, ¬p.info.Crosses dropRange) →
    ∃ removed, parts.grabActivePartsToRemoveForDropRange txn dropRange = .ok removed ∧
      ∀ q, q ∈ removed ↔ ∃ p ∈ parts.visibleParts txn dropRange, p.info.Inside dropRange ∧ p.toDataPart = q

/-- **Nothing is hidden**: a dropped part has a positive first block, and no Active part behind the range
ends the loop in front of visible Outdated parts with blocks of the range, unless it has thrown
by then or the dropped part is covered. -/
structure GrabClear (parts : DataParts) (txn : Option (DataPart → Bool)) (dropRange : PartInfo) : Prop where
  nonneg : dropRange.minBlock < 0 → ¬dropRange.isFakeDropRangePart = true →
    ∀ p ∈ parts.visibleParts txn dropRange, ¬p.info.CoversBlocks dropRange
  in_order : (∃ q ∈ parts.visibleParts txn dropRange, q.state = .active ∧ dropRange.maxBlock < q.info.minBlock) →
    (∃ p ∈ parts.visibleParts txn dropRange, p.state = .outdated ∧ p.info.Overlaps dropRange) →
    (∃ p ∈ parts.visibleParts txn dropRange, p.state = .active ∧ p.info.Crosses dropRange) ∨ DropCovered parts txn dropRange

theorem Disjoint.eq_of_covers (h : Disjoint parts txn dropRange) {p q : StatedPart}
    (hmem : ∀ p ∈ parts.visibleParts txn dropRange, p ∈ parts ∧ p.info.partitionId = dropRange.partitionId)
    (hp : p ∈ parts.visibleParts txn dropRange) (hq : q ∈ parts.visibleParts txn dropRange)
    (hcovers : p.info.CoversBlocks dropRange) (hoverlaps : q.info.Overlaps dropRange) : p = q := by
  by_contra hne
  exact hcovers.not_isDisjoint hoverlaps ((hmem p hp).2.trans (hmem q hq).2.symm) (h.disjoint p hp q hq hne)

/-- **The right parts are grabbed, unless something is hidden.** -/
theorem grabOk_iff (h : Disjoint parts txn dropRange) : GrabOk parts txn dropRange ↔ GrabClear parts txn dropRange := by
  obtain ⟨active, outdated, hv⟩ := exists_visible h.proper txn dropRange
  have hcases := grab_cases h hv
  have hmem : ∀ p ∈ parts.visibleParts txn dropRange, p ∈ parts ∧ p.info.partitionId = dropRange.partitionId := by
    rw [hv.visible_eq]
    exact hv.mem
  have hactive : ∀ p ∈ active, p ∈ parts.visibleParts txn dropRange := fun p hp => by
    rw [hv.visible_eq]
    exact List.mem_append_left _ hp
  have houtdated : ∀ p ∈ outdated, p ∈ parts.visibleParts txn dropRange := fun p hp => by
    rw [hv.visible_eq]
    exact List.mem_append_right _ hp
  have hstate : ∀ p ∈ parts.visibleParts txn dropRange, p.state = .active → p ∈ active := by
    intro p hp hactive
    rw [hv.visible_eq] at hp
    refine (List.mem_append.1 hp).resolve_right fun hout => ?_
    rw [hv.state_outdated p hout] at hactive
    cases hactive
  rcases hcases with ⟨horder, a, ha, hcross, hend⟩ | ⟨hnone, hbehind, hend⟩ | ⟨hnone, hbehind, hend⟩
  · -- the part that crosses the range is the only one that can cover it
    rw [← hv.visible_eq] at ha
    have hunique : ∀ p ∈ parts.visibleParts txn dropRange, p.info.CoversBlocks dropRange → a.info.CoversBlocks dropRange :=
      fun p hp hcovers => h.eq_of_covers hmem hp ha hcovers hcross.1 ▸ hcovers
    have hin_order : (∃ q ∈ parts.visibleParts txn dropRange, q.state = .active ∧ dropRange.maxBlock < q.info.minBlock) →
        ∃ p ∈ parts.visibleParts txn dropRange, p.state = .active ∧ p.info.Crosses dropRange := by
      rintro ⟨q, hq, hqactive, hlt⟩
      rcases horder with ⟨p, hp, hpcross⟩ | hnone
      · exact ⟨p, hactive p hp, hv.state_active p hp, hpcross⟩
      · exact absurd hlt (hnone q (hstate q hq hqactive))
    by_cases hcovered : dropRange.IsDropPart ∧ a.info.CoversBlocks dropRange
    · rw [if_pos hcovered] at hend
      obtain ⟨⟨hfake, hzero⟩, hcovers⟩ := hcovered
      rcases lt_or_gt_of_ne hzero with hneg | hpos
      · -- a negative first block
        refine iff_of_false (fun hok => ?_) fun hclear => hclear.nonneg hneg hfake a ha hcovers
        have hnot : ¬DropCovered parts txn dropRange := fun hdrop => absurd hdrop.2.1 hneg.not_gt
        obtain ⟨e, herror⟩ := (hok.throws_iff hnot).2 ⟨a, ha, hcross⟩
        rw [hend] at herror
        cases herror
      · have hdrop : DropCovered parts txn dropRange := ⟨hfake, hpos, a, ha, hcovers⟩
        refine iff_of_true ⟨fun _ => hend, fun hnot => absurd hdrop hnot, fun hnot => absurd hdrop hnot⟩ ?_
        exact ⟨fun hneg => absurd hpos hneg.not_gt, fun hq _ => Or.inl (hin_order hq)⟩
    · rw [if_neg hcovered] at hend
      refine iff_of_true ⟨?_, fun _ => ?_, fun _ hnone => absurd hcross (hnone a ha)⟩ ⟨?_, fun hq _ => Or.inl (hin_order hq)⟩
      · rintro ⟨hfake, hpos, p, hp, hcovers⟩
        exact absurd ⟨⟨hfake, hpos.ne'⟩, hunique p hp hcovers⟩ hcovered
      · exact iff_of_true ⟨_, hend⟩ ⟨a, ha, hcross⟩
      · intro hneg hfake p hp hcovers
        exact hcovered ⟨⟨hfake, hneg.ne⟩, hunique p hp hcovers⟩
  · have hsplit : ∀ {P : StatedPart → Prop}, (∀ p ∈ active, P p) → (∀ p ∈ outdated, P p) →
        ∀ p ∈ parts.visibleParts txn dropRange, P p := fun ha ho => by
      rw [hv.visible_eq]
      exact List.forall_mem_append.2 ⟨ha, ho⟩
    obtain ⟨b, hb, hlt⟩ := hbehind
    by_cases hout : ∃ p ∈ outdated, p.info.Overlaps dropRange
    · obtain ⟨o, ho, hoverlaps⟩ := hout
      by_cases hdrop : DropCovered parts txn dropRange
      · -- the covering part leaves nothing inside the range
        obtain ⟨-, hpos, c, hc, hcovers⟩ := id hdrop
        have hnil : insideOf dropRange active = [] := insideOf_eq_nil fun p hp hinside => by
          have heq := h.eq_of_covers hmem hc (hactive p hp) hcovers
            (hinside.overlaps (h.proper p (hmem p (hactive p hp)).1).blocks)
          exact (hcovers.crosses h.range).2 (heq ▸ hinside)
        refine iff_of_true ⟨fun _ => by rw [hend, hnil], fun hnot => absurd hdrop hnot, fun hnot => absurd hdrop hnot⟩ ?_
        exact ⟨fun hneg => absurd hpos hneg.not_gt, fun _ _ => Or.inr hdrop⟩
      · -- the Outdated part is hidden
        refine iff_of_false (fun hok => ?_) fun hclear => ?_
        · by_cases hcross : ∃ p ∈ parts.visibleParts txn dropRange, p.info.Crosses dropRange
          · obtain ⟨e, herror⟩ := (hok.throws_iff hdrop).2 hcross
            rw [hend] at herror
            cases herror
          · have hnocross : ∀ p ∈ parts.visibleParts txn dropRange, ¬p.info.Crosses dropRange :=
              fun p hp hpcross => hcross ⟨p, hp, hpcross⟩
            obtain ⟨removed, hremoved, hall⟩ := hok.grabs hdrop hnocross
            have hinside : o.info.Inside dropRange := by
              by_contra hnot
              exact hnocross o (houtdated o ho) ⟨hoverlaps, hnot⟩
            obtain rfl : insideOf dropRange active = removed := Except.ok.inj (hend.symm.trans hremoved)
            obtain ⟨a, ha, -, haq⟩ := mem_insideOf.1 ((hall o.toDataPart).2 ⟨o, houtdated o ho, hinside, rfl⟩)
            have heq : a = o := parts.eq_of_key (hmem a (hactive a ha)).1 (hmem o (houtdated o ho)).1
              (congrArg (fun q => q.info.toTuple) haq)
            have hstate := hv.state_active a ha
            rw [heq, hv.state_outdated o ho] at hstate
            cases hstate
        · rcases hclear.in_order ⟨b, hactive b hb, hv.state_active b hb, hlt⟩
              ⟨o, houtdated o ho, hv.state_outdated o ho, hoverlaps⟩ with ⟨p, hp, hpactive, hcross⟩ | hcovered
          · exact hnone p (hstate p hp hpactive) hcross
          · exact hdrop hcovered
    · -- no visible Outdated part has blocks of the range
      have hclear : ∀ p ∈ parts.visibleParts txn dropRange, ¬p.info.Crosses dropRange :=
        hsplit hnone fun p hp hcross => hout ⟨p, hp, hcross.1⟩
      have hnodrop : ¬DropCovered parts txn dropRange :=
        fun ⟨_, _, p, hp, hcovers⟩ => hclear p hp (hcovers.crosses h.range)
      refine iff_of_true ⟨fun hdrop => absurd hdrop hnodrop, fun _ => iff_of_false ?_ ?_, fun _ _ => ⟨_, hend, fun q => ?_⟩⟩
        ⟨fun _ _ p hp hcovers => hclear p hp (hcovers.crosses h.range), ?_⟩
      · rintro ⟨e, herror⟩
        rw [hend] at herror
        cases herror
      · rintro ⟨p, hp, hcross⟩
        exact hclear p hp hcross
      · rw [mem_insideOf]
        constructor
        · rintro ⟨p, hp, hinside, rfl⟩
          exact ⟨p, hactive p hp, hinside, rfl⟩
        · rintro ⟨p, hp, hinside, rfl⟩
          rw [hv.visible_eq] at hp
          rcases List.mem_append.1 hp with hp | hp
          · exact ⟨p, hp, hinside, rfl⟩
          · exact absurd ⟨p, hp, hinside.overlaps (h.proper p (hmem p (houtdated p hp)).1).blocks⟩ hout
      · rintro - ⟨p, hp, hpoutdated, hoverlaps⟩
        rw [hv.visible_eq] at hp
        rcases List.mem_append.1 hp with hp | hp
        · rw [hv.state_active p hp] at hpoutdated
          cases hpoutdated
        · exact absurd ⟨p, hp, hoverlaps⟩ hout
  · -- the whole of the visible parts is walked
    rw [← hv.visible_eq] at hnone hend
    have hnodrop : ¬DropCovered parts txn dropRange :=
      fun ⟨_, _, p, hp, hcovers⟩ => hnone p hp (hcovers.crosses h.range)
    refine iff_of_true ⟨fun hdrop => absurd hdrop hnodrop, fun _ => iff_of_false ?_ ?_,
        fun _ _ => ⟨_, hend, fun q => mem_insideOf⟩⟩
      ⟨fun _ _ p hp hcovers => hnone p hp (hcovers.crosses h.range), ?_⟩
    · rintro ⟨e, herror⟩
      rw [hend] at herror
      cases herror
    · rintro ⟨p, hp, hcross⟩
      exact hnone p hp hcross
    · rintro ⟨q, hq, hqactive, hlt⟩
      exact absurd hlt (hbehind q (hstate q hq hqactive))

theorem grabbed_sublist (h : Disjoint parts txn dropRange) {removed : List DataPart}
    (hgrab : parts.grabActivePartsToRemoveForDropRange txn dropRange = .ok removed) :
    removed.Sublist (insideOf dropRange (parts.visibleParts txn dropRange)) := by
  obtain ⟨active, outdated, hv⟩ := exists_visible h.proper txn dropRange
  rcases grab_cases h hv with ⟨-, p, -, -, hend⟩ | ⟨-, -, hend⟩ | ⟨-, -, hend⟩
  · rw [hend] at hgrab
    split at hgrab
    · obtain rfl := Except.ok.inj hgrab
      exact List.nil_sublist _
    · cases hgrab
  · obtain rfl := Except.ok.inj (hend.symm.trans hgrab)
    rw [hv.visible_eq]
    exact ((List.sublist_append_left active outdated).filter _).map _
  · obtain rfl := Except.ok.inj (hend.symm.trans hgrab)
    rw [hv.visible_eq]

theorem mem_visibleParts {p : StatedPart} (hp : p ∈ parts.visibleParts txn dropRange) :
    p ∈ parts ∧ (p.state = .active ∨ p.state = .outdated) ∧ p.info.partitionId = dropRange.partitionId := by
  unfold visibleParts getVisibleDataPartsVectorInPartition at hp
  cases txn with
  | none =>
    obtain ⟨hmem, hstate, hid⟩ := mem_inPartition.1 hp
    exact ⟨hmem, Or.inl hstate, hid⟩
  | some isVisible =>
    rcases List.mem_append.1 (List.mem_filter.1 hp).1 with hp | hp
    · obtain ⟨hmem, hstate, hid⟩ := mem_inPartition.1 hp
      exact ⟨hmem, Or.inl hstate, hid⟩
    · obtain ⟨hmem, hstate, hid⟩ := mem_inPartition.1 hp
      exact ⟨hmem, Or.inr hstate, hid⟩

theorem nodup_inPartition (parts : DataParts) {state state' : DataPartState} (hne : state ≠ state') (partitionId : String) :
    (parts.inPartition state partitionId ++ parts.inPartition state' partitionId).Nodup := by
  have hnodup : parts.toList.Nodup := parts.sorted.imp fun hlt => ne_of_key_lt hlt
  refine (hnodup.filter _).append (hnodup.filter _) fun a ha ha' => ?_
  exact hne ((mem_inPartition.1 ha).2.1.symm.trans (mem_inPartition.1 ha').2.1)

theorem nodup_visibleParts (parts : DataParts) (txn : Option (DataPart → Bool)) (dropRange : PartInfo) :
    (parts.visibleParts txn dropRange).Nodup := by
  have hnodup := nodup_inPartition parts (by decide : DataPartState.active ≠ .outdated) dropRange.partitionId
  unfold visibleParts getVisibleDataPartsVectorInPartition
  cases txn with
  | none => exact (List.nodup_append.1 hnodup).1
  | some isVisible => exact hnodup.filter _

theorem nodup_toDataPart {l : List StatedPart} (hmem : ∀ p ∈ l, p ∈ parts) (hnodup : l.Nodup) :
    (l.map StatedPart.toDataPart).Nodup :=
  List.Nodup.map_on (fun p hp q hq heq => eq_of_key (hmem p hp) (hmem q hq) (congrArg DataPart.key heq)) hnodup

theorem nodup_grabbed (h : Disjoint parts txn dropRange) {removed : List DataPart}
    (hgrab : parts.grabActivePartsToRemoveForDropRange txn dropRange = .ok removed) : removed.Nodup := by
  have hmem : ∀ p ∈ (parts.visibleParts txn dropRange).filter fun part => part.info.Inside dropRange, p ∈ parts :=
    fun p hp => (mem_visibleParts (List.mem_filter.1 hp).1).1
  exact (nodup_toDataPart hmem ((nodup_visibleParts parts txn dropRange).filter _)).sublist (grabbed_sublist h hgrab)

theorem mem_grabbed (h : Disjoint parts txn dropRange) {removed : List DataPart}
    (hgrab : parts.grabActivePartsToRemoveForDropRange txn dropRange = .ok removed) {q : DataPart} (hq : q ∈ removed) :
    ∃ p ∈ parts.visibleParts txn dropRange, p.info.Inside dropRange ∧ p.toDataPart = q :=
  mem_insideOf.1 ((grabbed_sublist h hgrab).subset hq)

/-- The Outdated and Deleting parts that the range contains. -/
def inactiveWithin (parts : DataParts) (dropRange : PartInfo) : List StatedPart :=
  (parts.inPartition .outdated dropRange.partitionId ++ parts.inPartition .deleting dropRange.partitionId).filter fun part =>
    dropRange.Contains part.info

theorem mem_inactiveWithin {p : StatedPart} : p ∈ parts.inactiveWithin dropRange ↔
    p ∈ parts ∧ (p.state = .outdated ∨ p.state = .deleting) ∧ dropRange.Contains p.info := by
  rw [inactiveWithin, List.mem_filter, List.mem_append, mem_inPartition, mem_inPartition, decide_eq_true_eq]
  constructor
  · rintro ⟨⟨hp, hstate, -⟩ | ⟨hp, hstate, -⟩, hcontains⟩
    · exact ⟨hp, Or.inl hstate, hcontains⟩
    · exact ⟨hp, Or.inr hstate, hcontains⟩
  · rintro ⟨hp, hstate | hstate, hcontains⟩
    · exact ⟨Or.inl ⟨hp, hstate, hcontains.1.symm⟩, hcontains⟩
    · exact ⟨Or.inr ⟨hp, hstate, hcontains.1.symm⟩, hcontains⟩

theorem nodup_inactiveWithin (parts : DataParts) (dropRange : PartInfo) : (parts.inactiveWithin dropRange).Nodup :=
  (nodup_inPartition parts (by decide : DataPartState.outdated ≠ .deleting) dropRange.partitionId).filter _

theorem mem_of_toDataPart_mem {l : List StatedPart} (hmem : ∀ p ∈ l, p ∈ parts) {a : StatedPart} (ha : a ∈ parts)
    (hin : a.toDataPart ∈ l.map StatedPart.toDataPart) : a ∈ l := by
  obtain ⟨p, hp, heq⟩ := List.mem_map.1 hin
  rwa [eq_of_key ha (hmem p hp) (congrArg DataPart.key heq.symm)]

end DataParts

/-! ## The removal -/

namespace MergeTreeData

variable {data data' : MergeTreeData} {txn : Option (DataPart → Bool)} {dropRange : PartInfo} {i : ℕ}

/-- What `removePartsFromWorkingSet` does: the parts of `done` become Outdated, which are all of them unless
one was refused. -/
structure Outdates (refuses : DataPart → Bool) (remove : List DataPart) (data : MergeTreeData) (done : List DataPart)
    (result : MergeTreeData × Except PartsError Unit) : Prop where
  subset : done ⊆ remove
  parts_eq : result.1.parts = data.parts.withStates fun p s => if p ∈ done then .outdated else s
  transactions_eq : result.1.transactions = data.transactions
  all : result.2 = .ok () → remove ⊆ done
  ok : (∀ p, refuses p = false) → result.2 = .ok ()

theorem outdates_removePartsFromWorkingSet (refuses : DataPart → Bool) : ∀ {remove : List DataPart} {data : MergeTreeData},
    (∀ p ∈ remove, data.parts.Has p) → ∃ done, Outdates refuses remove data done (removePartsFromWorkingSet refuses remove data) := by
  intro remove
  induction remove with
  | nil =>
    intro data _
    exact ⟨[], List.Subset.refl _, (withStates_self fun a _ => if_neg List.not_mem_nil).symm, rfl, fun _ => List.Subset.refl _,
      fun _ => rfl⟩
  | cons part remove ih =>
    intro data hhas
    have hpart := hhas part List.mem_cons_self
    have hrest : ∀ p ∈ remove, data.parts.Has p := fun p hp => hhas p (List.mem_cons_of_mem part hp)
    obtain ⟨b, hb, rfl⟩ := id hpart
    unfold MergeTreeData.removePartsFromWorkingSet
    cases hrefuses : refuses b.toDataPart with
    | true =>
      rw [if_pos rfl]
      refine ⟨[], List.nil_subset _, (withStates_self fun a _ => if_neg List.not_mem_nil).symm, rfl, fun h => ?_, fun h => ?_⟩
      · cases h
      · rw [h] at hrefuses
        cases hrefuses
    | false =>
      rw [if_neg Bool.false_ne_true]
      dsimp only
      by_cases houtdated : data.parts.stateOf b.toDataPart = .outdated
      · -- it is Outdated already
        rw [if_neg (not_not.2 houtdated), if_neg (by rw [houtdated]; decide)]
        obtain ⟨done, hdone⟩ := ih hrest
        refine ⟨b.toDataPart :: done, List.cons_subset_cons _ hdone.subset, ?_, hdone.transactions_eq,
          fun h => List.cons_subset_cons _ (hdone.all h), hdone.ok⟩
        rw [hdone.parts_eq]
        refine withStates_congr fun a ha => ?_
        by_cases heq : a.toDataPart = b.toDataPart
        · obtain rfl := eq_of_key ha hb (congrArg DataPart.key heq)
          rw [stateOf_eq ha] at houtdated
          rw [houtdated, ite_self, ite_self]
        · simp only [List.mem_cons, heq, false_or]
      · rw [if_pos houtdated]
        -- the volume may change, the parts do not
        generalize hdata₁ : (if data.parts.stateOf b.toDataPart = .active then
          { data with volume := data.volume - b.volume } else data) = data₁
        have hparts₁ : data₁.parts = data.parts := by
          rw [← hdata₁]
          split
          · rfl
          · rfl
        have htransactions₁ : data₁.transactions = data.transactions := by
          rw [← hdata₁]
          split
          · rfl
          · rfl
        rw [hparts₁, hpart.modifyPartState]
        dsimp only
        have hrest₁ : ∀ p ∈ remove, (data.parts.withStates fun p s => if p.key = b.toDataPart.key then .outdated else s).Has p :=
          fun p hp => has_withStates.2 (hrest p hp)
        generalize hstates : (data.parts.withStates fun p s => if p.key = b.toDataPart.key then .outdated else s) = parts₁ at hrest₁ ⊢
        obtain ⟨done, hdone⟩ := @ih { data₁ with parts := parts₁ } hrest₁
        refine ⟨b.toDataPart :: done, List.cons_subset_cons _ hdone.subset, ?_, hdone.transactions_eq.trans htransactions₁,
          fun h => List.cons_subset_cons _ (hdone.all h), hdone.ok⟩
        rw [hdone.parts_eq, ← hstates, withStates_withStates]
        refine withStates_congr fun a ha => ?_
        by_cases heq : a.toDataPart = b.toDataPart
        · have hkey : a.toDataPart.key = b.toDataPart.key := congrArg DataPart.key heq
          have hin : a.toDataPart ∈ b.toDataPart :: done := List.mem_cons.2 (Or.inl heq)
          rw [if_pos hkey, ite_self, if_pos hin]
        · have hkey : a.toDataPart.key ≠ b.toDataPart.key := fun h => heq (by rw [eq_of_key ha hb h])
          rw [if_neg hkey]
          simp only [List.mem_cons, heq, false_or]

theorem mem_addEmptyPart (hfresh : data.transactions i = {}) (part : DataPart) (a : StatedPart) :
    (a ∈ data.parts → a ∈ (data.addEmptyPart i part).1.parts) ∧
      (a ∈ (data.addEmptyPart i part).1.parts → a ∈ data.parts ∨ a.state = .outdated) := by
  unfold addEmptyPart
  dsimp only
  cases hrename : data.renameTempPartAndReplaceImpl i part false with
  | error e => exact ⟨id, Or.inl⟩
  | ok data₁ =>
    obtain ⟨hnew, rfl⟩ := renameTempPartAndReplaceImpl_cases hrename
    have hprecommitted : ((data.preparePartForCommit i part true false).transactions i).precommittedParts.toList = [part] := by
      simp only [preparePartForCommit, setTransaction, Function.update_self, hfresh]
      rfl
    have hadded : (⟨part, .preActive⟩ : StatedPart) ∈ (data.preparePartForCommit i part true false).parts :=
      KeyedSet.mem_emplace.2 (Or.inr ⟨rfl, fun b hb => hnew b hb⟩)
    have hparts : ((data.preparePartForCommit i part true false).rollback i fun _ => false).1.parts =
        (data.preparePartForCommit i part true false).parts.withStates fun p s => if p ∈ [part] then .outdated else s := by
      unfold rollback
      rw [hprecommitted]
      dsimp only
      rw [if_neg (by simp), if_neg (by rw [List.isEmpty_iff]; exact List.ne_nil_of_mem hadded)]
      rw [show [part].filter (fun _ => false) = [] from rfl, show [part].filter (fun _ => !false) = [part] from rfl]
      rw [show removePartsImmediately [] (data.preparePartForCommit i part true false) = (_, .ok ()) from rfl]
      dsimp only
      rw [removePartsFromWorkingSet_inactive]
      · rfl
      · intro p hp
        obtain rfl := List.mem_singleton.1 hp
        exact ⟨_, hadded, rfl, fun h => by cases h⟩
    have hmem : (a ∈ data.parts → a ∈ ((data.preparePartForCommit i part true false).rollback i fun _ => false).1.parts) ∧
        (a ∈ ((data.preparePartForCommit i part true false).rollback i fun _ => false).1.parts → a ∈ data.parts ∨ a.state = .outdated) := by
      rw [hparts, mem_withStates]
      constructor
      · intro ha
        refine ⟨a, KeyedSet.mem_emplace.2 (Or.inl ha), rfl, (if_neg fun hin => ?_).symm⟩
        obtain heq := List.mem_singleton.1 hin
        exact hnew a ha (congrArg DataPart.key heq)
      · rintro ⟨b, hb, hpart, hstate⟩
        split at hstate
        · exact Or.inr hstate
        · rename_i hin
          rcases KeyedSet.mem_emplace.1 hb with hb | ⟨rfl, -⟩
          · obtain ⟨apart, astate⟩ := a
            obtain rfl : apart = b.toDataPart := hpart
            obtain rfl : astate = b.state := hstate
            exact Or.inl hb
          · exact absurd (List.mem_singleton_self part) hin
    dsimp only
    split
    · exact hmem
    · exact hmem

/-- The parts that `removePartsInRange` reports. -/
def reportedFor (data : MergeTreeData) (dropRange : PartInfo) (removed : List DataPart) : List DataPart :=
  removed ++ (data.parts.inactiveWithin dropRange).map StatedPart.toDataPart

/-- What `removePartsInRange` does when `removed` was grabbed: the parts of `done` become Outdated. An empty part
is made only when it is `asked` for. -/
structure Removes (data : MergeTreeData) (dropRange : PartInfo) (asked : Prop) (removed done : List DataPart)
    (result : MergeTreeData × Except PartsError PartsToRemove) : Prop where
  subset : done ⊆ removed
  stays : ∀ a ∈ data.parts, a.toDataPart ∉ done → a ∈ result.1.parts
  active : ∀ a ∈ result.1.parts, a.state = .active → a ∈ data.parts ∧ a.toDataPart ∉ done
  all : ∀ ok, result.2 = .ok ok → removed ⊆ done
  reported : ∀ ok, result.2 = .ok ok → ok.partsToRemoveFromZooKeeper.map Prod.fst = data.reportedFor dropRange removed
  emptyPart : ∀ ok e, result.2 = .ok ok → ok.emptyPart = some e →
    asked ∧ removed ≠ [] ∧ dropRange.minBlock = 0 ∧ e.info = emptyInfo dropRange removed

theorem removes_of_grabbed (hfresh : data.transactions i = {}) (h : Disjoint data.parts txn dropRange) {removed : List DataPart}
    (hgrab : data.parts.grabActivePartsToRemoveForDropRange txn dropRange = .ok removed) (refuses : DataPart → Bool)
    (createEmptyPart isNewSyntax : Bool) :
    ∃ done, Removes data dropRange (createEmptyPart = true ∧ isNewSyntax = true) removed done
        (data.removePartsInRange txn refuses i dropRange createEmptyPart isNewSyntax) ∧
      ((∀ p, refuses p = false) → createEmptyPart = false →
        ∃ ok, (data.removePartsInRange txn refuses i dropRange createEmptyPart isNewSyntax).2 = .ok ok) := by
  have hhas : ∀ p ∈ removed, data.parts.Has p := fun p hp => by
    obtain ⟨a, ha, -, heq⟩ := mem_grabbed h hgrab hp
    exact ⟨a, (mem_visibleParts ha).1, heq⟩
  obtain ⟨done, hdone⟩ := outdates_removePartsFromWorkingSet refuses hhas
  have hmem : ∀ a ∈ data.parts, a.toDataPart ∉ done → a ∈ (MergeTreeData.removePartsFromWorkingSet refuses removed data).1.parts := by
    intro a ha hnot
    rw [hdone.parts_eq]
    exact mem_withStates.2 ⟨a, ha, rfl, (if_neg hnot).symm⟩
  have hactive : ∀ a ∈ (MergeTreeData.removePartsFromWorkingSet refuses removed data).1.parts, a.state = .active →
      a ∈ data.parts ∧ a.toDataPart ∉ done := by
    intro a ha hstate
    rw [hdone.parts_eq] at ha
    obtain ⟨b, hb, hpart, hb'⟩ := mem_withStates.1 ha
    split at hb'
    · rw [hstate] at hb'
      cases hb'
    · obtain ⟨apart, astate⟩ := a
      obtain rfl : apart = b.toDataPart := hpart
      obtain rfl : astate = b.state := hb'
      exact ⟨hb, ‹_›⟩
  have hreported : ((removed.map fun part => (part, true)) ++
      ((data.parts.inactiveWithin dropRange).map fun part => (part.toDataPart, false))).map Prod.fst =
        data.reportedFor dropRange removed := by
    rw [List.map_append, List.map_map, List.map_map, reportedFor]
    exact congrArg (· ++ _) (List.map_id removed)
  refine ⟨done, ?_⟩
  unfold removePartsInRange
  rw [hgrab]
  dsimp only
  generalize hrun : MergeTreeData.removePartsFromWorkingSet refuses removed data = result at hdone hmem hactive
  obtain ⟨data₁, ended⟩ := result
  cases ended with
  | error e =>
    refine ⟨⟨hdone.subset, hmem, hactive, fun ok h => ?_, fun ok h => ?_, fun ok e h => ?_⟩, fun hrefuses => ?_⟩
    · cases h
    · cases h
    · cases h
    · cases hdone.ok hrefuses
  | ok _ =>
    have hall : removed ⊆ done := hdone.all rfl
    have hfresh₁ : data₁.transactions i = {} := by rw [hdone.transactions_eq, hfresh]
    -- no empty part is made
    have hplain : Removes data dropRange (createEmptyPart = true ∧ isNewSyntax = true) removed done (data₁, .ok { partsToRemoveFromZooKeeper := _ }) :=
      ⟨hdone.subset, hmem, hactive, fun _ _ => hall, fun ok h => by obtain rfl := Except.ok.inj h; exact hreported,
        fun ok e h he => by obtain rfl := Except.ok.inj h; cases he⟩
    dsimp only
    cases removed with
    | nil => exact ⟨hplain, fun _ _ => ⟨_, rfl⟩⟩
    | cons front rest =>
      dsimp only
      split
      · rename_i hcreate
        obtain ⟨hcreate, hsyntax, hmin⟩ := hcreate
        generalize hpart : ({ info := emptyInfo dropRange (front :: rest), partition := front.partition } : DataPart) = part
        have hinfo : part.info = emptyInfo dropRange (front :: rest) := by rw [← hpart]
        have hadd := mem_addEmptyPart hfresh₁ part
        generalize data₁.addEmptyPart i part = added at hadd ⊢
        obtain ⟨data₂, ended⟩ := added
        have hmem₂ : ∀ a ∈ data.parts, a.toDataPart ∉ done → a ∈ data₂.parts := fun a ha hnot => (hadd a).1 (hmem a ha hnot)
        have hactive₂ : ∀ a ∈ data₂.parts, a.state = .active → a ∈ data.parts ∧ a.toDataPart ∉ done := by
          intro a ha hstate
          refine hactive a (((hadd a).2 ha).resolve_right fun houtdated => ?_) hstate
          rw [hstate] at houtdated
          cases houtdated
        refine ⟨?_, fun _ hno => absurd hcreate (by rw [hno]; exact Bool.false_ne_true)⟩
        cases ended with
        | error e =>
          refine ⟨hdone.subset, hmem₂, hactive₂, fun ok h => ?_, fun ok h => ?_, fun ok e h => ?_⟩
          · cases h
          · cases h
          · cases h
        | ok _ =>
          refine ⟨hdone.subset, hmem₂, hactive₂, fun _ _ => hall, fun ok h => ?_, fun ok e h he => ?_⟩
          · obtain rfl := Except.ok.inj h
            exact hreported
          · obtain rfl := Except.ok.inj h
            obtain rfl := Option.some.inj he
            exact ⟨⟨hcreate, hsyntax⟩, List.cons_ne_nil _ _, not_not.1 hmin, hinfo⟩
      · exact ⟨hplain, fun _ _ => ⟨_, rfl⟩⟩

/-! ## What is promised -/

/-- **Each part is reported once**: the Active parts that are removed, and the Outdated and Deleting parts that
the range contains. -/
def ReportsOnce (data : MergeTreeData) (txn : Option (DataPart → Bool)) (i : ℕ) (dropRange : PartInfo) : Prop :=
  ∀ refuses createEmptyPart isNewSyntax ok,
    (data.removePartsInRange txn refuses i dropRange createEmptyPart isNewSyntax).2 = .ok ok → ∀ a ∈ data.parts,
      (a.state = .active ∧ a ∉ (data.removePartsInRange txn refuses i dropRange createEmptyPart isNewSyntax).1.parts) ∨
        ((a.state = .outdated ∨ a.state = .deleting) ∧ dropRange.Contains a.info) →
      (ok.partsToRemoveFromZooKeeper.map Prod.fst).count a.toDataPart = 1

/-- **Nothing is reported twice**: a visible Outdated part that the range contains is not grabbed, because an
Active part behind the range ends the loop before it, or a part that crosses the range does. -/
def NoneTwice (parts : DataParts) (txn : Option (DataPart → Bool)) (dropRange : PartInfo) : Prop :=
  ∀ p ∈ parts.visibleParts txn dropRange, p.state = .outdated → dropRange.Contains p.info →
    (∃ q ∈ parts.visibleParts txn dropRange, q.state = .active ∧ dropRange.maxBlock < q.info.minBlock) ∨
      ∃ q ∈ parts.visibleParts txn dropRange, q.info.Crosses dropRange

theorem toDataPart_mem_inactiveWithin {a : StatedPart} (ha : a ∈ data.parts) :
    a.toDataPart ∈ (data.parts.inactiveWithin dropRange).map StatedPart.toDataPart ↔
      (a.state = .outdated ∨ a.state = .deleting) ∧ dropRange.Contains a.info := by
  constructor
  · intro hin
    exact (mem_inactiveWithin.1 (mem_of_toDataPart_mem (fun p hp => (mem_inactiveWithin.1 hp).1) ha hin)).2
  · rintro ⟨hstate, hcontains⟩
    exact List.mem_map_of_mem (mem_inactiveWithin.2 ⟨ha, hstate, hcontains⟩)

theorem nodup_inactive (data : MergeTreeData) (dropRange : PartInfo) :
    ((data.parts.inactiveWithin dropRange).map StatedPart.toDataPart).Nodup :=
  nodup_toDataPart (fun _ hp => (mem_inactiveWithin.1 hp).1) (nodup_inactiveWithin data.parts dropRange)

theorem reportsOnce_iff (hfresh : data.transactions i = {}) (h : Disjoint data.parts txn dropRange) :
    data.ReportsOnce txn i dropRange ↔ NoneTwice data.parts txn dropRange := by
  constructor
  · intro honce p hp hstate hcontains
    by_contra hneither
    rw [not_or] at hneither
    obtain ⟨hbehind, hcross⟩ := hneither
    obtain ⟨active, outdated, hv⟩ := exists_visible h.proper txn dropRange
    have hvisible := hv.visible_eq
    have hpmem := (mem_visibleParts hp).1
    -- the whole of the visible parts is walked, and the part is grabbed
    obtain ⟨removed, hgrab, hin⟩ : ∃ removed, data.parts.grabActivePartsToRemoveForDropRange txn dropRange = .ok removed ∧
        p.toDataPart ∈ removed := by
      rcases grab_cases h hv with ⟨-, q, hq, hqcross, -⟩ | ⟨-, ⟨q, hq, hlt⟩, -⟩ | ⟨-, -, hend⟩
      · exact absurd ⟨q, hvisible ▸ hq, hqcross⟩ hcross
      · exact absurd ⟨q, hvisible ▸ List.mem_append_left _ hq, hv.state_active q hq, hlt⟩ hbehind
      · exact ⟨_, hend, mem_insideOf.2 ⟨p, hvisible ▸ hp, hcontains.inside, rfl⟩⟩
    obtain ⟨done, hremoves, hok⟩ := removes_of_grabbed hfresh h hgrab (fun _ => false) false false
    obtain ⟨ok, hended⟩ := hok (fun _ => rfl) rfl
    have hcount := honce _ _ _ ok hended p hpmem (Or.inr ⟨Or.inl hstate, hcontains⟩)
    rw [hremoves.reported ok hended, reportedFor, List.count_append] at hcount
    have hleft := List.count_pos_iff.2 hin
    have hright := List.count_pos_iff.2 ((toDataPart_mem_inactiveWithin hpmem).2 ⟨Or.inl hstate, hcontains⟩)
    omega
  · intro hnone refuses createEmptyPart isNewSyntax ok hended a ha hwhich
    cases hgrab : data.parts.grabActivePartsToRemoveForDropRange txn dropRange with
    | error e =>
      unfold removePartsInRange at hended
      rw [hgrab] at hended
      cases hended
    | ok removed =>
      obtain ⟨done, hremoves, -⟩ := removes_of_grabbed hfresh h hgrab refuses createEmptyPart isNewSyntax
      rw [hremoves.reported ok hended, reportedFor, List.count_append]
      rcases hwhich with ⟨hstate, hgone⟩ | ⟨hstate, hcontains⟩
      · have hin : a.toDataPart ∈ removed := by
          by_contra hnot
          exact hgone (hremoves.stays a ha fun hdone => hnot (hremoves.subset hdone))
        have hout : a.toDataPart ∉ (data.parts.inactiveWithin dropRange).map StatedPart.toDataPart := fun hinactive => by
          rcases ((toDataPart_mem_inactiveWithin ha).1 hinactive).1 with hother | hother
          · rw [hstate] at hother
            cases hother
          · rw [hstate] at hother
            cases hother
        rw [List.count_eq_one_of_mem (nodup_grabbed h hgrab) hin, List.count_eq_zero.2 hout]
      · have hin := (toDataPart_mem_inactiveWithin ha).2 ⟨hstate, hcontains⟩
        have hout : a.toDataPart ∉ removed := fun hremoved => by
          obtain ⟨x, hx, -, heq⟩ := mem_grabbed h hgrab hremoved
          obtain ⟨hxmem, hxstate, -⟩ := mem_visibleParts hx
          obtain rfl := eq_of_key hxmem ha (congrArg DataPart.key heq)
          have houtdated : x.state = .outdated := by
            rcases hxstate with hxactive | hxoutdated
            · rw [hxactive] at hstate
              rcases hstate with hstate | hstate
              · cases hstate
              · cases hstate
            · exact hxoutdated
          obtain ⟨active, outdated, hv⟩ := exists_visible h.proper txn dropRange
          have hvisible := hv.visible_eq
          rcases grab_cases h hv with ⟨-, p, -, -, hend⟩ | ⟨-, -, hend⟩ | ⟨hnocross, hnobehind, -⟩
          · rw [hend] at hgrab
            split at hgrab
            · obtain rfl := Except.ok.inj hgrab
              cases hremoved
            · cases hgrab
          · -- only Active parts are grabbed
            obtain rfl := Except.ok.inj (hend.symm.trans hgrab)
            obtain ⟨y, hy, -, hyx⟩ := mem_insideOf.1 hremoved
            have hymem := (hv.mem y (List.mem_append_left _ hy)).1
            obtain rfl := eq_of_key hymem hxmem (congrArg DataPart.key hyx)
            rw [hv.state_active y hy] at houtdated
            cases houtdated
          · rcases hnone x hx houtdated hcontains with ⟨q, hq, hqactive, hlt⟩ | ⟨q, hq, hqcross⟩
            · rw [hvisible] at hq
              refine hnobehind q ((List.mem_append.1 hq).resolve_right fun hqout => ?_) hlt
              rw [hv.state_outdated q hqout] at hqactive
              cases hqactive
            · exact hnocross q (hvisible ▸ hq) hqcross
        rw [List.count_eq_one_of_mem (nodup_inactive data dropRange) hin, List.count_eq_zero.2 hout]

end MergeTreeData

/-! ## The empty part -/

theorem lt_foldl_min {A K : Type} [LinearOrder K] (f : A → K) {x : K} : ∀ {l : List A} {start : K},
    x < l.foldl (fun least a => min least (f a)) start ↔ x < start ∧ ∀ a ∈ l, x < f a
  | [], start => by rw [List.foldl_nil, and_iff_left fun a ha => absurd ha List.not_mem_nil]
  | a :: l, start => by rw [List.foldl_cons, lt_foldl_min, lt_min_iff, List.forall_mem_cons, and_assoc]

theorem foldl_max_le {A K : Type} [LinearOrder K] (f : A → K) {x : K} : ∀ {l : List A} {start : K},
    l.foldl (fun greatest a => max greatest (f a)) start ≤ x ↔ start ≤ x ∧ ∀ a ∈ l, f a ≤ x
  | [], start => by rw [List.foldl_nil, and_iff_left fun a ha => absurd ha List.not_mem_nil]
  | a :: l, start => by rw [List.foldl_cons, foldl_max_le, max_le_iff, List.forall_mem_cons, and_assoc]

theorem lt_emptyInfo_minBlock {dropRange : PartInfo} {l : List DataPart} {x : ℤ} :
    x < (emptyInfo dropRange l).minBlock ↔ x < maxBlockNumber ∧ ∀ q ∈ l, x < q.info.minBlock :=
  lt_foldl_min fun q : DataPart => q.info.minBlock

/-- **The empty part contains the parts inside the range**, unless the level overflows. -/
theorem emptyInfo_contains_iff {dropRange : PartInfo} {l : List DataPart} (hid : ∀ q ∈ l, q.info.partitionId = dropRange.partitionId)
    (hinside : ∀ q ∈ l, q.info.Inside dropRange) :
    (∀ q ∈ l, (emptyInfo dropRange l).Contains q.info) ↔ ∀ q ∈ l, q.info.level + 1 < 2 ^ 32 := by
  set greatest := l.foldl (fun level part => max level part.info.level) 0 with hgreatest
  have hlevel : ∀ x, greatest ≤ x ↔ ∀ q ∈ l, q.info.level ≤ x := fun x => by
    rw [hgreatest]
    exact (foldl_max_le fun q : DataPart => q.info.level).trans (and_iff_right (Nat.zero_le x))
  have hmod : (emptyInfo dropRange l).level = (greatest + 1) % 2 ^ 32 := rfl
  constructor
  · intro hcontains q hq
    have hle : greatest ≤ (greatest + 1) % 2 ^ 32 := (hlevel _).2 fun p hp => hmod ▸ (hcontains p hp).2.2.2.1
    have hqle := (hlevel greatest).1 le_rfl q hq
    omega
  · intro hfits q hq
    have hgreatest_lt : greatest ≤ 2 ^ 32 - 2 := (hlevel _).2 fun p hp => by
      have hp' := hfits p hp
      omega
    have hqle := (hlevel greatest).1 le_rfl q hq
    have hqlt : q.info.level < (emptyInfo dropRange l).level := by
      rw [hmod, Nat.mod_eq_of_lt (by omega)]
      omega
    have hmin : (emptyInfo dropRange l).minBlock ≤ q.info.minBlock := by
      by_contra hlt
      exact lt_irrefl _ ((lt_emptyInfo_minBlock.1 (not_le.1 hlt)).2 q hq)
    have hmutation : q.info.mutation ≤ (emptyInfo dropRange l).mutation :=
      ((foldl_max_le fun q : DataPart => q.info.mutation).1 le_rfl).2 q hq
    exact ⟨(hid q hq).symm, hmin, (hinside q hq).2, hqlt.le, hmutation, Or.inr (Or.inl hqlt)⟩

namespace MergeTreeData

variable {data : MergeTreeData} {txn : Option (DataPart → Bool)} {dropRange : PartInfo} {i : ℕ}
  {createEmptyPart isNewSyntax : Bool}

/-- **The empty part**, when one is asked for, contains what is removed, and is disjoint from what stays Active. -/
structure EmptyOk (data : MergeTreeData) (txn : Option (DataPart → Bool)) (i : ℕ) (dropRange : PartInfo)
    (createEmptyPart isNewSyntax : Bool) : Prop where
  made : createEmptyPart = true → isNewSyntax = true → dropRange.minBlock = 0 →
    ∀ removed, data.parts.grabActivePartsToRemoveForDropRange txn dropRange = .ok removed → removed ≠ [] →
      (∀ q ∈ removed, (emptyInfo dropRange removed).Contains q.info) ∧
        ∀ a ∈ data.parts, a.state = .active → a.toDataPart ∉ removed → (emptyInfo dropRange removed).IsDisjoint a.info
  added : ∀ refuses ok e,
    (data.removePartsInRange txn refuses i dropRange createEmptyPart isNewSyntax).2 = .ok ok → ok.emptyPart = some e →
      (∀ a ∈ data.parts, a ∉ (data.removePartsInRange txn refuses i dropRange createEmptyPart isNewSyntax).1.parts →
        e.info.Contains a.info) ∧
      ∀ a ∈ (data.removePartsInRange txn refuses i dropRange createEmptyPart isNewSyntax).1.parts, a.state = .active →
        e.info.IsDisjoint a.info

/-- **Room for the empty part** that is asked for: its level does not overflow, and no Active part that is not
visible has blocks between the first removed part and the end of the range. -/
def EmptyClear (parts : DataParts) (txn : Option (DataPart → Bool)) (dropRange : PartInfo)
    (createEmptyPart isNewSyntax : Bool) : Prop :=
  createEmptyPart = true → isNewSyntax = true → dropRange.minBlock = 0 →
    (∀ q ∈ parts.visibleParts txn dropRange, ¬q.info.Crosses dropRange) →
    ∀ p ∈ parts.visibleParts txn dropRange, p.info.Inside dropRange → p.info.level + 1 < 2 ^ 32 ∧
      ∀ a ∈ parts, a.state = .active → a.info.partitionId = dropRange.partitionId → a ∉ parts.visibleParts txn dropRange →
        a.info.minBlock ≤ dropRange.maxBlock → a.info.maxBlock < min maxBlockNumber p.info.minBlock

theorem emptyOk_iff (hfresh : data.transactions i = {}) (h : Disjoint data.parts txn dropRange)
    (hok : GrabOk data.parts txn dropRange) :
    data.EmptyOk txn i dropRange createEmptyPart isNewSyntax ↔
      EmptyClear data.parts txn dropRange createEmptyPart isNewSyntax := by
  have hnodrop : dropRange.minBlock = 0 → ¬DropCovered data.parts txn dropRange := fun hzero hdrop => by
    exact hdrop.2.1.ne' hzero
  have hid : ∀ {removed}, data.parts.grabActivePartsToRemoveForDropRange txn dropRange = .ok removed → ∀ q ∈ removed,
      q.info.partitionId = dropRange.partitionId ∧ q.info.Inside dropRange := fun hgrab q hq => by
    obtain ⟨a, ha, hinside, rfl⟩ := mem_grabbed h hgrab hq
    exact ⟨(mem_visibleParts ha).2.2, hinside⟩
  have hvisible : ∀ {removed a}, data.parts.grabActivePartsToRemoveForDropRange txn dropRange = .ok removed → a ∈ data.parts →
      a.toDataPart ∈ removed → a ∈ data.parts.visibleParts txn dropRange := fun {removed a} hgrab ha hin => by
    obtain ⟨x, hx, -, heq⟩ := mem_grabbed h hgrab hin
    rwa [eq_of_key ha (mem_visibleParts hx).1 (congrArg DataPart.key heq.symm)]
  constructor
  · intro hempty hcreate hsyntax hzero hnocross p hp hinside
    obtain ⟨removed, hgrab, hmem⟩ := hok.grabs (hnodrop hzero) hnocross
    have hpin : p.toDataPart ∈ removed := (hmem _).2 ⟨p, hp, hinside, rfl⟩
    obtain ⟨hcontains, hdisjoint⟩ := hempty.made hcreate hsyntax hzero removed hgrab (List.ne_nil_of_mem hpin)
    have hlevels := (emptyInfo_contains_iff (fun q hq => (hid hgrab q hq).1) fun q hq => (hid hgrab q hq).2).1 hcontains
    refine ⟨hlevels _ hpin, fun a ha hstate haid hinvisible hle => ?_⟩
    rcases hdisjoint a ha hstate (fun hin => hinvisible (hvisible hgrab ha hin)) with hd | hd | hd
    · exact absurd haid.symm hd
    · obtain ⟨hmax, hall⟩ := lt_emptyInfo_minBlock.1 hd
      exact lt_min hmax (hall _ hpin)
    · exact absurd hd hle.not_gt
  · intro hclear
    have hmade : createEmptyPart = true → isNewSyntax = true → dropRange.minBlock = 0 →
        ∀ removed, data.parts.grabActivePartsToRemoveForDropRange txn dropRange = .ok removed → removed ≠ [] →
          (∀ q ∈ removed, (emptyInfo dropRange removed).Contains q.info) ∧
            ∀ a ∈ data.parts, a.state = .active → a.toDataPart ∉ removed → (emptyInfo dropRange removed).IsDisjoint a.info := by
      intro hcreate hsyntax hzero removed hgrab hne
      have hnocross : ∀ q ∈ data.parts.visibleParts txn dropRange, ¬q.info.Crosses dropRange := fun q hq hcross => by
        obtain ⟨e, herror⟩ := (hok.throws_iff (hnodrop hzero)).2 ⟨q, hq, hcross⟩
        rw [hgrab] at herror
        cases herror
      obtain ⟨removed', hgrab', hmem⟩ := hok.grabs (hnodrop hzero) hnocross
      obtain rfl := Except.ok.inj (hgrab'.symm.trans hgrab)
      have hroom : ∀ q ∈ removed', q.info.level + 1 < 2 ^ 32 ∧
          ∀ a ∈ data.parts, a.state = .active → a.info.partitionId = dropRange.partitionId →
            a ∉ data.parts.visibleParts txn dropRange → a.info.minBlock ≤ dropRange.maxBlock →
              a.info.maxBlock < min maxBlockNumber q.info.minBlock := by
        intro q hq
        obtain ⟨p, hp, hinside, rfl⟩ := (hmem q).1 hq
        exact hclear hcreate hsyntax hzero hnocross p hp hinside
      refine ⟨(emptyInfo_contains_iff (fun q hq => (hid hgrab q hq).1) fun q hq => (hid hgrab q hq).2).2
        fun q hq => (hroom q hq).1, fun a ha hstate hnot => ?_⟩
      -- the empty part reaches from the first block of a removed part to the end of the range
      by_cases haid : a.info.partitionId = dropRange.partitionId
      · refine Or.inr ?_
        by_cases hbehind : dropRange.maxBlock < a.info.minBlock
        · exact Or.inr hbehind
        · refine Or.inl (lt_emptyInfo_minBlock.2 ?_)
          by_cases hvis : a ∈ data.parts.visibleParts txn dropRange
          · -- a visible part that stays is in front of the range
            have hout : ¬a.info.Inside dropRange := fun hinside => hnot ((hmem _).2 ⟨a, hvis, hinside, rfl⟩)
            have hfront : a.info.maxBlock < dropRange.minBlock := by
              by_contra hle
              exact hnocross a hvis ⟨⟨not_lt.1 hle, not_lt.1 hbehind⟩, hout⟩
            refine ⟨hfront.trans (by rw [hzero]; decide), fun q hq => hfront.trans_le (hid hgrab q hq).2.1⟩
          · -- of an Active part that the transaction does not see only the condition speaks
            have hlt : ∀ q ∈ removed', a.info.maxBlock < min maxBlockNumber q.info.minBlock :=
              fun q hq => (hroom q hq).2 a ha hstate haid hvis (not_lt.1 hbehind)
            obtain ⟨q, hq⟩ := List.exists_mem_of_ne_nil _ hne
            exact ⟨(hlt q hq).trans_le (min_le_left _ _), fun q hq => (hlt q hq).trans_le (min_le_right _ _)⟩
      · exact Or.inl fun heq => haid heq.symm
    refine ⟨hmade, fun refuses ok e hended hsome => ?_⟩
    cases hgrab : data.parts.grabActivePartsToRemoveForDropRange txn dropRange with
    | error error =>
      unfold removePartsInRange at hended
      rw [hgrab] at hended
      cases hended
    | ok removed =>
      obtain ⟨done, hremoves, -⟩ := removes_of_grabbed hfresh h hgrab refuses createEmptyPart isNewSyntax
      obtain ⟨⟨hcreate, hsyntax⟩, hne, hzero, hinfo⟩ := hremoves.emptyPart ok e hended hsome
      obtain ⟨hcontains, hdisjoint⟩ := hmade hcreate hsyntax hzero removed hgrab hne
      rw [hinfo]
      refine ⟨fun a ha hgone => hcontains a.toDataPart ?_, fun a ha hstate => ?_⟩
      · by_contra hnot
        exact hgone (hremoves.stays a ha fun hdone => hnot (hremoves.subset hdone))
      · obtain ⟨hmem, hnot⟩ := hremoves.active a ha hstate
        exact hdisjoint a hmem hstate fun hin => hnot (hremoves.all ok hended hin)

/-- **No part outside the range is removed**, however the removal ends. -/
def RemovesInside (data : MergeTreeData) (txn : Option (DataPart → Bool)) (i : ℕ) (dropRange : PartInfo) : Prop :=
  ∀ refuses createEmptyPart isNewSyntax, ∀ a ∈ data.parts,
    a ∉ (data.removePartsInRange txn refuses i dropRange createEmptyPart isNewSyntax).1.parts →
      a.info.partitionId = dropRange.partitionId ∧ a.info.Inside dropRange

theorem removesInside (hfresh : data.transactions i = {}) (h : Disjoint data.parts txn dropRange) :
    data.RemovesInside txn i dropRange := by
  intro refuses createEmptyPart isNewSyntax a ha hgone
  cases hgrab : data.parts.grabActivePartsToRemoveForDropRange txn dropRange with
  | error e =>
    unfold removePartsInRange at hgone
    rw [hgrab] at hgone
    exact absurd ha hgone
  | ok removed =>
    obtain ⟨done, hremoves, -⟩ := removes_of_grabbed hfresh h hgrab refuses createEmptyPart isNewSyntax
    have hin : a.toDataPart ∈ removed := by
      by_contra hnot
      exact hgone (hremoves.stays a ha fun hdone => hnot (hremoves.subset hdone))
    obtain ⟨x, hx, hinside, heq⟩ := mem_grabbed h hgrab hin
    obtain rfl := eq_of_key (mem_visibleParts hx).1 ha (congrArg DataPart.key heq)
    exact ⟨(mem_visibleParts hx).2.2, hinside⟩

/-- What executing a drop range promises. -/
structure DropRangeOk (data : MergeTreeData) (txn : Option (DataPart → Bool)) (i : ℕ) (dropRange : PartInfo)
    (createEmptyPart isNewSyntax : Bool) : Prop where
  grabs : GrabOk data.parts txn dropRange
  reports : data.ReportsOnce txn i dropRange
  removes : data.RemovesInside txn i dropRange
  empty : data.EmptyOk txn i dropRange createEmptyPart isNewSyntax

/-- When it keeps the promise. -/
structure DropRangeClear (parts : DataParts) (txn : Option (DataPart → Bool)) (dropRange : PartInfo)
    (createEmptyPart isNewSyntax : Bool) : Prop where
  grabs : GrabClear parts txn dropRange
  reports : NoneTwice parts txn dropRange
  empty : EmptyClear parts txn dropRange createEmptyPart isNewSyntax

/-- **A drop range is executed as promised exactly when nothing visible is hidden or reported twice**, and there
is room for the empty part that is asked for. -/
theorem dropRangeOk_iff (data : MergeTreeData) (txn : Option (DataPart → Bool)) (i : ℕ) (dropRange : PartInfo)
    (createEmptyPart isNewSyntax : Bool) (hfresh : data.transactions i = {}) (h : Disjoint data.parts txn dropRange) :
    data.DropRangeOk txn i dropRange createEmptyPart isNewSyntax ↔
      DropRangeClear data.parts txn dropRange createEmptyPart isNewSyntax := by
  constructor
  · rintro ⟨hgrabs, hreports, -, hempty⟩
    exact ⟨(grabOk_iff h).1 hgrabs, (reportsOnce_iff hfresh h).1 hreports, (emptyOk_iff hfresh h hgrabs).1 hempty⟩
  · rintro ⟨hgrabs, hreports, hempty⟩
    have hok := (grabOk_iff h).2 hgrabs
    exact ⟨hok, (reportsOnce_iff hfresh h).2 hreports, removesInside hfresh h, (emptyOk_iff hfresh h hok).2 hempty⟩

/-- Parts of which the range `all_0_3` removes one. -/
def dropped : MergeTreeData where
  parts := ⟨[⟨⟨{ partitionId := "all", minBlock := 1, maxBlock := 3, level := 1 }, "", 0, 0⟩, .active⟩,
    ⟨⟨{ partitionId := "all", minBlock := 2, maxBlock := 2 }, "", 0, 0⟩, .outdated⟩,
    ⟨⟨{ partitionId := "all", minBlock := 5, maxBlock := 5 }, "", 0, 0⟩, .active⟩], by decide +kernel⟩

/-- A drop range. -/
def upToThree : PartInfo := { partitionId := "all", minBlock := 0, maxBlock := 3, level := maxLevel }

theorem disjoint_dropped : Disjoint dropped.parts none upToThree where
  proper := by decide +kernel
  range := by decide
  disjoint := by decide +kernel

theorem dropRangeOk_dropped : dropped.DropRangeOk none 0 upToThree true true := by
  refine (dropRangeOk_iff dropped none 0 upToThree true true rfl disjoint_dropped).2 ⟨⟨fun hneg => ?_, ?_⟩, ?_, ?_⟩
  · exact absurd hneg (by decide)
  · rintro - ⟨p, hp, hstate, -⟩
    have hactive : ∀ p ∈ dropped.parts.visibleParts none upToThree, p.state = .active := by decide +kernel
    rw [hactive p hp] at hstate
    cases hstate
  · intro p hp hstate
    have hactive : ∀ p ∈ dropped.parts.visibleParts none upToThree, p.state = .active := by decide +kernel
    rw [hactive p hp] at hstate
    cases hstate
  · intro _ _ _ _ p hp _
    have hlevel : ∀ p ∈ dropped.parts.visibleParts none upToThree, p.info.level + 1 < 2 ^ 32 := by decide +kernel
    have hvisible : ∀ a ∈ dropped.parts.toList, a.state = .active → a ∈ dropped.parts.visibleParts none upToThree := by decide +kernel
    exact ⟨hlevel p hp, fun a ha hstate _ hnot => absurd (hvisible a ha hstate) hnot⟩

/-- An Active part behind the range, and an Outdated one inside it that a snapshot sees. -/
def hidden : MergeTreeData where
  parts := ⟨[⟨⟨{ partitionId := "all", minBlock := 2, maxBlock := 2 }, "", 0, 0⟩, .outdated⟩,
    ⟨⟨{ partitionId := "all", minBlock := 5, maxBlock := 5 }, "", 0, 0⟩, .active⟩], by decide +kernel⟩

/-- The visible part inside the range is not grabbed. -/
theorem not_dropRangeOk_hidden : Disjoint hidden.parts (some fun _ => true) upToThree ∧
    ¬hidden.DropRangeOk (some fun _ => true) 0 upToThree false true := by
  refine ⟨⟨by decide +kernel, by decide, by decide +kernel⟩, fun hok => ?_⟩
  have hgrab : hidden.parts.grabActivePartsToRemoveForDropRange (some fun _ => true) upToThree = .ok [] := by rfl
  have hnodrop : ¬DropCovered hidden.parts (some fun _ => true) upToThree := fun hdrop => absurd hdrop.2.1 (by decide)
  have hinside : ∀ p ∈ hidden.parts.visibleParts (some fun _ => true) upToThree,
      p.info.Inside upToThree ∨ upToThree.maxBlock < p.info.minBlock := by decide +kernel
  have hvisible : (⟨⟨{ partitionId := "all", minBlock := 2, maxBlock := 2 }, "", 0, 0⟩, .outdated⟩ : StatedPart) ∈
      hidden.parts.visibleParts (some fun _ => true) upToThree := by decide +kernel
  obtain ⟨removed, hremoved, hmem⟩ := hok.grabs.grabs hnodrop fun p hp hcross => by
    rcases hinside p hp with hin | hbehind
    · exact hcross.2 hin
    · exact absurd hcross.1.2 hbehind.not_ge
  obtain rfl := Except.ok.inj (hgrab.symm.trans hremoved)
  exact absurd ((hmem _).2 ⟨_, hvisible, by decide, rfl⟩) List.not_mem_nil

end MergeTreeData

end MergeTree
