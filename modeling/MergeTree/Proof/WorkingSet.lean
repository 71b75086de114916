import MergeTree.Proof.PartInfo
import MergeTree.Spec.WorkingSet

/-!
# Active parts do not overlap

Around the place of a part stand all Active parts that meet it, as long as Active parts are
pairwise disjoint; so `getActivePartsToReplace` sees every one of them (`toReplace_of_ok`).
The loop of `commit` then leaves the parts in the states of `stateAfter` (`Turned.commitParts`),
unless a precommitted part is followed by one that contains it.
-/

namespace MergeTree

namespace DataParts

variable {parts : DataParts} {info : PartInfo}
variable {a : StatedPart} {coveredParts : List DataPart} {state : DataPartState}

/-! ## Walks -/

/-- Active parts are pairwise disjoint, and the infos of all parts are proper. -/
structure Laid (parts : DataParts) : Prop where
  proper : ∀ part ∈ parts, part.info.Proper
  disjoint : ∀ a ∈ parts, ∀ b ∈ parts, a.state = .active → b.state = .active → a ≠ b → a.info.IsDisjoint b.info

/-- Behind an end that does not intersect the part, a walk meets only disjoint parts. -/
def Clear (info : PartInfo) (walk : List StatedPart) : Prop :=
  ∀ pre x post, walk = pre ++ x :: post → info.IsDisjoint x.info ∨ x.info.Contains info → ∀ y ∈ post, info.IsDisjoint y.info

theorem mem_toTheLeft {part : StatedPart} : part ∈ parts.toTheLeft info state ↔
    part ∈ parts ∧ part.key < info.toTuple ∧ part.state = state ∧ part.info.kind = info.kind := by
  unfold toTheLeft
  rw [List.mem_reverse, List.mem_filter, KeyedSet.mem_below, decide_eq_true_eq, and_assoc]

theorem mem_toTheRight {part : StatedPart} : part ∈ parts.toTheRight info state ↔
    part ∈ parts ∧ info.toTuple ≤ part.key ∧ part.state = state ∧ part.info.kind = info.kind := by
  unfold toTheRight
  rw [List.mem_filter, KeyedSet.mem_above, decide_eq_true_eq, and_assoc]

theorem ne_of_key_lt {a b : StatedPart} (h : a.key < b.key) : a ≠ b := by
  rintro rfl
  exact lt_irrefl _ h

theorem Laid.clear_toTheLeft (h : parts.Laid) (hinfo : info.Proper) : Clear info (parts.toTheLeft info .active) := by
  intro pre x post hwalk _ y hy
  have hsorted : (parts.toTheLeft info .active).Pairwise fun a b => b.key < a.key := by
    unfold toTheLeft
    rw [List.pairwise_reverse]
    exact (parts.sorted.sublist (parts.below_sublist _)).filter _
  rw [hwalk, List.pairwise_append, List.pairwise_cons] at hsorted
  obtain ⟨hx, hxlt, hxstate, -⟩ := mem_toTheLeft.1 (hwalk ▸ by simp : x ∈ parts.toTheLeft info .active)
  obtain ⟨hy', -, hystate, -⟩ := mem_toTheLeft.1 (hwalk ▸ by simp [hy] : y ∈ parts.toTheLeft info .active)
  have hyx := hsorted.2.1.1 y hy
  exact (PartInfo.isDisjoint_of_before (h.proper y hy') (h.proper x hx) hinfo hyx.le hxlt.le
    (h.disjoint y hy' x hx hystate hxstate (ne_of_key_lt hyx))).symm

theorem Laid.clear_toTheRight (h : parts.Laid) (hinfo : info.Proper) : Clear info (parts.toTheRight info .active) := by
  intro pre x post hwalk hend y hy
  have hsorted : (parts.toTheRight info .active).Pairwise fun a b => a.key < b.key :=
    (parts.sorted.sublist (parts.above_sublist _)).filter _
  rw [hwalk, List.pairwise_append, List.pairwise_cons] at hsorted
  obtain ⟨hx, hle, hxstate, -⟩ := mem_toTheRight.1 (hwalk ▸ by simp : x ∈ parts.toTheRight info .active)
  obtain ⟨hy', -, hystate, -⟩ := mem_toTheRight.1 (hwalk ▸ by simp [hy] : y ∈ parts.toTheRight info .active)
  have hxy := hsorted.2.1.1 y hy
  rcases hend with hdisjoint | hcontains
  · exact (PartInfo.isDisjoint_of_after (h.proper x hx) (h.proper y hy') hinfo hle hxy.le hdisjoint.symm).symm
  · exact hcontains.isDisjoint (h.disjoint x hx y hy' hxstate hystate (ne_of_key_lt hxy))

theorem mem_of_walkEnd {walk : List StatedPart} {x : StatedPart} (h : walkEnd info walk = some x) :
    x ∈ walk ∧ ¬ info.Contains x.info := by
  have hmem := List.mem_of_mem_head? h
  have hnot := List.head?_dropWhile_not (covered info) walk
  unfold walkEnd at h
  rw [h] at hnot
  refine ⟨(List.dropWhile_suffix _).subset hmem, ?_⟩
  simpa [covered] using hnot

/-- What a walk shows, when it does not end at a part that intersects the part. -/
structure Walked (info : PartInfo) (walk : List StatedPart) : Prop where
  takeWhile_eq : walk.takeWhile (covered info) = walk.filter (covered info)
  meets : ∀ y ∈ walk, info.Contains y.info ∨ y.info.Contains info ∨ info.IsDisjoint y.info
  covering : ∀ y ∈ walk, y.info.Contains info → ¬ info.Contains y.info → coveringEnd info walk = some y

theorem Clear.walked {walk : List StatedPart} (h : Clear info walk) (hproper : ∀ y ∈ walk, y.info.Proper) (hinfo : info.Proper)
    (hend : intersectedEnd info walk = none) : Walked info walk := by
  have hsplit := List.takeWhile_append_dropWhile (p := covered info) (l := walk)
  have htake : ∀ y ∈ walk.takeWhile (covered info), info.Contains y.info := fun y hy => by
    simpa [covered] using List.mem_takeWhile_imp hy
  unfold intersectedEnd walkEnd at hend
  cases hdrop : walk.dropWhile (covered info) with
  | nil =>
    rw [hdrop, List.append_nil] at hsplit
    rw [hsplit] at htake
    exact ⟨by rw [hsplit, List.filter_eq_self.2 fun y hy => by simpa [covered] using htake y hy], fun y hy => Or.inl (htake y hy),
      fun y hy _ hnot => absurd (htake y hy) hnot⟩
  | cons x post =>
    rw [hdrop, List.head?_cons] at hend
    have hend' : info.IsDisjoint x.info ∨ x.info.Contains info := by
      by_contra hno
      rw [not_or] at hno
      simp [hno.1, hno.2] at hend
    have hx : walkEnd info walk = some x := by
      unfold walkEnd
      rw [hdrop, List.head?_cons]
    obtain ⟨hmem, hnot⟩ := mem_of_walkEnd hx
    have hpost : ∀ y ∈ post, info.IsDisjoint y.info := h _ x post (hdrop ▸ hsplit.symm) hend'
    have hmem' : ∀ y ∈ walk, y ∈ walk.takeWhile (covered info) ∨ y = x ∨ y ∈ post := by
      intro y hy
      rw [← hsplit, hdrop, List.mem_append, List.mem_cons] at hy
      exact hy
    have hpostmem : ∀ y ∈ post, y ∈ walk := fun y hy =>
      (List.dropWhile_suffix _).subset (hdrop ▸ List.mem_cons_of_mem x hy : y ∈ walk.dropWhile (covered info))
    refine ⟨?_, fun y hy => ?_, fun y hy hcontains hynot => ?_⟩
    · conv_rhs => rw [← hsplit]
      rw [List.filter_append, List.filter_eq_self.2 fun y hy => by simpa [covered] using htake y hy, List.filter_eq_nil_iff.2,
        List.append_nil]
      intro y hy
      rw [hdrop] at hy
      rcases List.mem_cons.1 hy with rfl | hy
      · simpa [covered] using hnot
      · unfold covered
        rw [decide_eq_true_eq]
        exact fun hcontains => hcontains.not_isDisjoint (hproper y (hpostmem y hy)).blocks (hpost y hy)
    · rcases hmem' y hy with hy | rfl | hy
      · exact Or.inl (htake y hy)
      · exact Or.inr hend'.symm
      · exact Or.inr (Or.inr (hpost y hy))
    · unfold coveringEnd
      rw [hx]
      rcases hmem' y hy with hy | rfl | hy
      · exact absurd (htake y hy) hynot
      · simp [hcontains]
      · exact absurd (hpost y hy).symm (hcontains.not_isDisjoint hinfo.blocks)

/-- **What `getActivePartsToReplace` finds.** -/
structure ToReplace (parts : DataParts) (info : PartInfo) (coveringPart : Option DataPart) (coveredParts : List DataPart) : Prop where
  meets : ∀ a ∈ parts, a.state = .active → info.Contains a.info ∨ a.info.Contains info ∨ info.IsDisjoint a.info
  not_eqv : ∀ a ∈ parts, a.state = .active → ¬ a.info.Eqv info
  coveringPart_eq_none : coveringPart = none ↔ ∀ a ∈ parts, a.state = .active → ¬ a.info.Contains info
  coveredParts_eq : coveredParts =
    (parts.toList.filter fun a => a.state = .active ∧ info.Contains a.info).map StatedPart.toDataPart

theorem mem_left_or_right (parts : DataParts) (ha : a ∈ parts) (hstate : a.state = state)
    (hkind : a.info.kind = info.kind) : a ∈ parts.toTheLeft info state ∨ a ∈ parts.toTheRight info state := by
  rw [mem_toTheLeft, mem_toTheRight]
  rcases lt_or_ge a.key info.toTuple with hlt | hle
  · exact Or.inl ⟨ha, hlt, hstate, hkind⟩
  · exact Or.inr ⟨ha, hle, hstate, hkind⟩

theorem filter_sides (h : parts.Laid) (hinfo : info.Proper) :
    ((parts.toTheLeft info .active).filter (covered info)).reverse ++ (parts.toTheRight info .active).filter (covered info) =
      parts.toList.filter fun a => a.state = .active ∧ info.Contains a.info := by
  have hside : ∀ l : List StatedPart, (∀ a ∈ l, a ∈ parts) →
      (l.filter fun part => part.state = .active ∧ part.info.kind = info.kind).filter (covered info) =
        l.filter fun a => a.state = .active ∧ info.Contains a.info := by
    intro l hl
    rw [List.filter_filter]
    refine List.filter_congr fun a ha => ?_
    have hkind : info.Contains a.info → a.info.kind = info.kind := fun hcontains =>
      ((h.proper a (hl a ha)).kind_eq hinfo hcontains.1.symm)
    unfold covered
    rw [← Bool.decide_and, decide_eq_decide]
    tauto
  unfold toTheLeft toTheRight
  rw [List.filter_reverse, List.reverse_reverse, hside _ fun a ha => (parts.below_sublist _).subset ha,
    hside _ fun a ha => (parts.above_sublist _).subset ha, ← List.filter_append, parts.below_append_above]

/-- **All Active parts that meet the part are found.** -/
theorem Laid.toReplace_of_ok (h : parts.Laid) (hinfo : info.Proper) {coveringPart : Option DataPart}
    (hok : parts.getActivePartsToReplace info = .ok (coveringPart, coveredParts)) : ToReplace parts info coveringPart coveredParts := by
  unfold getActivePartsToReplace at hok
  dsimp only at hok
  split at hok
  · cases hok
  rename_i hintersected
  split at hok
  · cases hok
  rename_i hduplicate
  obtain ⟨hcovering, hcovered⟩ := Prod.mk.inj (Except.ok.inj hok)
  unfold getPartHierarchy at hcovering hcovered hintersected hduplicate
  dsimp only at hcovering hcovered hintersected hduplicate
  have hends : intersectedEnd info (parts.toTheLeft info .active) = none ∧ intersectedEnd info (parts.toTheRight info .active) = none := by
    simpa using hintersected
  have hleft := (h.clear_toTheLeft hinfo).walked (fun y hy => h.proper y (mem_toTheLeft.1 hy).1) hinfo hends.1
  have hright := (h.clear_toTheRight hinfo).walked (fun y hy => h.proper y (mem_toTheRight.1 hy).1) hinfo hends.2
  have hnot : ∀ a ∈ parts, a.state = .active → ¬ a.info.Eqv info := by
    intro a ha hstate heqv
    have hkind := (PartInfo.eqv_iff.1 heqv).1
    rcases mem_left_or_right parts ha hstate hkind with hl | hr
    · exact (mem_toTheLeft.1 hl).2.1.ne heqv
    · have hmem : a ∈ (parts.toTheRight info .active).takeWhile (covered info) := by
        rw [hright.takeWhile_eq, List.mem_filter]
        exact ⟨hr, decide_eq_true heqv.symm.contains⟩
      rw [Option.not_isSome_iff_eq_none, Option.map_eq_none_iff, List.find?_eq_none] at hduplicate
      exact hduplicate a (List.mem_append_left _ hmem) (decide_eq_true heqv)
  have hsides : ∀ a ∈ parts, a.state = .active → a.info.partitionId = info.partitionId →
      a ∈ parts.toTheLeft info .active ∨ a ∈ parts.toTheRight info .active := fun a ha hstate hpartition =>
    mem_left_or_right parts ha hstate ((h.proper a ha).kind_eq hinfo hpartition)
  refine ⟨fun a ha hstate => ?_, hnot, ?_, ?_⟩
  · by_cases hpartition : a.info.partitionId = info.partitionId
    · rcases hsides a ha hstate hpartition with hl | hr
      · exact hleft.meets a hl
      · exact hright.meets a hr
    · exact Or.inr (Or.inr (Or.inl fun heq => hpartition heq.symm))
  · rw [← hcovering, List.getLast?_eq_none_iff, List.map_eq_nil_iff, List.append_eq_nil_iff, Option.toList_eq_nil_iff,
      Option.toList_eq_nil_iff]
    constructor
    · rintro ⟨hl, hr⟩ a ha hstate hcontains
      have hnotContains : ¬ info.Contains a.info := fun hback =>
        hnot a ha hstate (hcontains.antisymm hback ((h.proper a ha).kind_eq hinfo hcontains.1))
      rcases hsides a ha hstate hcontains.1 with hmem | hmem
      · rw [hleft.covering a hmem hcontains hnotContains] at hl
        cases hl
      · rw [hright.covering a hmem hcontains hnotContains] at hr
        cases hr
    · intro hnone
      have hend : ∀ walk : List StatedPart, (∀ a ∈ walk, a ∈ parts ∧ a.state = .active) → coveringEnd info walk = none := by
        intro walk hwalk
        unfold coveringEnd
        rw [Option.filter_eq_none_iff]
        intro x hx hcontains
        obtain ⟨hxmem, hxstate⟩ := hwalk x (mem_of_walkEnd hx).1
        exact hnone x hxmem hxstate (by simpa using hcontains)
      exact ⟨hend _ fun a ha => ⟨(mem_toTheLeft.1 ha).1, (mem_toTheLeft.1 ha).2.2.1⟩,
        hend _ fun a ha => ⟨(mem_toTheRight.1 ha).1, (mem_toTheRight.1 ha).2.2.1⟩⟩
  · rw [← hcovered, hleft.takeWhile_eq, hright.takeWhile_eq, filter_sides h hinfo]
    have hhead : ((parts.toList.filter fun a => a.state = .active ∧ info.Contains a.info).head?.any
        fun part => part.info.Eqv info) = false := by
      cases hfirst : (parts.toList.filter fun a => a.state = .active ∧ info.Contains a.info).head? with
      | none => rfl
      | some a =>
        have hmem := List.mem_filter.1 (List.mem_of_mem_head? hfirst)
        exact decide_eq_false (hnot a hmem.1 (of_decide_eq_true hmem.2).1)
    rw [hhead, if_neg Bool.false_ne_true]

/-! ## States -/

section States

variable {g k : DataPart → DataPartState → DataPartState}

/-- The part in another state. -/
def withState (a : StatedPart) (state : DataPartState) : StatedPart := { a with state }

theorem key_withState (a : StatedPart) (state : DataPartState) : (withState a state).key = a.key := rfl

/-- The parts with new states. -/
def withStates (parts : DataParts) (g : DataPart → DataPartState → DataPartState) : DataParts :=
  parts.map (fun a => withState a (g a.toDataPart a.state)) fun a => key_withState a _

theorem toList_withStates (parts : DataParts) (g : DataPart → DataPartState → DataPartState) :
    (parts.withStates g).toList = parts.toList.map fun a => withState a (g a.toDataPart a.state) := rfl

theorem mem_withStates :
    a ∈ parts.withStates g ↔ ∃ b ∈ parts, a.toDataPart = b.toDataPart ∧ a.state = g b.toDataPart b.state := by
  rw [KeyedSet.mem_def, toList_withStates, List.mem_map]
  refine exists_congr fun b => and_congr_right fun _ => ?_
  constructor
  · rintro rfl
    exact ⟨rfl, rfl⟩
  · rintro ⟨hpart, hstate⟩
    obtain ⟨part, state⟩ := a
    obtain rfl : part = b.toDataPart := hpart
    obtain rfl : state = _ := hstate
    rfl

theorem withStates_withStates (parts : DataParts) (g k : DataPart → DataPartState → DataPartState) :
    (parts.withStates g).withStates k = parts.withStates fun part state => k part (g part state) := by
  refine KeyedSet.ext ?_
  rw [toList_withStates, toList_withStates, toList_withStates, List.map_map]
  rfl

theorem withStates_congr (h : ∀ a ∈ parts, g a.toDataPart a.state = k a.toDataPart a.state) : parts.withStates g = parts.withStates k := by
  refine KeyedSet.ext (List.map_congr_left fun a ha => ?_)
  rw [h a ha]

theorem withStates_self (h : ∀ a ∈ parts, g a.toDataPart a.state = a.state) : parts.withStates g = parts := by
  refine KeyedSet.ext ?_
  rw [toList_withStates]
  conv_rhs => rw [← List.map_id parts.toList]
  refine List.map_congr_left fun a ha => ?_
  rw [h a ha]
  rfl

theorem setState_eq (parts : DataParts) (part : DataPart) (state : DataPartState) :
    parts.setState part state = parts.withStates fun p s => if p.key = part.key then state else s := by
  refine KeyedSet.ext (List.map_congr_left fun a _ => ?_)
  change (if a.toDataPart.key = part.key then withState a state else a) =
    withState a (if a.toDataPart.key = part.key then state else a.state)
  split <;> rfl

/-- The part is in the set. -/
def Has (parts : DataParts) (part : DataPart) : Prop := ∃ a ∈ parts, a.toDataPart = part

theorem has_withStates {part : DataPart} : (parts.withStates g).Has part ↔ parts.Has part := by
  constructor
  · rintro ⟨a, ha, rfl⟩
    obtain ⟨b, hb, hpart, -⟩ := mem_withStates.1 ha
    exact ⟨b, hb, hpart.symm⟩
  · rintro ⟨b, hb, rfl⟩
    exact ⟨withState b (g b.toDataPart b.state), mem_withStates.2 ⟨b, hb, rfl, rfl⟩, rfl⟩

theorem eq_of_key {a b : StatedPart} (ha : a ∈ parts) (hb : b ∈ parts) (h : a.toDataPart.key = b.toDataPart.key) : a = b :=
  KeyedSet.eq_of_key_eq ha hb h

theorem Has.eq_of_key {p q : DataPart} (hp : parts.Has p) (hq : parts.Has q) (h : p.key = q.key) : p = q := by
  obtain ⟨a, ha, rfl⟩ := hp
  obtain ⟨b, hb, rfl⟩ := hq
  rw [DataParts.eq_of_key ha hb h]

theorem Has.find {part : DataPart} (h : parts.Has part) : ∃ a ∈ parts, a.toDataPart = part ∧ parts.find part.key = some a := by
  obtain ⟨a, ha, rfl⟩ := h
  exact ⟨a, ha, rfl, KeyedSet.find_eq_some.2 ⟨ha, rfl⟩⟩

theorem stateOf_eq (ha : a ∈ parts) : parts.stateOf a.toDataPart = a.state := by
  unfold stateOf
  rw [show parts.find a.toDataPart.key = some a from KeyedSet.find_eq_some.2 ⟨ha, rfl⟩]
  exact if_pos rfl

theorem Has.modifyPartState {part : DataPart} (h : parts.Has part) (state : DataPartState) :
    parts.modifyPartState part state = .ok (parts.withStates fun p s => if p.key = part.key then state else s) := by
  obtain ⟨a, -, hpart, hfind⟩ := h.find
  unfold DataParts.modifyPartState
  rw [hfind]
  dsimp only
  rw [if_neg (not_not.2 hpart), setState_eq]

theorem modifyPartState_eq_ok {part : DataPart} {parts' : DataParts} (h : parts.modifyPartState part state = .ok parts') :
    parts.Has part ∧ parts' = parts.withStates fun p s => if p.key = part.key then state else s := by
  have hhas : parts.Has part := by
    unfold modifyPartState at h
    cases hfind : parts.find part.key with
    | none =>
      rw [hfind] at h
      cases h
    | some a =>
      rw [hfind] at h
      dsimp only at h
      split at h
      · cases h
      · exact ⟨a, (KeyedSet.find_eq_some.1 hfind).1, not_not.1 ‹_›⟩
  rw [hhas.modifyPartState] at h
  exact ⟨hhas, (Except.ok.inj h).symm⟩

theorem modifyPartStates_eq (state : DataPartState) : ∀ {l : List DataPart} {parts : DataParts}, (∀ part ∈ l, parts.Has part) →
    modifyPartStates state l parts = .ok (parts.withStates fun p s => if p ∈ l then state else s) := by
  intro l
  induction l with
  | nil =>
    intro parts _
    rw [withStates_self fun a _ => if_neg List.not_mem_nil]
    rfl
  | cons part rest ih =>
    intro parts h
    have hpart := h part List.mem_cons_self
    unfold modifyPartStates
    rw [hpart.modifyPartState]
    change modifyPartStates state rest _ = _
    rw [ih fun p hp => has_withStates.2 (h p (List.mem_cons_of_mem _ hp)), withStates_withStates]
    congr 1
    refine withStates_congr fun a ha => ?_
    by_cases hkey : a.toDataPart.key = part.key
    · rw [if_pos hkey, if_pos (List.mem_cons.2 (Or.inl (Has.eq_of_key ⟨a, ha, rfl⟩ hpart hkey))), ite_self]
    · have hne : a.toDataPart ≠ part := fun heq => hkey (by rw [heq])
      simp only [hkey, hne, List.mem_cons, false_or, if_false]

end States

/-! ## The volume of Active parts -/

section Volume

/-- What a part adds to the volume in its state. -/
def activeVolumeOf (a : StatedPart) : DataVolume := if a.state = .active then a.toDataPart.volume else 0

/-- The volume of the Active parts. -/
def activeVolume (parts : DataParts) : DataVolume := (parts.toList.map activeVolumeOf).sum

theorem sum_filter (l : List StatedPart) (q : StatedPart → Bool) :
    (((l.filter q).map StatedPart.toDataPart).map DataPart.volume).sum =
      (l.map fun a => if q a then a.toDataPart.volume else 0).sum := by
  induction l with
  | nil => rfl
  | cons a l ih =>
    rw [List.filter_cons, List.map_cons, List.sum_cons, ← ih]
    split
    · rw [List.map_cons, List.map_cons, List.sum_cons]
    · rw [zero_add]

theorem filter_key (ha : a ∈ parts) : parts.toList.filter (fun b => b.key = a.key) = [a] :=
  KeyedSet.toList_eq_of_mem (S := parts.keep fun b => b.key = a.key) (List.pairwise_singleton _ a) fun b => by
    rw [KeyedSet.mem_keep, decide_eq_true_eq, List.mem_singleton]
    refine ⟨fun h => KeyedSet.eq_of_key_eq h.1 ha h.2, ?_⟩
    rintro rfl
    exact ⟨ha, rfl⟩

theorem activeVolume_activate (ha : a ∈ parts) (hstate : a.state ≠ .active) {part : DataPart} (hpart : a.toDataPart = part) :
    activeVolume (parts.withStates fun p s => if p.key = part.key then .active else s) = parts.activeVolume + part.volume := by
  subst hpart
  have hsum := sum_filter parts.toList fun b => b.key = a.key
  rw [filter_key ha, List.map_singleton, List.map_singleton, List.sum_singleton] at hsum
  unfold activeVolume
  rw [hsum, toList_withStates, List.map_map, ← List.sum_map_add]
  refine congrArg List.sum (List.map_congr_left fun b hb => ?_)
  unfold activeVolumeOf
  dsimp only [Function.comp_apply, withState]
  by_cases hkey : b.toDataPart.key = a.toDataPart.key
  · obtain rfl := eq_of_key hb ha hkey
    rw [if_pos hkey, if_pos rfl, if_neg hstate, zero_add, if_pos (by simp)]
  · have hkey' : ¬ decide (b.key = a.key) = true := fun h => hkey (of_decide_eq_true h)
    rw [if_neg hkey, if_neg hkey', add_zero]

theorem activeVolume_outdate {l : List DataPart} (q : StatedPart → Bool)
    (hl : l = (parts.toList.filter q).map StatedPart.toDataPart) (hq : ∀ a ∈ parts, q a = true → a.state = .active) :
    activeVolume (parts.withStates fun p s => if p ∈ l then .outdated else s) + (l.map DataPart.volume).sum = parts.activeVolume := by
  unfold activeVolume
  rw [hl, sum_filter, toList_withStates, List.map_map, ← List.sum_map_add]
  refine congrArg List.sum (List.map_congr_left fun b hb => ?_)
  unfold activeVolumeOf
  dsimp only [Function.comp_apply, withState]
  have hmem : b.toDataPart ∈ (parts.toList.filter q).map StatedPart.toDataPart ↔ q b = true := by
    rw [List.mem_map]
    constructor
    · rintro ⟨a, ha, heq⟩
      obtain ⟨hamem, hqa⟩ := List.mem_filter.1 ha
      obtain rfl := eq_of_key hamem hb (by rw [heq])
      exact hqa
    · exact fun h => ⟨b, List.mem_filter.2 ⟨hb, h⟩, rfl⟩
  by_cases hqb : q b = true
  · rw [if_pos (hmem.2 hqb), if_pos hqb, if_pos (hq b hb hqb), if_neg (by decide), zero_add]
  · rw [if_neg (mt hmem.1 hqb), if_neg hqb, add_zero]

theorem activeVolume_congr {g : DataPart → DataPartState → DataPartState}
    (h : ∀ a ∈ parts, g a.toDataPart a.state = .active ↔ a.state = .active) : activeVolume (parts.withStates g) = parts.activeVolume := by
  unfold activeVolume
  rw [toList_withStates, List.map_map]
  refine congrArg List.sum (List.map_congr_left fun a ha => ?_)
  unfold activeVolumeOf
  dsimp only [Function.comp_apply, withState]
  exact if_congr (h a ha) rfl rfl

end Volume

/-! ## The loop of `commit` -/

section Commit

variable {precommitted done : List DataPart} {part p q : DataPart}

/-- The part should become Active: neither an Active part nor another precommitted one contains it. -/
def BecomesActive (parts : DataParts) (precommitted : List DataPart) (part : DataPart) : Prop :=
  (∀ a ∈ parts, a.state = .active → ¬ a.info.Contains part.info) ∧ ∀ q ∈ precommitted, q ≠ part → ¬ q.info.Contains part.info

open Classical in
/-- The state of a part after some precommitted parts. -/
noncomputable def stateAfter (parts : DataParts) (precommitted done : List DataPart) (part : DataPart) (state : DataPartState) :
    DataPartState :=
  if part ∈ done then if BecomesActive parts precommitted part then .active else .outdated
  else if state = .active ∧ ∃ p ∈ done, BecomesActive parts precommitted p ∧ p.info.Contains part.info then .outdated
  else state

/-- The Active parts that a part contains. -/
def coveredBy (parts : DataParts) (part : DataPart) : List DataPart :=
  (parts.toList.filter fun a => a.state = .active ∧ part.info.Contains a.info).map StatedPart.toDataPart

/-- The precommitted parts of a transaction are in the set, but not Active. -/
structure Precommitted (parts : DataParts) (precommitted : List DataPart) : Prop where
  sorted : precommitted.Pairwise fun p q => p.key < q.key
  inactive : ∀ p ∈ precommitted, ∃ a ∈ parts, a.toDataPart = p ∧ a.state ≠ .active

theorem stateAfter_eq_active : stateAfter parts precommitted done part state = .active ↔
    (part ∈ done ∧ BecomesActive parts precommitted part) ∨
      (part ∉ done ∧ state = .active ∧ ∀ p ∈ done, BecomesActive parts precommitted p → ¬ p.info.Contains part.info) := by
  unfold stateAfter
  by_cases hdone : part ∈ done
  · by_cases hactive : BecomesActive parts precommitted part
    · simp [hdone, hactive]
    · simp [hdone, hactive]
  · rw [if_neg hdone]
    split
    · rename_i hcovered
      obtain ⟨-, p, hp, hactive, hcontains⟩ := hcovered
      simp only [reduceCtorEq, hdone, false_and, not_false_eq_true, true_and, false_or, false_iff, not_and]
      exact fun _ hall => hall p hp hactive hcontains
    · rename_i hnot
      simp only [hdone, false_and, not_false_eq_true, true_and, false_or]
      exact ⟨fun hstate => ⟨hstate, fun p hp hactive hcontains => hnot ⟨hstate, p, hp, hactive, hcontains⟩⟩, fun h => h.1⟩

theorem Precommitted.ne_active (h : Precommitted parts precommitted) {b : StatedPart} (hb : b ∈ parts)
    (hmem : b.toDataPart ∈ precommitted) : b.state ≠ .active := by
  obtain ⟨a, ha, heq, hstate⟩ := h.inactive _ hmem
  rwa [eq_of_key hb ha (by rw [heq])]

theorem Precommitted.has (h : Precommitted parts precommitted) (hp : p ∈ precommitted) : parts.Has p := by
  obtain ⟨a, ha, heq, -⟩ := h.inactive p hp
  exact ⟨a, ha, heq⟩

/-- What contains another part is larger. -/
def size (info : PartInfo) : ℤ := info.maxBlock - info.minBlock + info.level + info.mutation

theorem size_lt {a b : PartInfo} (h : a.Contains b) (hne : ¬ b.Contains a) : size b < size a := by
  obtain ⟨hpartition, hmin, hmax, hlevel, hmutation, hstrict⟩ := h
  by_contra hle
  refine hne ⟨hpartition.symm, ?_, ?_, ?_, ?_, ?_⟩ <;> unfold size at hle
  · omega
  · omega
  · omega
  · omega
  · exact Or.inl (by omega)

/-- Around every precommitted part there is one that no other precommitted part contains. -/
theorem exists_outermost (hp : p ∈ precommitted) :
    ∃ q ∈ precommitted, q.info.Contains p.info ∧ ∀ r ∈ precommitted, r.info.Contains q.info → q.info.Contains r.info := by
  obtain ⟨q, hq, hmax⟩ := (precommitted.toFinset.filter fun q => q.info.Contains p.info).exists_max_image (fun q => size q.info)
    ⟨p, Finset.mem_filter.2 ⟨List.mem_toFinset.2 hp, PartInfo.Contains.refl _⟩⟩
  obtain ⟨hqmem, hqp⟩ := Finset.mem_filter.1 hq
  refine ⟨q, List.mem_toFinset.1 hqmem, hqp, fun r hr hrq => ?_⟩
  by_contra hnot
  have hle := hmax r (Finset.mem_filter.2 ⟨List.mem_toFinset.2 hr, hrq.trans hqp⟩)
  exact absurd (size_lt hrq hnot) (not_lt.2 hle)

theorem Laid.eq_of_contains (h : parts.Laid) (hp : parts.Has p) (hq : parts.Has q) (hpq : p.info.Contains q.info)
    (hqp : q.info.Contains p.info) : p = q := by
  refine hp.eq_of_key hq ?_
  obtain ⟨a, ha, rfl⟩ := hp
  obtain ⟨b, hb, rfl⟩ := hq
  exact hpq.antisymm hqp ((h.proper a ha).kind_eq (h.proper b hb) hpq.1)

/-- A precommitted part that should not become Active is inside an Active part or one that should. -/
theorem Precommitted.exists_containing (h : Precommitted parts precommitted) (hlaid : parts.Laid) (hp : p ∈ precommitted)
    (hnot : ¬ BecomesActive parts precommitted p) :
    (∃ a ∈ parts, a.state = .active ∧ a.info.Contains p.info) ∨
      ∃ q ∈ precommitted, q ≠ p ∧ BecomesActive parts precommitted q ∧ q.info.Contains p.info := by
  by_cases hactive : ∃ a ∈ parts, a.state = .active ∧ a.info.Contains p.info
  · exact Or.inl hactive
  obtain ⟨q, hq, hqp, houter⟩ := exists_outermost hp
  have hnone : ∀ a ∈ parts, a.state = .active → ¬ a.info.Contains q.info := fun a ha hstate hcontains =>
    hactive ⟨a, ha, hstate, hcontains.trans hqp⟩
  have hother : ∀ r ∈ precommitted, r ≠ q → ¬ r.info.Contains q.info := fun r hr hne hcontains =>
    hne (hlaid.eq_of_contains (h.has hr) (h.has hq) hcontains (houter r hr hcontains))
  refine Or.inr ⟨q, hq, ?_, ⟨hnone, hother⟩, hqp⟩
  rintro rfl
  exact hnot ⟨hnone, hother⟩

/-- A precommitted part that a later one contains is inside an Active part or an earlier one. -/
def CoveredBefore (parts : DataParts) (precommitted : List DataPart) : Prop :=
  ∀ p ∈ precommitted, ∀ q ∈ precommitted, p.key < q.key → q.info.Contains p.info →
    (∃ a ∈ parts, a.state = .active ∧ a.info.Contains p.info) ∨
      ∃ r ∈ precommitted, r.key < p.key ∧ r.info.Contains p.info

theorem CoveredBefore.exists_containing (hbefore : CoveredBefore parts precommitted) (h : Precommitted parts precommitted)
    (hlaid : parts.Laid) (hp : p ∈ precommitted) (hnot : ¬ BecomesActive parts precommitted p) :
    (∃ a ∈ parts, a.state = .active ∧ a.info.Contains p.info) ∨
      ∃ q ∈ precommitted, q.key < p.key ∧ BecomesActive parts precommitted q ∧ q.info.Contains p.info := by
  by_cases hactive : ∃ a ∈ parts, a.state = .active ∧ a.info.Contains p.info
  · exact Or.inl hactive
  obtain ⟨q, hq, hne, hbecomes, hqp⟩ := (h.exists_containing hlaid hp hnot).resolve_left hactive
  rcases lt_trichotomy q.key p.key with hlt | heq | hgt
  · exact Or.inr ⟨q, hq, hlt, hbecomes, hqp⟩
  · exact absurd ((h.has hq).eq_of_key (h.has hp) heq) hne
  obtain ⟨r, hr, hrp, hrcontains⟩ := (hbefore p hp q hq hgt hqp).resolve_left hactive
  -- the outermost of the parts before `p` that contain it
  obtain ⟨t, ht, htr, houter⟩ := exists_outermost (List.mem_filter.2 ⟨hr, decide_eq_true hrp⟩ :
    r ∈ precommitted.filter fun x => x.key < p.key)
  obtain ⟨htmem, htp⟩ := List.mem_filter.1 ht
  have htp := of_decide_eq_true htp
  have htcontains := htr.trans hrcontains
  have hnone : ¬ ∃ a ∈ parts, a.state = .active ∧ a.info.Contains t.info := by
    rintro ⟨a, ha, hstate, hat⟩
    exact hactive ⟨a, ha, hstate, hat.trans htcontains⟩
  have honly : ∀ x ∈ precommitted, x.key < p.key → x.info.Contains t.info → x = t := fun x hx hxp hxt =>
    hlaid.eq_of_contains (h.has hx) (h.has htmem) hxt (houter x (List.mem_filter.2 ⟨hx, decide_eq_true hxp⟩) hxt)
  refine Or.inr ⟨t, htmem, htp, ⟨fun a ha hstate hat => hnone ⟨a, ha, hstate, hat⟩, fun x hx hne hxt => ?_⟩, htcontains⟩
  by_cases hxp : x.key < p.key
  · exact hne (honly x hx hxp hxt)
  · obtain ⟨y, hy, hyt, hycontains⟩ := (hbefore t htmem x hx (htp.trans_le (not_lt.1 hxp)) hxt).resolve_left hnone
    rw [honly y hy (hyt.trans htp) hycontains] at hyt
    exact lt_irrefl _ hyt

open Classical in
/-- The parts that the loop has returned. -/
noncomputable def returnedParts (parts : DataParts) (precommitted done : List DataPart) : List DataPart :=
  done.flatMap fun p => if BecomesActive parts precommitted p then coveredBy parts p else []

/-- After some turns of the loop: states, counters and returned parts are those of `stateAfter`. -/
structure Turned (parts : DataParts) (precommitted done : List DataPart) (c : MergeTreeData.Committing) : Prop where
  parts_eq : c.parts = parts.withStates (stateAfter parts precommitted done)
  laid : c.parts.Laid
  volume : parts.activeVolume + c.diff = c.parts.activeVolume
  returned : c.totalCoveredParts = returnedParts parts precommitted done

variable {c c' : MergeTreeData.Committing} {rest : List DataPart}

theorem Turned.active_of_done (h : Turned parts precommitted done c) (hP : Precommitted parts precommitted)
    (hdone : ∀ q ∈ done, q ∈ precommitted) (hq : q ∈ done) (hactive : BecomesActive parts precommitted q) :
    ∃ a ∈ c.parts, a.toDataPart = q ∧ a.state = .active := by
  obtain ⟨b, hb, rfl⟩ := hP.has (hdone q hq)
  refine ⟨withState b .active, h.parts_eq ▸ mem_withStates.2 ⟨b, hb, rfl, ?_⟩, rfl, rfl⟩
  exact (stateAfter_eq_active.2 (Or.inl ⟨hq, hactive⟩)).symm

theorem Turned.active_of_active (h : Turned parts precommitted done c) (hP : Precommitted parts precommitted)
    (hdone : ∀ q ∈ done, q ∈ precommitted) (ha : a ∈ parts) (hstate : a.state = .active)
    (hcovered : ∀ q ∈ done, BecomesActive parts precommitted q → ¬ q.info.Contains a.info) :
    ∃ b ∈ c.parts, b.toDataPart = a.toDataPart ∧ b.state = .active := by
  refine ⟨withState a .active, h.parts_eq ▸ mem_withStates.2 ⟨a, ha, rfl, ?_⟩, rfl, rfl⟩
  exact (stateAfter_eq_active.2 (Or.inr ⟨fun hmem => hP.ne_active ha (hdone _ hmem) hstate, hstate, hcovered⟩)).symm

theorem Turned.of_active (h : Turned parts precommitted done c) {b : StatedPart} (hb : b ∈ c.parts) (hstate : b.state = .active) :
    (b.toDataPart ∈ done ∧ BecomesActive parts precommitted b.toDataPart) ∨
      (b ∈ parts ∧ b.toDataPart ∉ done ∧ ∀ q ∈ done, BecomesActive parts precommitted q → ¬ q.info.Contains b.info) := by
  rw [h.parts_eq] at hb
  obtain ⟨a, ha, hpart, hafter⟩ := mem_withStates.1 hb
  rw [hstate] at hafter
  rcases stateAfter_eq_active.1 hafter.symm with hcase | ⟨hnot, hactive, hall⟩
  · rw [← hpart] at hcase
    exact Or.inl hcase
  · have hba : b = a := by
      obtain ⟨bpart, bstate⟩ := b
      obtain ⟨apart, astate⟩ := a
      dsimp only at hpart hstate hactive
      rw [hpart, hstate, hactive]
    subst hba
    exact Or.inr ⟨ha, hnot, hall⟩

/-- **The part becomes Active exactly when nothing covers it at its turn**, as what covers it is Active then. -/
theorem Turned.coveringPart_eq_none (h : Turned parts precommitted done c) (hP : Precommitted parts precommitted) (hlaid : parts.Laid)
    (hsplit : precommitted = done ++ p :: rest) (hbefore : CoveredBefore parts precommitted)
    {coveringPart : Option DataPart} (hreplace : ToReplace c.parts p.info coveringPart coveredParts) :
    coveringPart = none ↔ BecomesActive parts precommitted p := by
  have hdone : ∀ q ∈ done, q ∈ precommitted := fun q hq => hsplit ▸ List.mem_append_left _ hq
  have hp : p ∈ precommitted := hsplit ▸ by simp
  rw [hreplace.coveringPart_eq_none]
  constructor
  · intro hnone
    have hactive : ¬ ∃ a ∈ parts, a.state = .active ∧ a.info.Contains p.info := by
      rintro ⟨a, ha, hstate, hcontains⟩
      by_cases hcovered : ∃ q ∈ done, BecomesActive parts precommitted q ∧ q.info.Contains a.info
      · obtain ⟨q, hq, hbecomes, hqa⟩ := hcovered
        obtain ⟨b, hb, rfl, hbstate⟩ := h.active_of_done hP hdone hq hbecomes
        exact hnone b hb hbstate (hqa.trans hcontains)
      · push Not at hcovered
        obtain ⟨b, hb, heq, hbstate⟩ := h.active_of_active hP hdone ha hstate hcovered
        refine hnone b hb hbstate ?_
        rw [heq]
        exact hcontains
    by_contra hnot
    rcases hbefore.exists_containing hP hlaid hp hnot with hcase | ⟨q, hq, hlt, hbecomes, hqp⟩
    · exact hactive hcase
    · have hsorted := hP.sorted
      rw [hsplit, List.pairwise_append, List.pairwise_cons] at hsorted
      rw [hsplit, List.mem_append, List.mem_cons] at hq
      rcases hq with hq | rfl | hq
      · obtain ⟨b, hb, rfl, hbstate⟩ := h.active_of_done hP hdone hq hbecomes
        exact hnone b hb hbstate hqp
      · exact lt_irrefl _ hlt
      · exact lt_asymm hlt (hsorted.2.1.1 q hq)
  · intro hbecomes b hb hstate hcontains
    rcases h.of_active hb hstate with ⟨hq, -⟩ | ⟨hbmem, -, -⟩
    · refine hbecomes.2 _ (hdone _ hq) ?_ hcontains
      intro heq
      have hpairwise := hP.sorted
      rw [hsplit, List.pairwise_append] at hpairwise
      exact lt_irrefl _ (heq ▸ hpairwise.2.2 _ hq p List.mem_cons_self)
    · exact hbecomes.1 b hbmem hstate hcontains

theorem mem_coveredBy (ha : a ∈ parts) :
    a.toDataPart ∈ coveredBy parts p ↔ a.state = .active ∧ p.info.Contains a.info := by
  unfold coveredBy
  rw [List.mem_map]
  constructor
  · rintro ⟨b, hb, heq⟩
    obtain ⟨hbmem, hb⟩ := List.mem_filter.1 hb
    obtain rfl := eq_of_key hbmem ha (by rw [heq])
    exact of_decide_eq_true hb
  · exact fun h => ⟨a, List.mem_filter.2 ⟨ha, decide_eq_true h⟩, rfl⟩

theorem stateAfter_obsolete (hP : Precommitted parts precommitted) (hp : p ∈ precommitted)
    (hnot : ¬ BecomesActive parts precommitted p) (ha : a ∈ parts) :
    stateAfter parts precommitted (done ++ [p]) a.toDataPart a.state =
      if a.toDataPart.key = p.key then .outdated else stateAfter parts precommitted done a.toDataPart a.state := by
  by_cases hkey : a.toDataPart.key = p.key
  · obtain rfl := Has.eq_of_key ⟨a, ha, rfl⟩ (hP.has hp) hkey
    unfold stateAfter
    rw [if_pos (by simp), if_neg hnot, if_pos rfl]
  · have hne : a.toDataPart ≠ p := fun heq => hkey (by rw [heq])
    rw [if_neg hkey]
    unfold stateAfter
    by_cases hmem : a.toDataPart ∈ done
    · rw [if_pos (List.mem_append_left _ hmem), if_pos hmem]
    · rw [if_neg (by simp [hmem, hne]), if_neg hmem]
      classical
      refine if_congr ⟨?_, ?_⟩ rfl rfl
      · rintro ⟨hstate, q, hq, hactive, hcontains⟩
        rcases List.mem_append.1 hq with hq | hq
        · exact ⟨hstate, q, hq, hactive, hcontains⟩
        · exact absurd (List.mem_singleton.1 hq ▸ hactive) hnot
      · exact fun ⟨hstate, q, hq, hrest⟩ => ⟨hstate, q, List.mem_append_left _ hq, hrest⟩

theorem stateAfter_activated (hP : Precommitted parts precommitted) (hdone : ∀ q ∈ done, q ∈ precommitted) (hp : p ∈ precommitted)
    (hbecomes : BecomesActive parts precommitted p) (ha : a ∈ parts) :
    stateAfter parts precommitted (done ++ [p]) a.toDataPart a.state =
      if a.toDataPart.key = p.key then .active
      else if a.toDataPart ∈ coveredBy parts p then .outdated else stateAfter parts precommitted done a.toDataPart a.state := by
  by_cases hkey : a.toDataPart.key = p.key
  · obtain rfl := Has.eq_of_key ⟨a, ha, rfl⟩ (hP.has hp) hkey
    unfold stateAfter
    rw [if_pos (by simp), if_pos hbecomes, if_pos rfl]
  · have hne : a.toDataPart ≠ p := fun heq => hkey (by rw [heq])
    rw [if_neg hkey]
    unfold stateAfter
    by_cases hmem : a.toDataPart ∈ done
    · have hnotCovered : a.toDataPart ∉ coveredBy parts p := fun h => hP.ne_active ha (hdone _ hmem) ((mem_coveredBy ha).1 h).1
      rw [if_pos (List.mem_append_left _ hmem), if_neg hnotCovered, if_pos hmem]
    · rw [if_neg (by simp [hmem, hne]), if_neg hmem]
      by_cases hcovered : a.toDataPart ∈ coveredBy parts p
      · obtain ⟨hstate, hcontains⟩ := (mem_coveredBy ha).1 hcovered
        have hinside : a.state = .active ∧ ∃ q ∈ done ++ [p], BecomesActive parts precommitted q ∧ q.info.Contains a.info :=
          ⟨hstate, p, by simp, hbecomes, hcontains⟩
        rw [if_pos hcovered, if_pos hinside]
      · rw [if_neg hcovered]
        classical
        refine if_congr ⟨?_, ?_⟩ rfl rfl
        · rintro ⟨hstate, q, hq, hactive, hcontains⟩
          rcases List.mem_append.1 hq with hq | hq
          · exact ⟨hstate, q, hq, hactive, hcontains⟩
          · exact absurd ((mem_coveredBy ha).2 ⟨hstate, List.mem_singleton.1 hq ▸ hcontains⟩) hcovered
        · exact fun ⟨hstate, q, hq, hrest⟩ => ⟨hstate, q, List.mem_append_left _ hq, hrest⟩

theorem Turned.has (h : Turned parts precommitted done c) (hp : parts.Has p) : c.parts.Has p := by
  rw [h.parts_eq]
  exact has_withStates.2 hp

theorem Turned.ne_active (h : Turned parts precommitted done c) (hP : Precommitted parts precommitted) (hp : p ∈ precommitted)
    (hpdone : p ∉ done) {b : StatedPart} (hb : b ∈ c.parts) (heq : b.toDataPart = p) : b.state ≠ .active := by
  intro hstate
  rcases h.of_active hb hstate with ⟨hmem, -⟩ | ⟨hbmem, -, -⟩
  · exact hpdone (heq ▸ hmem)
  · exact hP.ne_active hbmem (heq ▸ hp) hstate

theorem Laid.of_active {parts' : DataParts} (h : parts.Laid) (hproper : ∀ a ∈ parts', a.info.Proper)
    (hactive : ∀ a ∈ parts', a.state = .active → a ∈ parts) : parts'.Laid :=
  ⟨hproper, fun a ha b hb hastate hbstate hne =>
    h.disjoint a (hactive a ha hastate) b (hactive b hb hbstate) hastate hbstate hne⟩

theorem Turned.obsolete (h : Turned parts precommitted done c) (hP : Precommitted parts precommitted) (hp : p ∈ precommitted)
    (hpdone : p ∉ done) (hnot : ¬ BecomesActive parts precommitted p) :
    Turned parts precommitted (done ++ [p])
      { c with parts := c.parts.withStates fun q s => if q.key = p.key then .outdated else s } := by
  refine ⟨?_, ?_, ?_, ?_⟩
  · dsimp only
    rw [h.parts_eq, withStates_withStates]
    exact withStates_congr fun a ha => (stateAfter_obsolete hP hp hnot ha).symm
  · refine h.laid.of_active (fun a ha => ?_) fun a ha hstate => ?_
    · obtain ⟨b, hb, hpart, -⟩ := mem_withStates.1 ha
      have hproper := h.laid.proper b hb
      rwa [← hpart] at hproper
    · obtain ⟨b, hb, hpart, hb'⟩ := mem_withStates.1 ha
      split at hb'
      · rw [hstate] at hb'
        cases hb'
      · obtain ⟨apart, astate⟩ := a
        obtain rfl : apart = b.toDataPart := hpart
        obtain rfl : astate = b.state := hb'
        exact hb
  · dsimp only
    rw [activeVolume_congr fun a ha => ?_]
    · exact h.volume
    · split
      · rename_i hkey
        have heq : a.toDataPart = p := Has.eq_of_key ⟨a, ha, rfl⟩ (h.has (hP.has hp)) hkey
        exact iff_of_false (by decide) (h.ne_active hP hp hpdone ha heq)
      · rfl
  · unfold returnedParts
    rw [List.flatMap_append, List.flatMap_singleton, if_neg hnot, List.append_nil]
    exact h.returned

theorem Turned.activated (h : Turned parts precommitted done c) (hP : Precommitted parts precommitted)
    (hdone : ∀ q ∈ done, q ∈ precommitted) (hp : p ∈ precommitted) (hpdone : p ∉ done)
    (hbecomes : BecomesActive parts precommitted p)
    (hmeets : ∀ a ∈ c.parts, a.state = .active → p.info.Contains a.info ∨ a.info.Contains p.info ∨ p.info.IsDisjoint a.info)
    (hlaid : parts.Laid) :
    Turned parts precommitted (done ++ [p])
      { parts := (c.parts.withStates fun q s => if q ∈ coveredBy parts p then .outdated else s).withStates
          fun q s => if q.key = p.key then .active else s
        totalCoveredParts := c.totalCoveredParts ++ coveredBy parts p
        diff := c.diff + p.volume - ((coveredBy parts p).map DataPart.volume).sum } := by
  -- what else is Active does not contain the part
  have hnotContains : ∀ a ∈ c.parts, a.state = .active → ¬ a.info.Contains p.info := by
    intro a ha hstate hcontains
    rcases h.of_active ha hstate with ⟨hmem, -⟩ | ⟨hmem, -, -⟩
    · exact hbecomes.2 _ (hdone _ hmem) (fun heq => hpdone (heq ▸ hmem)) hcontains
    · exact hbecomes.1 a hmem hstate hcontains
  -- the part contains nothing that became Active before
  have hnotContained : ∀ q ∈ done, BecomesActive parts precommitted q → ¬ p.info.Contains q.info := fun q hq hactive =>
    hactive.2 p hp fun heq => hpdone (heq ▸ hq)
  have hcovered : coveredBy parts p = coveredBy c.parts p := by
    rw [h.parts_eq]
    unfold coveredBy
    rw [toList_withStates, List.filter_map, List.map_map]
    refine congrArg (List.map _) (List.filter_congr fun a ha => ?_)
    dsimp only [Function.comp_apply, withState]
    rw [decide_eq_decide, stateAfter_eq_active]
    refine and_congr_left fun hcontains => ?_
    constructor
    · intro hstate
      refine Or.inr ⟨fun hmem => hP.ne_active ha (hdone _ hmem) hstate, hstate, fun q hq hactive hqa => ?_⟩
      -- the part and one before it would meet
      obtain ⟨b, hb, rfl, hbstate⟩ := h.active_of_done hP hdone hq hactive
      have hblocks := (hlaid.proper a ha).blocks
      rcases hmeets b hb hbstate with hpb | hbp | hdisjoint
      · exact hnotContained _ hq hactive hpb
      · exact hnotContains b hb hbstate hbp
      · exact PartInfo.not_isDisjoint_of_contains hcontains hqa hblocks hdisjoint
    · rintro (⟨hmem, hactive⟩ | ⟨-, hstate, -⟩)
      · exact absurd hcontains (hnotContained _ hmem hactive)
      · exact hstate
  rw [hcovered]
  obtain ⟨b, hb, hbp⟩ := h.has (hP.has hp)
  have hbstate := h.ne_active hP hp hpdone hb hbp
  refine ⟨?_, ⟨fun a ha => ?_, fun x hx y hy hxstate hystate hne => ?_⟩, ?_, ?_⟩
  · dsimp only
    rw [← hcovered, h.parts_eq, withStates_withStates, withStates_withStates]
    exact withStates_congr fun a ha => (stateAfter_activated hP hdone hp hbecomes ha).symm
  · obtain ⟨a₁, ha₁, hpart₁, -⟩ := mem_withStates.1 ha
    obtain ⟨a₂, ha₂, hpart₂, -⟩ := mem_withStates.1 ha₁
    have hproper₂ := h.laid.proper a₂ ha₂
    rwa [← hpart₂, ← hpart₁] at hproper₂
  · -- what is Active now was Active and is disjoint from the part, or it is the part
    have hcase : ∀ a ∈ (c.parts.withStates fun q s => if q ∈ coveredBy c.parts p then .outdated else s).withStates
        (fun q s => if q.key = p.key then .active else s), a.state = .active →
        a.toDataPart = p ∨ (a ∈ c.parts ∧ p.info.IsDisjoint a.info) := by
      intro a ha hstate
      obtain ⟨a₁, ha₁, hpart₁, hstate₁⟩ := mem_withStates.1 ha
      obtain ⟨a₂, ha₂, hpart₂, hstate₂⟩ := mem_withStates.1 ha₁
      split at hstate₁
      · rename_i hkey
        rw [hpart₁, hpart₂] at *
        exact Or.inl (Has.eq_of_key ⟨a₂, ha₂, rfl⟩ ⟨b, hb, hbp⟩ hkey)
      · rw [hstate] at hstate₁
        rw [← hstate₁] at hstate₂
        split at hstate₂
        · cases hstate₂
        · rename_i hnotCovered
          have haa : a = a₂ := by
            obtain ⟨apart, astate⟩ := a
            obtain ⟨bpart, bstate⟩ := a₂
            dsimp only at hpart₁ hpart₂ hstate hstate₂
            rw [hpart₁, hpart₂, hstate, hstate₂]
          subst haa
          refine Or.inr ⟨ha₂, ?_⟩
          rcases hmeets a ha₂ hstate with hpa | hap | hdisjoint
          · exact absurd ((mem_coveredBy ha₂).2 ⟨hstate, hpa⟩) hnotCovered
          · exact absurd hap (hnotContains a ha₂ hstate)
          · exact hdisjoint
    rcases hcase x hx hxstate with hxp | ⟨hxmem, hxdisjoint⟩
    · rcases hcase y hy hystate with hyp | ⟨-, hydisjoint⟩
      · exact absurd (eq_of_key hx hy (by rw [hxp, hyp])) hne
      · rwa [← hxp] at hydisjoint
    · rcases hcase y hy hystate with hyp | ⟨hymem, -⟩
      · rw [← hyp] at hxdisjoint
        exact hxdisjoint.symm
      · exact h.laid.disjoint x hxmem y hymem hxstate hystate hne
  · have houtdate := activeVolume_outdate (fun a => a.state = .active ∧ p.info.Contains a.info)
      (show coveredBy c.parts p = _ from rfl) fun a _ ha => (of_decide_eq_true ha).1
    have hmem : withState b (if b.toDataPart ∈ coveredBy c.parts p then .outdated else b.state) ∈
        c.parts.withStates fun q s => if q ∈ coveredBy c.parts p then .outdated else s := mem_withStates.2 ⟨b, hb, rfl, rfl⟩
    have hactivate := activeVolume_activate hmem (by
      dsimp only [withState]
      split
      · decide
      · exact hbstate) (show (withState b _).toDataPart = p from hbp)
    dsimp only
    rw [hactivate]
    have hvolume := h.volume
    rw [← houtdate] at hvolume
    calc parts.activeVolume + (c.diff + p.volume - ((coveredBy c.parts p).map DataPart.volume).sum)
        = parts.activeVolume + c.diff + p.volume - ((coveredBy c.parts p).map DataPart.volume).sum := by abel
      _ = _ := by
        rw [hvolume]
        abel
  · unfold returnedParts
    rw [List.flatMap_append, List.flatMap_singleton, if_pos hbecomes, hcovered]
    dsimp only
    rw [h.returned]
    rfl

/-- **One turn of the loop.** -/
theorem Turned.commitPart (h : Turned parts precommitted done c) (hP : Precommitted parts precommitted) (hlaid : parts.Laid)
    (hsplit : precommitted = done ++ p :: rest) (hbefore : CoveredBefore parts precommitted)
    (hcovered : BecomesActive parts precommitted p → coveredParts = coveredBy parts p)
    (hok : MergeTreeData.commitPart c p coveredParts = .ok c') : Turned parts precommitted (done ++ [p]) c' := by
  have hdone : ∀ q ∈ done, q ∈ precommitted := fun q hq => hsplit ▸ List.mem_append_left _ hq
  have hp : p ∈ precommitted := hsplit ▸ by simp
  have hpdone : p ∉ done := by
    intro hmem
    have hpairwise := hP.sorted
    rw [hsplit, List.pairwise_append] at hpairwise
    exact lt_irrefl _ (hpairwise.2.2 p hmem p List.mem_cons_self)
  have hproper : p.info.Proper := by
    obtain ⟨a, ha, rfl⟩ := hP.has hp
    exact hlaid.proper a ha
  unfold MergeTreeData.commitPart at hok
  cases hreplace : c.parts.getActivePartsToReplace p.info with
  | error e =>
    rw [hreplace] at hok
    cases hok
  | ok toReplace =>
    obtain ⟨coveringPart, covered⟩ := toReplace
    rw [hreplace] at hok
    have hfound := h.laid.toReplace_of_ok hproper hreplace
    have hnone := h.coveringPart_eq_none hP hlaid hsplit hbefore hfound
    change (if coveringPart.isSome = true then _ else _) = _ at hok
    split at hok
    · rename_i hsome
      have hnot : ¬ BecomesActive parts precommitted p := fun hbecomes => by
        rw [hnone.2 hbecomes] at hsome
        cases hsome
      rw [(h.has (hP.has hp)).modifyPartState] at hok
      obtain rfl := Except.ok.inj hok
      exact h.obsolete hP hp hpdone hnot
    · rename_i hisNone
      have hbecomes := hnone.1 (Option.not_isSome_iff_eq_none.1 hisNone)
      obtain rfl := hcovered hbecomes
      have hmembers : ∀ q ∈ coveredBy parts p, c.parts.Has q := by
        intro q hq
        obtain ⟨a, ha, rfl⟩ := List.mem_map.1 hq
        exact h.has ⟨a, (List.mem_filter.1 ha).1, rfl⟩
      rw [modifyPartStates_eq _ hmembers] at hok
      change (DataParts.modifyPartState _ p .active >>= _) = _ at hok
      rw [(has_withStates.2 (h.has (hP.has hp))).modifyPartState] at hok
      obtain rfl := Except.ok.inj hok
      exact h.activated hP hdone hp hpdone hbecomes hfound.meets hlaid

/-- **The whole loop.** -/
theorem Turned.commitParts (hP : Precommitted parts precommitted) (hlaid : parts.Laid)
    (hbefore : CoveredBefore parts precommitted) : ∀ {rest done : List DataPart} {c c' : MergeTreeData.Committing} {covered : List (List DataPart)}, precommitted = done ++ rest →
      List.Forall₂ (fun p coveredParts => BecomesActive parts precommitted p → coveredParts = coveredBy parts p) rest covered →
      Turned parts precommitted done c → MergeTreeData.commitParts c rest covered = .ok c' →
      Turned parts precommitted precommitted c' := by
  intro rest
  induction rest with
  | nil =>
    intro done c c' covered hsplit hcovered h hok
    cases hcovered
    obtain rfl := Except.ok.inj hok
    rw [List.append_nil] at hsplit
    rwa [← hsplit] at h
  | cons p rest ih =>
    intro done c c' covered hsplit hcovered h hok
    obtain _ | ⟨hhead, htail⟩ := hcovered
    rename_i coveredParts coveredRest
    unfold MergeTreeData.commitParts at hok
    cases hturn : MergeTreeData.commitPart c p coveredParts with
    | error e =>
      rw [hturn] at hok
      cases hok
    | ok c₁ =>
      rw [hturn] at hok
      exact ih (by rw [hsplit, List.append_assoc, List.singleton_append]) htail
        (h.commitPart hP hlaid hsplit hbefore hhead hturn) hok

/-! ## Before the loop -/

theorem mem_of_getCoveredOutdatedParts (h : parts.getCoveredOutdatedParts part = .ok coveredParts)
    (hq : q ∈ coveredParts) : ∃ a ∈ parts, a.toDataPart = q ∧ a.state = .outdated ∧ part.info.Contains a.info := by
  unfold getCoveredOutdatedParts at h
  split at h
  · cases h
  dsimp only at h
  split at h
  · cases h
  obtain rfl := Except.ok.inj h
  unfold getPartHierarchy at hq
  obtain ⟨a, ha, rfl⟩ := List.mem_map.1 hq
  have hrun : a ∈ ((parts.toTheLeft part.info .outdated).takeWhile (covered part.info)).reverse ++
      (parts.toTheRight part.info .outdated).takeWhile (covered part.info) := by
    split at ha
    · exact List.mem_of_mem_tail ha
    · exact ha
  rcases List.mem_append.1 hrun with hl | hr
  · have hmem := mem_toTheLeft.1 ((List.takeWhile_sublist _).subset (List.mem_reverse.1 hl))
    have hcovered : covered part.info a = true := List.mem_takeWhile_imp (List.mem_reverse.1 hl)
    exact ⟨a, hmem.1, rfl, hmem.2.2.1, of_decide_eq_true hcovered⟩
  · have hmem := mem_toTheRight.1 ((List.takeWhile_sublist _).subset hr)
    have hcovered : covered part.info a = true := List.mem_takeWhile_imp hr
    exact ⟨a, hmem.1, rfl, hmem.2.2.1, of_decide_eq_true hcovered⟩

theorem coveredPartsForCommit_cons {txn : Bool} {refuses : DataPart → List DataPart → Bool} {visible : DataPart → Bool}
    {rest : List DataPart} {covered : List (List DataPart)}
    (hok : MergeTreeData.coveredPartsForCommit parts txn refuses visible (p :: rest) = .ok covered) :
    ∃ coveringPart coveredActive outdated coveredRest,
      parts.getActivePartsToReplace p.info = .ok (coveringPart, coveredActive) ∧
      (if txn then parts.getCoveredOutdatedParts p else .ok [] : Except PartsError (List DataPart)) = .ok outdated ∧
      MergeTreeData.coveredPartsForCommit parts txn refuses visible rest = .ok coveredRest ∧
      covered = (coveredActive ++ outdated.filter visible) :: coveredRest := by
  unfold MergeTreeData.coveredPartsForCommit at hok
  cases hreplace : parts.getActivePartsToReplace p.info with
  | error e =>
    rw [hreplace] at hok
    cases hok
  | ok toReplace =>
    obtain ⟨coveringPart, coveredActive⟩ := toReplace
    rw [hreplace] at hok
    cases houtdated : (if txn = true then parts.getCoveredOutdatedParts p else .ok []) with
    | error e =>
      change ((if txn = true then parts.getCoveredOutdatedParts p else .ok []) >>= _) = _ at hok
      rw [houtdated] at hok
      cases hok
    | ok outdated =>
      change ((if txn = true then parts.getCoveredOutdatedParts p else .ok []) >>= _) = _ at hok
      rw [houtdated] at hok
      change (if _ then _ else _) = _ at hok
      split at hok
      · cases hok
      cases hrest : MergeTreeData.coveredPartsForCommit parts txn refuses visible rest with
      | error e =>
        rw [hrest] at hok
        cases hok
      | ok coveredRest =>
        rw [hrest] at hok
        exact ⟨coveringPart, coveredActive, outdated, coveredRest, rfl, rfl, rfl, (Except.ok.inj hok).symm⟩

theorem coveredPartsForCommit_spec (hlaid : parts.Laid) {txn : Bool} {refuses : DataPart → List DataPart → Bool}
    {visible : DataPart → Bool} : ∀ {l : List DataPart} {covered : List (List DataPart)}, (∀ p ∈ l, p.info.Proper) →
      (txn = true → ∀ p ∈ l, BecomesActive parts precommitted p → ∀ a ∈ parts, a.state = .outdated → p.info.Contains a.info → visible a.toDataPart = false) →
      MergeTreeData.coveredPartsForCommit parts txn refuses visible l = .ok covered →
      List.Forall₂ (fun p coveredParts => BecomesActive parts precommitted p → coveredParts = coveredBy parts p) l covered := by
  intro l
  induction l with
  | nil =>
    intro covered _ _ hok
    obtain rfl := Except.ok.inj hok
    exact .nil
  | cons p rest ih =>
    intro covered hproper hvisible hok
    obtain ⟨coveringPart, coveredActive, outdated, coveredRest, hreplace, houtdated, hrest, rfl⟩ :=
      coveredPartsForCommit_cons hok
    have hfound := hlaid.toReplace_of_ok (hproper p List.mem_cons_self) hreplace
    refine .cons (fun hbecomes => ?_) (ih (fun q hq => hproper q (List.mem_cons_of_mem _ hq))
      (fun htxn q hq => hvisible htxn q (List.mem_cons_of_mem _ hq)) hrest)
    -- no Outdated part is visible
    have hfilter : outdated.filter visible = [] := by
      rw [List.filter_eq_nil_iff]
      intro x hx hxvisible
      split at houtdated
      · rename_i htxn
        obtain ⟨a, ha, rfl, hstate, hcontains⟩ := mem_of_getCoveredOutdatedParts houtdated hx
        rw [hvisible htxn p List.mem_cons_self hbecomes a ha hstate hcontains] at hxvisible
        cases hxvisible
      · obtain rfl := Except.ok.inj houtdated
        cases hx
    rw [hfilter, List.append_nil]
    exact hfound.coveredParts_eq

end Commit

end DataParts

end MergeTree
