import MergeTree.Proof.WorkingSet

/-!
# Runs of the working set

What every operation does to the parts (`commit_spec`, `rollback_eq`,
`rollbackPartsToTemporaryState_eq`), and that Active parts stay disjoint and counted
(`Inv`) as long as no commit makes a part Active before one that contains it, and none sees an
Outdated part that it covers.
-/

namespace MergeTree

open DataParts

namespace DataParts

variable {parts parts' : DataParts}

theorem activeVolume_eq_of_active (h : ∀ a : StatedPart, a.state = .active → (a ∈ parts' ↔ a ∈ parts)) :
    parts'.activeVolume = parts.activeVolume := by
  have hvolume : ∀ parts : DataParts, parts.activeVolume =
      (((parts.toList.filter fun a => a.state = .active).map StatedPart.toDataPart).map DataPart.volume).sum := by
    intro parts
    rw [sum_filter]
    unfold activeVolume activeVolumeOf
    simp only [decide_eq_true_eq]
  rw [hvolume, hvolume]
  congr 3
  refine KeyedSet.toList_eq_of_mem (S := parts'.keep fun a => a.state = .active) (parts.sorted.filter _) fun a => ?_
  rw [KeyedSet.mem_keep, List.mem_filter, decide_eq_true_eq]
  exact ⟨fun hmem => ⟨(h a hmem.2).1 hmem.1, hmem.2⟩, fun hmem => ⟨(h a hmem.2).2 hmem.1, hmem.2⟩⟩

/-- The Active parts are the same, and new parts are proper. -/
structure SameActive (parts parts' : DataParts) : Prop where
  active : ∀ a : StatedPart, a.state = .active → (a ∈ parts' ↔ a ∈ parts)
  proper : ∀ a ∈ parts', a.info.Proper

theorem SameActive.laid (h : SameActive parts parts') (hlaid : parts.Laid) : parts'.Laid :=
  hlaid.of_active h.proper fun a ha hstate => (h.active a hstate).1 ha

/-- The set without some parts. -/
def without (parts : DataParts) (removed : List DataPart) : DataParts := parts.keep fun a => a.toDataPart ∉ removed

theorem mem_without {removed : List DataPart} {a : StatedPart} : a ∈ parts.without removed ↔ a ∈ parts ∧ a.toDataPart ∉ removed := by
  unfold without
  rw [KeyedSet.mem_keep, decide_eq_true_eq]

theorem without_nil (parts : DataParts) : parts.without [] = parts :=
  KeyedSet.ext (List.filter_eq_self.2 fun _ _ => decide_eq_true List.not_mem_nil)

end DataParts

namespace MergeTreeData

variable {data data' : MergeTreeData} {i : ℕ} {part : DataPart}

/-- The precommitted parts of a transaction. -/
def precommitted (data : MergeTreeData) (i : ℕ) : List DataPart := (data.transactions i).precommittedParts.toList

/-- **What holds between the steps.** -/
structure Inv (data : MergeTreeData) : Prop where
  laid : data.parts.Laid
  volume : data.volume = data.parts.activeVolume
  precommitted : ∀ i, Precommitted data.parts (data.precommitted i)
  separate : ∀ i j, i ≠ j → ∀ p ∈ data.precommitted i, p ∉ data.precommitted j

/-! ## Adding parts -/

theorem precommitted_setTransaction (data : MergeTreeData) (i j : ℕ) (transaction : Transaction) :
    (data.setTransaction i transaction).precommitted j =
      if j = i then transaction.precommittedParts.toList else data.precommitted j := by
  unfold precommitted setTransaction
  dsimp only
  rw [Function.update_apply]
  split <;> rfl

theorem precommitted_clear (data : MergeTreeData) (i j : ℕ) :
    (data.clear i).precommitted j = if j = i then [] else data.precommitted j := precommitted_setTransaction data i j _

theorem Inv.of_sameActive (h : Inv data) (hparts : SameActive data.parts data'.parts) (hvolume : data'.volume = data.volume)
    (hsub : ∀ j, (data'.precommitted j).Sublist (data.precommitted j))
    (hleft : ∀ j, ∀ p ∈ data'.precommitted j, ∃ a ∈ data'.parts, a.toDataPart = p ∧ a.state ≠ .active) : Inv data' := by
  refine ⟨hparts.laid h.laid, ?_, fun j => ⟨(h.precommitted j).sorted.sublist (hsub j), hleft j⟩, fun j k hne p hp hp' => ?_⟩
  · rw [hvolume, h.volume, activeVolume_eq_of_active hparts.active]
  · exact h.separate j k hne p ((hsub j).subset hp) ((hsub k).subset hp')

theorem Inv.preparePartForCommit (h : Inv data) (hproper : part.info.Proper) (hnew : ∀ a ∈ data.parts, a.key ≠ part.key)
    (needRename renameInTransaction : Bool) : Inv (data.preparePartForCommit i part needRename renameInTransaction) := by
  have hmem : ∀ a : StatedPart, a ∈ (data.preparePartForCommit i part needRename renameInTransaction).parts ↔
      a ∈ data.parts ∨ a = { part with state := .preActive } := by
    intro a
    change a ∈ data.parts.emplace { part with state := .preActive } ↔ _
    rw [KeyedSet.mem_emplace]
    exact or_congr_right (and_iff_left hnew)
  have hsame : SameActive data.parts (data.preparePartForCommit i part needRename renameInTransaction).parts := by
    refine ⟨fun a hstate => ?_, fun a ha => ?_⟩
    · rw [hmem, or_iff_left]
      rintro rfl
      cases hstate
    · rcases (hmem a).1 ha with ha | rfl
      · exact h.laid.proper a ha
      · exact hproper
  have hprecommitted : ∀ j, (data.preparePartForCommit i part needRename renameInTransaction).precommitted j =
      if j = i then ((data.transactions i).precommittedParts.emplace part).toList else data.precommitted j := fun j =>
    precommitted_setTransaction _ i j _
  have hmemOf : ∀ j, ∀ p ∈ (data.preparePartForCommit i part needRename renameInTransaction).precommitted j,
      p ∈ data.precommitted j ∨ (j = i ∧ p = part) := by
    intro j p hp
    rw [hprecommitted] at hp
    split at hp
    · rename_i hji
      rcases KeyedSet.mem_emplace.1 hp with hp | hp
      · exact Or.inl (hji ▸ hp)
      · exact Or.inr ⟨hji, hp.1⟩
    · exact Or.inl hp
  have hnotNew : ∀ j, ∀ p ∈ data.precommitted j, p ≠ part := by
    rintro j p hp rfl
    obtain ⟨a, ha, heq⟩ := (h.precommitted j).has hp
    exact hnew a ha (congrArg DataPart.key heq)
  refine ⟨hsame.laid h.laid, h.volume.trans (activeVolume_eq_of_active hsame.active).symm, fun j => ⟨?_, fun p hp => ?_⟩,
    fun j k hne p hp hp' => ?_⟩
  · rw [hprecommitted]
    split
    · exact KeyedSet.sorted _
    · exact (h.precommitted j).sorted
  · rcases hmemOf j p hp with hp | ⟨-, rfl⟩
    · obtain ⟨a, ha, heq, hstate⟩ := (h.precommitted j).inactive p hp
      exact ⟨a, (hmem a).2 (Or.inl ha), heq, hstate⟩
    · exact ⟨_, (hmem _).2 (Or.inr rfl), rfl, nofun⟩
  · rcases hmemOf j p hp with hold | ⟨rfl, heq⟩
    · rcases hmemOf k p hp' with hold' | ⟨-, heq⟩
      · exact h.separate j k hne p hold hold'
      · exact hnotNew j p hold heq
    · rcases hmemOf k p hp' with hold' | ⟨rfl, -⟩
      · exact hnotNew k p hold' heq
      · exact hne rfl

theorem key_ne_of_checkPartDuplicate {parts : DataParts} {transaction : Transaction} (h : parts.checkPartDuplicate part transaction = .ok ()) :
    ∀ a ∈ parts, a.key ≠ part.key := by
  unfold checkPartDuplicate at h
  cases hfind : parts.find part.key with
  | none => exact KeyedSet.find_eq_none.1 hfind
  | some duplicate =>
    rw [hfind] at h
    dsimp only at h
    split at h
    · cases h
    · split at h
      · cases h
      · cases h

theorem addTempPart_cases {added : Bool} (h : data.addTempPart i part = .ok (data', added)) :
    data' = data ∨ ((∀ a ∈ data.parts, a.key ≠ part.key) ∧ data' = data.preparePartForCommit i part false false) := by
  unfold addTempPart at h
  cases hpartition : data.parts.checkPartPartition part with
  | error e =>
    rw [hpartition] at h
    cases h
  | ok _ =>
    rw [hpartition] at h
    cases hduplicate : data.parts.checkPartDuplicate part (data.transactions i) with
    | error e =>
      rw [hduplicate] at h
      cases h
    | ok _ =>
      rw [hduplicate] at h
      cases hreplace : data.parts.getActivePartsToReplace part.info with
      | error e =>
        rw [hreplace] at h
        cases h
      | ok hierarchy =>
        rw [hreplace] at h
        change (if hierarchy.1.isSome = true then _ else _) = _ at h
        split at h
        · obtain ⟨rfl, -⟩ := Prod.mk.inj (Except.ok.inj h)
          exact Or.inl rfl
        · obtain ⟨rfl, -⟩ := Prod.mk.inj (Except.ok.inj h)
          exact Or.inr ⟨key_ne_of_checkPartDuplicate hduplicate, rfl⟩

theorem renameTempPartAndReplaceImpl_cases {renameInTransaction : Bool}
    (h : data.renameTempPartAndReplaceImpl i part renameInTransaction = .ok data') :
    (∀ a ∈ data.parts, a.key ≠ part.key) ∧ data' = data.preparePartForCommit i part true renameInTransaction := by
  unfold renameTempPartAndReplaceImpl at h
  cases hpartition : data.parts.checkPartPartition part with
  | error e =>
    rw [hpartition] at h
    cases h
  | ok _ =>
    rw [hpartition] at h
    cases hduplicate : data.parts.checkPartDuplicate part (data.transactions i) with
    | error e =>
      rw [hduplicate] at h
      cases h
    | ok _ =>
      rw [hduplicate] at h
      dsimp only [bind, Except.bind] at h
      split at h
      · split at h
        · cases h
        · cases h
      · split at h
        · cases h
        · obtain rfl := Except.ok.inj h
          exact ⟨key_ne_of_checkPartDuplicate hduplicate, rfl⟩

/-! ## Removing parts -/

theorem Inv.outdate (h : Inv data) (hhas : data.parts.Has part) {data' : MergeTreeData}
    (hparts : data'.parts = data.parts.withStates fun p s => if p.key = part.key then .outdated else s)
    (hvolume : data'.volume = if data.parts.stateOf part = .active then data.volume - part.volume else data.volume)
    (htransactions : data'.transactions = data.transactions) : Inv data' := by
  obtain ⟨b, hb, rfl⟩ := hhas
  rw [stateOf_eq hb] at hvolume
  have hprecommitted : ∀ j, data'.precommitted j = data.precommitted j := fun j => by
    unfold MergeTreeData.precommitted
    rw [htransactions]
  have hactive : ∀ a ∈ data'.parts, a.state = .active → a ∈ data.parts := by
    intro a ha hstate
    rw [hparts] at ha
    obtain ⟨x, hx, hpart, hx'⟩ := mem_withStates.1 ha
    split at hx'
    · rw [hstate] at hx'
      cases hx'
    · obtain ⟨apart, astate⟩ := a
      obtain rfl : apart = x.toDataPart := hpart
      obtain rfl : astate = x.state := hx'
      exact hx
  have hproper : ∀ a ∈ data'.parts, a.info.Proper := by
    intro a ha
    rw [hparts] at ha
    obtain ⟨x, hx, hpart, -⟩ := mem_withStates.1 ha
    have hxproper := h.laid.proper x hx
    rwa [← hpart] at hxproper
  refine ⟨h.laid.of_active hproper hactive, ?_, fun j => ?_, fun j k hne p hp => ?_⟩
  · rw [hvolume, hparts, h.volume]
    have hsingle : ∀ a ∈ data.parts, (a.toDataPart ∈ [b.toDataPart] ↔ a.toDataPart.key = b.toDataPart.key) := fun a ha => by
      rw [List.mem_singleton]
      exact ⟨fun heq => by rw [heq], fun hkey => Has.eq_of_key ⟨a, ha, rfl⟩ ⟨b, hb, rfl⟩ hkey⟩
    by_cases hstate : b.state = .active
    · have houtdate := @activeVolume_outdate data.parts [b.toDataPart] (fun a => a.key = b.key)
        (by rw [filter_key hb]; rfl) fun a ha hkey => by
          rwa [eq_of_key ha hb (of_decide_eq_true hkey)]
      rw [List.map_singleton, List.sum_singleton] at houtdate
      rw [if_pos hstate, ← houtdate, add_sub_cancel_right]
      refine congrArg activeVolume (withStates_congr fun a ha => ?_)
      exact if_congr (hsingle a ha) rfl rfl
    · rw [if_neg hstate]
      refine (activeVolume_congr fun a ha => ?_).symm
      split
      · rename_i hkey
        obtain rfl := eq_of_key ha hb hkey
        exact iff_of_false (by decide) hstate
      · rfl
  · rw [hprecommitted]
    refine ⟨(h.precommitted j).sorted, fun p hp => ?_⟩
    obtain ⟨a, ha, rfl, hstate⟩ := (h.precommitted j).inactive p hp
    refine ⟨withState a (if a.toDataPart.key = b.toDataPart.key then .outdated else a.state),
      hparts ▸ mem_withStates.2 ⟨a, ha, rfl, rfl⟩, rfl, ?_⟩
    dsimp only [withState]
    split
    · decide
    · exact hstate
  · rw [hprecommitted] at hp ⊢
    exact h.separate j k hne p hp

theorem Inv.removePartsFromWorkingSet (refuses : DataPart → Bool) : ∀ {remove : List DataPart} {data : MergeTreeData}, Inv data →
    Inv (removePartsFromWorkingSet refuses remove data).1 := by
  intro remove
  induction remove with
  | nil => exact fun h => h
  | cons part remove ih =>
    intro data h
    unfold MergeTreeData.removePartsFromWorkingSet
    split
    · exact h
    · dsimp only
      by_cases houtdated : data.parts.stateOf part = .outdated
      · rw [if_neg (not_not.2 houtdated), if_neg (by rw [houtdated]; decide)]
        exact ih h
      · rw [if_pos houtdated]
        by_cases hactive : data.parts.stateOf part = .active
        · -- an Active part is in the set
          have hhas : data.parts.Has part := by
            unfold stateOf at hactive
            cases hfind : data.parts.find part.key with
            | none =>
              rw [hfind] at hactive
              cases hactive
            | some found =>
              rw [hfind] at hactive
              dsimp only at hactive
              split at hactive
              · exact ⟨found, (KeyedSet.find_eq_some.1 hfind).1, ‹_›⟩
              · cases hactive
          simp only [if_pos hactive]
          rw [hhas.modifyPartState]
          exact ih (h.outdate hhas rfl (if_pos hactive).symm rfl)
        · simp only [if_neg hactive]
          cases hmodify : data.parts.modifyPartState part .outdated with
          | error e => exact h
          | ok parts' =>
            obtain ⟨hhas, hparts'⟩ := modifyPartState_eq_ok hmodify
            exact ih (h.outdate hhas hparts' (if_neg hactive).symm rfl)

theorem removePartsFromWorkingSet_inactive : ∀ {remove : List DataPart} {data : MergeTreeData},
    (∀ p ∈ remove, ∃ a ∈ data.parts, a.toDataPart = p ∧ a.state ≠ .active) →
      MergeTreeData.removePartsFromWorkingSet (fun _ => false) remove data =
        ({ data with parts := data.parts.withStates fun p s => if p ∈ remove then .outdated else s }, .ok ()) := by
  intro remove
  induction remove with
  | nil =>
    intro data _
    rw [withStates_self fun a _ => if_neg List.not_mem_nil]
    rfl
  | cons part remove ih =>
    intro data h
    obtain ⟨b, hb, rfl, hinactive⟩ := h _ List.mem_cons_self
    have hhas : data.parts.Has b.toDataPart := ⟨b, hb, rfl⟩
    have hcons : ∀ a ∈ data.parts, (if a.toDataPart ∈ b.toDataPart :: remove then DataPartState.outdated else a.state) =
        if a.toDataPart ∈ remove then .outdated else if a.toDataPart.key = b.toDataPart.key then .outdated else a.state := by
      intro a ha
      by_cases hkey : a.toDataPart.key = b.toDataPart.key
      · rw [if_pos hkey, ite_self, if_pos (List.mem_cons.2 (Or.inl (Has.eq_of_key ⟨a, ha, rfl⟩ hhas hkey)))]
      · have hne : a.toDataPart ≠ b.toDataPart := fun heq => hkey (by rw [heq])
        simp only [hkey, hne, List.mem_cons, false_or, if_false]
    unfold MergeTreeData.removePartsFromWorkingSet
    dsimp only
    rw [if_neg Bool.false_ne_true, stateOf_eq hb, if_neg hinactive]
    by_cases houtdated : b.state = .outdated
    · rw [if_neg (not_not.2 houtdated), ih fun p hp => h p (List.mem_cons_of_mem _ hp)]
      congr 2
      refine withStates_congr fun a ha => ?_
      rw [hcons a ha]
      by_cases hkey : a.toDataPart.key = b.toDataPart.key
      · obtain rfl := eq_of_key ha hb hkey
        rw [houtdated, ite_self, ite_self, ite_self]
      · rw [if_neg hkey]
    · rw [if_pos houtdated, hhas.modifyPartState]
      dsimp only
      rw [ih fun p hp => ?_]
      · dsimp only
        rw [withStates_withStates]
        congr 2
        exact withStates_congr fun a ha => (hcons a ha).symm
      · obtain ⟨a, ha, rfl, hstate⟩ := h p (List.mem_cons_of_mem _ hp)
        refine ⟨withState a (if a.toDataPart.key = b.toDataPart.key then .outdated else a.state),
          mem_withStates.2 ⟨a, ha, rfl, rfl⟩, rfl, ?_⟩
        dsimp only [withState]
        split
        · decide
        · exact hstate

theorem removePartsImmediately_eq : ∀ {remove : List DataPart} {data : MergeTreeData}, remove.Nodup → (∀ p ∈ remove, data.parts.Has p) →
    removePartsImmediately remove data = ({ data with parts := data.parts.without remove }, .ok ()) := by
  intro remove
  induction remove with
  | nil =>
    intro data _ _
    rw [without_nil]
    rfl
  | cons part remove ih =>
    intro data hnodup h
    obtain ⟨hnotin, hnodup⟩ := List.nodup_cons.1 hnodup
    have hpart := h part List.mem_cons_self
    unfold removePartsImmediately
    rw [hpart.modifyPartState]
    dsimp only
    -- the part is gone, whatever its last state
    have hmem : ∀ a, a ∈ (data.parts.withStates fun p s => if p.key = part.key then .temporary else s).erase part.key ↔
        a ∈ data.parts ∧ a.toDataPart ≠ part := by
      intro a
      rw [KeyedSet.mem_erase, mem_withStates]
      constructor
      · rintro ⟨⟨b, hb, hbpart, hbstate⟩, hkey⟩
        have hbkey : b.toDataPart.key ≠ part.key := by
          rw [← hbpart]
          exact hkey
        rw [if_neg hbkey] at hbstate
        obtain ⟨apart, astate⟩ := a
        obtain rfl : apart = b.toDataPart := hbpart
        obtain rfl : astate = b.state := hbstate
        exact ⟨hb, fun heq => hkey (congrArg DataPart.key heq)⟩
      · rintro ⟨ha, hne⟩
        have hkey : a.toDataPart.key ≠ part.key := fun heq => hne (Has.eq_of_key ⟨a, ha, rfl⟩ hpart heq)
        exact ⟨⟨a, ha, rfl, (if_neg hkey).symm⟩, hkey⟩
    rw [ih hnodup fun p hp => ?_]
    · congr 2
      refine KeyedSet.ext (KeyedSet.toList_eq_of_mem (KeyedSet.sorted _) fun a => ?_)
      rw [mem_without, hmem, ← KeyedSet.mem_def, mem_without, List.mem_cons, not_or, and_assoc]
    · obtain ⟨a, ha, rfl⟩ := h p (List.mem_cons_of_mem _ hp)
      exact ⟨a, (hmem a).2 ⟨ha, fun heq => hnotin (heq ▸ hp)⟩, rfl⟩

theorem Inv.nodup (h : Inv data) (i : ℕ) : (data.precommitted i).Nodup :=
  (h.precommitted i).sorted.imp fun hlt heq => hlt.ne (congrArg DataPart.key heq)

theorem rollbackPartsToTemporaryState_eq (h : Inv data) (i : ℕ) : data.rollbackPartsToTemporaryState i =
    ({ data with parts := data.parts.without (data.precommitted i) }.clear i, .ok ()) := by
  have hremoved := removePartsImmediately_eq (h.nodup i) fun p hp => (h.precommitted i).has hp
  unfold MergeTreeData.precommitted at hremoved ⊢
  unfold MergeTreeData.rollbackPartsToTemporaryState
  rw [hremoved]

theorem rollback_eq (h : Inv data) (i : ℕ) (detached : DataPart → Bool) : data.rollback i detached =
    ({ data with
        parts := (data.parts.without ((data.precommitted i).filter detached)).withStates fun p s =>
          if p ∈ (data.precommitted i).filter (fun part => !detached part) then .outdated else s }.clear i, .ok ()) := by
  unfold rollback
  change (if (data.precommitted i).isEmpty = true then _ else _) = _
  by_cases hempty : data.precommitted i = []
  · rw [hempty]
    rw [List.filter_nil, List.filter_nil, without_nil, withStates_self fun a _ => if_neg List.not_mem_nil]
    rfl
  · obtain ⟨p, hp⟩ := List.exists_mem_of_ne_nil _ hempty
    obtain ⟨b, hb, -⟩ := (h.precommitted i).has hp
    have hparts : ¬ data.parts.toList.isEmpty = true := by
      rw [List.isEmpty_iff]
      exact List.ne_nil_of_mem hb
    rw [if_neg (by rwa [List.isEmpty_iff]), if_neg hparts]
    have hdetached := removePartsImmediately_eq ((h.nodup i).filter detached) fun q hq =>
      (h.precommitted i).has (List.mem_filter.1 hq).1
    have hrest : ∀ q ∈ (data.precommitted i).filter fun part => !detached part,
        ∃ a ∈ data.parts.without ((data.precommitted i).filter detached), a.toDataPart = q ∧ a.state ≠ .active := by
      intro q hq
      obtain ⟨hq, hnot⟩ := List.mem_filter.1 hq
      obtain ⟨a, ha, rfl, hstate⟩ := (h.precommitted i).inactive q hq
      refine ⟨a, mem_without.2 ⟨ha, fun hmem => ?_⟩, rfl, hstate⟩
      rw [(List.mem_filter.1 hmem).2] at hnot
      cases hnot
    unfold MergeTreeData.precommitted at hdetached hrest ⊢
    rw [hdetached]
    dsimp only
    rw [removePartsFromWorkingSet_inactive hrest]

theorem mem_rollback (h : Inv data) (detached : DataPart → Bool) (a : StatedPart) : a ∈ (data.rollback i detached).1.parts ↔
    (a ∈ data.parts ∧ a.toDataPart ∉ data.precommitted i) ∨
      (a.state = .outdated ∧ a.toDataPart ∈ data.precommitted i ∧ detached a.toDataPart = false) := by
  rw [rollback_eq h]
  change a ∈ DataParts.withStates _ _ ↔ _
  simp only [mem_withStates, mem_without, List.mem_filter, Bool.not_eq_true']
  constructor
  · rintro ⟨b, ⟨hb, hnot⟩, hpart, hstate⟩
    split at hstate
    · rename_i hmem
      rw [← hpart] at hmem
      exact Or.inr ⟨hstate, hmem⟩
    · rename_i hmem
      have hab : a = b := by
        obtain ⟨apart, astate⟩ := a
        obtain rfl : apart = b.toDataPart := hpart
        obtain rfl : astate = b.state := hstate
        rfl
      subst hab
      refine Or.inl ⟨hb, fun hin => ?_⟩
      cases hdetached : detached a.toDataPart with
      | true => exact hnot ⟨hin, hdetached⟩
      | false => exact hmem ⟨hin, hdetached⟩
  · rintro (⟨ha, hnot⟩ | ⟨hstate, hmem, hdetached⟩)
    · exact ⟨a, ⟨ha, fun hin => hnot hin.1⟩, rfl, (if_neg fun hin => hnot hin.1).symm⟩
    · obtain ⟨b, hb, heq⟩ := (h.precommitted i).has hmem
      refine ⟨b, ⟨hb, fun hin => ?_⟩, heq.symm, ?_⟩
      · rw [heq, hdetached] at hin
        cases hin.2
      · rw [if_pos (by rw [heq]; exact ⟨hmem, hdetached⟩), hstate]

theorem mem_rollbackPartsToTemporaryState (h : Inv data) (a : StatedPart) :
    a ∈ (data.rollbackPartsToTemporaryState i).1.parts ↔ a ∈ data.parts ∧ a.toDataPart ∉ data.precommitted i := by
  rw [rollbackPartsToTemporaryState_eq h]
  exact mem_without

theorem Inv.undo (h : Inv data) {data' : MergeTreeData}
    (hmem : ∀ a : StatedPart, a.toDataPart ∉ data.precommitted i → (a ∈ data'.parts ↔ a ∈ data.parts))
    (hown : ∀ a ∈ data'.parts, a.toDataPart ∈ data.precommitted i → a.state ≠ .active)
    (hvolume : data'.volume = data.volume)
    (hprecommitted : ∀ j, data'.precommitted j = if j = i then [] else data.precommitted j) : Inv data' := by
  have hsub : ∀ j, (data'.precommitted j).Sublist (data.precommitted j) := by
    intro j
    rw [hprecommitted]
    split
    · exact List.nil_sublist _
    · exact List.Sublist.refl _
  have hproper : ∀ a ∈ data'.parts, a.info.Proper := by
    intro a ha
    by_cases hin : a.toDataPart ∈ data.precommitted i
    · obtain ⟨b, hb, heq⟩ := (h.precommitted i).has hin
      have hbproper := h.laid.proper b hb
      rwa [heq] at hbproper
    · exact h.laid.proper a ((hmem a hin).1 ha)
  refine h.of_sameActive ⟨fun a hstate => ?_, hproper⟩ hvolume hsub fun j p hp => ?_
  · by_cases hin : a.toDataPart ∈ data.precommitted i
    · exact iff_of_false (fun ha => hown a ha hin hstate) fun ha => (h.precommitted i).ne_active ha hin hstate
    · exact hmem a hin
  · have hji : j ≠ i := by
      rintro rfl
      rw [hprecommitted, if_pos rfl] at hp
      cases hp
    have hpj := (hsub j).subset hp
    obtain ⟨a, ha, rfl, hstate⟩ := (h.precommitted j).inactive p hpj
    exact ⟨a, (hmem a fun hin => h.separate j i hji _ hpj hin).2 ha, rfl, hstate⟩

theorem Inv.rollback (h : Inv data) (i : ℕ) (detached : DataPart → Bool) : Inv (data.rollback i detached).1 := by
  refine h.undo (i := i) (fun a hin => ?_) (fun a ha hin hstate => ?_) (by rw [rollback_eq h]; rfl)
    fun j => by rw [rollback_eq h]; exact precommitted_clear _ i j
  · rw [mem_rollback h]
    exact ⟨fun ha => (ha.resolve_right fun hcase => hin hcase.2.1).1, fun ha => Or.inl ⟨ha, hin⟩⟩
  · rcases (mem_rollback h detached a).1 ha with ⟨-, hnot⟩ | ⟨houtdated, -⟩
    · exact hnot hin
    · rw [hstate] at houtdated
      cases houtdated

theorem Inv.rollbackPartsToTemporaryState (h : Inv data) (i : ℕ) : Inv (data.rollbackPartsToTemporaryState i).1 := by
  refine h.undo (i := i) (fun a hin => ?_) (fun a ha hin _ => ?_) (by rw [rollbackPartsToTemporaryState_eq h]; rfl)
    fun j => by rw [rollbackPartsToTemporaryState_eq h]; exact precommitted_clear _ i j
  · rw [mem_rollbackPartsToTemporaryState h, and_iff_left hin]
  · exact ((mem_rollbackPartsToTemporaryState h a).1 ha).2 hin

/-! ## Commit -/

/-- What a commit must meet: a part that a later one contains is inside an Active part or an earlier one; and with
a `MergeTreeTransaction`, no Outdated part that is inside a part to become Active is visible. -/
structure CommitCondition (data : MergeTreeData) (i : ℕ) (visible : DataPart → Bool) : Prop where
  later : CoveredBefore data.parts (data.precommitted i)
  unseen : (data.transactions i).txn = true → ∀ p ∈ data.precommitted i,
    BecomesActive data.parts (data.precommitted i) p →
      ∀ a ∈ data.parts, a.state = .outdated → p.info.Contains a.info → visible a.toDataPart = false

/-- The part should become Active: neither an Active part nor another part of the transaction contains it. -/
def Becomes (data : MergeTreeData) (i : ℕ) (part : DataPart) : Prop :=
  part ∈ data.precommitted i ∧ BecomesActive data.parts (data.precommitted i) part

/-- **What a commit does.** -/
structure Committed (data data' : MergeTreeData) (i : ℕ) (visible : DataPart → Bool) (returned : List DataPart) : Prop where
  has : ∀ part, data'.parts.Has part ↔ data.parts.Has part
  active : ∀ p ∈ data.precommitted i, Becomes data i p → data'.parts.stateOf p = .active
  obsolete : ∀ p ∈ data.precommitted i, ¬ Becomes data i p → data'.parts.stateOf p = .outdated
  /-- The Active parts that a part made Active contains become Outdated. -/
  outdated : ∀ a ∈ data.parts, a.toDataPart ∉ data.precommitted i →
    (a.state = .active ∧ ∃ p, Becomes data i p ∧ p.info.Contains a.info) → data'.parts.stateOf a.toDataPart = .outdated
  unchanged : ∀ a ∈ data.parts, a.toDataPart ∉ data.precommitted i →
    ¬ (a.state = .active ∧ ∃ p, Becomes data i p ∧ p.info.Contains a.info) → data'.parts.stateOf a.toDataPart = a.state
  /-- These are returned, and with a `MergeTreeTransaction` the visible Outdated ones. -/
  mem_returned : ∀ part, part ∈ returned ↔ ∃ a ∈ data.parts, a.toDataPart = part ∧ (∃ p, Becomes data i p ∧ p.info.Contains a.info) ∧
    (a.state = .active ∨ ((data.transactions i).txn = true ∧ a.state = .outdated ∧ visible part = true))
  nodup : returned.Nodup

theorem commit_cases (h : Inv data) {refuses : DataPart → List DataPart → Bool} {visible : DataPart → Bool}
    (hcondition : CommitCondition data i visible) {result : Except PartsError (List DataPart)}
    (hcommit : data.commit i refuses visible = some (data', result)) :
    (∃ e, result = .error e ∧ data' = data) ∨
      ∃ c, Turned data.parts (data.precommitted i) (data.precommitted i) c ∧ result = .ok c.totalCoveredParts ∧
        data' = { data with parts := c.parts, volume := data.volume + c.diff }.clear i := by
  have hstart : Turned data.parts (data.precommitted i) [] ⟨data.parts, [], 0⟩ :=
    ⟨(withStates_self fun a _ => by unfold stateAfter; simp).symm, h.laid, add_zero _, rfl⟩
  unfold commit at hcommit
  change (if (data.precommitted i).isEmpty = true then _ else _) = _ at hcommit
  by_cases hempty : data.precommitted i = []
  · rw [hempty, List.isEmpty_nil, if_pos rfl] at hcommit
    obtain ⟨rfl, rfl⟩ := Prod.mk.inj (Option.some.inj hcommit)
    refine Or.inr ⟨⟨data.parts, [], 0⟩, ?_, rfl, ?_⟩
    · rw [hempty] at hstart ⊢
      exact hstart
    · rw [add_zero]
  rw [if_neg (by rwa [List.isEmpty_iff])] at hcommit
  split at hcommit
  · obtain ⟨rfl, rfl⟩ := Prod.mk.inj (Option.some.inj hcommit)
    exact Or.inl ⟨_, rfl, rfl⟩
  split at hcommit
  · obtain ⟨rfl, rfl⟩ := Prod.mk.inj (Option.some.inj hcommit)
    exact Or.inl ⟨_, rfl, rfl⟩
  rename_i covered hcovered
  split at hcommit
  · cases hcommit
  rename_i committed hcommitted
  obtain ⟨rfl, rfl⟩ := Prod.mk.inj (Option.some.inj hcommit)
  have hproper : ∀ p ∈ data.precommitted i, p.info.Proper := by
    intro p hp
    obtain ⟨a, ha, rfl⟩ := (h.precommitted i).has hp
    exact h.laid.proper a ha
  exact Or.inr ⟨committed, Turned.commitParts (h.precommitted i) h.laid hcondition.later (List.nil_append _).symm
    (coveredPartsForCommit_spec h.laid hproper hcondition.unseen hcovered) hstart hcommitted, rfl, rfl⟩

theorem mem_returnedParts {parts : DataParts} {precommitted done : List DataPart} :
    part ∈ returnedParts parts precommitted done ↔
      ∃ a ∈ parts, a.toDataPart = part ∧ a.state = .active ∧
        ∃ p ∈ done, BecomesActive parts precommitted p ∧ p.info.Contains a.info := by
  unfold returnedParts
  rw [List.mem_flatMap]
  constructor
  · rintro ⟨p, hp, hmem⟩
    split at hmem
    · rename_i hbecomes
      obtain ⟨a, ha, rfl⟩ := List.mem_map.1 hmem
      obtain ⟨ha, hcovered⟩ := List.mem_filter.1 ha
      obtain ⟨hstate, hcontains⟩ := of_decide_eq_true hcovered
      exact ⟨a, ha, rfl, hstate, p, hp, hbecomes, hcontains⟩
    · cases hmem
  · rintro ⟨a, ha, rfl, hstate, p, hp, hbecomes, hcontains⟩
    refine ⟨p, hp, ?_⟩
    rw [if_pos hbecomes]
    exact (mem_coveredBy ha).2 ⟨hstate, hcontains⟩

theorem nodup_returnedParts (h : Inv data) {c : Committing} (hturned : Turned data.parts (data.precommitted i) (data.precommitted i) c) :
    (returnedParts data.parts (data.precommitted i) (data.precommitted i)).Nodup := by
  have hactive : ∀ p ∈ data.precommitted i, BecomesActive data.parts (data.precommitted i) p →
      ∃ a ∈ c.parts, a.toDataPart = p ∧ a.state = .active := fun p hp hbecomes =>
    hturned.active_of_done (h.precommitted i) (fun _ hq => hq) hp hbecomes
  unfold returnedParts
  refine List.nodup_flatMap.2 ⟨fun p _ => ?_, ?_⟩
  · split
    · have hsorted : (data.parts.toList.filter fun a => a.state = .active ∧ p.info.Contains a.info).Pairwise fun a b => a.key < b.key :=
        data.parts.sorted.filter _
      exact List.pairwise_map.2 (hsorted.imp fun hlt heq => hlt.ne (congrArg DataPart.key heq))
    · exact List.nodup_nil
  · refine (h.nodup i).imp_of_mem fun {p q} hp hq hne => ?_
    intro part hmem hmem'
    dsimp only at hmem hmem'
    split at hmem
    · split at hmem'
      · rename_i hpbecomes hqbecomes
        obtain ⟨x, hx, rfl⟩ := List.mem_map.1 hmem
        obtain ⟨hxmem, hxp⟩ := List.mem_filter.1 hx
        obtain ⟨-, hxq⟩ := (mem_coveredBy hxmem).1 hmem'
        obtain ⟨a, ha, rfl, hastate⟩ := hactive p hp hpbecomes
        obtain ⟨b, hb, rfl, hbstate⟩ := hactive q hq hqbecomes
        have hdisjoint := hturned.laid.disjoint a ha b hb hastate hbstate fun heq => hne (by rw [heq])
        exact PartInfo.not_isDisjoint_of_contains (of_decide_eq_true hxp).2 hxq (h.laid.proper x hxmem).blocks hdisjoint
      · cases hmem'
    · cases hmem

theorem stateOf_withStates {parts : DataParts} {g : DataPart → DataPartState → DataPartState} {a : StatedPart} (ha : a ∈ parts) :
    (parts.withStates g).stateOf a.toDataPart = g a.toDataPart a.state :=
  stateOf_eq (a := withState a (g a.toDataPart a.state)) (mem_withStates.2 ⟨a, ha, rfl, rfl⟩)

/-- **A commit that meets the condition.** -/
theorem commit_spec (h : Inv data) {refuses : DataPart → List DataPart → Bool} {visible : DataPart → Bool}
    (hcondition : CommitCondition data i visible) {returned : List DataPart}
    (hcommit : data.commit i refuses visible = some (data', .ok returned)) : Committed data data' i visible returned := by
  obtain ⟨e, he, -⟩ | ⟨c, hturned, hresult, rfl⟩ := commit_cases h hcondition hcommit
  · cases he
  obtain rfl := Except.ok.inj hresult
  rw [hturned.returned]
  have hparts : ({ data with parts := c.parts, volume := data.volume + c.diff }.clear i).parts =
      data.parts.withStates (stateAfter data.parts (data.precommitted i) (data.precommitted i)) := hturned.parts_eq
  have hstate : ∀ a ∈ data.parts, ({ data with parts := c.parts, volume := data.volume + c.diff }.clear i).parts.stateOf a.toDataPart =
      stateAfter data.parts (data.precommitted i) (data.precommitted i) a.toDataPart a.state := fun a ha => by
    rw [hparts, stateOf_withStates ha]
  refine ⟨fun part => by rw [hparts]; exact has_withStates, fun p hp hbecomes => ?_, fun p hp hnot => ?_, fun a ha hnot hcovered => ?_,
    fun a ha hnot huncovered => ?_, fun part => ?_, nodup_returnedParts h hturned⟩
  · obtain ⟨a, ha, rfl⟩ := (h.precommitted i).has hp
    rw [hstate a ha]
    exact stateAfter_eq_active.2 (Or.inl hbecomes)
  · obtain ⟨a, ha, rfl⟩ := (h.precommitted i).has hp
    rw [hstate a ha]
    unfold stateAfter
    rw [if_pos hp, if_neg fun hbecomes => hnot ⟨hp, hbecomes⟩]
  · obtain ⟨hactive, p, hbecomes, hcontains⟩ := hcovered
    rw [hstate a ha]
    unfold stateAfter
    rw [if_neg hnot, if_pos ⟨hactive, p, hbecomes.1, hbecomes.2, hcontains⟩]
  · rw [hstate a ha]
    unfold stateAfter
    rw [if_neg hnot, if_neg]
    rintro ⟨hactive, p, hp, hbecomes, hcontains⟩
    exact huncovered ⟨hactive, p, ⟨hp, hbecomes⟩, hcontains⟩
  · rw [mem_returnedParts]
    constructor
    · rintro ⟨a, ha, hpart, hactive, p, hp, hbecomes, hcontains⟩
      exact ⟨a, ha, hpart, ⟨p, ⟨hp, hbecomes⟩, hcontains⟩, Or.inl hactive⟩
    · rintro ⟨a, ha, rfl, ⟨p, hbecomes, hcontains⟩, hactive | ⟨htxn, houtdated, hvisible⟩⟩
      · exact ⟨a, ha, rfl, hactive, p, hbecomes.1, hbecomes.2, hcontains⟩
      · rw [hcondition.unseen htxn p hbecomes.1 hbecomes.2 a ha houtdated hcontains] at hvisible
        cases hvisible

theorem Inv.commit (h : Inv data) {refuses : DataPart → List DataPart → Bool} {visible : DataPart → Bool}
    (hcondition : CommitCondition data i visible) {result : Except PartsError (List DataPart)}
    (hcommit : data.commit i refuses visible = some (data', result)) : Inv data' := by
  obtain ⟨e, -, rfl⟩ | ⟨c, hturned, -, rfl⟩ := commit_cases h hcondition hcommit
  · exact h
  have hprecommitted : ∀ j, ({ data with parts := c.parts, volume := data.volume + c.diff }.clear i).precommitted j =
      if j = i then [] else data.precommitted j := fun j => precommitted_clear _ i j
  refine ⟨hturned.laid, (congrArg (· + c.diff) h.volume).trans hturned.volume, fun j => ?_, fun j k hne p hp hp' => ?_⟩
  · rw [hprecommitted]
    split
    · exact ⟨.nil, nofun⟩
    · rename_i hji
      refine ⟨(h.precommitted j).sorted, fun p hp => ?_⟩
      obtain ⟨a, ha, rfl, hstate⟩ := (h.precommitted j).inactive p hp
      refine ⟨withState a (stateAfter data.parts (data.precommitted i) (data.precommitted i) a.toDataPart a.state),
        hturned.parts_eq ▸ mem_withStates.2 ⟨a, ha, rfl, rfl⟩, rfl, fun hactive => ?_⟩
      rcases stateAfter_eq_active.1 hactive with ⟨hmem, -⟩ | ⟨-, hactive, -⟩
      · exact h.separate j i hji _ hp hmem
      · exact hstate hactive
  · rw [hprecommitted] at hp hp'
    split at hp
    · cases hp
    · split at hp'
      · cases hp'
      · exact h.separate j k hne p hp hp'

/-! ## Runs -/

/-- A part that is added has a proper info. -/
def Action.Proper : Action → Prop
  | .addTempPart _ part => part.info.Proper
  | .renameTempPartAndReplace _ part _ => part.info.Proper
  | _ => True

/-- What a step must meet. -/
def Action.Condition (data : MergeTreeData) : Action → Prop
  | .commit i _ visible => CommitCondition data i visible
  | _ => True

/-- The steps of a run meet the condition. -/
def RunCondition : List Action → MergeTreeData → Prop
  | [], _ => True
  | action :: actions, data => action.Condition data ∧ ∀ data', data.step action = some data' → RunCondition actions data'

instance : DecidablePred Action.Proper
  | .addTempPart _ part | .renameTempPartAndReplace _ part _ => inferInstanceAs (Decidable part.info.Proper)
  | .renameParts _ | .commit .. | .rollback .. | .rollbackPartsToTemporaryState _ | .removePartsFromWorkingSet .. =>
    inferInstanceAs (Decidable True)

instance (parts : DataParts) (precommitted : List DataPart) (part : DataPart) :
    Decidable (BecomesActive parts precommitted part) := inferInstanceAs (Decidable (_ ∧ _))

instance (parts : DataParts) (precommitted : List DataPart) : Decidable (CoveredBefore parts precommitted) :=
  inferInstanceAs (Decidable (∀ p ∈ precommitted, ∀ q ∈ precommitted, p.key < q.key → q.info.Contains p.info →
    (∃ a ∈ parts, a.state = .active ∧ a.info.Contains p.info) ∨
      ∃ r ∈ precommitted, r.key < p.key ∧ r.info.Contains p.info))

instance (data : MergeTreeData) (i : ℕ) (visible : DataPart → Bool) : Decidable (CommitCondition data i visible) :=
  decidable_of_iff (CoveredBefore data.parts (data.precommitted i) ∧
      ((data.transactions i).txn = true → ∀ p ∈ data.precommitted i, BecomesActive data.parts (data.precommitted i) p →
        ∀ a ∈ data.parts, a.state = .outdated → p.info.Contains a.info → visible a.toDataPart = false))
    ⟨fun h => ⟨h.1, h.2⟩, fun h => ⟨h.later, h.unseen⟩⟩

instance (data : MergeTreeData) : DecidablePred (Action.Condition data)
  | .commit i _ visible => inferInstanceAs (Decidable (CommitCondition data i visible))
  | .addTempPart .. | .renameTempPartAndReplace .. | .renameParts _ | .rollback .. | .rollbackPartsToTemporaryState _
  | .removePartsFromWorkingSet .. => inferInstanceAs (Decidable True)

instance decidableRunCondition : ∀ (actions : List Action) (data : MergeTreeData), Decidable (RunCondition actions data)
  | [], _ => inferInstanceAs (Decidable True)
  | action :: actions, data =>
    have (data' : MergeTreeData) := decidableRunCondition actions data'
    inferInstanceAs (Decidable (action.Condition data ∧ ∀ data' ∈ data.step action, RunCondition actions data'))

/-- **A step keeps the invariant.** -/
theorem Inv.step (h : Inv data) {action : Action} (hproper : action.Proper) (hcondition : action.Condition data)
    (hstep : data.step action = some data') : Inv data' := by
  cases action with
  | addTempPart i part =>
    obtain rfl := Option.some.inj hstep
    cases hadd : data.addTempPart i part with
    | error e => exact h
    | ok added =>
      obtain ⟨data₁, added⟩ := added
      obtain rfl | ⟨hnew, rfl⟩ := addTempPart_cases hadd
      · exact h
      · exact h.preparePartForCommit hproper hnew _ _
  | renameTempPartAndReplace i part renameInTransaction =>
    obtain rfl := Option.some.inj hstep
    cases hrename : data.renameTempPartAndReplaceImpl i part renameInTransaction with
    | error e => exact h
    | ok data₁ =>
      obtain ⟨hnew, rfl⟩ := renameTempPartAndReplaceImpl_cases hrename
      exact h.preparePartForCommit hproper hnew _ _
  | renameParts i =>
    obtain rfl := Option.some.inj hstep
    have hprecommitted : ∀ j, (data.renameParts i).precommitted j = data.precommitted j := by
      intro j
      unfold renameParts
      rw [precommitted_setTransaction]
      split
      · subst_vars
        rfl
      · rfl
    exact h.of_sameActive ⟨fun _ _ => Iff.rfl, h.laid.proper⟩ rfl (fun j => hprecommitted j ▸ List.Sublist.refl _)
      fun j p hp => (h.precommitted j).inactive p (hprecommitted j ▸ hp)
  | commit i refuses visible =>
    obtain ⟨⟨data₁, result⟩, hcommit, rfl⟩ := Option.map_eq_some_iff.1 hstep
    exact h.commit hcondition hcommit
  | rollback i detached =>
    obtain rfl := Option.some.inj hstep
    exact h.rollback i detached
  | rollbackPartsToTemporaryState i =>
    obtain rfl := Option.some.inj hstep
    exact h.rollbackPartsToTemporaryState i
  | removePartsFromWorkingSet refuses remove =>
    obtain rfl := Option.some.inj hstep
    exact h.removePartsFromWorkingSet refuses

theorem Inv.run : ∀ {actions : List Action} {data data' : MergeTreeData}, Inv data → (∀ action ∈ actions, action.Proper) →
    RunCondition actions data → run actions data = some data' → Inv data' := by
  intro actions
  induction actions with
  | nil =>
    intro data data' h _ _ hrun
    obtain rfl := Option.some.inj hrun
    exact h
  | cons action actions ih =>
    intro data data' h hproper hcondition hrun
    obtain ⟨data₁, hstep, hrest⟩ := Option.bind_eq_some_iff.1 hrun
    exact ih (h.step (hproper action List.mem_cons_self) hcondition.1 hstep) (fun a ha => hproper a (List.mem_cons_of_mem _ ha))
      (hcondition.2 data₁ hstep) hrest

/-- The parts of a table without open transactions. -/
structure Start (data : MergeTreeData) : Prop where
  laid : data.parts.Laid
  volume : data.volume = data.parts.activeVolume
  precommitted : ∀ i, data.precommitted i = []

/-- **The working set in a state of a run.** -/
structure WorkingSetOk (data : MergeTreeData) : Prop where
  disjoint : ∀ a ∈ data.parts, ∀ b ∈ data.parts, a.state = .active → b.state = .active → a ≠ b → a.info.IsDisjoint b.info
  volume : data.volume = data.parts.activeVolume
  commit : ∀ i refuses visible data' returned, CommitCondition data i visible →
    data.commit i refuses visible = some (data', .ok returned) → Committed data data' i visible returned
  /-- A commit that throws changes nothing. -/
  refused : ∀ i refuses visible data' e, CommitCondition data i visible →
    data.commit i refuses visible = some (data', .error e) → data' = data
  /-- A rollback makes the parts of its transaction Outdated, or removes those that are still detached. -/
  rollback : ∀ i detached, (data.rollback i detached).2 = .ok () ∧ (data.rollback i detached).1.volume = data.volume ∧
    ∀ a, a ∈ (data.rollback i detached).1.parts ↔ (a ∈ data.parts ∧ a.toDataPart ∉ data.precommitted i) ∨
      (a.state = .outdated ∧ a.toDataPart ∈ data.precommitted i ∧ detached a.toDataPart = false)
  rollbackPartsToTemporaryState : ∀ i, (data.rollbackPartsToTemporaryState i).2 = .ok () ∧
    (data.rollbackPartsToTemporaryState i).1.volume = data.volume ∧
    ∀ a, a ∈ (data.rollbackPartsToTemporaryState i).1.parts ↔ a ∈ data.parts ∧ a.toDataPart ∉ data.precommitted i
  /-- What a rollback gives up was not Active. -/
  precommitted : ∀ i, ∀ p ∈ data.precommitted i, ∃ a ∈ data.parts, a.toDataPart = p ∧ a.state ≠ .active

theorem Inv.workingSetOk (h : Inv data) : WorkingSetOk data where
  disjoint := h.laid.disjoint
  volume := h.volume
  commit _ _ _ _ _ hcondition hcommit := commit_spec h hcondition hcommit
  refused _ _ _ _ _ hcondition hcommit := by
    obtain ⟨-, -, heq⟩ | ⟨c, -, hresult, -⟩ := commit_cases h hcondition hcommit
    · exact heq
    · cases hresult
  rollback i detached := ⟨by rw [rollback_eq h], by rw [rollback_eq h]; rfl, mem_rollback h detached⟩
  rollbackPartsToTemporaryState i := ⟨by rw [rollbackPartsToTemporaryState_eq h], by rw [rollbackPartsToTemporaryState_eq h]; rfl,
    mem_rollbackPartsToTemporaryState h⟩
  precommitted i := (h.precommitted i).inactive

/-- **Active parts are disjoint and counted in every run** whose commits meet the condition. -/
theorem workingSetOk_of_run {start : MergeTreeData} {actions : List Action} (hstart : Start start)
    (hproper : ∀ action ∈ actions, action.Proper) (hcondition : RunCondition actions start) (hrun : run actions start = some data) :
    WorkingSetOk data := by
  have hinv : Inv start := by
    refine ⟨hstart.laid, hstart.volume, fun i => ?_, fun i _ _ p hp => ?_⟩
    · rw [hstart.precommitted i]
      exact ⟨.nil, nofun⟩
    · rw [hstart.precommitted i] at hp
      cases hp
  exact (hinv.run hproper hcondition hrun).workingSetOk

/-- In transaction 2 a part replaces `all_0_0_0`. Then transaction 1, with a `MergeTreeTransaction` that does not see
`all_0_0_0` any more, commits three parts, each inside the first of them. -/
def mergeInTransaction : List Action :=
  [.renameTempPartAndReplace 0 ⟨.make "all" 0 0 0 0, "", 7, 3⟩ false, .commit 0 (fun _ _ => false) fun _ => true,
    .renameTempPartAndReplace 2 ⟨.make "all" 0 1 1 0, "", 8, 4⟩ false, .commit 2 (fun _ _ => false) fun _ => true,
    .renameTempPartAndReplace 1 ⟨.make "all" 0 10 3 0, "", 9, 5⟩ false,
    .renameTempPartAndReplace 1 ⟨.make "all" 2 3 1 0, "", 2, 1⟩ false,
    .renameTempPartAndReplace 1 ⟨.make "all" 2 5 2 0, "", 3, 2⟩ false,
    .commit 1 (fun _ _ => false) fun part => part.info ≠ .make "all" 0 0 0 0]

theorem workingSetOk_of_run_merge : ∃ data,
    run mergeInTransaction { transactions := Function.update (fun _ => {}) 1 { txn := true } } = some data ∧
      data.parts.toList.map (fun a => (a.info.minBlock, a.info.maxBlock, a.state)) =
        [(0, 0, .outdated), (0, 1, .outdated), (0, 10, .active), (2, 3, .outdated), (2, 5, .outdated)] ∧
      data.volume = (9, 5, 1) ∧ WorkingSetOk data := by
  obtain ⟨data, hrun⟩ := Option.isSome_iff_exists.1 (show (run mergeInTransaction
    { transactions := Function.update (fun _ => {}) 1 { txn := true } }).isSome = true by decide +kernel)
  have hparts : (run mergeInTransaction { transactions := Function.update (fun _ => {}) 1 { txn := true } }).map
      (fun data => (data.parts.toList.map (fun a => (a.info.minBlock, a.info.maxBlock, a.state)), data.volume)) =
        some ([(0, 0, .outdated), (0, 1, .outdated), (0, 10, .active), (2, 3, .outdated), (2, 5, .outdated)], (9, 5, 1)) := by
    decide +kernel
  rw [hrun] at hparts
  obtain ⟨hstates, hvolume⟩ := Prod.mk.inj (Option.some.inj hparts)
  refine ⟨data, hrun, hstates, hvolume, workingSetOk_of_run ⟨⟨fun a ha => absurd ha (KeyedSet.notMem_empty a),
    fun a ha => absurd ha (KeyedSet.notMem_empty a)⟩, rfl, fun i => ?_⟩ ?_ ?_ hrun⟩
  · unfold precommitted
    dsimp only
    rw [Function.update_apply]
    split <;> rfl
  · decide +kernel
  · decide +kernel

/-- A part before one that contains it stays Active beside it, and what a snapshot still sees is subtracted again. -/
theorem commit_overlap :
    (run [.renameTempPartAndReplace 0 ⟨.make "all" 0 5 1 0, "", 7, 3⟩ false,
        .renameTempPartAndReplace 0 ⟨.make "all" 0 10 2 0, "", 8, 4⟩ false, .commit 0 (fun _ _ => false) fun _ => true] {}).map
      (fun data => (data.parts.toList.filter (·.state = .active)).map (·.info)) =
        some [.make "all" 0 5 1 0, .make "all" 0 10 2 0] ∧
    ¬ (PartInfo.make "all" 0 5 1 0).IsDisjoint (.make "all" 0 10 2 0) ∧
    (run [.renameTempPartAndReplace 0 ⟨.make "all" 0 0 0 0, "", 7, 3⟩ false, .commit 0 (fun _ _ => false) fun _ => true,
        .renameTempPartAndReplace 2 ⟨.make "all" 0 5 1 0, "", 7, 3⟩ false, .commit 2 (fun _ _ => false) fun _ => true,
        .renameTempPartAndReplace 1 ⟨.make "all" 0 10 2 0, "", 8, 4⟩ false, .commit 1 (fun _ _ => false) fun _ => true]
      { transactions := Function.update (fun _ => {}) 1 { txn := true } }).map (fun data => (data.volume, data.parts.activeVolume)) =
        some ((1, 1, 0), (8, 4, 1)) := by
  refine ⟨by decide +kernel, by decide, by decide +kernel⟩

end MergeTreeData

end MergeTree
