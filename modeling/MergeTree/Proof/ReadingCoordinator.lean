import MergeTree.Proof.PartInfo
import MergeTree.Spec.ReadingCoordinator

/-!
# Which intersections an announcement shows

A new part is compared with one part only, the first that does not sort before it. If any
part that does not sort before the new one meets it, that neighbour does too
(`exists_neighbour_iff`). Parts that sort before the new one are never looked at, so the
announcement is rejected exactly if some part is listed after a part that it meets and does
not sort after it (`addParts_spec`).
-/

namespace MergeTree

namespace DefaultCoordinator

variable {part : RangesInDataPartDescription} {description done : RangesInDataPartsDescription}
  {knownParts : CoordinatorParts} {allPartsToRead : List CoordinatorPart} {replicaNum : ℕ}

/-- The parts of an announcement: their block ranges are not empty, and the partition tells the kind. -/
structure Announced (description : RangesInDataPartsDescription) : Prop where
  blocks : ∀ p ∈ description, p.info.minBlock ≤ p.info.maxBlock
  kind : ∀ p ∈ description, ∀ q ∈ description, p.info.partitionId = q.info.partitionId → p.info.kind = q.info.kind

/-- The parts of an announcement are pairwise disjoint. -/
def AllDisjoint (description : RangesInDataPartsDescription) : Prop :=
  description.Pairwise fun p q => p.info.IsDisjoint q.info

/-- A part that is listed later sorts after every part that it meets. -/
def MeetsSmallerOnly (description : RangesInDataPartsDescription) : Prop :=
  description.Pairwise fun p q => p.info.IsDisjoint q.info ∨ p.info.toTuple < q.info.toTuple

instance : DecidablePred AllDisjoint := fun description => inferInstanceAs (Decidable (description.Pairwise _))

instance : DecidablePred MeetsSmallerOnly := fun description => inferInstanceAs (Decidable (description.Pairwise _))

/-- The known parts are the parts listed so far. -/
structure Known (knownParts : CoordinatorParts) (done : RangesInDataPartsDescription) : Prop where
  listed : ∀ p ∈ knownParts, p.description ∈ done
  known : ∀ d ∈ done, ∃ p ∈ knownParts, p.description = d

/-- **The neighbour** shows every intersection with a part that does not sort before the new one. -/
theorem exists_neighbour_iff (hknown : Known knownParts done) (hannounced : Announced (part :: done)) :
    (∃ p, (knownParts.above part.info.toTuple).head? = some p ∧ ¬ p.description.info.IsDisjoint part.info) ↔
      ∃ d ∈ done, part.info.toTuple ≤ d.info.toTuple ∧ ¬ d.info.IsDisjoint part.info := by
  constructor
  · rintro ⟨p, hp, hmeets⟩
    obtain ⟨hmem, hle⟩ := KeyedSet.mem_above.1 (List.mem_of_head? hp)
    exact ⟨p.description, hknown.listed p hmem, hle, hmeets⟩
  · rintro ⟨d, hd, hle, hmeets⟩
    obtain ⟨p, hp, rfl⟩ := hknown.known d hd
    have habove : p ∈ knownParts.above part.info.toTuple := KeyedSet.mem_above.2 ⟨hp, hle⟩
    obtain ⟨next, rest, hnext⟩ := List.exists_cons_of_ne_nil (List.ne_nil_of_mem habove)
    have hfirst : next.key ≤ p.key := by
      have hsorted := knownParts.sorted.sublist (knownParts.above_sublist part.info.toTuple)
      rw [hnext] at habove hsorted
      rcases List.mem_cons.1 habove with rfl | hrest
      · exact le_rfl
      · exact ((List.pairwise_cons.1 hsorted).1 p hrest).le
    obtain ⟨hmem, hle'⟩ : next ∈ knownParts ∧ part.info.toTuple ≤ next.key :=
      KeyedSet.mem_above.1 (hnext ▸ List.mem_cons_self)
    refine ⟨next, by rw [hnext]; rfl, fun hdisjoint => hmeets ?_⟩
    -- the neighbour lies between the new part and `p`
    have hkind : ∀ q ∈ knownParts, q.description.info.partitionId = part.info.partitionId →
        q.description.info.kind = part.info.kind :=
      fun q hq => hannounced.kind _ (List.mem_cons_of_mem _ (hknown.listed q hq)) _ List.mem_cons_self
    rw [PartInfo.isDisjoint_iff_span_of_kind (hkind next hmem)] at hdisjoint
    rw [PartInfo.isDisjoint_iff_span_of_kind (hkind p hp)]
    exact Span.right_of (PartInfo.span_le hle') (PartInfo.span_le hfirst) hdisjoint
      (hannounced.blocks _ (List.mem_cons_of_mem _ (hknown.listed next hmem)))

/-- A part that meets no known part but those that sort before it is new, so it becomes known. -/
theorem Known.emplace (hknown : Known knownParts done) (hannounced : Announced (part :: done))
    (hnone : ¬ ∃ d ∈ done, part.info.toTuple ≤ d.info.toTuple ∧ ¬ d.info.IsDisjoint part.info) :
    Known (knownParts.emplace ⟨part, []⟩) (done ++ [part]) := by
  have hnew : ∀ p ∈ knownParts, p.key ≠ CoordinatorPart.key ⟨part, []⟩ := by
    intro p hp heq
    refine hnone ⟨p.description, hknown.listed p hp, heq.ge, ?_⟩
    obtain ⟨-, hpartition, hmin, hmax, -⟩ := PartInfo.eqv_iff.1 heq
    have hblocks := hannounced.blocks part List.mem_cons_self
    unfold PartInfo.IsDisjoint
    simp only [hpartition, hmin, hmax, ne_eq, not_true_eq_false, false_or, or_self, not_lt]
    exact hblocks
  refine ⟨fun p hp => ?_, fun d hd => ?_⟩
  · rcases KeyedSet.mem_emplace.1 hp with hp | ⟨rfl, -⟩
    · exact List.mem_append_left _ (hknown.listed p hp)
    · exact List.mem_append_right _ List.mem_cons_self
  · rcases List.mem_append.1 hd with hd | hd
    · obtain ⟨p, hp, hpd⟩ := hknown.known d hd
      exact ⟨p, KeyedSet.mem_emplace.2 (Or.inl hp), hpd⟩
    · rw [List.mem_singleton.1 hd]
      exact ⟨_, KeyedSet.mem_emplace.2 (Or.inr ⟨rfl, hnew⟩), rfl⟩

/-- **The loop** adds all parts if every part sorts after the earlier ones that it meets, and throws otherwise. -/
theorem addParts_spec : ∀ {description done : RangesInDataPartsDescription} {knownParts : CoordinatorParts}
    (allPartsToRead : List CoordinatorPart), Known knownParts done → Announced (done ++ description) → MeetsSmallerOnly done →
      (MeetsSmallerOnly (done ++ description) →
        addParts replicaNum description knownParts allPartsToRead =
          (allPartsToRead ++ description.map fun part => ⟨part, [replicaNum]⟩, .ok ())) ∧
      (¬ MeetsSmallerOnly (done ++ description) →
        (addParts replicaNum description knownParts allPartsToRead).2 = .error intersectingParts) := by
  intro description
  induction description with
  | nil =>
    intro done knownParts allPartsToRead _ _ hdone
    rw [List.append_nil]
    exact ⟨fun _ => by rw [List.map_nil, List.append_nil]; rfl, fun h => absurd hdone h⟩
  | cons part rest ih =>
    intro done knownParts allPartsToRead hknown hannounced hdone
    have hsplit : done ++ part :: rest = (done ++ [part]) ++ rest := by rw [List.append_assoc]; rfl
    have hsub : ∀ p ∈ part :: done, p ∈ done ++ part :: rest := by
      intro p hp
      rcases List.mem_cons.1 hp with rfl | hp
      · exact List.mem_append_right _ List.mem_cons_self
      · exact List.mem_append_left _ hp
    have hfirst : Announced (part :: done) :=
      ⟨fun p hp => hannounced.blocks p (hsub p hp), fun p hp q hq => hannounced.kind p (hsub p hp) q (hsub q hq)⟩
    have hneighbour := exists_neighbour_iff hknown hfirst
    by_cases hmeets : ∃ d ∈ done, part.info.toTuple ≤ d.info.toTuple ∧ ¬ d.info.IsDisjoint part.info
    · obtain ⟨next, hnext, hmeetsNext⟩ := hneighbour.2 hmeets
      obtain ⟨d, hd, hle, hnot⟩ := hmeets
      have hbad : ¬ MeetsSmallerOnly (done ++ part :: rest) := fun h =>
        ((List.pairwise_append.1 h).2.2 d hd part List.mem_cons_self).elim hnot fun hlt => hlt.not_ge hle
      refine ⟨fun h => absurd h hbad, fun _ => ?_⟩
      unfold addParts
      simp only [hnext, hmeetsNext, not_false_eq_true, if_true]
    · have hknown' := hknown.emplace hfirst hmeets
      have hdone' : MeetsSmallerOnly (done ++ [part]) := by
        refine List.pairwise_append.2 ⟨hdone, List.pairwise_singleton _ _, fun d hd q hq => ?_⟩
        obtain rfl := List.mem_singleton.1 hq
        by_contra hnot
        rw [not_or, not_lt] at hnot
        exact hmeets ⟨d, hd, hnot.2, hnot.1⟩
      obtain ⟨hok, herror⟩ := ih (allPartsToRead ++ [⟨part, [replicaNum]⟩]) hknown' (hsplit ▸ hannounced) hdone'
      rw [hsplit]
      have hadd : addParts replicaNum (part :: rest) knownParts allPartsToRead =
          addParts replicaNum rest (knownParts.emplace ⟨part, []⟩) (allPartsToRead ++ [⟨part, [replicaNum]⟩]) := by
        conv_lhs => unfold addParts
        cases hhead : (knownParts.above part.info.toTuple).head? with
        | none => rfl
        | some next =>
          have hdisjoint : next.description.info.IsDisjoint part.info :=
            not_not.1 fun hnot => hmeets (hneighbour.1 ⟨next, hhead, hnot⟩)
          simp only [hdisjoint, not_true_eq_false, if_false]
      rw [hadd]
      refine ⟨fun h => ?_, herror⟩
      rw [hok h, List.append_assoc]
      rfl

theorem perm_sort (std : StdSort) (parts : List CoordinatorPart) : (std.sort biggerPartsFirst parts).Perm parts :=
  (std.lawful biggerPartsFirst (fun part => OrderDual.toDual part.description.info.getBlocksCount) parts fun _ _ _ _ => rfl).1

theorem initializeReadingState_of_meetsSmallerOnly [IntText] (std : StdSort) {coordinator : DefaultCoordinator}
    (hfirst : coordinator.stateInitialized = false) (hempty : coordinator.allPartsToRead = [])
    {announcement : InitialAllRangesAnnouncement} (hannounced : Announced announcement.description)
    (h : MeetsSmallerOnly announcement.description) :
    (initializeReadingState std coordinator announcement).1.stateInitialized = true ∧
      (initializeReadingState std coordinator announcement).1.allPartsToRead.Perm
        (announcement.description.map fun part => ⟨part, [announcement.replicaNum]⟩) ∧
      (initializeReadingState std coordinator announcement).2 ≠ .error intersectingParts := by
  have hknown : Known KeyedSet.empty [] := ⟨nofun, nofun⟩
  have hadd : addParts announcement.replicaNum _ _ _ = _ := (addParts_spec [] hknown hannounced .nil).1 h
  rw [List.nil_append] at hadd
  unfold initializeReadingState
  simp only [hfirst, hempty, List.foldl_nil, hadd, Bool.false_eq_true, if_false]
  refine ⟨trivial, perm_sort std _, ?_⟩
  split
  · simp only [ne_eq, Except.error.injEq]
    decide
  · exact nofun

theorem initializeReadingState_of_not_meetsSmallerOnly [IntText] (std : StdSort) {coordinator : DefaultCoordinator}
    (hfirst : coordinator.stateInitialized = false) (hempty : coordinator.allPartsToRead = [])
    {announcement : InitialAllRangesAnnouncement} (hannounced : Announced announcement.description)
    (h : ¬ MeetsSmallerOnly announcement.description) :
    (initializeReadingState std coordinator announcement).1.stateInitialized = false ∧
      (initializeReadingState std coordinator announcement).2 = .error intersectingParts := by
  have hknown : Known KeyedSet.empty [] := ⟨nofun, nofun⟩
  have hadd : (addParts announcement.replicaNum _ _ _).2 = _ := (addParts_spec [] hknown hannounced .nil).2 h
  rcases hresult : addParts announcement.replicaNum announcement.description KeyedSet.empty [] with ⟨parts, result⟩
  rw [hresult] at hadd
  dsimp only at hadd
  unfold initializeReadingState
  simp only [hfirst, hempty, List.foldl_nil, hresult, hadd, Bool.false_eq_true, if_false]
  exact ⟨trivial, trivial⟩

/-- **When intersecting parts are rejected**: if there are none, or if two of them are listed so that the
later one does not sort after the earlier one. -/
theorem initializeReadingState_rejects_iff [IntText] (std : StdSort) {coordinator : DefaultCoordinator}
    (hfirst : coordinator.stateInitialized = false) (hempty : coordinator.allPartsToRead = [])
    {announcement : InitialAllRangesAnnouncement} (hannounced : Announced announcement.description) :
    ((¬ AllDisjoint announcement.description →
        (initializeReadingState std coordinator announcement).2 = .error intersectingParts) ↔
      (AllDisjoint announcement.description ∨ ¬ MeetsSmallerOnly announcement.description)) ∧
    (((initializeReadingState std coordinator announcement).1.stateInitialized = true →
        (initializeReadingState std coordinator announcement).1.allPartsToRead.Pairwise fun p q =>
          p.description.info.IsDisjoint q.description.info) ↔
      (AllDisjoint announcement.description ∨ ¬ MeetsSmallerOnly announcement.description)) := by
  by_cases h : MeetsSmallerOnly announcement.description
  · obtain ⟨hinitialized, hperm, hok⟩ := initializeReadingState_of_meetsSmallerOnly std hfirst hempty hannounced h
    have hdisjoint : ((initializeReadingState std coordinator announcement).1.allPartsToRead.Pairwise fun p q =>
        p.description.info.IsDisjoint q.description.info) ↔ AllDisjoint announcement.description := by
      rw [hperm.pairwise_iff fun hpq => PartInfo.IsDisjoint.symm hpq, List.pairwise_map]
      rfl
    simp only [h, not_true_eq_false, or_false, hinitialized, true_imp_iff, hdisjoint, hok, imp_false, not_not, and_self]
  · obtain ⟨hinitialized, herror⟩ := initializeReadingState_of_not_meetsSmallerOnly std hfirst hempty hannounced h
    simp only [h, not_false_eq_true, or_true, hinitialized, herror, Bool.false_eq_true, false_imp_iff, implies_true, and_self]

/-- An announcement of `all_0_10_1` and `all_3_5_0`, in an order. -/
def coveringPart (coveredFirst : Bool) : InitialAllRangesAnnouncement where
  mode := .default
  description :=
    if coveredFirst then [{ info := PartInfo.make "all" 3 5 0 0 }, { info := PartInfo.make "all" 0 10 1 0 }]
    else [{ info := PartInfo.make "all" 0 10 1 0 }, { info := PartInfo.make "all" 3 5 0 0 }]
  replicaNum := 0
  markSegmentSize := 128
  minMarksPerRequest := 1
  streamId := "default"

/-- The covered part listed first: rejected. -/
theorem initializeReadingState_rejects_iff_coveredFirst :
    (@initializeReadingState IntText.decimal StdSort.insertion {} (coveringPart true)).2 = .error intersectingParts := by
  have hmeets : ¬ MeetsSmallerOnly (coveringPart true).description := by
    intro h
    rcases List.pairwise_pair.1 h with h | h
    · exact absurd h (by decide)
    · rw [← not_le, PartInfo.toTuple_le_iff] at h
      exact absurd h (by decide)
  exact (@initializeReadingState_rejects_iff IntText.decimal StdSort.insertion {} rfl rfl (coveringPart true)
    ⟨by decide, by decide⟩).1.2 (Or.inr hmeets) (by decide)

/-- The covering part listed first: two parts that intersect make up the working set. -/
theorem initializeReadingState_coveringFirst :
    ¬ AllDisjoint (coveringPart false).description ∧
      (@initializeReadingState IntText.decimal StdSort.insertion {} (coveringPart false)).1.stateInitialized = true ∧
      (@initializeReadingState IntText.decimal StdSort.insertion {} (coveringPart false)).2 ≠ .error intersectingParts := by
  have hmeets : MeetsSmallerOnly (coveringPart false).description := by
    refine List.pairwise_pair.2 (Or.inr ?_)
    rw [← not_le, PartInfo.toTuple_le_iff]
    decide
  have hresult := @initializeReadingState_of_meetsSmallerOnly IntText.decimal StdSort.insertion {} rfl rfl
    (coveringPart false) ⟨by decide, by decide⟩ hmeets
  exact ⟨by decide, hresult.1, hresult.2.2⟩

end DefaultCoordinator

end MergeTree
