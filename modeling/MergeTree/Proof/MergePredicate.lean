import MergeTree.Proof.PartName
import MergeTree.Proof.PartSetChanges
import MergeTree.Spec.PartitionLog

/-!
# The merge predicate is safe

Blocks below the ones of a part in `prev_virtual_parts` were acquired before the snapshot
was taken. When the committing blocks are loaded afterwards, such a block is committing,
so it is among them, or its part is in the log, so it is pulled before the predicate is
built, or it was abandoned.

* `Snapshot.step`: this stays so whatever happens next.
* `canMergeParts_safe`: between two parts that may be merged there is no virtual part of an
  ordinary level, and no later insert adds a part there.
-/

namespace MergeTree

namespace ActiveDataPartSet

variable {S : ActiveDataPartSet} {p : PartInfo} {e : Entry}

theorem mem_getPartsCoveredByImpl (hS : S.Laid) (hp : p.Proper)
    (hall : ∀ f ∈ S, p.IsDisjoint f.1 ∨ p.Contains f.1) (he : e ∈ S) (hc : p.Contains e.1) :
    e ∈ S.getPartsCoveredByImpl p := by
  have hnone : ∀ l : List Entry, (∀ f ∈ l, f ∈ S) → intersecting p l = none := by
    intro l hl
    rw [Option.eq_none_iff_forall_ne_some]
    intro f hf
    obtain ⟨hm, hnc, hnd⟩ := mem_of_intersecting hf
    rcases hall f (hl f hm) with h | h
    · exact hnd h
    · exact hnc h
  have hleft := left_clear hS hp (hnone _ fun f hf => (mem_toTheLeft.1 hf).1)
  have hright := right_clear hS hp (hnone _ fun f hf => (mem_toTheRight.1 hf).1)
  -- what the walks stop at misses `p`, so it does not contain it
  have hstop : ∀ l : List Entry, (∀ f ∈ l.dropWhile (covers p), p.IsDisjoint f.1) →
      ((l.dropWhile (covers p)).head?.any fun f => f.1.Contains p) = false := by
    intro l hl
    cases hd : l.dropWhile (covers p) with
    | nil => rfl
    | cons f fs =>
      have hdis := hl f (by rw [hd]; exact List.mem_cons_self)
      simp only [List.head?_cons, Option.any_some, decide_eq_false_iff_not]
      intro hcf
      exact hcf.not_isDisjoint hp.blocks hdis.symm
  have htake : ∀ l : List Entry, (∀ f ∈ l.dropWhile (covers p), p.IsDisjoint f.1) → e ∈ l →
      e ∈ l.takeWhile (covers p) := by
    intro l hl hel
    rw [← List.takeWhile_append_dropWhile (p := covers p) (l := l)] at hel
    rcases List.mem_append.1 hel with h | h
    · exact h
    · exact absurd (hl e h) (hc.not_isDisjoint (hS.proper e he).blocks)
  unfold getPartsCoveredByImpl
  simp only [hstop _ hleft, hstop _ hright, Bool.false_eq_true, if_false]
  rcases mem_left_or_right (p := p) he with h | h
  · exact List.mem_append_left _ (List.mem_reverse.2 (htake _ hleft h))
  · exact List.mem_append_right _ (htake _ hright h)

theorem getContainingPart_of_ne_empty (h : S.getContainingPart p ≠ "") : ∃ e ∈ S, e.1.Contains p := by
  unfold getContainingPart at h
  cases hc : S.getContainingPartImpl p with
  | none => rw [hc] at h; exact absurd rfl h
  | some e => exact ⟨e, getContainingPartImpl_mem hc⟩

theorem mem_of_getContainingPart_eq [IntText] (hS : S.WellNamed) {name : String}
    (hname : fromPartName name S.formatVersion = .ok p) (hcov : S.HasCovering p)
    (h : S.getContainingPart p = name) : (p, name) ∈ S := by
  obtain ⟨f, hf, hfp⟩ := hcov
  have hsome := (getContainingPartImpl_eq_some hS.laid (fromPartName_proper hname)).2 ⟨hf, hfp⟩
  unfold getContainingPart at h
  rw [hsome] at h
  simp only at h
  have hparse := hS.named f hf
  rw [h, hname] at hparse
  have heq : f = (p, name) := Prod.ext (by cases hparse; rfl) h
  exact heq ▸ hf

end ActiveDataPartSet

namespace PartitionLog

open ActiveDataPartSet DistributedMergePredicate

variable [IntText] {v : ℕ} {partitionId : String} {s t : PartitionLog} {prev : ActiveDataPartSet}
  {blocks : CommittingBlocksSet} {n : ℤ} {upTo : ℕ}

/-! ## What holds in every run -/

/-- The parts of the partition have block numbers that were acquired. -/
def Acquired (partitionId : String) (nextBlock : ℤ) (p : PartInfo) : Prop :=
  p.partitionId = partitionId ∧ p.maxBlock < nextBlock ∧ p.mutation = 0

omit [IntText] in
theorem Acquired.mono {p : PartInfo} {m : ℤ} (h : Acquired partitionId n p) (hm : n ≤ m) :
    Acquired partitionId m p :=
  ⟨h.1, h.2.1.trans_le hm, h.2.2⟩

/-- **Invariant.** What was pulled is covered by the virtual parts. -/
structure Invariant (v : ℕ) (partitionId : String) (s : PartitionLog) : Prop where
  version : s.virtualParts.formatVersion = v
  wellNamed : s.virtualParts.WellNamed
  virtualParts : ∀ e ∈ s.virtualParts, Acquired partitionId s.nextBlock e.1
  log : ∀ entry ∈ s.log, ∃ p, fromPartName entry.newPartName v = .ok p ∧ Acquired partitionId s.nextBlock p ∧
    (entry.type = .getPart → p.minBlock = p.maxBlock)
  committing : ∀ b ∈ s.committing, b.2 < s.nextBlock
  pulled : ∀ i < s.logPointer, ∀ entry, s.log[i]? = some entry → ∀ p,
    fromPartName entry.newPartName v = .ok p → s.virtualParts.HasCovering p
  pointer : s.logPointer ≤ s.log.length

theorem Invariant.start (v : ℕ) (partitionId : String) : Invariant v partitionId (start v) := by
  refine ⟨rfl, WellNamed.empty v, ?_, ?_, ?_, ?_, le_rfl⟩
  · intro e he
    exact absurd he (KeyedSet.notMem_empty e)
  · intro entry he
    cases he
  · intro b hb
    exact absurd hb (KeyedSet.notMem_empty b)
  · intro i hi
    cases hi

omit [IntText] in
theorem foldl_max_zero : ∀ {l : List ℤ}, (∀ x ∈ l, x = 0) → l.foldl max 0 = 0 := by
  intro l
  induction l with
  | nil => intro _; rfl
  | cons x l ih =>
    intro h
    rw [List.foldl_cons, h x List.mem_cons_self, max_self]
    exact ih fun y hy => h y (List.mem_cons_of_mem _ hy)

theorem Invariant.merged (h : Invariant v partitionId s) {before after parts : List Entry} {first last : Entry}
    (hsplit : s.virtualParts.partInfoToName.toList = before ++ parts ++ after) (hfirst : parts.head? = some first)
    (hlast : parts.getLast? = some last) :
    Acquired partitionId s.nextBlock (futureMergedPart first.1 last.1 (parts.map Prod.fst)) := by
  have hin : ∀ e ∈ parts, Acquired partitionId s.nextBlock e.1 := by
    intro e he
    refine h.virtualParts e ?_
    change e ∈ s.virtualParts.partInfoToName.toList
    rw [hsplit]
    exact List.mem_append_left _ (List.mem_append_right _ he)
  refine ⟨(hin first (List.mem_of_mem_head? hfirst)).1, (hin last (List.mem_of_mem_getLast? hlast)).2.1, ?_⟩
  refine foldl_max_zero ?_
  intro x hx
  obtain ⟨p, hp, rfl⟩ := List.mem_map.1 hx
  obtain ⟨e, he, rfl⟩ := List.mem_map.1 hp
  exact (hin e he).2.2

theorem Invariant.append (h : Invariant v partitionId s) {entry : LogEntry} {p : PartInfo}
    {committing : CommittingBlocksSet} (hcom : ∀ b ∈ committing, b.2 < s.nextBlock)
    (hp : fromPartName entry.newPartName v = .ok p) (hacq : Acquired partitionId s.nextBlock p)
    (hget : entry.type = .getPart → p.minBlock = p.maxBlock) :
    Invariant v partitionId { s with committing := committing, log := s.log ++ [entry] } := by
  refine ⟨h.version, h.wellNamed, h.virtualParts, ?_, hcom, ?_, ?_⟩
  · intro e he
    rcases List.mem_append.1 he with he | he
    · exact h.log e he
    · rw [List.mem_singleton.1 he]
      exact ⟨p, hp, hacq, hget⟩
  · intro i hi e he q hq
    have hlt : i < s.log.length := lt_of_lt_of_le hi h.pointer
    rw [List.getElem?_append_left hlt] at he
    exact h.pulled i hi e he q hq
  · have hlen := h.pointer
    simp only [List.length_append]
    omega

theorem Invariant.step (h : Invariant v partitionId s) (hst : Step v partitionId s t) :
    Invariant v partitionId t := by
  cases hst with
  | acquire op =>
    refine ⟨h.version, h.wellNamed, ?_, ?_, ?_, h.pulled, h.pointer⟩
    · intro e he
      exact (h.virtualParts e he).mono (by simp)
    · intro entry he
      obtain ⟨p, hp, hacq, hget⟩ := h.log entry he
      exact ⟨p, hp, hacq.mono (by simp), hget⟩
    · intro b hb
      rcases KeyedSet.mem_emplace.1 hb with hb | ⟨rfl, -⟩
      · have := h.committing b hb
        simp only
        omega
      · simp
  | commit op block entry p hb hins =>
    have hlt := h.committing _ hb
    refine h.append ?_ hins.newPartName ⟨hins.partitionId, by rw [hins.maxBlock]; exact hlt, hins.mutation⟩ ?_
    · intro b hb
      exact h.committing b (KeyedSet.mem_erase.1 hb).1
    · intro _
      rw [hins.minBlock, hins.maxBlock]
  | abandon block =>
    refine ⟨h.version, h.wellNamed, h.virtualParts, h.log, ?_, h.pulled, h.pointer⟩
    intro b hb
    exact h.committing b (KeyedSet.mem_erase.1 hb).1
  | merge before after parts first last entry hsplit hfirst hlast htype hp =>
    refine h.append h.committing hp (h.merged hsplit hfirst hlast) ?_
    intro hget
    rw [htype] at hget
    cases hget
  | pull entry virtualParts r hentry hadd =>
    obtain ⟨hw, hv, ⟨p, hp, hcov⟩, hkept⟩ := addName_covers h.wellNamed hadd
    have hin : entry ∈ s.log := List.mem_of_getElem? hentry
    obtain ⟨q, hq, hacq, -⟩ := h.log entry hin
    have hpq : p = q := by
      rw [h.version, hq] at hp
      cases hp
      rfl
    refine ⟨hv.trans h.version, hw, ?_, h.log, h.committing, ?_, ?_⟩
    · obtain ⟨p', hp', rfl, -⟩ := addName_eq_ok hadd
      have hpp := fromPartName_proper hp'
      have hok := addImpl_ok h.wellNamed.laid hpp entry.newPartName
      have hpq' : p' = q := by
        rw [h.version, hq] at hp'
        cases hp'
        rfl
      intro e he
      by_cases ha : (s.virtualParts.addImpl p' entry.newPartName).outcome = .added
      · rcases (hok.mem_set ha e).1 he with ⟨heS, -⟩ | rfl
        · exact h.virtualParts e heS
        · rw [hpq']
          exact hacq
      · exact h.virtualParts e (hok.refused ha e he)
    · intro i hi e he p' hp'
      rcases Nat.lt_succ_iff_lt_or_eq.1 hi with hi | rfl
      · exact hkept p' (h.pulled i hi e he p' hp')
      · rw [hentry] at he
        cases he
        rw [hq] at hp'
        cases hp'
        exact hpq ▸ hcov
    · obtain ⟨hlt, -⟩ := List.getElem?_eq_some_iff.1 hentry
      exact hlt
  | copyVirtualParts => exact ⟨h.version, h.wellNamed, h.virtualParts, h.log, h.committing, h.pulled, h.pointer⟩
  | loadCommittingBlocks =>
    exact ⟨h.version, h.wellNamed, h.virtualParts, h.log, h.committing, h.pulled, h.pointer⟩
  | listLog => exact ⟨h.version, h.wellNamed, h.virtualParts, h.log, h.committing, h.pulled, h.pointer⟩
  | pulled => exact ⟨h.version, h.wellNamed, h.virtualParts, h.log, h.committing, h.pulled, h.pointer⟩

theorem Invariant.run (h : Run v partitionId (PartitionLog.start v) s) : Invariant v partitionId s := by
  induction h with
  | refl => exact Invariant.start v partitionId
  | tail _ hst ih => exact ih.step hst

/-! ## The snapshots -/

/-- **What the loaded blocks know.** A block below `n` that is still committing was loaded,
and a block below `n` that is in the log was loaded or is among the first `upTo` entries. -/
structure Snapshot (v : ℕ) (n : ℤ) (blocks : CommittingBlocksSet) (upTo : ℕ) (s : PartitionLog) : Prop where
  acquired : n ≤ s.nextBlock
  listed : upTo ≤ s.log.length
  committing : ∀ b ∈ s.committing, b.2 < n → ∃ x ∈ blocks, x.2 = b.2
  inserted : ∀ (i : ℕ) (entry : LogEntry) (p : PartInfo), s.log[i]? = some entry → entry.type = .getPart →
    fromPartName entry.newPartName v = .ok p → p.minBlock < n → i < upTo ∨ ∃ x ∈ blocks, x.2 = p.minBlock

theorem Snapshot.load (hn : n ≤ s.nextBlock) : Snapshot v n s.committing s.log.length s := by
  refine ⟨hn, le_rfl, ?_, ?_⟩
  · intro b hb _
    exact ⟨b, hb, rfl⟩
  · intro i entry p hi _ _ _
    obtain ⟨hlt, -⟩ := List.getElem?_eq_some_iff.1 hi
    exact Or.inl hlt

theorem Snapshot.append (h : Snapshot v n blocks upTo s) {entry : LogEntry} {committing : CommittingBlocksSet}
    (hcom : ∀ b ∈ committing, b ∈ s.committing)
    (hentry : ∀ p, entry.type = .getPart → fromPartName entry.newPartName v = .ok p → p.minBlock < n →
      ∃ x ∈ blocks, x.2 = p.minBlock) :
    Snapshot v n blocks upTo { s with committing := committing, log := s.log ++ [entry] } := by
  have hlen := h.listed
  refine ⟨h.acquired, ?_, fun b hb => h.committing b (hcom b hb), ?_⟩
  · simp only [List.length_append]
    omega
  · intro i e p hi htype hp hlt
    by_cases hold : i < s.log.length
    · rw [List.getElem?_append_left hold] at hi
      exact h.inserted i e p hi htype hp hlt
    · rw [List.getElem?_append_right (not_lt.1 hold)] at hi
      have he : e = entry := by
        have := List.mem_of_getElem? hi
        exact List.mem_singleton.1 this
      subst he
      exact Or.inr (hentry p htype hp hlt)

/-- **No step spoils a snapshot**: a new block is not below `n`, and a block that commits
later was committing when the blocks were loaded. -/
theorem Snapshot.step (h : Snapshot v n blocks upTo s) (hst : Step v partitionId s t) :
    Snapshot v n blocks upTo t := by
  have hacq := h.acquired
  cases hst with
  | acquire op =>
    refine ⟨?_, h.listed, ?_, h.inserted⟩
    · simp only
      omega
    · intro b hb hlt
      rcases KeyedSet.mem_emplace.1 hb with hb | ⟨rfl, -⟩
      · exact h.committing b hb hlt
      · simp only at hlt
        omega
  | commit op block entry p hb hins =>
    refine h.append (fun b hb => (KeyedSet.mem_erase.1 hb).1) ?_
    intro q _ hq hlt
    have hpq : q = p := by
      rw [hins.newPartName] at hq
      cases hq
      rfl
    subst hpq
    rw [hins.minBlock] at hlt ⊢
    exact h.committing _ hb hlt
  | abandon block =>
    exact ⟨hacq, h.listed, fun b hb => h.committing b (KeyedSet.mem_erase.1 hb).1, h.inserted⟩
  | merge before after parts first last entry hsplit hfirst hlast htype hp =>
    refine h.append (fun b hb => hb) ?_
    intro q hget
    rw [htype] at hget
    cases hget
  | pull => exact ⟨hacq, h.listed, h.committing, h.inserted⟩
  | copyVirtualParts => exact ⟨hacq, h.listed, h.committing, h.inserted⟩
  | loadCommittingBlocks => exact ⟨hacq, h.listed, h.committing, h.inserted⟩
  | listLog => exact ⟨hacq, h.listed, h.committing, h.inserted⟩
  | pulled => exact ⟨hacq, h.listed, h.committing, h.inserted⟩

theorem Snapshot.run (h : Snapshot v n blocks upTo s) (hrun : Run v partitionId s t) :
    Snapshot v n blocks upTo t := by
  induction hrun with
  | refl => exact h
  | tail _ hst ih => exact ih.step hst

/-- **What the previous virtual parts know**: their blocks are below `n`, and what they
cover is still covered. -/
structure Previous (n : ℤ) (prev : ActiveDataPartSet) (s : PartitionLog) : Prop where
  below : ∀ e ∈ prev, e.1.maxBlock < n
  kept : ∀ p, prev.HasCovering p → s.virtualParts.HasCovering p

theorem hasCovering_step (h : Invariant v partitionId s) (hst : Step v partitionId s t) {p : PartInfo}
    (hp : s.virtualParts.HasCovering p) : t.virtualParts.HasCovering p := by
  cases hst with
  | pull entry virtualParts r hentry hadd =>
    obtain ⟨-, -, -, hkept⟩ := addName_covers h.wellNamed hadd
    exact hkept p hp
  | _ => exact hp

theorem Previous.step (h : Previous n prev s) (hinv : Invariant v partitionId s)
    (hst : Step v partitionId s t) : Previous n prev t :=
  ⟨h.below, fun p hp => hasCovering_step hinv hst (h.kept p hp)⟩

/-- How far the snapshots have come: `upTo` is first bounded by the log, then by what
`pullLogsToQueue` has listed, and at last by what the replica has pulled. -/
def Prepared (v : ℕ) (s : PartitionLog) : PredicateStage → Prop
  | .idle => True
  | .copied prev => ∃ n ≤ s.nextBlock, Previous n prev s
  | .loaded prev blocks => ∃ n upTo, Previous n prev s ∧ Snapshot v n blocks upTo s
  | .pulling prev blocks target => ∃ n, ∃ upTo ≤ target, Previous n prev s ∧ Snapshot v n blocks upTo s
  | .built prev blocks => ∃ n, ∃ upTo ≤ s.logPointer, Previous n prev s ∧ Snapshot v n blocks upTo s

theorem Prepared.keep (hinv : Invariant v partitionId s) (hst : Step v partitionId s t)
    (hpointer : s.logPointer ≤ t.logPointer) {stage : PredicateStage} (h : Prepared v s stage) :
    Prepared v t stage := by
  have hnext : s.nextBlock ≤ t.nextBlock := by
    cases hst with
    | acquire op => simp only; omega
    | _ => exact le_rfl
  cases stage with
  | idle => trivial
  | copied prev =>
    obtain ⟨n, hn, hprev⟩ := h
    exact ⟨n, hn.trans hnext, hprev.step hinv hst⟩
  | loaded prev blocks =>
    obtain ⟨n, upTo, hprev, hsnap⟩ := h
    exact ⟨n, upTo, hprev.step hinv hst, hsnap.step hst⟩
  | pulling prev blocks target =>
    obtain ⟨n, upTo, hle, hprev, hsnap⟩ := h
    exact ⟨n, upTo, hle, hprev.step hinv hst, hsnap.step hst⟩
  | built prev blocks =>
    obtain ⟨n, upTo, hle, hprev, hsnap⟩ := h
    exact ⟨n, upTo, hle.trans hpointer, hprev.step hinv hst, hsnap.step hst⟩

theorem Prepared.step (hinv : Invariant v partitionId s) (h : Prepared v s s.stage)
    (hst : Step v partitionId s t) : Prepared v t t.stage := by
  have hkeep : s.logPointer ≤ t.logPointer → Prepared v t s.stage := fun hpointer =>
    Prepared.keep hinv hst hpointer h
  cases hst with
  | acquire => exact hkeep le_rfl
  | commit => exact hkeep le_rfl
  | abandon => exact hkeep le_rfl
  | merge => exact hkeep le_rfl
  | pull => exact hkeep (Nat.le_succ _)
  | copyVirtualParts =>
    exact ⟨s.nextBlock, le_rfl, fun e he => (hinv.virtualParts e he).2.1, fun p hp => hp⟩
  | loadCommittingBlocks prev hstage =>
    rw [hstage] at h
    obtain ⟨n, hn, hprev⟩ := h
    have hsnap : Snapshot v n s.committing s.log.length s := Snapshot.load hn
    exact ⟨n, s.log.length, ⟨hprev.below, hprev.kept⟩,
      ⟨hsnap.acquired, hsnap.listed, hsnap.committing, hsnap.inserted⟩⟩
  | listLog prev blocks hstage =>
    rw [hstage] at h
    obtain ⟨n, upTo, hprev, hsnap⟩ := h
    exact ⟨n, upTo, hsnap.listed, ⟨hprev.below, hprev.kept⟩,
      ⟨hsnap.acquired, hsnap.listed, hsnap.committing, hsnap.inserted⟩⟩
  | pulled prev blocks target hstage hle =>
    rw [hstage] at h
    obtain ⟨n, upTo, hle', hprev, hsnap⟩ := h
    exact ⟨n, upTo, hle'.trans hle, ⟨hprev.below, hprev.kept⟩,
      ⟨hsnap.acquired, hsnap.listed, hsnap.committing, hsnap.inserted⟩⟩

theorem Prepared.run (h : Run v partitionId (start v) s) : Prepared v s s.stage := by
  induction h with
  | refl => trivial
  | tail hrun hst ih => exact ih.step (Invariant.run hrun) hst

/-! ## The checks -/

/-- The blocks of `p` lie strictly between the ones of `left` and `right`. -/
def Between (left right p : PartInfo) : Prop := left.maxBlock < p.minBlock ∧ p.maxBlock < right.minBlock

omit [IntText] in
theorem canMergeParts_eq_ok {P : DistributedMergePredicate} {left right : PartProperties}
    (h : P.canMergeParts left right = .ok ()) : left.info.partitionId = right.info.partitionId ∧
      P.checkCommittingBlocks left right = .ok () ∧ P.checkVirtualParts left right = .ok () := by
  unfold canMergeParts at h
  by_cases hid : left.info.partitionId = right.info.partitionId
  · by_cases hkind : left.info.isPatch = right.info.isPatch
    · by_cases hvolume : left.isInVolumeWhereMergesAvoid ∨ right.isInVolumeWhereMergesAvoid
      · simp [hid, hkind, hvolume] at h
      · simp only [hid, hkind, hvolume, ne_eq, not_true_eq_false, if_false] at h
        cases hb : P.checkCommittingBlocks left right with
        | error e => simp [hb] at h
        | ok _ =>
          cases hv : P.checkVirtualParts left right with
          | error e => simp [hb, hv] at h
          | ok _ => exact ⟨hid, rfl, rfl⟩
    · simp [hid, hkind] at h
  · simp [hid] at h

omit [IntText] in
/-- **No loaded block lies between the parts**: the first block past the left part is the
least one, so looking at that one is enough. -/
theorem not_between_of_checkCommittingBlocks {P : DistributedMergePredicate} {left right : PartProperties}
    {committingBlocks : String → CommittingBlocksSet} (hP : P.committingBlocks = some committingBlocks)
    (h : P.checkCommittingBlocks left right = .ok ()) {x : CommittingBlockOp × ℤ}
    (hx : x ∈ committingBlocks left.info.partitionId) :
    ¬ (left.info.maxBlock < x.2 ∧ x.2 < right.info.minBlock) := by
  rintro ⟨hl, hr⟩
  unfold checkCommittingBlocks at h
  have hgap : left.info.maxBlock + 1 < right.info.minBlock := by omega
  simp only [hP, hgap, if_true] at h
  cases hf : (committingBlocks left.info.partitionId).toList.find?
      (fun block => left.info.maxBlock < block.2) with
  | none =>
    have := List.find?_eq_none.1 hf x hx
    simp [hl] at this
  | some b =>
    -- `b` is the first one, and the list is sorted
    have hle : b.2 ≤ x.2 := by
      obtain ⟨-, as, bs, heq, has⟩ := List.find?_eq_some_iff_append.1 hf
      have hsorted := (committingBlocks left.info.partitionId).sorted
      have hx' : x ∈ as ++ b :: bs := heq ▸ hx
      rw [heq] at hsorted
      rcases List.mem_append.1 hx' with hx' | hx'
      · have := has x hx'
        simp [hl] at this
      · rcases List.mem_cons.1 hx' with rfl | hx'
        · exact le_rfl
        · have hsorted := (List.pairwise_append.1 hsorted).2.1
          exact (List.rel_of_pairwise_cons hsorted hx').le
    have hlt : b.2 < right.info.minBlock := by omega
    simp [hf, hlt] at h

/-- **A usable part is a virtual part**, and its blocks are below `n`. -/
theorem mem_of_canUsePartInMerges (hinv : Invariant v partitionId s) (hprev : Previous n prev s)
    {hint : Option (List String)} {otherBlocks : String → CommittingBlocksSet} {mutationsState : String → ℤ → ℤ}
    {name : String} {p : PartInfo} (hname : fromPartName name v = .ok p)
    (h : (s.predicate partitionId hint prev blocks otherBlocks mutationsState).canUsePartInMerges name p = .ok ()) :
    (p, name) ∈ s.virtualParts ∧ p.maxBlock < n := by
  unfold canUsePartInMerges checkCanMergePartsPreconditions at h
  have hcov : prev.HasCovering p := by
    apply getContainingPart_of_ne_empty
    intro hempty
    simp [predicate, hempty] at h
  have hcontaining : s.virtualParts.getContainingPart p = name := by
    by_contra hne
    by_cases hpre : (prev.getContainingPart p = "")
    · simp [predicate, hpre] at h
    · by_cases hh : hint.any fun hint => p.partitionId ∉ hint
      · simp only [predicate, Option.any_some, hpre, decide_false, Bool.false_eq_true, if_false, hh,
          if_true] at h
        cases h
      · simp only [predicate, Option.any_some, hpre, decide_false, Bool.false_eq_true, if_false, hh,
          ne_eq, hne, not_false_eq_true, if_true] at h
        cases h
  rw [← hinv.version] at hname
  refine ⟨mem_of_getContainingPart_eq hinv.wellNamed hname (hprev.kept p hcov) hcontaining, ?_⟩
  obtain ⟨e, he, hc⟩ := hcov
  exact lt_of_le_of_lt hc.2.2.1 (hprev.below e he)

omit [IntText] in
/-- **Around a gap**: a virtual part is left of the gap, right of it, or in it. -/
theorem isDisjoint_or_between (hS : s.virtualParts.Laid) {left right e : Entry} (hleft : left ∈ s.virtualParts)
    (hright : right ∈ s.virtualParts) (he : e ∈ s.virtualParts) (hid : left.1.partitionId = e.1.partitionId)
    (hid' : right.1.partitionId = e.1.partitionId) :
    e.1.maxBlock ≤ left.1.maxBlock ∨ right.1.minBlock ≤ e.1.minBlock ∨ Between left.1 right.1 e.1 := by
  have hp := (hS.proper e he).blocks
  have hpl := (hS.proper left hleft).blocks
  have hpr := (hS.proper right hright).blocks
  by_cases hel : e = left
  · exact Or.inl (by rw [hel])
  by_cases her : e = right
  · exact Or.inr (Or.inl (by rw [her]))
  have hdl := hS.disjoint left hleft e he (Ne.symm hel)
  have hdr := hS.disjoint right hright e he (Ne.symm her)
  unfold PartInfo.IsDisjoint at hdl hdr
  unfold Between
  simp only [hid, hid', ne_eq, not_true_eq_false, false_or] at hdl hdr
  omega

/-- **No virtual part lies in the gap**: of ordinary levels, the fake part of the gap covers
every part in it. -/
theorem not_between_of_checkVirtualParts (hinv : Invariant v partitionId s) {P : DistributedMergePredicate}
    (hP : P.virtualParts = s.virtualParts) {left right : PartProperties}
    (hleft : (left.info, left.name) ∈ s.virtualParts) (hright : (right.info, right.name) ∈ s.virtualParts)
    (h : P.checkVirtualParts left right = .ok ())
    (hlevel : ∀ e ∈ s.virtualParts, Between left.info right.info e.1 → e.1.level ≤ maxLevel)
    {e : Entry} (he : e ∈ s.virtualParts) : ¬ Between left.info right.info e.1 := by
  intro hb
  have hS := hinv.wellNamed.laid
  have hid : ∀ f ∈ s.virtualParts, f.1.partitionId = partitionId := fun f hf => (hinv.virtualParts f hf).1
  have hgap : left.info.maxBlock + 1 ≤ right.info.minBlock - 1 := by
    have := (hS.proper e he).blocks
    obtain ⟨hl, hr⟩ := hb
    omega
  have hproper : (gapPartInfo left.info right.info).Proper := ⟨rfl, hgap⟩
  have hcovers : ∀ f ∈ s.virtualParts, Between left.info right.info f.1 →
      (gapPartInfo left.info right.info).Contains f.1 := by
    intro f hf hbf
    obtain ⟨hl, hr⟩ := hbf
    refine ⟨(hid _ hleft).trans (hid f hf).symm, ?_, ?_, hlevel f hf ⟨hl, hr⟩, ?_, Or.inr (Or.inr (Or.inl rfl))⟩
    · change left.info.maxBlock + 1 ≤ f.1.minBlock
      omega
    · change f.1.maxBlock ≤ right.info.minBlock - 1
      omega
    · rw [(hinv.virtualParts f hf).2.2]
      change 0 ≤ maxBlockNumber
      decide
  have hall : ∀ f ∈ s.virtualParts, (gapPartInfo left.info right.info).IsDisjoint f.1 ∨
      (gapPartInfo left.info right.info).Contains f.1 := by
    intro f hf
    rcases isDisjoint_or_between hS hleft hright hf ((hid _ hleft).trans (hid f hf).symm)
      ((hid _ hright).trans (hid f hf).symm) with hl | hr | hbf
    · have hlt : f.1.maxBlock < left.info.maxBlock + 1 := Int.lt_add_one_iff.2 hl
      exact Or.inl (Or.inr (Or.inl hlt))
    · have hlt : right.info.minBlock - 1 < f.1.minBlock := Int.sub_one_lt_iff.2 hr
      exact Or.inl (Or.inr (Or.inr hlt))
    · exact Or.inr (hcovers f hf hbf)
  have hmem := mem_getPartsCoveredByImpl hS hproper hall he (hcovers e he hb)
  have hne : s.virtualParts.getPartsCoveredBy (gapPartInfo left.info right.info) ≠ [] := by
    have := List.mem_map_of_mem (f := Prod.snd) hmem
    exact List.ne_nil_of_mem this
  unfold checkVirtualParts at h
  rw [hP] at h
  simp only [show left.info.maxBlock + 1 < right.info.minBlock by omega, if_true, hne, ne_eq,
    not_false_eq_true] at h
  cases h

/-- **What a successful check promises** about the blocks between two parts. -/
structure GapSafe (v : ℕ) (partitionId : String) (s : PartitionLog) (left right : PartInfo) : Prop where
  -- inserts that commit from now on
  later : ∀ t, Run v partitionId s t → ∀ (i : ℕ) (entry : LogEntry) (p : PartInfo), s.log.length ≤ i →
    t.log[i]? = some entry → entry.type = .getPart → fromPartName entry.newPartName v = .ok p →
    ¬ Between left right p
  -- what is there already, below the maximal level
  present : (∀ e ∈ s.virtualParts, Between left right e.1 → e.1.level ≤ maxLevel) →
    (∀ e ∈ s.virtualParts, ¬ Between left right e.1) ∧
    ∀ entry ∈ s.log, ∀ p, entry.type = .getPart → fromPartName entry.newPartName v = .ok p →
      ¬ Between left right p

/-- The two parts pass the predicate that was built. -/
structure MayMerge (v : ℕ) (P : DistributedMergePredicate) (left right : PartProperties) : Prop where
  left_name : fromPartName left.name v = .ok left.info
  right_name : fromPartName right.name v = .ok right.info
  left_usable : P.canUsePartInMerges left.name left.info = .ok ()
  right_usable : P.canUsePartInMerges right.name right.info = .ok ()
  mergeable : P.canMergeParts left right = .ok ()

/-- **The merge predicate is safe.** -/
theorem canMergeParts_safe (hrun : Run v partitionId (start v) s) (hstage : s.stage = .built prev blocks)
    (hint : Option (List String)) (otherBlocks : String → CommittingBlocksSet) (mutationsState : String → ℤ → ℤ)
    {left right : PartProperties}
    (h : MayMerge v (s.predicate partitionId hint prev blocks otherBlocks mutationsState) left right) :
    GapSafe v partitionId s left.info right.info := by
  have hinv := Invariant.run hrun
  have hprepared := Prepared.run hrun
  rw [hstage] at hprepared
  obtain ⟨n, upTo, hle, hprev, hsnap⟩ := hprepared
  obtain ⟨hleft, -⟩ := mem_of_canUsePartInMerges hinv hprev h.left_name h.left_usable
  obtain ⟨hright, hbelow⟩ := mem_of_canUsePartInMerges hinv hprev h.right_name h.right_usable
  obtain ⟨-, hblocks, hvirtual⟩ := canMergeParts_eq_ok h.mergeable
  have hproper := (hinv.wellNamed.laid.proper _ hright).blocks
  have hid : left.info.partitionId = partitionId := (hinv.virtualParts _ hleft).1
  -- blocks in the gap are below the one of the right part, so below `n`
  have hloaded : ∀ x ∈ blocks, ¬ (left.info.maxBlock < x.2 ∧ x.2 < right.info.minBlock) := by
    intro x hx
    refine not_between_of_checkCommittingBlocks rfl hblocks ?_
    rw [hid, Function.update_self]
    exact hx
  have hinserted : ∀ t, Run v partitionId s t → ∀ (i : ℕ) (entry : LogEntry) (p : PartInfo),
      t.log[i]? = some entry → entry.type = .getPart → fromPartName entry.newPartName v = .ok p →
      Between left.info right.info p → i < upTo := by
    intro t ht i entry p hi htype hp hb
    have hpp := (fromPartName_proper hp).blocks
    have hlt : p.minBlock < n := by
      obtain ⟨-, hr⟩ := hb
      simp only at hproper hbelow
      omega
    rcases (hsnap.run ht).inserted i entry p hi htype hp hlt with hi | ⟨x, hx, hxp⟩
    · exact hi
    · exfalso
      apply hloaded x hx
      rw [hxp]
      obtain ⟨hl, hr⟩ := hb
      omega
  refine ⟨?_, ?_⟩
  · intro t ht i entry p hlen hi htype hp hb
    have hlt := hinserted t ht i entry p hi htype hp hb
    have := hsnap.listed
    omega
  · intro hlevel
    have hnone : ∀ e ∈ s.virtualParts, ¬ Between left.info right.info e.1 := fun e he =>
      not_between_of_checkVirtualParts hinv rfl hleft hright hvirtual hlevel he
    refine ⟨hnone, ?_⟩
    intro entry hentry p htype hp hb
    obtain ⟨i, hi, hget⟩ := List.getElem_of_mem hentry
    have hi' : s.log[i]? = some entry := by rw [List.getElem?_eq_getElem hi, hget]
    have hlt := hinserted s Relation.ReflTransGen.refl i entry p hi' htype hp hb
    -- the replica has pulled the entry, so a virtual part covers it, which is in the gap too
    obtain ⟨e, he, hc⟩ := hinv.pulled i (lt_of_lt_of_le hlt hle) entry hi' p hp
    obtain ⟨q, hq, -, hsingle⟩ := hinv.log entry hentry
    have hpq : p = q := by
      rw [hp] at hq
      cases hq
      rfl
    have hone : p.minBlock = p.maxBlock := by
      rw [hpq]
      exact hsingle htype
    have heid := (hinv.virtualParts e he).1
    have hrid := (hinv.virtualParts _ hright).1
    obtain ⟨-, hmin, hmax, -⟩ := hc
    obtain ⟨hl, hr⟩ := hb
    rcases isDisjoint_or_between hinv.wellNamed.laid hleft hright he (hid.trans heid.symm)
      (hrid.trans heid.symm) with h | h | h
    · simp only at h
      omega
    · simp only at h
      omega
    · exact hnone e he h

/-! ## Quiet partitions

Runs in which every insert is finished and pulled before anything else happens. They show
that the predicate accepts pairs at all, and that the bound on levels is needed. -/

/-- A partition where nothing is going on and whose virtual parts are `parts`. -/
structure Quiet (v : ℕ) (partitionId : String) (parts : List Entry) (s : PartitionLog) : Prop where
  run : Run v partitionId (start v) s
  stage : s.stage = .idle
  committing : s.committing = .empty
  pulled : s.logPointer = s.log.length
  virtualParts : ∀ e, e ∈ s.virtualParts ↔ e ∈ parts

variable {parts : List Entry} {p : PartInfo} {name : String}

theorem Quiet.start (v : ℕ) (partitionId : String) : Quiet v partitionId [] (start v) := by
  refine ⟨Relation.ReflTransGen.refl, rfl, rfl, rfl, ?_⟩
  intro e
  have hempty : e ∉ (KeyedSet.empty : KeyedSet entryKey) := KeyedSet.notMem_empty e
  simp only [List.not_mem_nil, iff_false]
  exact hempty

omit [IntText] in
theorem erase_emplace_empty (b : CommittingBlockOp × ℤ) :
    ((KeyedSet.empty : CommittingBlocksSet).emplace b).erase b.2 = .empty := by
  apply KeyedSet.ext
  apply List.eq_nil_iff_forall_not_mem.2
  intro c hc
  obtain ⟨hc, hne⟩ := KeyedSet.mem_erase.1 (KeyedSet.mem_def.2 hc)
  rcases KeyedSet.mem_emplace.1 hc with hc | ⟨rfl, -⟩
  · exact KeyedSet.notMem_empty c hc
  · exact hne rfl

theorem Quiet.congr (h : Quiet v partitionId parts s) {parts' : List Entry} (hp : ∀ e, e ∈ parts ↔ e ∈ parts') :
    Quiet v partitionId parts' s :=
  ⟨h.run, h.stage, h.committing, h.pulled, fun e => (h.virtualParts e).trans (hp e)⟩

theorem Quiet.abandon (h : Quiet v partitionId parts s) :
    ∃ t, Quiet v partitionId parts t ∧ t.nextBlock = s.nextBlock + 1 := by
  refine ⟨_, ⟨(h.run.tail (Step.acquire s .newPart)).tail (Step.abandon _ s.nextBlock), h.stage, ?_, h.pulled,
    h.virtualParts⟩, rfl⟩
  simp only [h.committing]
  exact erase_emplace_empty (CommittingBlockOp.newPart, s.nextBlock)

/-- **The entry is pulled** once it is in the log, if its part fits among the virtual ones. -/
theorem Quiet.pull (h : Quiet v partitionId parts s) {entry : LogEntry} (hrun : Run v partitionId s t)
    (ht : t = { s with nextBlock := t.nextBlock, log := s.log ++ [entry] })
    (hname : fromPartName entry.newPartName v = .ok p) (hnew : ∀ e ∈ parts, ¬ e.1.Contains p)
    (hfits : ∀ e ∈ parts, p.IsDisjoint e.1 ∨ p.Contains e.1) :
    ∃ u, Quiet v partitionId ((p, entry.newPartName) :: parts.filter fun e => ¬ p.Contains e.1) u ∧
      u.nextBlock = t.nextBlock := by
  have hinv := Invariant.run h.run
  have hok := addImpl_ok hinv.wellNamed.laid (fromPartName_proper hname) entry.newPartName
  have hadded : (s.virtualParts.addImpl p entry.newPartName).outcome = .added := by
    refine hok.added.2 ⟨?_, ?_⟩
    · rintro ⟨e, he, hc⟩
      exact hnew e ((h.virtualParts e).1 he) hc
    · intro e he
      exact hfits e ((h.virtualParts e).1 he)
  have hentry : t.log[t.logPointer]? = some entry := by
    rw [ht]
    simp [h.pulled]
  have hadd : t.virtualParts.addName entry.newPartName =
      ((s.virtualParts.addImpl p entry.newPartName).set,
        .ok (true, (s.virtualParts.addImpl p entry.newPartName).replacedParts)) := by
    rw [ht]
    unfold addName
    rw [hinv.version, hname]
    simp [ActiveDataPartSet.add, hadded]
  refine ⟨_, ⟨(h.run.trans hrun).tail (Step.pull t entry _ _ hentry hadd), ?_, ?_, ?_, ?_⟩, rfl⟩
  · rw [ht]
    exact h.stage
  · rw [ht]
    exact h.committing
  · rw [ht]
    simp [h.pulled]
  · intro e
    simp only [hok.mem_set hadded e, h.virtualParts e, List.mem_cons, List.mem_filter, decide_eq_true_eq]
    tauto

omit [IntText] in
theorem Acquired.isDisjoint {q : PartInfo} (h : Acquired partitionId p.minBlock q) : p.IsDisjoint q :=
  Or.inr (Or.inl h.2.1)

theorem Quiet.insert (h : Quiet v partitionId parts s) {entry : LogEntry}
    (hins : InsertsBlock v partitionId s.nextBlock entry p) :
    ∃ t, Quiet v partitionId ((p, entry.newPartName) :: parts) t ∧ t.nextBlock = s.nextBlock + 1 := by
  have hinv := Invariant.run h.run
  have hblocks := (fromPartName_proper hins.newPartName).blocks
  have hdisjoint : ∀ e ∈ parts, p.IsDisjoint e.1 := by
    intro e he
    have hacq := hinv.virtualParts e ((h.virtualParts e).2 he)
    rw [← hins.minBlock] at hacq
    exact hacq.isDisjoint
  have hmeet : ∀ e ∈ parts, ¬ e.1.Contains p := fun e he hc =>
    hc.not_isDisjoint hblocks (hdisjoint e he).symm
  have hkept : parts.filter (fun e => ¬ p.Contains e.1) = parts := by
    refine List.filter_eq_self.2 ?_
    intro e he
    have hproper := (hinv.wellNamed.laid.proper e ((h.virtualParts e).2 he)).blocks
    rw [decide_eq_true_eq]
    exact fun hc => hc.not_isDisjoint hproper (hdisjoint e he)
  have hmem : (CommittingBlockOp.newPart, s.nextBlock) ∈ s.committing.emplace (.newPart, s.nextBlock) := by
    rw [h.committing]
    exact KeyedSet.mem_emplace.2 (Or.inr ⟨rfl, fun c hc => absurd hc (KeyedSet.notMem_empty c)⟩)
  have hacquire : Run v partitionId s _ := Relation.ReflTransGen.single (Step.acquire s .newPart)
  have hrun := hacquire.tail (Step.commit _ .newPart s.nextBlock entry p hmem hins)
  have hpull := h.pull (p := p) hrun (by
    simp only [h.committing, erase_emplace_empty (CommittingBlockOp.newPart, s.nextBlock)])
    hins.newPartName hmeet fun e he => Or.inl (hdisjoint e he)
  rw [hkept] at hpull
  exact hpull

/-- **A part is merged on its own**, which gives it the next level. -/
theorem Quiet.merge (h : Quiet v partitionId ((p, name) :: parts) s) (hparts : ∀ e ∈ parts, e.1 ≠ p)
    {entry : LogEntry} (htype : entry.type = .mergeParts)
    (hname : fromPartName entry.newPartName v = .ok (futureMergedPart p p [p]))
    (hlevel : p.level < legacyMaxLevel) :
    ∃ t, Quiet v partitionId ((futureMergedPart p p [p], entry.newPartName) :: parts) t ∧
      t.nextBlock = s.nextBlock := by
  have hinv := Invariant.run h.run
  have hmem : (p, name) ∈ s.virtualParts := (h.virtualParts _).2 List.mem_cons_self
  have hsucc : (futureMergedPart p p [p]).level = p.level + 1 := by
    unfold legacyMaxLevel at hlevel
    simp only [futureMergedPart, List.map_cons, List.map_nil, List.foldl_cons, List.foldl_nil]
    omega
  have hmutation : p.mutation = 0 := (hinv.virtualParts _ hmem).2.2
  have hcontains : (futureMergedPart p p [p]).Contains p := by
    refine ⟨rfl, le_rfl, le_rfl, ?_, ?_, Or.inr (Or.inl ?_)⟩
    · omega
    · simp [futureMergedPart, hmutation]
    · omega
  have hdisjoint : ∀ e ∈ parts, (futureMergedPart p p [p]).IsDisjoint e.1 := by
    intro e he
    have hne : (p, name) ≠ e := fun heq => hparts e he (by rw [← heq])
    exact hinv.wellNamed.laid.disjoint _ hmem e ((h.virtualParts e).2 (List.mem_cons_of_mem _ he)) hne
  have hblocks := (fromPartName_proper hname).blocks
  obtain ⟨before, after, hsplit⟩ := List.append_of_mem (KeyedSet.mem_def.1 hmem)
  have hsplit' : s.virtualParts.partInfoToName.toList = before ++ [(p, name)] ++ after := by
    rw [hsplit, List.append_assoc]
    rfl
  have hrun : Run v partitionId s _ := Relation.ReflTransGen.single (Step.merge s before after [(p, name)]
    (p, name) (p, name) entry hsplit' rfl rfl htype hname)
  have hnew : ∀ e ∈ (p, name) :: parts, ¬ e.1.Contains (futureMergedPart p p [p]) := by
    intro e he hc
    rcases List.mem_cons.1 he with rfl | he
    · have := hc.2.2.2.1
      simp only at this
      omega
    · exact hc.not_isDisjoint hblocks (hdisjoint e he).symm
  have hfits : ∀ e ∈ (p, name) :: parts, (futureMergedPart p p [p]).IsDisjoint e.1 ∨
      (futureMergedPart p p [p]).Contains e.1 := by
    intro e he
    rcases List.mem_cons.1 he with rfl | he
    · exact Or.inr hcontains
    · exact Or.inl (hdisjoint e he)
  have hkept : ((p, name) :: parts).filter (fun e => ¬ (futureMergedPart p p [p]).Contains e.1) = parts := by
    rw [List.filter_cons_of_neg (by simp [hcontains])]
    refine List.filter_eq_self.2 ?_
    intro e he
    have hproper := (hinv.wellNamed.laid.proper e ((h.virtualParts e).2 (List.mem_cons_of_mem _ he))).blocks
    rw [decide_eq_true_eq]
    exact fun hc => hc.not_isDisjoint hproper (hdisjoint e he)
  have hpull := h.pull hrun rfl hname hnew hfits
  rw [hkept] at hpull
  exact hpull

theorem Quiet.build (h : Quiet v partitionId parts s) :
    Run v partitionId (PartitionLog.start v) { s with stage := .built s.virtualParts s.committing } := by
  have hcopy := h.run.tail (Step.copyVirtualParts s)
  have hload := hcopy.tail (Step.loadCommittingBlocks _ s.virtualParts rfl)
  have hlist := hload.tail (Step.listLog _ s.virtualParts s.committing rfl)
  exact hlist.tail (Step.pulled _ s.virtualParts s.committing s.log.length rfl h.pulled.ge)

/-- The predicate that is built then, with nothing else to object to. -/
def quietPredicate (partitionId : String) (s : PartitionLog) : DistributedMergePredicate :=
  s.predicate partitionId none s.virtualParts .empty (fun _ => .empty) fun _ _ => 0

omit [IntText] in
theorem quiet_committingBlocks (id : String) :
    Function.update (fun _ => (.empty : CommittingBlocksSet)) partitionId .empty id = .empty := by
  rw [Function.update_apply]
  split <;> rfl

theorem Quiet.canUsePartInMerges (h : Quiet v partitionId parts s) (hp : (p, name) ∈ parts)
    (hne : name ≠ "") (hregular : p.isPatch = false) :
    (quietPredicate partitionId s).canUsePartInMerges name p = .ok () := by
  have hinv := Invariant.run h.run
  have hmem := (h.virtualParts _).2 hp
  have hproper := hinv.wellNamed.laid.proper _ hmem
  have hcontaining : s.virtualParts.getContainingPart p = name := by
    unfold getContainingPart
    rw [(getContainingPartImpl_eq_some hinv.wellNamed.laid hproper).2 ⟨hmem, PartInfo.Contains.refl p⟩]
  unfold DistributedMergePredicate.canUsePartInMerges checkCanMergePartsPreconditions checkPatchPart
  simp only [quietPredicate, predicate, Option.any_some, Option.any_none, hcontaining, hne, decide_false,
    Bool.false_eq_true, if_false, ne_eq, not_true_eq_false, hregular]

/-- **Nothing known lies between two parts**: the predicate lets them be merged. -/
theorem Quiet.mayMerge (h : Quiet v partitionId parts s) {left right : PartProperties}
    (hleft : (left.info, left.name) ∈ parts) (hright : (right.info, right.name) ∈ parts)
    (hnames : left.name ≠ "" ∧ right.name ≠ "") (hprojections : left.projectionNames = right.projectionNames)
    (hvolume : left.isInVolumeWhereMergesAvoid = false ∧ right.isInVolumeWhereMergesAvoid = false)
    (hregular : left.info.isPatch = false ∧ right.info.isPatch = false)
    (hgap : ∀ e ∈ parts, ¬ (gapPartInfo left.info right.info).Contains e.1) :
    MayMerge v (quietPredicate partitionId s) left right := by
  have hinv := Invariant.run h.run
  have hl := (h.virtualParts _).2 hleft
  have hr := (h.virtualParts _).2 hright
  have hid : left.info.partitionId = right.info.partitionId :=
    (hinv.virtualParts _ hl).1.trans (hinv.virtualParts _ hr).1.symm
  have hln := hinv.wellNamed.named _ hl
  have hrn := hinv.wellNamed.named _ hr
  rw [hinv.version] at hln hrn
  refine ⟨hln, hrn,
    h.canUsePartInMerges hleft hnames.1 hregular.1, h.canUsePartInMerges hright hnames.2 hregular.2, ?_⟩
  have hblocks : (quietPredicate partitionId s).checkCommittingBlocks left right = .ok () := by
    unfold checkCommittingBlocks
    simp only [quietPredicate, predicate, quiet_committingBlocks, KeyedSet.toList_empty, List.find?_nil, ite_self]
  have hcovered : s.virtualParts.getPartsCoveredBy (gapPartInfo left.info right.info) = [] := by
    unfold getPartsCoveredBy
    rw [List.map_eq_nil_iff, List.eq_nil_iff_forall_not_mem]
    intro e he
    obtain ⟨hmem, hc⟩ := mem_of_mem_getPartsCoveredByImpl he
    exact hgap e ((h.virtualParts e).1 hmem) hc
  have hvirtual : (quietPredicate partitionId s).checkVirtualParts left right = .ok () := by
    unfold checkVirtualParts
    change (if _ then (if s.virtualParts.getPartsCoveredBy _ ≠ [] then _ else _) else _) = _
    simp only [hcovered, ne_eq, not_true_eq_false, if_false, ite_self]
  have hmutations : (quietPredicate partitionId s).checkMutationVersions left right = .ok () := by
    unfold checkMutationVersions PartInfo.getOriginalPartitionId
    simp only [quietPredicate, predicate, hregular.1, Bool.false_eq_true, if_false, ne_eq, not_true_eq_false]
  unfold DistributedMergePredicate.canMergeParts
  simp only [hid, hregular.1, hregular.2, hvolume.1, hvolume.2, hblocks, hvirtual, hmutations, hprojections, ne_eq,
    not_true_eq_false, Bool.false_eq_true, or_self, if_false]

end PartitionLog

/-! ## Concrete runs -/

section Decimal

namespace PartitionLog

attribute [local instance] IntText.decimal LawfulIntText.decimal

/-- The part of a block that was merged on its own a number of times. -/
def levelPart (block : ℤ) (level : ℕ) : PartInfo := .make "all" block block level 0

theorem fromPartName_levelPart {block : ℤ} {level : ℕ} (hlo : -(2 ^ 63) ≤ block) (hhi : block < 2 ^ 63)
    (hlevel : level < legacyMaxLevel) :
    fromPartName (levelPart block level).getPartNameV1 1 = .ok (levelPart block level) := by
  refine fromPartName_getPartNameV1 le_rfl ⟨⟨?_, le_rfl⟩, ?_, ?_, hlo, hhi, hlevel, ?_, ?_⟩
  · simp only [levelPart, PartInfo.make]
  · change "all" ≠ ""
    decide
  · change '_' ∉ "all".toList
    decide
  · intro h
    cases h
  · change (0 : ℤ) ≤ 0 ∧ (0 : ℤ) < 2 ^ 32
    decide

theorem getPartNameV1_levelPart_ne (block : ℤ) (level : ℕ) : (levelPart block level).getPartNameV1 ≠ "" := by
  intro h
  have := congrArg String.toList h
  simp [PartInfo.getPartNameV1, levelPart, PartInfo.make] at this

theorem insertsBlock_levelPart {block : ℤ} (hlo : -(2 ^ 63) ≤ block) (hhi : block < 2 ^ 63) :
    InsertsBlock 1 "all" block { type := .getPart, newPartName := (levelPart block 0).getPartNameV1 }
      (levelPart block 0) :=
  ⟨rfl, fromPartName_levelPart hlo hhi (by decide), rfl, rfl, rfl, rfl, rfl⟩

theorem futureMergedPart_levelPart {block : ℤ} {level : ℕ} (hlevel : level + 1 < legacyMaxLevel) :
    futureMergedPart (levelPart block level) (levelPart block level) [levelPart block level] =
      levelPart block (level + 1) := by
  unfold legacyMaxLevel at hlevel
  have hlt : level + 1 < 4294967296 := by omega
  simp [futureMergedPart, levelPart, PartInfo.make, PartInfo.setPartitionId, hlt]

/-- An entry of the virtual parts. -/
def levelEntry (block : ℤ) (level : ℕ) : Entry := (levelPart block level, (levelPart block level).getPartNameV1)

theorem quiet_insert {parts : List Entry} {s : PartitionLog} {block : ℤ} (h : Quiet 1 "all" parts s)
    (hlo : -(2 ^ 63) ≤ block) (hhi : block < 2 ^ 63) (hnext : s.nextBlock = block) :
    ∃ t, Quiet 1 "all" (levelEntry block 0 :: parts) t ∧ t.nextBlock = block + 1 := by
  have hins := insertsBlock_levelPart hlo hhi
  rw [← hnext] at hins ⊢
  exact h.insert hins

theorem quiet_abandoned : ∃ s, Quiet 1 "all" [levelEntry 2 0, levelEntry 0 0] s := by
  obtain ⟨s, hs, hnext⟩ := quiet_insert (Quiet.start 1 "all") (by decide) (by decide) rfl
  obtain ⟨t, ht, hnext'⟩ := hs.abandon
  have hblock : t.nextBlock = 2 := by rw [hnext', hnext]; rfl
  obtain ⟨u, hu, -⟩ := quiet_insert ht (by decide) (by decide) hblock
  exact ⟨u, hu⟩

/-- A partition with the parts of the blocks 0, 1 and 2, where block 1 was merged on its own. -/
theorem quiet_level {level : ℕ} (hlevel : level < legacyMaxLevel) :
    ∃ s, Quiet 1 "all" [levelEntry 1 level, levelEntry 2 0, levelEntry 0 0] s := by
  induction level with
  | zero =>
    obtain ⟨s, hs, hnext⟩ := quiet_insert (Quiet.start 1 "all") (by decide) (by decide) rfl
    obtain ⟨t, ht, hnext'⟩ := quiet_insert hs (by decide) (by decide) hnext
    obtain ⟨u, hu, -⟩ := quiet_insert ht (by decide) (by decide) hnext'
    refine ⟨u, hu.congr ?_⟩
    intro e
    simp only [List.mem_cons, List.not_mem_nil, or_false]
    tauto
  | succ level ih =>
    obtain ⟨s, hs⟩ := ih (by omega)
    have hname : fromPartName (levelPart 1 (level + 1)).getPartNameV1 1 =
        .ok (futureMergedPart (levelPart 1 level) (levelPart 1 level) [levelPart 1 level]) := by
      rw [futureMergedPart_levelPart hlevel]
      exact fromPartName_levelPart (by decide) (by decide) hlevel
    have hparts : ∀ e ∈ [levelEntry 2 0, levelEntry 0 0], e.1 ≠ levelPart 1 level := by
      intro e he heq
      have hmin : e.1.minBlock = 1 := by rw [heq]; rfl
      simp only [List.mem_cons, List.not_mem_nil, or_false] at he
      rcases he with rfl | rfl
      · exact absurd hmin (by decide)
      · exact absurd hmin (by decide)
    let entry : LogEntry := { type := .mergeParts, newPartName := (levelPart 1 (level + 1)).getPartNameV1 }
    have htype : entry.type = .mergeParts := rfl
    obtain ⟨t, ht, -⟩ := hs.merge hparts htype hname (Nat.lt_of_succ_lt hlevel)
    rw [futureMergedPart_levelPart hlevel] at ht
    exact ⟨t, ht⟩

/-- The part of a block, with its properties. -/
def levelProperties (block : ℤ) (level : ℕ) : PartProperties where
  name := (levelPart block level).getPartNameV1
  info := levelPart block level

theorem mayMerge_zero_two {parts : List Entry} {s : PartitionLog} (hs : Quiet 1 "all" parts s)
    (hzero : levelEntry 0 0 ∈ parts) (htwo : levelEntry 2 0 ∈ parts)
    (hgap : ∀ e ∈ parts, ¬ (DistributedMergePredicate.gapPartInfo (levelPart 0 0) (levelPart 2 0)).Contains e.1) :
    MayMerge 1 (quietPredicate "all" s) (levelProperties 0 0) (levelProperties 2 0) :=
  hs.mayMerge hzero htwo ⟨getPartNameV1_levelPart_ne 0 0, getPartNameV1_levelPart_ne 2 0⟩ rfl ⟨rfl, rfl⟩
    (by decide +kernel) hgap

/-- With block 1 given up, the parts around it may be merged, and it is safe. -/
theorem canMergeParts_safe_abandoned : ∃ s prev, Run 1 "all" (start 1) s ∧ s.stage = .built prev .empty ∧
    MayMerge 1 (s.predicate "all" none prev .empty (fun _ => .empty) fun _ _ => 0)
      (levelProperties 0 0) (levelProperties 2 0) ∧
    GapSafe 1 "all" s (levelPart 0 0) (levelPart 2 0) := by
  obtain ⟨s, hs⟩ := quiet_abandoned
  have hrun := hs.build
  rw [hs.committing] at hrun
  have hmay : MayMerge 1 (quietPredicate "all" s) (levelProperties 0 0) (levelProperties 2 0) :=
    mayMerge_zero_two hs (by simp) (by simp) (by decide +kernel)
  exact ⟨_, s.virtualParts, hrun, rfl, hmay, canMergeParts_safe hrun rfl none (fun _ => .empty) (fun _ _ => 0) hmay⟩

/-- **A level above the maximum hides a part**: after 1000000000 merges of `all_1_1_0` on its
own, the parts around it may be merged. -/
theorem canMergeParts_over_hidden_part : ∃ s prev, Run 1 "all" (start 1) s ∧ s.stage = .built prev .empty ∧
    MayMerge 1 (s.predicate "all" none prev .empty (fun _ => .empty) fun _ _ => 0)
      (levelProperties 0 0) (levelProperties 2 0) ∧
    levelEntry 1 1000000000 ∈ s.virtualParts ∧
    Between (levelPart 0 0) (levelPart 2 0) (levelPart 1 1000000000) := by
  have hlevel : 1000000000 < legacyMaxLevel := by decide
  obtain ⟨s, hs⟩ := quiet_level hlevel
  have hrun := hs.build
  rw [hs.committing] at hrun
  have hmay : MayMerge 1 (quietPredicate "all" s) (levelProperties 0 0) (levelProperties 2 0) :=
    mayMerge_zero_two hs (by simp) (by simp) (by decide +kernel)
  exact ⟨_, s.virtualParts, hrun, rfl, hmay, (hs.virtualParts _).2 List.mem_cons_self, by decide, by decide⟩

end PartitionLog

end Decimal

end MergeTree
