import MergeTree.Proof.PartSetChanges
import MergeTree.Spec.Queue

/-!
# Every queued part is covered

The parts that the queue will still produce stay inside `virtual_parts` or inside the
range of a `DROP_PART` that is queued as well.

* `insertUnlocked_covered`, `removeProcessedEntry_covered`,
  `removePartProducingOpsInRange_covered`: each call keeps `Coverage`.
* `reachable_covered`: every run of such calls.
-/

namespace MergeTree

namespace Queue

open Prog ActiveDataPartSet

/-! ## The sets the invariant reads -/

/-- What coverage is about: the virtual parts, the dropped ranges and the queue. -/
structure PartSets where
  formatVersion : ℕ
  virtualParts : ActiveDataPartSet
  dropParts : KeyedSet (Prod.fst : String × PartInfo → String)
  queue : List LogEntry

def partSets (s : Queue) : PartSets where
  formatVersion := s.formatVersion
  virtualParts := s.virtualParts
  dropParts := s.dropParts
  queue := s.queue

variable {s t : Queue} {c : PartSets} {entry : LogEntry}

theorem leaves_orThrow {α : Type} (r : Except String α) : Prog.Leaves partSets (orThrow r) := Leaves.lift _

theorem leaves_forMutations (partitionId : String) (selected : ℤ → Bool)
    (f : MutationStatus → MutationStatus × Except String Unit) :
    Prog.Leaves partSets (forMutations partitionId selected f) := by
  refine Leaves.bind Leaves.get fun s => Leaves.forM fun m _ => Leaves.update fun s' => ?_
  split <;> rfl

theorem leaves_onCurrentParts {α : Type} (f : ActiveDataPartSet → ActiveDataPartSet × Except String α) :
    Prog.Leaves partSets (onCurrentParts f) := Leaves.update fun _ => rfl

section Coverage

variable [IntText]

theorem leaves_parse (name : String) : Prog.Leaves partSets (parse name) :=
  Leaves.bind Leaves.get fun _ => leaves_orThrow _

theorem leaves_removeCoveredPartsFromMutations (partName : String) (removePart removeCoveredParts : Bool) :
    Prog.Leaves partSets (removeCoveredPartsFromMutations partName removePart removeCoveredParts) :=
  Leaves.bind (leaves_parse partName) fun _ => leaves_forMutations _ _ _

theorem leaves_withMutatedPart (entry : LogEntry) {f : String → PartInfo → PartInfo → QueueM Unit}
    (hf : ∀ name p q, Prog.Leaves partSets (f name p q)) : Prog.Leaves partSets (withMutatedPart entry f) := by
  have hfirst : Prog.Leaves partSets (firstSourcePart entry) := by
    unfold firstSourcePart
    split
    · exact Leaves.pure _
    · exact Leaves.throw _
  exact Leaves.bind hfirst fun _ => Leaves.bind (leaves_parse _) fun _ =>
    Leaves.bind (leaves_parse _) fun _ => hf _ _ _

theorem leaves_finishVirtualPart (name : String) : Prog.Leaves partSets (finishVirtualPart name) :=
  Leaves.bind (leaves_onCurrentParts _) fun _ => leaves_removeCoveredPartsFromMutations _ _ _

/-! ## The invariant -/

/-- The part is inside a virtual part or inside a dropped range. -/
def PartSets.Covered (c : PartSets) (p : PartInfo) : Prop :=
  c.virtualParts.HasCovering p ∨ ∃ d ∈ c.dropParts, d.2.Contains p

/-- The virtual part names of an entry parse. -/
def Parsed (v : ℕ) (entry : LogEntry) : Prop :=
  ∃ names, entry.getVirtualPartNames v = .ok names ∧ ∀ name ∈ names, ∃ p, fromPartName name v = .ok p

/-- **Coverage.** `dropParts` are the ranges of queued `DROP_PART` entries, under their
znodes. -/
structure Coverage (c : PartSets) : Prop where
  version : c.virtualParts.formatVersion = c.formatVersion
  wellNamed : c.virtualParts.WellNamed
  znodes : (c.queue.map LogEntry.znodeName).Nodup
  parsed : ∀ e ∈ c.queue, Parsed c.formatVersion e
  drops : ∀ d ∈ c.dropParts, ∃ e ∈ c.queue, e.znodeName = d.1 ∧ e.type = .dropPart ∧
    fromPartName e.newPartName c.formatVersion = .ok d.2
  covered : ∀ e ∈ c.queue, e.isSimpleProducingOp → ∀ p, fromPartName e.newPartName c.formatVersion = .ok p →
    c.Covered p

omit [IntText] in
theorem getVirtualPartNames_of_producing [IntText] {v : ℕ} (h : entry.isSimpleProducingOp) :
    entry.getVirtualPartNames v = .ok [entry.newPartName] := by
  unfold LogEntry.isSimpleProducingOp at h
  unfold LogEntry.getVirtualPartNames
  cases ht : entry.type <;> simp_all

theorem Parsed.newPartName {v : ℕ} (h : Parsed v entry) (hp : entry.isSimpleProducingOp) :
    ∃ p, fromPartName entry.newPartName v = .ok p := by
  obtain ⟨names, hnames, hall⟩ := h
  rw [getVirtualPartNames_of_producing hp] at hnames
  cases hnames
  exact hall _ List.mem_cons_self

theorem Coverage.perm (h : Coverage c) {queue : List LogEntry} (hq : queue.Perm c.queue) :
    Coverage { c with queue := queue } := by
  have hmem : ∀ e, e ∈ queue ↔ e ∈ c.queue := fun e => hq.mem_iff
  refine ⟨h.version, h.wellNamed, (hq.map _).nodup_iff.2 h.znodes, ?_, ?_, ?_⟩
  · intro e he
    exact h.parsed e ((hmem e).1 he)
  · intro d hd
    obtain ⟨e, he, hrest⟩ := h.drops d hd
    exact ⟨e, (hmem e).2 he, hrest⟩
  · intro e he
    exact h.covered e ((hmem e).1 he)

/-! ## Insertion -/

/-- While the names `rest` of a new entry are still to be added: only the virtual parts
have changed, what was covered still is, and so are the parts of the other names. -/
structure Inserting (c : PartSets) (names rest : List String) (c' : PartSets) : Prop where
  formatVersion : c'.formatVersion = c.formatVersion
  queue : c'.queue = c.queue
  dropParts : c'.dropParts = c.dropParts
  version : c'.virtualParts.formatVersion = c.formatVersion
  wellNamed : c'.virtualParts.WellNamed
  kept : ∀ q, c.virtualParts.HasCovering q → c'.virtualParts.HasCovering q
  added : ∀ name ∈ names, name ∈ rest ∨
    ∃ p, fromPartName name c.formatVersion = .ok p ∧ c'.virtualParts.HasCovering p

theorem insertVirtualPart_inserting {names rest : List String} {name : String}
    (h : Inserting c names (name :: rest) t.partSets) :
    (insertVirtualPart name).wp (fun _ t => Inserting c names rest t.partSets) (fun _ _ => True) t := by
  have hmut : ∀ p, Prog.Leaves partSets
      (if p.isFakeDropRangePart then (pure () : QueueM Unit) else addPartToMutations name p) := fun p =>
    Leaves.ite (Leaves.pure _) (leaves_forMutations _ _ _)
  have hrest := Leaves.bind (leaves_parse name) hmut
  simp only [insertVirtualPart, onVirtualParts]
  rw [wp_bind, wp_update]
  refine ⟨?_, fun _ _ => trivial⟩
  intro r hr
  have hcall : t.virtualParts.addName name = ((t.virtualParts.addName name).1, .ok r) := by
    rw [← mapError_eq_ok.1 hr]
  obtain ⟨hw, hv, ⟨p, hp, hcov⟩, hkept⟩ := addName_covers h.wellNamed hcall
  have hpv : fromPartName name c.formatVersion = .ok p := by
    rw [← h.version]
    exact hp
  refine hrest.wp ?_ fun _ _ _ => trivial
  intro _ u hu
  rw [hu]
  refine ⟨h.formatVersion, h.queue, h.dropParts, hv.trans h.version, hw, fun q hq => hkept q (h.kept q hq), ?_⟩
  intro other hother
  rcases h.added other hother with hin | ⟨q, hq, hcq⟩
  · rcases List.mem_cons.1 hin with rfl | hin
    · exact Or.inr ⟨p, hpv, hcov⟩
    · exact Or.inl hin
  · exact Or.inr ⟨q, hq, hkept q hcq⟩

theorem Inserting.coverage {names : List String} {c' : PartSets} (hc : Coverage c)
    (hnames : entry.getVirtualPartNames c.formatVersion = .ok names)
    (hnew : ∀ e ∈ c.queue, e.znodeName ≠ entry.znodeName) (h : Inserting c names [] c') :
    Coverage { c' with queue := entry :: c'.queue } := by
  have hadded : ∀ name ∈ names, ∃ p, fromPartName name c.formatVersion = .ok p ∧ c'.virtualParts.HasCovering p := by
    intro name hname
    rcases h.added name hname with hin | hcov
    · cases hin
    · exact hcov
  refine ⟨h.version.trans h.formatVersion.symm, h.wellNamed, ?_, ?_, ?_, ?_⟩
  · simp only [List.map_cons, List.nodup_cons, h.queue]
    refine ⟨?_, hc.znodes⟩
    intro hin
    obtain ⟨e, he, hz⟩ := List.mem_map.1 hin
    exact hnew e he hz
  · simp only [h.queue, h.formatVersion, List.mem_cons, forall_eq_or_imp]
    refine ⟨⟨names, hnames, ?_⟩, hc.parsed⟩
    intro name hname
    obtain ⟨p, hp, -⟩ := hadded name hname
    exact ⟨p, hp⟩
  · simp only [h.queue, h.formatVersion, h.dropParts]
    intro d hd
    obtain ⟨e, he, hrest⟩ := hc.drops d hd
    exact ⟨e, List.mem_cons_of_mem _ he, hrest⟩
  · simp only [h.queue, h.formatVersion, List.mem_cons, forall_eq_or_imp]
    constructor
    · intro hprod p hp
      rw [getVirtualPartNames_of_producing hprod] at hnames
      cases hnames
      obtain ⟨q, hq, hcov⟩ := hadded _ List.mem_cons_self
      rw [hp] at hq
      cases hq
      exact Or.inl hcov
    · intro e he hprod p hp
      rcases hc.covered e he hprod p hp with hcov | ⟨d, hd, hdp⟩
      · exact Or.inl (h.kept p hcov)
      · exact Or.inr ⟨d, by rw [h.dropParts]; exact hd, hdp⟩

theorem Coverage.dropPart {c : PartSets} (hc : Coverage c) (he : entry ∈ c.queue) (ht : entry.type = .dropPart)
    (hno : ∀ d ∈ c.dropParts, d.1 ≠ entry.znodeName) {p : PartInfo} {T : ActiveDataPartSet}
    (hp : fromPartName entry.newPartName c.formatVersion = .ok p) (hT : Removed p c.virtualParts T) :
    Coverage { c with virtualParts := T, dropParts := c.dropParts.emplace (entry.znodeName, p) } := by
  have hself : (entry.znodeName, p) ∈ c.dropParts.emplace (entry.znodeName, p) :=
    KeyedSet.mem_emplace.2 (Or.inr ⟨rfl, hno⟩)
  refine ⟨hT.formatVersion.trans hc.version, hT.wellNamed hc.wellNamed, hc.znodes, hc.parsed, ?_, ?_⟩
  · intro d hd
    rcases KeyedSet.mem_emplace.1 hd with hd | ⟨rfl, -⟩
    · exact hc.drops d hd
    · exact ⟨entry, he, rfl, ht, hp⟩
  · intro e he' hprod q hq
    by_cases hpq : p.Contains q
    · exact Or.inr ⟨_, hself, hpq⟩
    · rcases hc.covered e he' hprod q hq with hcov | ⟨d, hd, hdq⟩
      · exact Or.inl (hT.hasCovering hcov hpq)
      · exact Or.inr ⟨d, KeyedSet.mem_emplace.2 (Or.inl hd), hdq⟩

/-- The coverage of the sets with one more queued entry. -/
def CoverageWith (entry : LogEntry) (c : PartSets) : Prop := Coverage { c with queue := entry :: c.queue }

theorem insertDropPart_coverage (ht : entry.type = .dropPart)
    (hno : ∀ d ∈ t.dropParts, d.1 ≠ entry.znodeName) (h : CoverageWith entry t.partSets) :
    (insertDropPart entry).wp (fun _ u => CoverageWith entry u.partSets) (fun _ _ => True) t := by
  simp only [insertDropPart, addDropPart, parse, orThrow, onVirtualParts]
  simp only [wp_bind, wp_get, wp_lift, wp_modify, wp_update]
  refine ⟨?_, fun _ _ => trivial⟩
  intro p hp
  have hp' : fromPartName entry.newPartName t.formatVersion = .ok p := mapError_eq_ok.1 hp
  refine ⟨?_, fun _ _ => trivial⟩
  intro _ _
  have hpv : fromPartName entry.newPartName t.virtualParts.formatVersion = .ok p := h.version.symm ▸ hp'
  have hT := (removePartAndCoveredPartsName_removed (S := t.virtualParts) h.wellNamed hpv).2
  refine (leaves_removeCoveredPartsFromMutations _ _ _).wp ?_ fun _ _ _ => trivial
  intro _ u hu
  rw [hu]
  exact h.dropPart List.mem_cons_self ht hno hp' hT

/-- **Insertion keeps coverage.** -/
theorem insertUnlocked_covered (h : Coverage s.partSets)
    (hnew : ∀ e ∈ s.queue, e.znodeName ≠ entry.znodeName) :
    (insertUnlocked entry).wp (fun _ t => Coverage t.partSets) (fun _ _ => True) s := by
  have hkeys : ∀ d ∈ s.dropParts, d.1 ≠ entry.znodeName := by
    intro d hd heq
    obtain ⟨e, he, hz, -⟩ := h.drops d hd
    exact hnew e he (hz.trans heq)
  unfold insertUnlocked orThrow
  rw [wp_bind, wp_get, wp_bind, wp_lift]
  refine ⟨?_, fun _ _ => trivial⟩
  intro names hn
  have hnames : entry.getVirtualPartNames s.formatVersion = .ok names := mapError_eq_ok.1 hn
  have hstart : Inserting s.partSets names names s.partSets :=
    ⟨rfl, rfl, rfl, h.version, h.wellNamed, fun _ hq => hq, fun name hname => Or.inl hname⟩
  rw [wp_bind]
  refine wp_mono (wp_forM (fun rest t => Inserting s.partSets names rest t.partSets) names
    (fun name rest t ht => insertVirtualPart_inserting ht) hstart) ?_ fun _ _ _ => trivial
  intro _ t ht
  have hcov : CoverageWith entry t.partSets := ht.coverage h hnames hnew
  have hmut := leaves_withMutatedPart entry (f := addPartInProgressToMutations) fun _ _ _ =>
    leaves_forMutations _ _ _
  rw [wp_bind]
  refine (Leaves.when (c := entry.type = .mutatePart) hmut).wp ?_ fun _ _ _ => trivial
  intro _ u hu
  have hcovu : CoverageWith entry u.partSets := hu ▸ hcov
  have hkeysu : ∀ d ∈ u.dropParts, d.1 ≠ entry.znodeName := by
    have hd : u.dropParts = s.dropParts := (congrArg PartSets.dropParts hu).trans ht.dropParts
    rw [hd]
    exact hkeys
  have hdrop : (Prog.when (entry.type = .dropPart) (insertDropPart entry)).wp
      (fun _ w => CoverageWith entry w.partSets) (fun _ _ => True) u :=
    wp_when (fun hty => insertDropPart_coverage hty hkeysu hcovu) fun _ => hcovu
  rw [wp_bind]
  refine wp_mono hdrop ?_ fun _ _ _ => trivial
  intro _ w hw
  rw [wp_bind, wp_lift]
  refine ⟨?_, fun _ _ => trivial⟩
  intro dropRange _
  rw [wp_bind, wp_modify]
  have hpush : Coverage ({ w with queue := if dropRange.isSome then entry :: w.queue else w.queue ++ [entry] } :
      Queue).partSets := by
    have hperm : (if dropRange.isSome then entry :: w.queue else w.queue ++ [entry]).Perm (entry :: w.queue) := by
      split
      · exact List.Perm.refl _
      · exact List.perm_append_singleton _ _
    exact hw.perm hperm
  rw [wp_bind]
  -- the insert times and the alters are not read by coverage
  refine wp_when (fun _ => ?_) fun _ => ?_
  · exact wp_when (fun _ => hpush) fun _ => hpush
  · exact wp_when (fun _ => hpush) fun _ => hpush

/-! ## Execution -/

/-- What a finished entry does to the sets, apart from leaving the queue. -/
def PartSets.finishDropRange (c : PartSets) (entry : LogEntry) : Option String → PartSets
  | none => c
  | some r =>
    if entry.type = .dropPart then { c with dropParts := c.dropParts.erase entry.znodeName }
    else { c with virtualParts := (c.virtualParts.removeName r).1 }

/-- The sets without the entry of this znode. -/
def PartSets.erase (c : PartSets) (entry : LogEntry) : PartSets :=
  { c with queue := c.queue.filter fun other => other.znodeName ≠ entry.znodeName }

omit [IntText] in
theorem PartSets.mem_erase {e : LogEntry} :
    e ∈ (c.erase entry).queue ↔ e ∈ c.queue ∧ e.znodeName ≠ entry.znodeName := by
  simp [PartSets.erase]

/-- When an entry is executed, nothing is queued any more that produces a part inside of
the range it drops. -/
def DropRangeDone (c : PartSets) (entry : LogEntry) : Prop :=
  ∀ r p, entry.getDropRange c.formatVersion = .ok (some r) → fromPartName r c.formatVersion = .ok p →
    ∀ e ∈ c.queue, e.isSimpleProducingOp → ∀ q, fromPartName e.newPartName c.formatVersion = .ok q →
      ¬ p.Contains q

theorem Coverage.eq_of_znodeName (h : Coverage c) {e f : LogEntry} (he : e ∈ c.queue) (hf : f ∈ c.queue)
    (hz : e.znodeName = f.znodeName) : e = f :=
  List.inj_on_of_nodup_map h.znodes he hf hz

theorem Coverage.erase (h : Coverage c) (he : entry ∈ c.queue) (ht : entry.type ≠ .dropPart) :
    Coverage (c.erase entry) := by
  refine ⟨h.version, h.wellNamed, h.znodes.sublist (List.Sublist.map _ List.filter_sublist), ?_, ?_, ?_⟩
  · intro e hin
    exact h.parsed e (PartSets.mem_erase.1 hin).1
  · intro d hd
    obtain ⟨e, hin, hz, hty, hp⟩ := h.drops d hd
    refine ⟨e, PartSets.mem_erase.2 ⟨hin, ?_⟩, hz, hty, hp⟩
    intro hze
    have heq := h.eq_of_znodeName hin he hze
    rw [heq] at hty
    exact ht hty
  · intro e hin
    exact h.covered e (PartSets.mem_erase.1 hin).1

/-- **The sets after an entry was executed.** -/
theorem Coverage.finish (h : Coverage c) (he : entry ∈ c.queue) {dropRange : Option String}
    (hr : entry.getDropRange c.formatVersion = .ok dropRange) (hdone : DropRangeDone c entry) :
    Coverage ((c.finishDropRange entry dropRange).erase entry) := by
  cases dropRange with
  | none =>
    refine h.erase he ?_
    intro ht
    unfold LogEntry.getDropRange at hr
    rw [ht] at hr
    cases hr
  | some r =>
    unfold PartSets.finishDropRange
    simp only
    split
    · next ht =>
      have hrange : r = entry.newPartName := by
        unfold LogEntry.getDropRange at hr
        rw [ht] at hr
        cases hr
        rfl
      refine ⟨h.version, h.wellNamed, h.znodes.sublist (List.Sublist.map _ List.filter_sublist), ?_, ?_, ?_⟩
      · intro e hin
        exact h.parsed e (PartSets.mem_erase.1 hin).1
      · intro d hd
        obtain ⟨hd, hne⟩ := KeyedSet.mem_erase.1 hd
        obtain ⟨e, hin, hz, hrest⟩ := h.drops d hd
        exact ⟨e, PartSets.mem_erase.2 ⟨hin, hz ▸ hne⟩, hz, hrest⟩
      · intro e hin hprod p hp
        have hin := (PartSets.mem_erase.1 hin).1
        rcases h.covered e hin hprod p hp with hcov | ⟨d, hd, hdp⟩
        · exact Or.inl hcov
        · refine Or.inr ⟨d, KeyedSet.mem_erase.2 ⟨hd, ?_⟩, hdp⟩
          intro hz
          -- the range of this very entry has nothing left inside
          obtain ⟨e', hin', hz', -, hp'⟩ := h.drops d hd
          have heq := h.eq_of_znodeName hin' he (hz'.trans hz)
          rw [heq, ← hrange] at hp'
          exact hdone r d.2 hr hp' e hin hprod p hp hdp
    · next ht =>
      have hrem : ∀ p, fromPartName r c.formatVersion = .ok p →
          Removed p c.virtualParts (c.virtualParts.removeName r).1 := fun p hp =>
        (removeName_removed (h.version.symm ▸ hp)).2
      have herase := h.erase he ht
      cases hp : fromPartName r c.formatVersion with
      | error msg =>
        have hsame : (c.virtualParts.removeName r).1 = c.virtualParts := by
          unfold ActiveDataPartSet.removeName
          rw [h.version, hp]
        rw [hsame]
        exact herase
      | ok p =>
        have hT := hrem p hp
        refine ⟨hT.formatVersion.trans h.version, hT.wellNamed h.wellNamed, herase.znodes, herase.parsed,
          herase.drops, ?_⟩
        intro e hin hprod q hq
        have hin := (PartSets.mem_erase.1 hin).1
        rcases h.covered e hin hprod q hq with hcov | hcov
        · exact Or.inl (hT.hasCovering hcov (hdone r p hr hp e hin hprod q hq))
        · exact Or.inr hcov

theorem finishDropRange_wp (r : String) : (finishDropRange entry r).wp
    (fun _ t => t.partSets = s.partSets.finishDropRange entry (some r))
    (fun _ t => t.partSets = s.partSets) s := by
  unfold finishDropRange PartSets.finishDropRange
  simp only
  split
  · rw [wp_bind]
    refine (leaves_onCurrentParts _).wp ?_ fun _ _ ht => ht
    intro _ t ht
    unfold removeDropPart
    rw [wp_modify, ← ht]
    rfl
  · rw [wp_bind]
    refine (leaves_onCurrentParts _).wp ?_ fun _ _ ht => ht
    intro _ t ht
    unfold onVirtualParts
    rw [wp_bind, wp_update, ← ht]
    refine ⟨fun _ _ => rfl, ?_⟩
    intro e herr
    -- the name did not parse, so nothing was removed
    unfold partSets ActiveDataPartSet.removeName at *
    simp only at herr ⊢
    split at herr
    · cases herr
    · rfl

theorem updateStateOnSuccess_wp (names : List String) : (updateStateOnSuccess entry names).wp
    (fun _ t => ∃ dropRange, entry.getDropRange s.formatVersion = .ok dropRange ∧
      t.partSets = s.partSets.finishDropRange entry dropRange)
    (fun _ t => t.partSets = s.partSets) s := by
  have hcovered := leaves_removeCoveredPartsFromMutations entry.actualNewPartName false true
  have hactual : Prog.Leaves partSets (entry.replaceRangeActualNewPartNames.forM fun actualPart =>
      removeCoveredPartsFromMutations actualPart false true) :=
    Leaves.forM fun _ _ => leaves_removeCoveredPartsFromMutations _ _ _
  have hnames : Prog.Leaves partSets (names.forM finishVirtualPart) :=
    Leaves.forM fun _ _ => leaves_finishVirtualPart _
  unfold updateStateOnSuccess
  rw [wp_bind]
  refine (Leaves.when (c := entry.actualNewPartName ≠ "") hcovered).wp ?_ fun _ _ ht => ht
  intro _ t1 ht1
  rw [wp_bind]
  refine hactual.wp ?_ fun _ _ ht => ht.trans ht1
  intro _ t2 ht2
  rw [wp_bind]
  refine hnames.wp ?_ fun _ _ ht => ht.trans (ht2.trans ht1)
  intro _ t3 ht3
  have hsame : t3.partSets = s.partSets := ht3.trans (ht2.trans ht1)
  have hv : t3.formatVersion = s.formatVersion := congrArg PartSets.formatVersion hsame
  unfold orThrow
  rw [wp_bind, wp_get, wp_bind, wp_lift, hv]
  refine ⟨?_, fun _ _ => hsame⟩
  intro dropRange hr
  have hr := mapError_eq_ok.1 hr
  have hrange : (dropRange.toList.forM (finishDropRange entry)).wp
      (fun _ t => t.partSets = s.partSets.finishDropRange entry dropRange)
      (fun _ t => t.partSets = s.partSets) t3 := by
    cases dropRange with
    | none => exact hsame
    | some r =>
      have h : (finishDropRange entry r).wp
          (fun _ t => t.partSets = t3.partSets.finishDropRange entry (some r))
          (fun _ t => t.partSets = t3.partSets) t3 := finishDropRange_wp r
      rw [hsame] at h
      exact (wp_bind _ _).2 h
  rw [wp_bind]
  refine wp_mono hrange ?_ fun _ _ ht => ht
  intro _ t4 ht4
  have hmut : Prog.Leaves partSets (withMutatedPart entry removePartInProgressFromMutations) :=
    leaves_withMutatedPart entry fun _ _ _ => leaves_forMutations _ _ _
  have hlast : ∀ t : Queue, t.partSets = s.partSets.finishDropRange entry dropRange →
      (Prog.when (entry.type = .mutatePart) (withMutatedPart entry removePartInProgressFromMutations)).wp
        (fun _ t => ∃ dropRange, entry.getDropRange s.formatVersion = .ok dropRange ∧
          t.partSets = s.partSets.finishDropRange entry dropRange)
        (fun _ t => t.partSets = s.partSets) t := by
    intro t ht
    refine wp_when (fun hty => hmut.wp ?_ ?_) fun _ => ⟨dropRange, hr, ht⟩
    · intro _ u hu
      exact ⟨dropRange, hr, hu.trans ht⟩
    · intro _ u hu
      -- a mutation drops no range
      have hnone : dropRange = none := by
        unfold LogEntry.getDropRange at hr
        rw [hty] at hr
        cases hr
        rfl
      rw [hu, ht, hnone]
      rfl
  rw [wp_bind]
  exact wp_when (fun _ => hlast _ ht4) fun _ => hlast _ ht4

/-- **A processed entry keeps coverage**, also when its removal throws. -/
theorem removeProcessedEntry_covered (h : Coverage s.partSets) (he : entry ∈ s.queue)
    (hdone : DropRangeDone s.partSets entry) :
    (removeProcessedEntry entry).wp (fun _ t => Coverage t.partSets) (fun _ t => Coverage t.partSets) s := by
  have hsuccess : (updateStateOnQueueEntryRemoval entry true).wp
      (fun _ t => ∃ dropRange, entry.getDropRange s.formatVersion = .ok dropRange ∧
        t.partSets = s.partSets.finishDropRange entry dropRange)
      (fun _ t => t.partSets = s.partSets) s := by
    unfold updateStateOnQueueEntryRemoval orThrow
    rw [wp_bind, wp_get, wp_bind, wp_lift]
    refine ⟨?_, fun _ _ => rfl⟩
    intro names _
    rw [wp_bind]
    exact wp_when (fun _ => updateStateOnSuccess_wp (s := removeInsertTime entry s) names) fun _ =>
      updateStateOnSuccess_wp names
  unfold removeProcessedEntry
  refine wp_ite (fun _ => h) fun _ => ?_
  rw [wp_bind, wp_get]
  refine wp_ite (fun _ => ?_) fun _ => h
  rw [wp_bind]
  refine wp_mono hsuccess ?_ ?_
  · rintro _ t ⟨dropRange, hr, ht⟩
    have hfin := h.finish he hr hdone
    rw [← ht] at hfin
    exact hfin
  · intro _ t ht
    rw [ht]
    exact h

/-! ## Dropped ranges -/

/-- All virtual parts of the entry are inside of `p`. -/
def Inside (v : ℕ) (p : PartInfo) (e : LogEntry) : Prop :=
  ∀ names, e.getVirtualPartNames v = .ok names → ∀ name ∈ names, ∃ q, fromPartName name v = .ok q ∧ p.Contains q

theorem parse_wp (name : String) : (parse name).wp
    (fun p t => t.partSets = s.partSets ∧ fromPartName name s.formatVersion = .ok p) (fun _ _ => True) s := by
  unfold parse orThrow
  rw [wp_bind, wp_get, wp_lift]
  exact ⟨fun p hp => ⟨rfl, mapError_eq_ok.1 hp⟩, fun _ _ => trivial⟩

theorem checkReplaceRangeCanBeRemoved_wp (p : PartInfo) (e current : LogEntry) :
    (checkReplaceRangeCanBeRemoved p e current).wp
      (fun b t => t.partSets = s.partSets ∧ (b = true → e.type = .replaceRange ∧ Inside s.formatVersion p e))
      (fun _ _ => True) s := by
  unfold checkReplaceRangeCanBeRemoved
  refine wp_ite (fun _ => ⟨rfl, fun hb => nomatch hb⟩) fun htype => ?_
  rw [not_not] at htype
  refine wp_ite (fun _ => ⟨rfl, fun hb => nomatch hb⟩) fun _ => ?_
  refine wp_ite (fun _ => ⟨rfl, fun hb => nomatch hb⟩) fun _ => ?_
  rw [wp_bind]
  refine wp_mono (parse_wp _) ?_ fun _ _ _ => trivial
  intro range t ⟨ht, hrange⟩
  refine wp_ite (fun _ => ⟨ht, fun hb => nomatch hb⟩) fun hcontains => ?_
  rw [not_not] at hcontains
  have hinfos : (e.replaceRange.newPartNames.mapM parse).wp
      (fun infos u => u.partSets = s.partSets ∧ ∀ name ∈ e.replaceRange.newPartNames,
        ∃ q ∈ infos, fromPartName name s.formatVersion = .ok q)
      (fun _ _ => True) t := by
    refine wp_mapM (P := fun u : Queue => u.partSets = s.partSets) _ (fun name u hu => ?_) ht
    refine wp_mono (parse_wp name) ?_ fun _ _ _ => trivial
    intro q w ⟨hw, hq⟩
    have hv : u.formatVersion = s.formatVersion := congrArg PartSets.formatVersion hu
    exact ⟨hw.trans hu, hv ▸ hq⟩
  rw [wp_bind]
  refine wp_mono hinfos ?_ fun _ _ _ => trivial
  intro infos u ⟨hu, hall⟩
  rw [wp_pure]
  refine ⟨hu, fun hb => ⟨htype, ?_⟩⟩
  rw [List.all_eq_true] at hb
  intro names hnames name hname
  unfold LogEntry.getVirtualPartNames LogEntry.getDropRange at hnames
  rw [htype, hrange] at hnames
  cases hmove : ReplaceRangeEntry.isMovePartitionOrAttachFrom range with
  | true =>
    simp only [hmove, if_true, Option.toList_none, List.append_nil, Except.ok.injEq] at hnames
    rw [← hnames] at hname
    obtain ⟨q, hq, hpq⟩ := hall name hname
    exact ⟨q, hpq, by simpa using hb q hq⟩
  | false =>
    simp only [hmove, Bool.false_eq_true, if_false, Option.toList_some, Except.ok.injEq] at hnames
    rw [← hnames] at hname
    rcases List.mem_append.1 hname with hname | hname
    · obtain ⟨q, hq, hpq⟩ := hall name hname
      exact ⟨q, hpq, by simpa using hb q hq⟩
    · rw [List.mem_singleton.1 hname]
      exact ⟨range, hrange, hcontains⟩

theorem simpleOpCovered_wp (p : PartInfo) (e : LogEntry) : (simpleOpCovered p e).wp
    (fun b t => t.partSets = s.partSets ∧ (b = true → e.isSimpleProducingOp ∧ Inside s.formatVersion p e) ∧
      (b = false → e.isSimpleProducingOp → ∀ q, fromPartName e.newPartName s.formatVersion = .ok q →
        ¬ p.Contains q)) (fun _ _ => True) s := by
  unfold simpleOpCovered
  refine wp_ite (fun hprod => ?_) fun hprod => ?_
  · rw [wp_bind]
    refine wp_mono (parse_wp _) ?_ fun _ _ _ => trivial
    intro q t ⟨ht, hq⟩
    rw [wp_pure]
    refine ⟨ht, fun hb => ⟨hprod, ?_⟩, ?_⟩
    · intro names hnames name hname
      rw [getVirtualPartNames_of_producing hprod] at hnames
      cases hnames
      rw [List.mem_singleton.1 hname]
      exact ⟨q, hq, by simpa using hb⟩
    · intro hb _ q' hq'
      rw [hq] at hq'
      cases hq'
      simpa using hb
  · rw [wp_pure]
    exact ⟨rfl, (fun hb => nomatch hb), fun _ h => absurd h hprod⟩

/-- While the entries `rest` are still to be looked at: what was taken out of the virtual
parts is inside of `p`, and what left the queue is no `DROP_PART`. -/
structure Clearing (c : PartSets) (p : PartInfo) (rest : List LogEntry) (c' : PartSets) : Prop where
  formatVersion : c'.formatVersion = c.formatVersion
  dropParts : c'.dropParts = c.dropParts
  removed : Removed p c.virtualParts c'.virtualParts
  queue : c'.queue.Sublist c.queue
  left : ∀ e ∈ c.queue, e ∈ c'.queue ∨ e.type ≠ .dropPart
  queued : ∀ e ∈ rest, e ∈ c.queue
  outside : ∀ e ∈ c'.queue, e ∉ rest → e.isSimpleProducingOp →
    ∀ q, fromPartName e.newPartName c.formatVersion = .ok q → ¬ p.Contains q

theorem Clearing.coverage {p : PartInfo} {c' : PartSets} (hc : Coverage c) (h : Clearing c p [] c') :
    Coverage c' := by
  refine ⟨h.removed.formatVersion.trans (hc.version.trans h.formatVersion.symm), h.removed.wellNamed hc.wellNamed,
    hc.znodes.sublist (h.queue.map _), ?_, ?_, ?_⟩
  · intro e he
    rw [h.formatVersion]
    exact hc.parsed e (h.queue.subset he)
  · intro d hd
    rw [h.dropParts] at hd
    rw [h.formatVersion]
    obtain ⟨e, he, hz, ht, hp⟩ := hc.drops d hd
    rcases h.left e he with hin | hne
    · exact ⟨e, hin, hz, ht, hp⟩
    · exact absurd ht hne
  · intro e he hprod q hq
    rw [h.formatVersion] at hq
    rcases hc.covered e (h.queue.subset he) hprod q hq with hcov | ⟨d, hd, hdq⟩
    · exact Or.inl (h.removed.hasCovering hcov (h.outside e he (List.not_mem_nil) hprod q hq))
    · exact Or.inr ⟨d, by rw [h.dropParts]; exact hd, hdq⟩

theorem cancelVirtualParts_wp {p : PartInfo} {names : List String}
    (hnames : ∀ name ∈ names, ∃ q, fromPartName name s.formatVersion = .ok q ∧ p.Contains q)
    (hv : s.virtualParts.formatVersion = s.formatVersion) :
    (names.forM cancelVirtualPart).wp (fun _ t => Removed p s.virtualParts t.virtualParts ∧
      t.partSets = { s.partSets with virtualParts := t.virtualParts }) (fun _ _ => True) s := by
  have hloop := wp_forM (f := cancelVirtualPart) (E := fun _ _ => True) (s := s)
    (fun rest t => (∀ name ∈ rest, name ∈ names) ∧ Removed p s.virtualParts t.virtualParts ∧
      t.partSets = { s.partSets with virtualParts := t.virtualParts }) names ?_
    ⟨fun _ h => h, Removed.refl p _, rfl⟩
  · exact wp_mono hloop (fun _ t ht => ht.2) fun _ _ _ => trivial
  intro name rest t ⟨hin, hrem, hsets⟩
  obtain ⟨q, hq, hpq⟩ := hnames name (hin name List.mem_cons_self)
  have hq' : fromPartName name t.virtualParts.formatVersion = .ok q := by
    rw [hrem.formatVersion, hv]
    exact hq
  have hone := (removeName_removed hq').2.mono hpq
  unfold cancelVirtualPart onVirtualParts
  rw [wp_bind, wp_update]
  refine ⟨?_, fun _ _ => trivial⟩
  intro _ _
  refine (leaves_removeCoveredPartsFromMutations _ _ _).wp ?_ fun _ _ _ => trivial
  intro _ u hu
  have huv : u.virtualParts = (t.virtualParts.removeName name).1 := congrArg PartSets.virtualParts hu
  refine ⟨fun other h => hin other (List.mem_cons_of_mem _ h), ?_, ?_⟩
  · rw [huv]
    exact hrem.trans hone
  · rw [hu, huv]
    have hstep := congrArg (fun c : PartSets =>
      { c with virtualParts := (t.virtualParts.removeName name).1 }) hsets
    exact hstep

theorem removeIfCovered_clearing {p : PartInfo} {coveringEntry : Option LogEntry} {e : LogEntry}
    {rest : List LogEntry} (hc : Coverage c) (h : Clearing c p (e :: rest) s.partSets) :
    (removeIfCovered p coveringEntry e).wp (fun _ t => Clearing c p rest t.partSets) (fun _ _ => True) s := by
  have hv : s.formatVersion = c.formatVersion := h.formatVersion
  unfold removeIfCovered
  rw [wp_bind]
  refine wp_mono (simpleOpCovered_wp p e) ?_ fun _ _ _ => trivial
  intro simple t ⟨ht, hsimple, houtside⟩
  have hreplace : (replaceRangeCovered p coveringEntry e).wp
      (fun b u => u.partSets = s.partSets ∧ (b = true → e.type = .replaceRange ∧ Inside s.formatVersion p e))
      (fun _ _ => True) t := by
    have htv : t.formatVersion = s.formatVersion := congrArg PartSets.formatVersion ht
    unfold replaceRangeCovered
    cases coveringEntry with
    | none => exact ⟨ht, fun hb => nomatch hb⟩
    | some current =>
      refine wp_mono (checkReplaceRangeCanBeRemoved_wp p e current) ?_ fun _ _ _ => trivial
      intro b u ⟨hu, hb⟩
      rw [htv] at hb
      exact ⟨hu.trans ht, hb⟩
  rw [wp_bind]
  refine wp_mono hreplace ?_ fun _ _ _ => trivial
  intro replace u ⟨hu, hrep⟩
  have hclear : Clearing c p (e :: rest) u.partSets := hu ▸ h
  refine wp_when (fun hcov => ?_) fun hcov => ?_
  · have hinside : e.type ≠ .dropPart ∧ Inside c.formatVersion p e := by
      rw [← hv]
      rcases Bool.or_eq_true_iff.1 hcov with hb | hb
      · obtain ⟨hprod, hin⟩ := hsimple hb
        refine ⟨?_, hin⟩
        intro hty
        unfold LogEntry.isSimpleProducingOp at hprod
        rw [hty] at hprod
        cases hprod
      · obtain ⟨hty, hin⟩ := hrep hb
        exact ⟨by rw [hty]; decide, hin⟩
    have he : e ∈ c.queue := h.queued e List.mem_cons_self
    have huv : u.formatVersion = c.formatVersion := hclear.formatVersion
    have hcancel : (updateStateOnQueueEntryRemoval e false).wp (fun _ w =>
        Removed p u.virtualParts w.virtualParts ∧
          w.partSets = { u.partSets with virtualParts := w.virtualParts }) (fun _ _ => True) u := by
      unfold updateStateOnQueueEntryRemoval orThrow
      rw [wp_bind, wp_get, wp_bind, wp_lift]
      refine ⟨?_, fun _ _ => trivial⟩
      intro names hnames
      have hnames := hinside.2 names (huv ▸ mapError_eq_ok.1 hnames)
      have hfail : ∀ w : Queue, w.partSets = u.partSets → (updateStateOnFailure e names).wp (fun _ w =>
          Removed p u.virtualParts w.virtualParts ∧
            w.partSets = { u.partSets with virtualParts := w.virtualParts }) (fun _ _ => True) w := by
        intro w hw
        have hwv : w.virtualParts = u.virtualParts := congrArg PartSets.virtualParts hw
        have hwf : w.formatVersion = c.formatVersion := (congrArg PartSets.formatVersion hw).trans huv
        unfold updateStateOnFailure
        rw [wp_bind]
        refine wp_when (fun hty => absurd hty hinside.1) fun _ => ?_
        have hversion : w.virtualParts.formatVersion = w.formatVersion := by
          rw [hwv, hwf]
          exact hclear.removed.formatVersion.trans hc.version
        refine wp_mono (cancelVirtualParts_wp (s := w) (hwf ▸ hnames) hversion) ?_ fun _ _ _ => trivial
        intro _ x ⟨hx, hxs⟩
        rw [hwv] at hx
        rw [hw] at hxs
        exact ⟨hx, hxs⟩
      rw [wp_bind]
      exact wp_when (fun _ => hfail _ rfl) fun _ => hfail _ rfl
    rw [wp_bind]
    refine wp_mono hcancel ?_ fun _ _ _ => trivial
    intro _ w ⟨hw, hws⟩
    unfold eraseFromQueue
    rw [wp_modify]
    have hwq : w.queue = u.queue := congrArg PartSets.queue hws
    have hmem : ∀ x, x ∈ (w.partSets.erase e).queue ↔ x ∈ u.queue ∧ x.znodeName ≠ e.znodeName := by
      intro x
      rw [PartSets.mem_erase, ← hwq]
      rfl
    refine ⟨(congrArg PartSets.formatVersion hws).trans huv,
      (congrArg PartSets.dropParts hws).trans hclear.dropParts, hclear.removed.trans hw, ?_, ?_, ?_, ?_⟩
    · refine List.Sublist.trans ?_ hclear.queue
      have hsub : (w.partSets.erase e).queue.Sublist w.queue := List.filter_sublist
      rw [hwq] at hsub
      exact hsub
    · intro x hx
      by_cases hz : x.znodeName = e.znodeName
      · rw [hc.eq_of_znodeName hx he hz]
        exact Or.inr hinside.1
      · exact (hclear.left x hx).imp_left fun hin => (hmem x).2 ⟨hin, hz⟩
    · intro x hx
      exact hclear.queued x (List.mem_cons_of_mem _ hx)
    · intro x hx hnot
      obtain ⟨hin, hz⟩ := (hmem x).1 hx
      refine hclear.outside x hin ?_
      intro hcons
      rcases List.mem_cons.1 hcons with rfl | hcons
      · exact hz rfl
      · exact hnot hcons
  · refine ⟨hclear.formatVersion, hclear.dropParts, hclear.removed, hclear.queue, hclear.left,
      fun x hx => hclear.queued x (List.mem_cons_of_mem _ hx), ?_⟩
    intro x hx hnot hprod q hq
    by_cases hxe : x = e
    · rw [hxe] at hprod hq
      have hb : simple = false := by
        cases simple
        · rfl
        · exact absurd rfl hcov
      exact houtside hb hprod q (hv ▸ hq)
    · refine hclear.outside x hx ?_ hprod q hq
      intro hcons
      rcases List.mem_cons.1 hcons with heq | hcons
      · exact hxe heq
      · exact hnot hcons

/-- **Clearing a range keeps coverage.** -/
theorem removePartProducingOpsInRange_covered (h : Coverage s.partSets) (p : PartInfo)
    (coveringEntry : Option LogEntry) : (removePartProducingOpsInRange p coveringEntry).wp
      (fun _ t => Coverage t.partSets) (fun _ _ => True) s := by
  have hstart : Clearing s.partSets p s.queue s.partSets :=
    ⟨rfl, rfl, Removed.refl p _, List.Sublist.refl _, fun _ he => Or.inl he, fun _ he => he,
      fun e he hnot => absurd he hnot⟩
  unfold removePartProducingOpsInRange
  rw [wp_bind, wp_get]
  have hloop := wp_forM (f := removeIfCovered p coveringEntry) (E := fun _ _ => True)
    (fun rest t => Clearing s.partSets p rest t.partSets) s.queue
    (fun e rest t ht => removeIfCovered_clearing h ht) hstart
  exact wp_mono hloop (fun _ t ht => ht.coverage h) fun _ _ _ => trivial

/-! ## Runs -/

/-- The fields of an entry that were read from the log; the others change while it is
executed. -/
def logData (e : LogEntry) : LogEntry :=
  { e with
    actualNewPartName := ""
    replaceRangeActualNewPartNames := []
    currentlyExecuting := false
    removedByOtherEntry := false
    numTries := 0 }

/-- The calls that change the queue. An insertion that throws ends the server. -/
inductive Step : Queue → Queue → Prop
  | insert {s t : Queue} (entry : LogEntry) : (∀ e ∈ s.queue, e.znodeName ≠ entry.znodeName) →
      (insertUnlocked entry).exec s = (.ok (), t) → Step s t
  | processed {s t : Queue} {r : Except QueueError Unit} (entry : LogEntry) : entry ∈ s.queue →
      DropRangeDone s.partSets entry → (removeProcessedEntry entry).exec s = (r, t) → Step s t
  | dropped {s t : Queue} (p : PartInfo) (coveringEntry : Option LogEntry) :
      (removePartProducingOpsInRange p coveringEntry).exec s = (.ok (), t) → Step s t
  -- the scheduler reorders the queue and marks entries
  | reorder {s : Queue} (queue : List LogEntry) : (queue.map logData).Perm (s.queue.map logData) →
      Step s { s with queue := queue }

/-- The states of a queue that was initialized with the parts of the replica. -/
inductive Reachable (formatVersion : ℕ) : Queue → Prop
  | start {t : Queue} (parts : List String) :
      (initializeParts parts).exec (create formatVersion) = (.ok (), t) → Reachable formatVersion t
  | step {s t : Queue} : Reachable formatVersion s → Step s t → Reachable formatVersion t

theorem getVirtualPartNames_logData (e : LogEntry) (v : ℕ) :
    (logData e).getVirtualPartNames v = e.getVirtualPartNames v := rfl

omit [IntText] in
theorem isSimpleProducingOp_logData (e : LogEntry) : (logData e).isSimpleProducingOp = e.isSimpleProducingOp := rfl

theorem Coverage.reorder (h : Coverage c) {queue : List LogEntry}
    (hq : (queue.map logData).Perm (c.queue.map logData)) : Coverage { c with queue := queue } := by
  have hto : ∀ e ∈ queue, ∃ f ∈ c.queue, logData f = logData e := by
    intro e he
    exact List.mem_map.1 (hq.subset (List.mem_map_of_mem he))
  have hback : ∀ f ∈ c.queue, ∃ e ∈ queue, logData e = logData f := by
    intro f hf
    exact List.mem_map.1 (hq.symm.subset (List.mem_map_of_mem hf))
  have hznodes : (queue.map LogEntry.znodeName).Perm (c.queue.map LogEntry.znodeName) := by
    have hperm := hq.map LogEntry.znodeName
    rw [List.map_map, List.map_map] at hperm
    exact hperm
  refine ⟨h.version, h.wellNamed, hznodes.nodup_iff.2 h.znodes, ?_, ?_, ?_⟩
  · intro e he
    obtain ⟨f, hf, hfe⟩ := hto e he
    have hpar := h.parsed f hf
    unfold Parsed at hpar ⊢
    rw [← getVirtualPartNames_logData, hfe, getVirtualPartNames_logData] at hpar
    exact hpar
  · intro d hd
    obtain ⟨f, hf, hz, ht, hp⟩ := h.drops d hd
    obtain ⟨e, he, hef⟩ := hback f hf
    have hzn : e.znodeName = f.znodeName := (congrArg LogEntry.znodeName hef :)
    have hty : e.type = f.type := (congrArg LogEntry.type hef :)
    have hnm : e.newPartName = f.newPartName := (congrArg LogEntry.newPartName hef :)
    exact ⟨e, he, hzn.trans hz, hty.trans ht, hnm ▸ hp⟩
  · intro e he hprod p hp
    obtain ⟨f, hf, hfe⟩ := hto e he
    have hnm : f.newPartName = e.newPartName := (congrArg LogEntry.newPartName hfe :)
    have hpf : f.isSimpleProducingOp = e.isSimpleProducingOp := by
      rw [← isSimpleProducingOp_logData, hfe, isSimpleProducingOp_logData]
    exact h.covered f hf (hpf ▸ hprod) p (hnm ▸ hp)

theorem Step.coverage (h : Step s t) (hs : Coverage s.partSets) : Coverage t.partSets := by
  cases h with
  | insert entry hnew hrun => exact wp_ok (Q := fun _ t => Coverage t.partSets) (insertUnlocked_covered hs hnew) hrun
  | processed entry he hdone hrun =>
    rename_i r
    have hwp := removeProcessedEntry_covered hs he hdone
    cases r with
    | ok _ => exact wp_ok (Q := fun _ t => Coverage t.partSets) hwp hrun
    | error _ => exact wp_error (E := fun _ t => Coverage t.partSets) hwp hrun
  | dropped p coveringEntry hrun =>
    exact wp_ok (Q := fun _ t => Coverage t.partSets) (removePartProducingOpsInRange_covered hs p coveringEntry) hrun
  | reorder queue hq => exact hs.reorder hq

theorem initializeParts_coverage {formatVersion : ℕ} {parts : List String}
    (hrun : (initializeParts parts).exec (create formatVersion) = (.ok (), t)) : Coverage t.partSets := by
  -- nothing is queued while the parts are added
  have hloop := wp_forM (E := fun _ _ => True) (s := create formatVersion)
    (f := fun partName => (do
      let _ ← onCurrentParts fun S => S.addName partName
      let _ ← onVirtualParts fun S => S.addName partName : QueueM Unit))
    (fun _ t => t.virtualParts.formatVersion = t.formatVersion ∧ t.virtualParts.WellNamed ∧
      t.queue = [] ∧ t.dropParts = .empty) parts ?_ ⟨rfl, WellNamed.empty formatVersion, rfl, rfl⟩
  · obtain ⟨hv, hw, hq, hd⟩ := wp_ok hloop hrun
    unfold partSets
    rw [hq, hd]
    refine ⟨hv, hw, List.nodup_nil, ?_, ?_, ?_⟩
    · intro e he
      cases he
    · intro d hd
      exact absurd hd (KeyedSet.notMem_empty d)
    · intro e he
      cases he
  · intro name _ u ⟨hv, hw, hq, hd⟩
    rw [wp_bind]
    refine (leaves_onCurrentParts _).wp ?_ fun _ _ _ => trivial
    intro _ x hx
    have hxv : x.virtualParts = u.virtualParts := congrArg PartSets.virtualParts hx
    unfold onVirtualParts
    rw [wp_bind, wp_update, hxv]
    refine ⟨?_, fun _ _ => trivial⟩
    intro r hr
    have hcall : u.virtualParts.addName name = ((u.virtualParts.addName name).1, .ok r) := by
      rw [← mapError_eq_ok.1 hr]
    obtain ⟨hw', hv', -, -⟩ := addName_covers hw hcall
    have hxf : x.formatVersion = u.formatVersion := congrArg PartSets.formatVersion hx
    exact ⟨(hv'.trans hv).trans hxf.symm, hw', (congrArg PartSets.queue hx).trans hq,
      (congrArg PartSets.dropParts hx).trans hd⟩

/-- **Every reachable queue.** The part of each queued `GET_PART`, `ATTACH_PART`,
`MERGE_PARTS` or `MUTATE_PART` is inside of a virtual part or meets the range of a queued
`DROP_PART`, and the virtual parts are pairwise disjoint. -/
theorem reachable_covered {formatVersion : ℕ} (h : Reachable formatVersion s) :
    (∀ e ∈ s.queue, e.isSimpleProducingOp → ∃ p, fromPartName e.newPartName s.formatVersion = .ok p ∧
      ((∃ v ∈ s.virtualParts, v.1.Contains p) ∨ ∃ d ∈ s.dropParts, ¬ p.IsDisjoint d.2)) ∧
    ∀ v ∈ s.virtualParts, ∀ w ∈ s.virtualParts, v ≠ w → v.1.IsDisjoint w.1 := by
  have hcov : Coverage s.partSets := by
    induction h with
    | start parts hrun => exact initializeParts_coverage hrun
    | step _ hstep ih => exact hstep.coverage ih
  refine ⟨?_, hcov.wellNamed.laid.disjoint⟩
  intro e he hprod
  obtain ⟨p, hp⟩ := (hcov.parsed e he).newPartName hprod
  refine ⟨p, hp, ?_⟩
  rcases hcov.covered e he hprod p hp with hv | ⟨d, hd, hdp⟩
  · exact Or.inl hv
  · refine Or.inr ⟨d, hd, ?_⟩
    intro hdis
    exact hdp.not_isDisjoint (fromPartName_proper hp).blocks hdis.symm

end Coverage

section Decimal

attribute [local instance] IntText.decimal

/-- A fetched part that a `DROP_PART` takes out of the virtual parts while both entries
are queued. -/
theorem reachable_covered_drop_part :
    let s := ((initializeParts ["all_0_0_0"]).exec (create 1)).2
    let get : LogEntry := { znodeName := "queue-0000000000", type := .getPart, newPartName := "all_1_1_0" }
    let drop : LogEntry := { znodeName := "queue-0000000001", type := .dropPart, newPartName := "all_1_1_0" }
    let t := ((insertUnlocked drop).exec ((insertUnlocked get).exec s).2).2
    t.queue = [drop, get] ∧ (∀ e ∈ t.queue, e.isSimpleProducingOp →
      ∃ p, fromPartName e.newPartName t.formatVersion = .ok p ∧
        ((∃ v ∈ t.virtualParts, v.1.Contains p) ∨ ∃ d ∈ t.dropParts, ¬ p.IsDisjoint d.2)) := by
  intro s get drop t
  have hs : Reachable 1 s := .start ["all_0_0_0"] (Prod.ext (by decide +kernel) rfl)
  have hget : Reachable 1 ((insertUnlocked get).exec s).2 :=
    .step hs (.insert get (by decide +kernel) (Prod.ext (by decide +kernel) rfl))
  have hdrop : Reachable 1 t := .step hget (.insert drop (by decide +kernel) (Prod.ext (by decide +kernel) rfl))
  exact ⟨by decide +kernel, (reachable_covered hdrop).1⟩

end Decimal

end Queue

end MergeTree
