import MergeTree.Proof.PatchPartsLock
import MergeTree.Spec.PlainUpdateLock

/-!
# Updates of a plain table and their wake-ups

The counters are those of the updates in progress (`Counted`), so the predicate of the
condition variable says whether the update conflicts with one of them, and what an update
takes away when it ends is there.

A release notifies one sleeper. No wake-up is lost exactly in the runs where every other sleeper
has a conflict with an update that goes on (`locks_run`).
-/

namespace MergeTree

open CountedMap

namespace PlainLightweightUpdatesSync

variable {U : Type} [DecidableEq U] {affectedColumns : U → UpdateAffectedColumns} {s s' : PlainLightweightUpdatesSync U}
  {L : Finset U} {e : Event U} {u : U}

@[simp]
theorem setStatus_self (s : PlainLightweightUpdatesSync U) (u : U) (status : UpdateStatus) :
    (s.setStatus u status).status u = status := by
  unfold setStatus
  simp

theorem setStatus_of_ne (s : PlainLightweightUpdatesSync U) {u v : U} (h : v ≠ u) (status : UpdateStatus) :
    (s.setStatus u status).status v = s.status v := by
  unfold setStatus
  simp [h]

/-- **The updates in progress are these**: they do not conflict, and the counters count their columns. -/
structure Counted (affectedColumns : U → UpdateAffectedColumns) (s : PlainLightweightUpdatesSync U) (L : Finset U) : Prop where
  mem : ∀ u, u ∈ L ↔ s.status u = .inProgress
  used : Represents s.inProgressColumns.used fun column => ∑ u ∈ L, (affectedColumns u).used.names.count column
  updated : Represents s.inProgressColumns.updated fun column => ∑ u ∈ L, (affectedColumns u).updated.names.count column
  apart : ∀ u ∈ L, ∀ v ∈ L, u ≠ v → (affectedColumns u).hasConflict (affectedColumns v) = false

omit [DecidableEq U] in
theorem Counted.hasConflict_iff (h : Counted affectedColumns s L) (other : UpdateAffectedColumns) :
    s.inProgressColumns.hasConflict other = true ↔ ∃ u ∈ L, (affectedColumns u).hasConflict other = true := by
  have hused : ∀ column, column ∈ s.inProgressColumns.used ↔ ∃ u ∈ L, column ∈ (affectedColumns u).used.names := by
    intro column
    rw [AList.mem_keys, h.used.mem_keys, Finset.sum_pos_iff]
    simp only [List.count_pos_iff]
  have hupdated : ∀ column, column ∈ s.inProgressColumns.updated.keys ↔
      ∃ u ∈ L, column ∈ (affectedColumns u).updated.names := by
    intro column
    rw [h.updated.mem_keys, Finset.sum_pos_iff]
    simp only [List.count_pos_iff]
  unfold UpdateAffectedColumnsWithCounters.hasConflict UpdateAffectedColumns.hasConflict
  simp only [Bool.or_eq_true, List.any_eq_true, NameSet.contains, decide_eq_true_eq, hused, hupdated]
  constructor
  · rintro (⟨column, ⟨u, hu, hmem⟩, hother⟩ | ⟨column, hother, u, hu, hmem⟩)
    · exact ⟨u, hu, Or.inl ⟨column, hmem, hother⟩⟩
    · exact ⟨u, hu, Or.inr ⟨column, hother, hmem⟩⟩
  · rintro ⟨u, hu, ⟨column, hmem, hother⟩ | ⟨column, hother, hmem⟩⟩
    · exact Or.inl ⟨column, ⟨u, hu, hmem⟩, hother⟩
    · exact Or.inr ⟨column, hother, u, hu, hmem⟩

omit [DecidableEq U] in
theorem counted_initial (affectedColumns : U → UpdateAffectedColumns) : Counted affectedColumns initial ∅ where
  mem u := by simp [initial]
  used := represents_empty
  updated := represents_empty
  apart u hu := absurd hu (Finset.notMem_empty u)

theorem Counted.setStatus (h : Counted affectedColumns s L) (hu : s.status u ≠ .inProgress) {status : UpdateStatus}
    (hstatus : status ≠ .inProgress) : Counted affectedColumns (s.setStatus u status) L where
  mem v := by
    rw [h.mem v]
    by_cases hv : v = u
    · subst hv
      simp [hu, hstatus]
    · rw [setStatus_of_ne s hv]
  used := h.used
  updated := h.updated
  apart := h.apart

/-- **A check of the predicate**: the update goes on, and has no conflict, or waits on or gives up. -/
theorem Counted.check (h : Counted affectedColumns s L) (hu : s.status u ≠ .inProgress) {otherwise : UpdateStatus}
    (hother : otherwise ≠ .inProgress) :
    ∃ L', Counted affectedColumns (s.check affectedColumns u otherwise) L' ∧ L ⊆ L' := by
  unfold PlainLightweightUpdatesSync.check
  by_cases hconflict : s.inProgressColumns.hasConflict (affectedColumns u) = true
  · rw [if_pos hconflict]
    exact ⟨L, h.setStatus hu hother, Finset.Subset.refl L⟩
  · have hnew : u ∉ L := fun hmem => hu ((h.mem u).1 hmem)
    have hfree : ∀ v ∈ L, (affectedColumns v).hasConflict (affectedColumns u) = false := by
      intro v hv
      by_contra htrue
      exact hconflict ((h.hasConflict_iff _).2 ⟨v, hv, Bool.not_eq_false _ ▸ htrue⟩)
    rw [if_neg hconflict]
    refine ⟨insert u L, ⟨fun v => ?_, ?_, ?_, ?_⟩, Finset.subset_insert u L⟩
    · rw [Finset.mem_insert, h.mem v]
      by_cases hv : v = u
      · subst hv
        simp
      · rw [setStatus_of_ne _ hv]
        simp [hv]
    · refine (h.used.increment _).congr fun column => ?_
      rw [Finset.sum_insert hnew, Nat.add_comm]
    · refine (h.updated.increment _).congr fun column => ?_
      rw [Finset.sum_insert hnew, Nat.add_comm]
    · intro v hv w hw hne
      rw [Finset.mem_insert] at hv hw
      rcases hv with rfl | hv
      · rw [UpdateAffectedColumns.hasConflict_comm]
        exact hfree w (hw.resolve_left (Ne.symm hne))
      · rcases hw with rfl | hw
        · exact hfree v hv
        · exact h.apart v hv w hw hne

/-- **The columns of an update in progress can be taken away.** -/
theorem Counted.exists_remove (h : Counted affectedColumns s L) (hu : s.status u = .inProgress) :
    ∃ columns, s.inProgressColumns.remove (affectedColumns u) = .ok columns ∧
      Represents columns.used (fun column => ∑ v ∈ L.erase u, (affectedColumns v).used.names.count column) ∧
      Represents columns.updated fun column => ∑ v ∈ L.erase u, (affectedColumns v).updated.names.count column := by
  have hmem := (h.mem u).2 hu
  have hsplit : ∀ f : U → ℕ, ∑ v ∈ L, f v = f u + ∑ v ∈ L.erase u, f v := fun f => (Finset.add_sum_erase L f hmem).symm
  obtain ⟨used, hused, hused'⟩ := h.used.exists_decrement cannotRemoveColumn fun column => by
    rw [hsplit]
    exact Nat.le_add_right _ _
  obtain ⟨updated, hupdated, hupdated'⟩ := h.updated.exists_decrement cannotRemoveColumn fun column => by
    rw [hsplit]
    exact Nat.le_add_right _ _
  refine ⟨⟨used, updated⟩, ?_, hused'.congr fun column => ?_, hupdated'.congr fun column => ?_⟩
  · unfold UpdateAffectedColumnsWithCounters.remove
    rw [hused, hupdated]
    rfl
  · rw [hsplit, Nat.add_sub_cancel_left]
  · rw [hsplit, Nat.add_sub_cancel_left]

theorem Counted.release (h : Counted affectedColumns s L) (hu : s.status u = .inProgress)
    {columns : UpdateAffectedColumnsWithCounters} (hremove : s.inProgressColumns.remove (affectedColumns u) = .ok columns)
    {notified : Option U} (hnotified : s.Notifies notified) :
    Counted affectedColumns (({ s with inProgressColumns := columns }.setStatus u .released).notifyOne notified) (L.erase u) := by
  obtain ⟨columns', hremove', hused, hupdated⟩ := h.exists_remove hu
  obtain rfl : columns' = columns := Except.ok.inj (hremove'.symm.trans hremove)
  have hleft : Counted affectedColumns ({ s with inProgressColumns := columns' }.setStatus u .released) (L.erase u) := by
    refine ⟨fun v => ?_, hused, hupdated, fun v hv w hw hne => ?_⟩
    · rw [Finset.mem_erase, h.mem v]
      by_cases hv : v = u
      · subst hv
        simp
      · rw [setStatus_of_ne _ hv]
        simp [hv]
    · exact h.apart v (Finset.mem_of_mem_erase hv) w (Finset.mem_of_mem_erase hw) hne
  cases notified with
  | none => exact hleft
  | some v =>
    have hasleep : s.status v = .asleep := hnotified
    have hvu : v ≠ u := by
      rintro rfl
      rw [hu] at hasleep
      cases hasleep
    refine hleft.setStatus ?_ (by decide)
    rw [setStatus_of_ne _ hvu]
    simp [hasleep]

theorem Counted.step (h : Counted affectedColumns s L) (hstep : s.Step affectedColumns e s') :
    ∃ L', Counted affectedColumns s' L' := by
  cases hstep with
  | lockColumns u hu =>
    obtain ⟨L', h', -⟩ := @Counted.check _ _ _ s L u h (by rw [hu]; decide) .asleep (by decide)
    exact ⟨L', h'⟩
  | wakeUp u hu => exact ⟨L, h.setStatus (by rw [hu]; decide) (by decide)⟩
  | recheck u hu =>
    obtain ⟨L', h', -⟩ := @Counted.check _ _ _ s L u h (by rw [hu]; decide) .asleep (by decide)
    exact ⟨L', h'⟩
  | expire u hu => exact ⟨L, h.setStatus (by rcases hu with hu | hu <;> rw [hu] <;> decide) (by decide)⟩
  | lastCheck u hu =>
    obtain ⟨L', h', -⟩ := @Counted.check _ _ _ s L u h (by rw [hu]; decide) .failed (by decide)
    exact ⟨L', h'⟩
  | releaseColumns u notified hu hremove hnotified => exact ⟨L.erase u, h.release hu hremove hnotified⟩

theorem Run.counted {trace : List (PlainLightweightUpdatesSync U × Event U)} (h : Run affectedColumns trace s) :
    ∃ L, Counted affectedColumns s L := by
  induction h with
  | nil => exact ⟨∅, counted_initial affectedColumns⟩
  | snoc _ hstep ih =>
    obtain ⟨L, hL⟩ := ih
    exact hL.step hstep

/-! ## Wake-ups -/

/-- **No wake-up is lost**: an update that sleeps conflicts with the updates in progress. -/
def NoLostWakeUp (affectedColumns : U → UpdateAffectedColumns) (s : PlainLightweightUpdatesSync U) : Prop :=
  ∀ v, s.status v = .asleep → s.inProgressColumns.hasConflict (affectedColumns v) = true

/-- Before a release every sleeper, but the one that will be notified, conflicts with an update in progress other than
the one that ends. -/
def WakesAll (affectedColumns : U → UpdateAffectedColumns) (s : PlainLightweightUpdatesSync U) : Event U → Prop
  | .releaseColumns u notified => ∀ v, s.status v = .asleep → notified ≠ some v →
      ∃ w, w ≠ u ∧ s.status w = .inProgress ∧ (affectedColumns w).hasConflict (affectedColumns v) = true
  | _ => True

theorem NoLostWakeUp.setStatus (h : NoLostWakeUp affectedColumns s) {status : UpdateStatus} (hstatus : status ≠ .asleep) :
    NoLostWakeUp affectedColumns (s.setStatus u status) := by
  intro v hv
  by_cases hvu : v = u
  · subst hvu
    rw [setStatus_self] at hv
    exact absurd hv hstatus
  · rw [setStatus_of_ne _ hvu] at hv
    exact h v hv

theorem NoLostWakeUp.check (h : NoLostWakeUp affectedColumns s) (hL : Counted affectedColumns s L)
    (hu : s.status u ≠ .inProgress) {otherwise : UpdateStatus} (hother : otherwise ≠ .inProgress) :
    NoLostWakeUp affectedColumns (s.check affectedColumns u otherwise) := by
  obtain ⟨L', hL', hsub⟩ := hL.check hu hother
  have hmono : ∀ other, s.inProgressColumns.hasConflict other = true →
      (s.check affectedColumns u otherwise).inProgressColumns.hasConflict other = true := by
    intro other hconflict
    obtain ⟨v, hv, hconflict⟩ := (hL.hasConflict_iff other).1 hconflict
    exact (hL'.hasConflict_iff other).2 ⟨v, hsub hv, hconflict⟩
  intro v hv
  by_cases hvu : v = u
  · subst hvu
    refine hmono _ ?_
    by_contra hfree
    unfold PlainLightweightUpdatesSync.check at hv
    rw [if_neg hfree, setStatus_self] at hv
    cases hv
  · refine hmono _ (h v ?_)
    unfold PlainLightweightUpdatesSync.check at hv
    split at hv <;> rwa [setStatus_of_ne _ hvu] at hv

/-- **A release** loses no wake-up exactly when the other sleepers have conflicts with the updates that go on. -/
theorem Counted.noLostWakeUp_release (hL : Counted affectedColumns s L) (hu : s.status u = .inProgress)
    {columns : UpdateAffectedColumnsWithCounters} (hremove : s.inProgressColumns.remove (affectedColumns u) = .ok columns)
    {notified : Option U} (hnotified : s.Notifies notified) :
    NoLostWakeUp affectedColumns (({ s with inProgressColumns := columns }.setStatus u .released).notifyOne notified) ↔
      WakesAll affectedColumns s (.releaseColumns u notified) := by
  have hasleep : ∀ v, (({ s with inProgressColumns := columns }.setStatus u .released).notifyOne notified).status v = .asleep ↔
      s.status v = .asleep ∧ notified ≠ some v := by
    intro v
    have hreleased : ({ s with inProgressColumns := columns }.setStatus u .released).status v = .asleep ↔ s.status v = .asleep := by
      by_cases hvu : v = u
      · subst hvu
        simp [hu]
      · rw [setStatus_of_ne _ hvu]
    cases notified with
    | none => simpa [notifyOne] using hreleased
    | some w =>
      by_cases hvw : v = w
      · subst hvw
        simp [notifyOne]
      · rw [notifyOne, setStatus_of_ne _ hvw, hreleased]
        simp [Ne.symm hvw]
  -- the counters that are left are those of the other updates in progress
  have hconflict := (hL.release hu hremove hnotified).hasConflict_iff
  have hleft : ∀ w, w ∈ L.erase u ↔ w ≠ u ∧ s.status w = .inProgress := fun w => by
    rw [Finset.mem_erase, hL.mem]
  simp only [NoLostWakeUp, WakesAll, hasleep, hconflict, hleft, and_imp, and_assoc]

/-- **One step** from a state without a lost wake-up. -/
theorem NoLostWakeUp.step_iff (h : NoLostWakeUp affectedColumns s) (hL : Counted affectedColumns s L)
    (hstep : s.Step affectedColumns e s') : NoLostWakeUp affectedColumns s' ↔ WakesAll affectedColumns s e := by
  cases hstep with
  | lockColumns u hu => exact iff_of_true (h.check hL (by rw [hu]; decide) (by decide)) trivial
  | wakeUp u hu => exact iff_of_true (h.setStatus (by decide)) trivial
  | recheck u hu => exact iff_of_true (h.check hL (by rw [hu]; decide) (by decide)) trivial
  | expire u hu => exact iff_of_true (h.setStatus (by decide)) trivial
  | lastCheck u hu => exact iff_of_true (h.check hL (by rw [hu]; decide) (by decide)) trivial
  | releaseColumns u notified hu hremove hnotified => exact hL.noLostWakeUp_release hu hremove hnotified

/-- No wake-up is lost in a run exactly when every release wakes all that could go on. -/
theorem Run.noLostWakeUp_iff {trace : List (PlainLightweightUpdatesSync U × Event U)} (h : Run affectedColumns trace s) :
    ((∀ p ∈ trace, NoLostWakeUp affectedColumns p.1) ∧ NoLostWakeUp affectedColumns s) ↔
      ∀ p ∈ trace, WakesAll affectedColumns p.1 p.2 := by
  induction h with
  | nil =>
    refine iff_of_true ⟨fun p hp => absurd hp List.not_mem_nil, fun v hv => ?_⟩ fun p hp => absurd hp List.not_mem_nil
    cases hv
  | @snoc trace s s' e hrun hstep ih =>
    obtain ⟨L, hL⟩ := hrun.counted
    constructor
    · rintro ⟨hall, hlast⟩
      have hs : NoLostWakeUp affectedColumns s := hall (s, e) (by simp)
      have hbefore := ih.1 ⟨fun p hp => hall p (List.mem_append_left _ hp), hs⟩
      intro p hp
      rcases List.mem_append.1 hp with hp | hp
      · exact hbefore p hp
      · rw [List.mem_singleton.1 hp]
        exact (hs.step_iff hL hstep).1 hlast
    · intro hall
      obtain ⟨hbefore, hs⟩ := ih.2 fun p hp => hall p (List.mem_append_left _ hp)
      refine ⟨fun p hp => ?_, (hs.step_iff hL hstep).2 (hall (s, e) (by simp))⟩
      rcases List.mem_append.1 hp with hp | hp
      · exact hbefore p hp
      · rw [List.mem_singleton.1 hp]
        exact hs

/-! ## The lock -/

/-- **What the lock promises in a state**: updates in progress do not conflict, a column has a counter if and
only if some of them have it, and then it is their number; and every one of them can be released. -/
structure Locks (affectedColumns : U → UpdateAffectedColumns) (s : PlainLightweightUpdatesSync U) : Prop where
  noConflict : ∀ u v, u ≠ v → s.status u = .inProgress → s.status v = .inProgress →
    (affectedColumns u).hasConflict (affectedColumns v) = false
  counters : ∃ L : Finset U, (∀ u, u ∈ L ↔ s.status u = .inProgress) ∧
    ∀ column, (∀ n, s.inProgressColumns.used.lookup column = some n →
        0 < n ∧ n = (L.filter fun u => column ∈ (affectedColumns u).used.names).card) ∧
      (s.inProgressColumns.used.lookup column = none → ∀ u ∈ L, column ∉ (affectedColumns u).used.names) ∧
      (∀ n, s.inProgressColumns.updated.lookup column = some n →
        0 < n ∧ n = (L.filter fun u => column ∈ (affectedColumns u).updated.names).card) ∧
      (s.inProgressColumns.updated.lookup column = none → ∀ u ∈ L, column ∉ (affectedColumns u).updated.names)
  remove : ∀ u, s.status u = .inProgress → ∃ columns, s.inProgressColumns.remove (affectedColumns u) = .ok columns

omit [DecidableEq U] in
/-- A counter of names that are listed once each is the number of the lists with the name. -/
theorem lookup_counter {m : Counters String} {names : U → NameSet}
    (h : Represents m fun column => ∑ u ∈ L, (names u).names.count column) (column : String) :
    (∀ n, m.lookup column = some n → 0 < n ∧ n = (L.filter fun u => column ∈ (names u).names).card) ∧
      (m.lookup column = none → ∀ u ∈ L, column ∉ (names u).names) := by
  have hsum : ∑ u ∈ L, (names u).names.count column = (L.filter fun u => column ∈ (names u).names).card := by
    rw [Finset.card_filter]
    exact Finset.sum_congr rfl fun u _ => (names u).nodup.count
  have hlookup := h column
  simp only [hsum] at hlookup
  constructor
  · intro n hn
    rw [hn] at hlookup
    split at hlookup
    · cases hlookup
    · rename_i hpos
      obtain rfl := Option.some.inj hlookup
      exact ⟨Nat.pos_of_ne_zero hpos, rfl⟩
  · intro hnone u hu hmem
    rw [hnone] at hlookup
    split at hlookup
    · rename_i hzero
      exact absurd (Finset.mem_filter.2 ⟨hu, hmem⟩) (by rw [Finset.card_eq_zero.1 hzero]; exact Finset.notMem_empty u)
    · cases hlookup

theorem Counted.locks (h : Counted affectedColumns s L) : Locks affectedColumns s where
  noConflict u v hne hu hv := h.apart u ((h.mem u).2 hu) v ((h.mem v).2 hv) hne
  counters := ⟨L, h.mem, fun column =>
    ⟨(lookup_counter h.used column).1, (lookup_counter h.used column).2, (lookup_counter h.updated column).1,
      (lookup_counter h.updated column).2⟩⟩
  remove _ hu := (h.exists_remove hu).imp fun _ hcolumns => hcolumns.1

/-- **The lock of lightweight updates in a plain table.** In every run the lock keeps its promises in every
state and a lock that times out leaves the counters alone; and no wake-up is lost in any state of the run
exactly when at every release all sleepers but the notified one have a conflict with an update that goes on. -/
theorem locks_run {trace : List (PlainLightweightUpdatesSync U × Event U)} (h : Run affectedColumns trace s) :
    Locks affectedColumns s ∧
      (∀ u s', s.Step affectedColumns (.lastCheck u) s' → s'.status u = .failed → s'.inProgressColumns = s.inProgressColumns) ∧
      (((∀ p ∈ trace, NoLostWakeUp affectedColumns p.1) ∧ NoLostWakeUp affectedColumns s) ↔
        ∀ p ∈ trace, WakesAll affectedColumns p.1 p.2) := by
  obtain ⟨L, hL⟩ := h.counted
  refine ⟨hL.locks, fun _ s' hstep hfailed => ?_, h.noLostWakeUp_iff⟩
  cases hstep with
  | lastCheck u hu =>
    unfold PlainLightweightUpdatesSync.check at hfailed ⊢
    split at hfailed
    · rename_i hconflict
      rw [if_pos hconflict]
      rfl
    · rw [setStatus_self] at hfailed
      cases hfailed

/-- Update 0 updates the column `a`, all others use it; update 2 updates the column `b`, which update 3 uses. -/
def fourUpdates : ℕ → UpdateAffectedColumns
  | 0 => { used := ⟨[], List.nodup_nil⟩, updated := ⟨["a"], List.nodup_singleton _⟩ }
  | 2 => { used := ⟨["a"], List.nodup_singleton _⟩, updated := ⟨["b"], List.nodup_singleton _⟩ }
  | 3 => { used := ⟨["b"], List.nodup_singleton _⟩, updated := ⟨[], List.nodup_nil⟩ }
  | _ => { used := ⟨["a"], List.nodup_singleton _⟩, updated := ⟨[], List.nodup_nil⟩ }

/-- These calls of `lockColumns`, one after another. -/
def lockAll (s : PlainLightweightUpdatesSync ℕ) : List ℕ → PlainLightweightUpdatesSync ℕ
  | [] => s
  | u :: updates => lockAll (s.check fourUpdates u .asleep) updates

/-- The updates 0 and 3 are in progress, and 1 and 2 sleep. -/
def twoSleepers : PlainLightweightUpdatesSync ℕ := lockAll initial [0, 3, 1, 2]

theorem status_twoSleepers : twoSleepers.status = Function.update (Function.update (Function.update (Function.update
    (fun _ => .idle) 0 .inProgress) 3 .inProgress) 1 .asleep) 2 .asleep := by
  rfl

theorem exists_run_twoSleepers : ∃ trace, Run fourUpdates trace twoSleepers ∧ ∀ p ∈ trace, ∃ u, p.2 = .lockColumns u := by
  refine ⟨_, (((Run.nil.snoc (.lockColumns 0 rfl)).snoc (.lockColumns 3 (by decide +kernel))).snoc
    (.lockColumns 1 (by decide +kernel))).snoc (.lockColumns 2 (by decide +kernel)), ?_⟩
  simp

/-- Update 0 ends and notifies update 1, which goes on; update 2 still has a conflict with update 3. -/
theorem locks_run_release : ∃ trace s, Run fourUpdates trace s ∧ Locks fourUpdates s ∧ NoLostWakeUp fourUpdates s ∧
    s.status 1 = .inProgress ∧ s.status 2 = .asleep := by
  obtain ⟨trace, hrun, hlocks⟩ := exists_run_twoSleepers
  have hremove : twoSleepers.inProgressColumns.remove (fourUpdates 0) = .ok (({} : UpdateAffectedColumnsWithCounters).add (fourUpdates 3)) :=
    rfl
  have hrun' := (hrun.snoc (.releaseColumns 0 (some 1) (by decide +kernel) hremove
    (show twoSleepers.status 1 = .asleep by decide +kernel))).snoc (.recheck 1 (by decide +kernel))
  obtain ⟨hlocked, -, hwake⟩ := locks_run hrun'
  refine ⟨_, _, hrun', hlocked, (hwake.2 fun p hp => ?_).2, by decide +kernel, by decide +kernel⟩
  rcases List.mem_append.1 hp with hp | hp
  · rcases List.mem_append.1 hp with hp | hp
    · obtain ⟨u, hu⟩ := hlocks p hp
      rw [hu]
      trivial
    · rw [List.mem_singleton.1 hp]
      intro v hv hne
      refine ⟨3, by decide, by decide +kernel, ?_⟩
      obtain rfl : v = 2 := by
        have hstatus : twoSleepers.status v = .asleep := hv
        rw [status_twoSleepers] at hstatus
        simp only [Function.update_apply] at hstatus
        by_contra hne'
        have hne1 : v ≠ 1 := fun h => hne (by rw [h])
        rw [if_neg hne', if_neg hne1] at hstatus
        split at hstatus
        · cases hstatus
        · split at hstatus <;> cases hstatus
      decide +kernel
  · rw [List.mem_singleton.1 hp]
    trivial

/-- **A lost wake-up**: without update 3, update 2 could go on as well when update 0 ends, but sleeps. -/
theorem release_loses_wakeUp : ∃ trace s, Run fourUpdates trace s ∧ ¬NoLostWakeUp fourUpdates s := by
  have hrun : Run fourUpdates _ (lockAll initial [0, 1, 2]) :=
    ((Run.nil.snoc (.lockColumns 0 rfl)).snoc (.lockColumns 1 (by decide +kernel))).snoc (.lockColumns 2 (by decide +kernel))
  have hremove : (lockAll initial [0, 1, 2]).inProgressColumns.remove (fourUpdates 0) = .ok {} := rfl
  refine ⟨_, _, hrun.snoc (.releaseColumns 0 (some 1) (by decide +kernel) hremove
    (show (lockAll initial [0, 1, 2]).status 1 = .asleep by decide +kernel)), fun h => ?_⟩
  have hconflict := h 2 (by decide +kernel)
  exact absurd hconflict (by decide +kernel)

end PlainLightweightUpdatesSync

end MergeTree
