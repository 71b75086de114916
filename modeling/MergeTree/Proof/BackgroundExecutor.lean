import MergeTree.Spec.BackgroundExecutor

/-!
# Tasks of the background executor

Each task has a life of its own: it waits in `pending`, goes through the stages of `routine` with one
thread, goes back to `pending`, is taken out by a removal, and is destroyed. `Inv` says that the
queues, the threads and the removals agree on a life for every task.

* `Inv.step`: every step keeps such lives.
* `Retired`: a task that has stopped or has been taken out runs no further step.
* `Covered`: from the critical section of a removal on, every task of the storage is destroyed, or
  waited for, or about to be cancelled by this or another removal.
* `safe_of_reachable`: what these give for every reachable state and every call of
  `removeTasksCorrespondingToStorage`.
-/

namespace MergeTree

theorem pushBack_of_lt {T : Type} {capacity : ℕ} {buffer : List T} (h : buffer.length < capacity) (item : T) :
    pushBack capacity buffer item = buffer ++ [item] := by
  unfold pushBack
  rw [if_pos h]

namespace QueuePolicy

variable {T : Type} {priority : T → ℤ} {policy : QueuePolicy} {queue : List T}

theorem push_of_lt {capacity : ℕ} (h : queue.length < capacity) (item : T) (policy : QueuePolicy) :
    policy.push capacity queue item = queue ++ [item] := by
  cases policy with
  | roundRobin => exact pushBack_of_lt h item
  | shortestTaskFirst => rfl

theorem Pops.perm {item : T} {rest : List T} (h : Pops priority policy queue item rest) : queue.Perm (item :: rest) := by
  cases h with
  | front => exact List.Perm.refl _
  | least hperm => exact hperm

theorem Drains.perm {popped : List T} (h : Drains priority policy queue popped) : queue.Perm popped := by
  induction h with
  | empty => exact List.Perm.refl _
  | pop hpop _ ih => exact hpop.perm.trans (ih.cons _)

theorem foldl_push {capacity : ℕ} (policy : QueuePolicy) (items queue : List T) (h : queue.length + items.length ≤ capacity) :
    items.foldl (fun queue item => policy.push capacity queue item) queue = queue ++ items := by
  induction items generalizing queue with
  | nil => simp
  | cons item items ih =>
    rw [List.length_cons] at h
    rw [List.foldl_cons, push_of_lt (by omega), ih _ (by rw [List.length_append, List.length_singleton]; omega)]
    simp

end QueuePolicy

/-! ## The life of a task -/

namespace TaskRuntimeData

/-- The task may run another step. -/
structure Running (d : TaskRuntimeData) : Prop where
  accepted : d.accepted = true
  task : d.task = true
  isDone : d.isDone = false
  cancelled : d.cancelled = false
  again : ∀ outcome ∈ d.outcomes, outcome = .again

/-- `executeStep` has returned false or thrown, or the task has been cancelled. -/
def Stopped (d : TaskRuntimeData) : Prop := d.cancelled = true ∨ ∃ outcome ∈ d.outcomes, outcome ≠ .again

theorem Running.not_stopped {d : TaskRuntimeData} (h : d.Running) : ¬ d.Stopped := by
  rintro (hcancelled | ⟨outcome, hmem, hne⟩)
  · rw [h.cancelled] at hcancelled
    cases hcancelled
  · exact hne (h.again outcome hmem)

end TaskRuntimeData

/-- Where a task is. -/
inductive Life (W R : Type)
  | new
  | pending
  | active (w : W) (stage : Stage)
  /-- In the list of a removal. -/
  | removed (r : R)
  /-- Cancelled by a removal. -/
  | resetting (r : R)
  | destroyed

/-- What the data of a task say about its life. -/
def Life.Fits {W R : Type} (d : TaskRuntimeData) : Life W R → Prop
  | new => d = {}
  | pending => d.Running ∧ d.isCurrentlyDeleting = false
  | active _ .executing => d.Running
  | active _ .restarting => d.Running
  | active _ .cancelling => d.Running
  | active _ .completing => d.accepted = true ∧ d.task = true ∧ d.isDone = false ∧ d.Stopped
  | active _ .failing => d.accepted = true ∧ d.task = true ∧ d.isDone = false ∧ d.Stopped
  | active _ .releasing => d.accepted = true ∧ d.task = true ∧ d.isDone = false ∧ d.Stopped
  | active _ .erasing => d.accepted = true ∧ d.task = false ∧ d.isDone = false ∧ d.Stopped
  | removed _ => d.Running
  | resetting _ => d.accepted = true ∧ d.task = true ∧ d.isDone = false ∧ d.Stopped
  | destroyed => d.accepted = true ∧ d.task = false ∧ d.Stopped

/-- A task that a removal waits for. -/
def Life.Awaited {W R : Type} (l : Life W R) : Prop := (∃ w stage, l = .active w stage) ∨ l = .destroyed

/-- A task that a removal has taken out. -/
def Life.Removed {W R : Type} (l : Life W R) : Prop := ∃ r, l = .removed r ∨ l = .resetting r

namespace Remover

variable {T S : Type}

/-- The tasks that are still to be cancelled. -/
def tasksToCancel : Remover T S → List T
  | removing _ tasksToCancel _ => tasksToCancel
  | resetting _ _ tasksToCancel _ => tasksToCancel
  | _ => []

/-- The tasks that are still to be waited for. -/
def tasksToWait : Remover T S → List T
  | removing _ _ tasksToWait => tasksToWait
  | resetting _ _ _ tasksToWait => tasksToWait
  | _ => []

/-- The task that has been cancelled and not reset. -/
def current : Remover T S → Option T
  | resetting _ item _ _ => some item
  | _ => none

/-- The storage of the call, while it goes on. -/
def storageId : Remover T S → Option S
  | removing id _ _ => some id
  | resetting id _ _ _ => some id
  | _ => none

/-- The task is in the local list of the call. -/
def Holds (call : Remover T S) (item : T) : Prop := item ∈ call.tasksToCancel ∨ call.current = some item

end Remover

namespace Executor

variable {T S W R : Type} {storage : T → S} {priority : T → ℤ} {s s' : Executor T S W R} {life : T → Life W R}
variable {item : T} {d : TaskRuntimeData} {r : R} {l : Life W R}

/-- The queues and the threads agree on the lives. -/
structure Queues (s : Executor T S W R) (life : T → Life W R) : Prop where
  pending_nodup : s.pending.Nodup
  mem_pending : ∀ item, item ∈ s.pending ↔ life item = .pending
  active_nodup : s.active.Nodup
  mem_active : ∀ item, item ∈ s.active ↔ ∃ w stage, life item = .active w stage
  worker : ∀ w stage item, s.worker w = .busy stage item ↔ life item = .active w stage

/-- The removals agree on the lives. What they wait for is marked. -/
structure Removals (storage : T → S) (s : Executor T S W R) (life : T → Life W R) : Prop where
  toCancel_nodup : ∀ r, (s.remover r).tasksToCancel.Nodup
  mem_toCancel : ∀ r item, item ∈ (s.remover r).tasksToCancel ↔ life item = .removed r
  current : ∀ r item, (s.remover r).current = some item ↔ life item = .resetting r
  storageId : ∀ r item, (s.remover r).Holds item → (s.remover r).storageId = some (storage item)
  toWait : ∀ r, ∀ item ∈ (s.remover r).tasksToWait, (s.data item).isCurrentlyDeleting = true ∧ (life item).Awaited

/-- The items that exist. -/
structure Objects (s : Executor T S W R) (life : T → Life W R) : Prop where
  objects_nodup : s.objects.Nodup
  mem_objects : ∀ item, life item ≠ .new → life item ≠ .destroyed → item ∈ s.objects
  new_objects : ∀ item, life item = .new → item ∉ s.objects
  length_objects : s.objects.length ≤ s.maxTasksCount
  capacity : s.maxTasksCount ≤ s.capacity

/-- **All agree** on the life of every task. -/
structure Inv (storage : T → S) (s : Executor T S W R) (life : T → Life W R) : Prop extends
    Queues s life, Removals storage s life, Objects s life where
  fits : ∀ item, (life item).Fits (s.data item)

theorem inv_initial (storage : T → S) (policy : QueuePolicy) (maxTasksCount : ℕ) :
    Inv storage (initial policy maxTasksCount : Executor T S W R) fun _ => .new where
  pending_nodup := List.nodup_nil
  mem_pending _ := ⟨nofun, nofun⟩
  active_nodup := List.nodup_nil
  mem_active _ := ⟨nofun, nofun⟩
  worker _ _ _ := ⟨nofun, nofun⟩
  toCancel_nodup _ := List.nodup_nil
  mem_toCancel _ _ := ⟨nofun, nofun⟩
  current _ _ := ⟨nofun, nofun⟩
  storageId _ _ h := h.elim nofun nofun
  toWait _ := nofun
  objects_nodup := List.nodup_nil
  mem_objects _ h := absurd rfl h
  new_objects _ _ := List.not_mem_nil
  length_objects := Nat.zero_le _
  capacity := le_refl _
  fits _ := rfl

theorem Queues.nodup (h : Queues s life) : (s.pending ++ s.active).Nodup := by
  refine List.nodup_append'.2 ⟨h.pending_nodup, h.active_nodup, ?_⟩
  intro item hpending hactive
  obtain ⟨w, stage, heq⟩ := (h.mem_active item).1 hactive
  rw [(h.mem_pending item).1 hpending] at heq
  cases heq

/-- **There is room**: both queues together are not longer than the number of items. -/
theorem Inv.length_le (h : Inv storage s life) : s.pending.length + s.active.length ≤ s.objects.length := by
  have hsub : s.pending ++ s.active ⊆ s.objects := by
    intro item hitem
    rcases List.mem_append.1 hitem with hitem | hitem
    · have hlife := (h.mem_pending item).1 hitem
      exact h.mem_objects item (by rw [hlife]; nofun) (by rw [hlife]; nofun)
    · obtain ⟨w, stage, hlife⟩ := (h.mem_active item).1 hitem
      exact h.mem_objects item (by rw [hlife]; nofun) (by rw [hlife]; nofun)
  have hle := (List.subperm_of_subset h.toQueues.nodup hsub).length_le
  rwa [List.length_append] at hle

variable [DecidableEq T]

theorem update_iff {l l' : Life W R} (P : Life W R → Prop) (hlife : life item = l) (hP : P l' ↔ P l) (x : T) :
    P (Function.update life item l' x) ↔ P (life x) := by
  by_cases h : x = item
  · subst h
    rw [Function.update_self, hlife]
    exact hP
  · rw [Function.update_of_ne h]

theorem update_eq_iff {l l' m : Life W R} (hlife : life item = l) (hne : l ≠ m) (hne' : l' ≠ m) (x : T) :
    Function.update life item l' x = m ↔ life x = m :=
  update_iff (fun k => k = m) hlife ⟨fun h => absurd h hne', fun h => absurd h hne⟩ x

theorem fits_update (h : ∀ other, (life other).Fits (s.data other)) (hl : l.Fits d) (other : T) :
    (Function.update life item l other).Fits (Function.update s.data item d other) := by
  by_cases hother : other = item
  · subst hother
    rw [Function.update_self, Function.update_self]
    exact hl
  · rw [Function.update_of_ne hother, Function.update_of_ne hother]
    exact h other

omit [DecidableEq T] in
theorem Removals.congr (h : Removals storage s life) (hremover : s'.remover = s.remover)
    (hflag : ∀ x, (s'.data x).isCurrentlyDeleting = (s.data x).isCurrentlyDeleting) : Removals storage s' life :=
  ⟨hremover ▸ h.toCancel_nodup, hremover ▸ h.mem_toCancel, hremover ▸ h.current, hremover ▸ h.storageId,
    fun r x hx => ⟨(hflag x).trans (h.toWait r x (hremover ▸ hx)).1, (h.toWait r x (hremover ▸ hx)).2⟩⟩

omit [DecidableEq T] in
theorem Objects.congr (h : Objects s life) (hobjects : s'.objects = s.objects)
    (hmax : s'.maxTasksCount = s.maxTasksCount) (hcap : s'.capacity = s.capacity) : Objects s' life :=
  ⟨hobjects ▸ h.objects_nodup, hobjects ▸ h.mem_objects, hobjects ▸ h.new_objects,
    hobjects ▸ hmax ▸ h.length_objects, hmax ▸ hcap ▸ h.capacity⟩

theorem Removals.update (h : Removals storage s life) (hremover : s'.remover = s.remover)
    (hlife : ¬ (life item).Removed) (hl : ¬ l.Removed) (hplace : ∀ r, item ∈ (s.remover r).tasksToWait → l.Awaited)
    (hflag : ∀ x, (life x).Awaited → (s.data x).isCurrentlyDeleting = true → (s'.data x).isCurrentlyDeleting = true) :
    Removals storage s' (Function.update life item l) := by
  refine ⟨?_, ?_, ?_, ?_, ?_⟩
  · exact hremover ▸ h.toCancel_nodup
  · intro r x
    rw [hremover]
    exact (h.mem_toCancel r x).trans (update_iff (fun k => k = .removed r) rfl
      ⟨fun he => absurd ⟨r, Or.inl he⟩ hl, fun he => absurd ⟨r, Or.inl he⟩ hlife⟩ x).symm
  · intro r x
    rw [hremover]
    exact (h.current r x).trans (update_iff (fun k => k = .resetting r) rfl
      ⟨fun he => absurd ⟨r, Or.inr he⟩ hl, fun he => absurd ⟨r, Or.inr he⟩ hlife⟩ x).symm
  · exact hremover ▸ h.storageId
  · intro r x hx
    rw [hremover] at hx
    obtain ⟨hdeleting, hawaited⟩ := h.toWait r x hx
    refine ⟨hflag x hawaited hdeleting, ?_⟩
    by_cases hxi : x = item
    · subst hxi
      rw [Function.update_self]
      exact hplace r hx
    · rw [Function.update_of_ne hxi]
      exact hawaited

theorem Objects.update (h : Objects s life) (hobjects : s'.objects = s.objects)
    (hmax : s'.maxTasksCount = s.maxTasksCount) (hcap : s'.capacity = s.capacity) (hlife : life item ≠ .new)
    (hl : l ≠ .new) (hplace : l ≠ .destroyed → life item ≠ .destroyed) : Objects s' (Function.update life item l) := by
  refine ⟨hobjects ▸ h.objects_nodup, ?_, ?_, ?_, ?_⟩
  · intro x hnew hdestroyed
    rw [hobjects]
    by_cases hx : x = item
    · subst hx
      rw [Function.update_self] at hdestroyed
      exact h.mem_objects x hlife (hplace hdestroyed)
    · rw [Function.update_of_ne hx] at hnew hdestroyed
      exact h.mem_objects x hnew hdestroyed
  · intro x hx
    rw [hobjects]
    exact h.new_objects x ((update_eq_iff rfl hlife hl x).1 hx)
  · rw [hobjects, hmax]
    exact h.length_objects
  · rw [hmax, hcap]
    exact h.capacity

omit [DecidableEq T] in
theorem Inv.life_eq_new (h : Inv storage s life) (hnew : (s.data item).accepted = false) :
    life item = .new := by
  have hfits := h.fits item
  cases hlife : life item with
  | new => rfl
  | pending =>
    rw [hlife] at hfits
    rw [hfits.1.accepted] at hnew
    cases hnew
  | active w stage =>
    rw [hlife] at hfits
    have hacc : (s.data item).accepted = true := by
      cases stage with
      | executing | restarting | cancelling => exact hfits.accepted
      | completing | failing | releasing | erasing => exact hfits.1
    rw [hacc] at hnew
    cases hnew
  | removed r =>
    rw [hlife] at hfits
    rw [hfits.accepted] at hnew
    cases hnew
  | resetting r =>
    rw [hlife] at hfits
    rw [hfits.1] at hnew
    cases hnew
  | destroyed =>
    rw [hlife] at hfits
    rw [hfits.1] at hnew
    cases hnew

theorem Queues.push_pending (h : Queues s life) (hlt : s.pending.length < s.capacity) (hlife : life item ≠ .pending) :
    (s.policy.push s.capacity s.pending item).Nodup ∧
      ∀ x, x ∈ s.policy.push s.capacity s.pending item ↔ Function.update life item .pending x = .pending := by
  rw [QueuePolicy.push_of_lt hlt item s.policy]
  refine ⟨List.nodup_append'.2 ⟨h.pending_nodup, List.nodup_singleton item,
    List.disjoint_singleton.2 (mt (h.mem_pending item).1 hlife)⟩, fun x => ?_⟩
  rw [List.mem_append, List.mem_singleton, h.mem_pending]
  by_cases hx : x = item
  · subst hx
    rw [Function.update_self]
    exact ⟨fun _ => rfl, fun _ => Or.inr rfl⟩
  · rw [Function.update_of_ne hx]
    exact ⟨fun h => h.resolve_right hx, Or.inl⟩

/-- **A task is accepted.** -/
theorem Inv.schedule (h : Inv storage s life) (hnew : (s.data item).accepted = false)
    (hroom : s.objects.length < s.maxTasksCount) :
    Inv storage (s.schedule item) (Function.update life item .pending) := by
  have hlife := h.life_eq_new hnew
  have hlt : s.pending.length < s.capacity := by
    have hle := h.length_le
    have hcap := h.capacity
    omega
  obtain ⟨hpending, hmemPending⟩ := h.toQueues.push_pending hlt (by rw [hlife]; nofun)
  refine ⟨⟨hpending, hmemPending, h.active_nodup, ?_, ?_⟩, h.toRemovals.update rfl ?_ ?_ ?_ ?_,
    ⟨?_, ?_, ?_, ?_, h.capacity⟩, fits_update h.fits ⟨⟨rfl, rfl, rfl, rfl, nofun⟩, rfl⟩⟩
  -- the queues
  · refine fun x => (h.mem_active x).trans (update_iff (fun l => ∃ w stage, l = .active w stage) hlife ?_ x).symm
    exact ⟨fun ⟨_, _, he⟩ => (nomatch he), fun ⟨_, _, he⟩ => (nomatch he)⟩
  · exact fun w stage x => (h.worker w stage x).trans (update_eq_iff hlife (by nofun) (by nofun) x).symm
  -- the removals
  · rw [hlife]
    rintro ⟨_, he | he⟩ <;> cases he
  · rintro ⟨_, he | he⟩ <;> cases he
  · intro r hmem
    have hawaited := (h.toWait r item hmem).2
    rw [hlife] at hawaited
    rcases hawaited with ⟨_, _, he⟩ | he <;> cases he
  · intro x hawaited hflag
    have hne : x ≠ item := by
      rintro rfl
      rw [hlife] at hawaited
      rcases hawaited with ⟨_, _, he⟩ | he <;> cases he
    change (Function.update s.data item _ x).isCurrentlyDeleting = true
    rw [Function.update_of_ne hne]
    exact hflag
  -- the items
  · exact List.nodup_append'.2 ⟨h.objects_nodup, List.nodup_singleton item,
      List.disjoint_singleton.2 (h.new_objects item hlife)⟩
  · intro x hx hx'
    by_cases hxi : x = item
    · exact List.mem_append_right _ (List.mem_singleton.2 hxi)
    · rw [Function.update_of_ne hxi] at hx hx'
      exact List.mem_append_left _ (h.mem_objects x hx hx')
  · intro x hx hmem
    have hne : x ≠ item := by
      rintro rfl
      rw [Function.update_self] at hx
      cases hx
    rw [Function.update_of_ne hne] at hx
    rcases List.mem_append.1 hmem with hmem | hmem
    · exact h.new_objects x hx hmem
    · exact hne (List.mem_singleton.1 hmem)
  · change (s.objects ++ [item]).length ≤ s.maxTasksCount
    rw [List.length_append, List.length_singleton]
    exact hroom

/-! ## Threads -/

section Worker

variable [DecidableEq W]

theorem worker_update (h : ∀ w stage item, s.worker w = .busy stage item ↔ life item = .active w stage) {w : W}
    {state : Worker T} (hold : ∀ stage x, s.worker w = .busy stage x → x = item)
    (hothers : ∀ v stage, life item = .active v stage → v = w)
    (hstate : ∀ stage x, state = .busy stage x ↔ x = item ∧ l = .active w stage)
    (hl : ∀ v stage, l = .active v stage → v = w) (v : W) (stage : Stage) (x : T) :
    Function.update s.worker w state v = .busy stage x ↔ Function.update life item l x = .active v stage := by
  by_cases hx : x = item
  · subst hx
    rw [Function.update_self]
    by_cases hv : v = w
    · subst hv
      rw [Function.update_self, hstate]
      exact ⟨And.right, fun he => ⟨rfl, he⟩⟩
    · rw [Function.update_of_ne hv, h]
      exact ⟨fun he => absurd (hothers v stage he) hv, fun he => absurd (hl v stage he) hv⟩
  · rw [Function.update_of_ne hx]
    by_cases hv : v = w
    · subst hv
      rw [Function.update_self, hstate, ← h]
      exact ⟨fun he => absurd he.1 hx, fun he => absurd (hold stage x he) hx⟩
    · rw [Function.update_of_ne hv]
      exact h v stage x

omit [DecidableEq T] [DecidableEq W] in
theorem eq_of_worker {w : W} {stage stage' : Stage} {item other : T}
    (hw : s.worker w = .busy stage item) (hw' : s.worker w = .busy stage' other) : other = item := by
  rw [hw, Worker.busy.injEq] at hw'
  exact hw'.2.symm

omit [DecidableEq T] [DecidableEq W] in
theorem Queues.eq_of_life (h : Queues s life) {w v : W} {stage stage' : Stage}
    (hw : s.worker w = .busy stage item) (hlife : life item = .active v stage') : v = w := by
  rw [(h.worker w stage item).1 hw, Life.active.injEq] at hlife
  exact hlife.1.symm

/-- **A thread goes on** with its task. -/
theorem Inv.move (h : Inv storage s life) {w : W} {stage : Stage} (stage' : Stage)
    (hw : s.worker w = .busy stage item)
    (hdeleting : d.isCurrentlyDeleting = (s.data item).isCurrentlyDeleting)
    (hfits : (Life.active w stage' : Life W R).Fits d) :
    Inv storage ((s.setData item d).setWorker w (.busy stage' item)) (Function.update life item (.active w stage')) := by
  have hlife := (h.worker w stage item).1 hw
  refine ⟨⟨h.pending_nodup, ?_, h.active_nodup, ?_, ?_⟩, h.toRemovals.update rfl ?_ ?_ ?_ ?_,
    h.toObjects.update rfl rfl rfl ?_ ?_ ?_, fits_update h.fits hfits⟩
  -- the queues
  · exact fun x => (h.mem_pending x).trans (update_eq_iff hlife (by nofun) (by nofun) x).symm
  · refine fun x => (h.mem_active x).trans (update_iff (fun l => ∃ w stage, l = .active w stage) hlife ?_ x).symm
    exact ⟨fun _ => ⟨w, stage, rfl⟩, fun _ => ⟨w, stage', rfl⟩⟩
  · refine worker_update h.worker (fun _ _ => eq_of_worker hw) (fun _ _ => h.eq_of_life hw) ?_ ?_
    · intro st x
      rw [Worker.busy.injEq, Life.active.injEq]
      tauto
    · intro v st he
      rw [Life.active.injEq] at he
      exact he.1.symm
  -- the removals
  · rw [hlife]
    rintro ⟨_, he | he⟩ <;> cases he
  · rintro ⟨_, he | he⟩ <;> cases he
  · exact fun _ _ => Or.inl ⟨w, stage', rfl⟩
  · intro x _ hflag
    change (Function.update s.data item d x).isCurrentlyDeleting = true
    by_cases hx : x = item
    · subst hx
      rw [Function.update_self, hdeleting]
      exact hflag
    · rw [Function.update_of_ne hx]
      exact hflag
  -- the items
  · rw [hlife]
    nofun
  · nofun
  · rw [hlife]
    nofun

/-- **A thread takes a task.** -/
theorem Inv.take (h : Inv storage s life) {w : W} {rest : List T} (hidle : s.worker w = .idle)
    (hpop : QueuePolicy.Pops priority s.policy s.pending item rest) :
    Inv storage (s.take w item rest) (Function.update life item (.active w .executing)) := by
  have hperm := hpop.perm
  have hlife : life item = .pending := (h.mem_pending item).1 (hperm.mem_iff.2 List.mem_cons_self)
  obtain ⟨hnotin, hrest⟩ := List.nodup_cons.1 (hperm.nodup_iff.1 h.pending_nodup)
  have hpush : pushBack s.capacity s.active item = s.active ++ [item] := by
    refine pushBack_of_lt ?_ item
    have hle := h.length_le
    have hcap := h.capacity
    have hlength := h.length_objects
    have hpos := hperm.length_eq
    rw [List.length_cons] at hpos
    omega
  have hactive : item ∉ s.active := fun hmem => by
    rw [h.mem_active, hlife] at hmem
    obtain ⟨_, _, hmem⟩ := hmem
    cases hmem
  have hfits := h.fits item
  rw [hlife] at hfits
  refine ⟨⟨hrest, ?_, ?_, ?_, ?_⟩, h.toRemovals.update rfl ?_ ?_ ?_ fun _ _ hflag => hflag,
    h.toObjects.update rfl rfl rfl ?_ ?_ ?_, ?_⟩
  -- the queues
  · intro x
    change x ∈ rest ↔ _
    by_cases hx : x = item
    · subst hx
      rw [Function.update_self]
      exact ⟨fun h => absurd h hnotin, nofun⟩
    · rw [Function.update_of_ne hx, ← h.mem_pending, hperm.mem_iff, List.mem_cons]
      exact ⟨Or.inr, fun h => h.resolve_left hx⟩
  · change (pushBack s.capacity s.active item).Nodup
    rw [hpush]
    exact List.nodup_append'.2 ⟨h.active_nodup, List.nodup_singleton item, List.disjoint_singleton.2 hactive⟩
  · intro x
    change x ∈ pushBack s.capacity s.active item ↔ _
    rw [hpush, List.mem_append, List.mem_singleton, h.mem_active]
    by_cases hx : x = item
    · subst hx
      rw [Function.update_self]
      exact ⟨fun _ => ⟨w, .executing, rfl⟩, fun _ => Or.inr rfl⟩
    · rw [Function.update_of_ne hx]
      exact ⟨fun h => h.resolve_right hx, Or.inl⟩
  · refine worker_update h.worker ?_ ?_ ?_ ?_
    · intro _ _ hw
      rw [hidle] at hw
      cases hw
    · intro _ _ he
      rw [hlife] at he
      cases he
    · intro stage x
      rw [Worker.busy.injEq, Life.active.injEq]
      tauto
    · intro v stage he
      rw [Life.active.injEq] at he
      exact he.1.symm
  -- the removals
  · rw [hlife]
    rintro ⟨_, he | he⟩ <;> cases he
  · rintro ⟨_, he | he⟩ <;> cases he
  · exact fun _ _ => Or.inl ⟨w, .executing, rfl⟩
  -- the items
  · rw [hlife]
    nofun
  · nofun
  · rw [hlife]
    nofun
  · rw [← Function.update_eq_self item (s.take w item rest).data]
    exact fits_update h.fits hfits.1

omit [DecidableEq W] in
theorem Queues.erase_active (h : Queues s life) (item : T) (l : Life W R) (hl : ∀ w stage, l ≠ .active w stage) :
    (s.active.erase item).Nodup ∧
      ∀ x, x ∈ s.active.erase item ↔ ∃ w stage, Function.update life item l x = .active w stage := by
  refine ⟨h.active_nodup.erase item, fun x => ?_⟩
  rw [h.active_nodup.mem_erase_iff]
  by_cases hx : x = item
  · subst hx
    rw [Function.update_self]
    exact ⟨fun he => absurd rfl he.1, fun ⟨w, stage, he⟩ => absurd he (hl w stage)⟩
  · rw [Function.update_of_ne hx, h.mem_active]
    exact ⟨And.right, fun he => ⟨hx, he⟩⟩

/-- **A thread puts its task back.** -/
theorem Inv.restart (h : Inv storage s life) {w : W} (hw : s.worker w = .busy .restarting item)
    (hdeleting : (s.data item).isCurrentlyDeleting = false) :
    Inv storage (s.restart w item) (Function.update life item .pending) := by
  have hlife := (h.worker w _ item).1 hw
  have hmem : item ∈ s.active := (h.mem_active item).2 ⟨w, _, hlife⟩
  have hlt : s.pending.length < s.capacity := by
    have hle := h.length_le
    have hcap := h.capacity
    have hlength := h.length_objects
    have hpos := List.length_pos_of_mem hmem
    omega
  obtain ⟨hpending, hmemPending⟩ := h.toQueues.push_pending hlt (by rw [hlife]; nofun)
  have hfits := h.fits item
  rw [hlife] at hfits
  obtain ⟨hactive, hmemActive⟩ := h.toQueues.erase_active item .pending nofun
  refine ⟨⟨hpending, hmemPending, hactive, hmemActive, ?_⟩, h.toRemovals.update rfl ?_ ?_ ?_ fun _ _ hflag => hflag,
    h.toObjects.update rfl rfl rfl ?_ ?_ ?_, ?_⟩
  -- the queues
  · exact worker_update h.worker (fun _ _ => eq_of_worker hw) (fun _ _ => h.eq_of_life hw)
      (fun _ _ => ⟨nofun, nofun⟩) nofun
  -- the removals
  · rw [hlife]
    rintro ⟨_, he | he⟩ <;> cases he
  · rintro ⟨_, he | he⟩ <;> cases he
  · intro r hmem
    rw [(h.toWait r item hmem).1] at hdeleting
    cases hdeleting
  -- the items
  · rw [hlife]
    nofun
  · nofun
  · rw [hlife]
    nofun
  · rw [← Function.update_eq_self item (s.restart w item).data]
    exact fits_update h.fits ⟨hfits, hdeleting⟩

/-- **A thread releases its task.** -/
theorem Inv.erase (h : Inv storage s life) {w : W} (hw : s.worker w = .busy .erasing item) :
    Inv storage (s.erase w item) (Function.update life item .destroyed) := by
  have hlife := (h.worker w _ item).1 hw
  have hfits := h.fits item
  rw [hlife] at hfits
  obtain ⟨hactive, hmemActive⟩ := h.toQueues.erase_active item .destroyed nofun
  refine ⟨⟨h.pending_nodup, ?_, hactive, hmemActive, ?_⟩, h.toRemovals.update rfl ?_ ?_ ?_ ?_,
    h.toObjects.update rfl rfl rfl ?_ ?_ ?_, fits_update h.fits ⟨hfits.1, hfits.2.1, hfits.2.2.2⟩⟩
  -- the queues
  · exact fun x => (h.mem_pending x).trans (update_eq_iff hlife (by nofun) (by nofun) x).symm
  · exact worker_update h.worker (fun _ _ => eq_of_worker hw) (fun _ _ => h.eq_of_life hw)
      (fun _ _ => ⟨nofun, nofun⟩) nofun
  -- the removals
  · rw [hlife]
    rintro ⟨_, he | he⟩ <;> cases he
  · rintro ⟨_, he | he⟩ <;> cases he
  · exact fun _ _ => Or.inr rfl
  · intro x _ hflag
    change (Function.update s.data item _ x).isCurrentlyDeleting = true
    by_cases hx : x = item
    · subst hx
      rw [Function.update_self]
      exact hflag
    · rw [Function.update_of_ne hx]
      exact hflag
  -- the items
  · rw [hlife]
    nofun
  · nofun
  · exact fun he => absurd rfl he

omit [DecidableEq T] in
theorem Inv.stop (h : Inv storage s life) {w : W} (hidle : s.worker w = .idle) :
    Inv storage (s.setWorker w .stopped) life := by
  refine ⟨⟨h.pending_nodup, h.mem_pending, h.active_nodup, h.mem_active, fun v stage x => ?_⟩,
    h.toRemovals.congr rfl fun _ => rfl, h.toObjects.congr rfl rfl rfl, h.fits⟩
  refine Iff.trans ?_ (h.worker v stage x)
  change Function.update s.worker w .stopped v = _ ↔ _
  by_cases hv : v = w
  · subst hv
    rw [Function.update_self, hidle]
    exact ⟨nofun, nofun⟩
  · rw [Function.update_of_ne hv]

end Worker

/-! ## Removals -/

section Remover

variable [DecidableEq S] [DecidableEq R]

omit [DecidableEq T] [DecidableEq S] [DecidableEq R] in
theorem fits_mark {w : W} {stage : Stage} (h : (Life.active w stage : Life W R).Fits d) :
    (Life.active w stage : Life W R).Fits { d with isCurrentlyDeleting := true } := by
  cases stage with
  | executing | restarting | cancelling => exact ⟨h.accepted, h.task, h.isDone, h.cancelled, h.again⟩
  | completing | failing | releasing | erasing => exact h

/-- The lives after the critical section of a removal. -/
def removeLife (storage : T → S) (s : Executor T S W R) (life : T → Life W R) (r : R) (id : S) (item : T) : Life W R :=
  if item ∈ s.pending ∧ storage item = id then .removed r else life item

omit [DecidableEq R] in
theorem Queues.removeLife_iff (h : Queues s life) {id : S} (P : Life W R → Prop) (hremoved : P (.removed r) ↔ P .pending)
    (item : T) : P (removeLife storage s life r id item) ↔ P (life item) := by
  unfold removeLife
  split
  · next hitem => rw [(h.mem_pending item).1 hitem.1, hremoved]
  · rfl

/-- **A removal takes the tasks** of its storage out of `pending` and marks those in `active`. -/
theorem Inv.remove (h : Inv storage s life) (id : S) (hr : s.remover r = .notStarted) :
    Inv storage (s.remove storage r id) (removeLife storage s life r id) := by
  have hremover : ∀ v, v ≠ r → (s.remove storage r id).remover v = s.remover v :=
    fun v hv => Function.update_of_ne hv _ _
  have hself : (s.remove storage r id).remover r = .removing id (s.pending.filter fun item => storage item = id)
      (s.active.filter fun item => storage item = id) := Function.update_self _ _ _
  have hflag : ∀ x, (s.data x).isCurrentlyDeleting = true → ((s.remove storage r id).data x).isCurrentlyDeleting = true := by
    intro x hx
    change (if x ∈ s.active ∧ storage x = id then { s.data x with isCurrentlyDeleting := true } else s.data x).isCurrentlyDeleting = true
    split
    · rfl
    · exact hx
  refine ⟨⟨h.pending_nodup.filter _, ?_, h.active_nodup, ?_, ?_⟩, ⟨?_, ?_, ?_, ?_, ?_⟩,
    ⟨h.objects_nodup, ?_, ?_, h.length_objects, h.capacity⟩, ?_⟩
  -- the queues
  · intro x
    change x ∈ s.pending.filter (fun item => storage item ≠ id) ↔ _
    rw [List.mem_filter, decide_eq_true_iff]
    unfold removeLife
    split
    · next hx => exact ⟨fun he => absurd hx.2 he.2, nofun⟩
    · next hx =>
      rw [← h.mem_pending]
      exact ⟨And.left, fun he => ⟨he, fun heq => hx ⟨he, heq⟩⟩⟩
  · intro x
    refine (h.mem_active x).trans (h.removeLife_iff (fun l => ∃ w stage, l = .active w stage) ?_ x).symm
    exact ⟨fun ⟨_, _, he⟩ => (nomatch he), fun ⟨_, _, he⟩ => (nomatch he)⟩
  · intro w stage x
    exact (h.worker w stage x).trans (h.removeLife_iff (fun l => l = .active w stage) ⟨nofun, nofun⟩ x).symm
  -- the removals
  · intro v
    by_cases hv : v = r
    · subst hv
      rw [hself]
      exact h.pending_nodup.filter _
    · rw [hremover v hv]
      exact h.toCancel_nodup v
  · intro v x
    by_cases hv : v = r
    · subst hv
      rw [hself]
      change x ∈ s.pending.filter (fun item => storage item = id) ↔ _
      rw [List.mem_filter, decide_eq_true_iff]
      unfold removeLife
      split
      · next hx => exact ⟨fun _ => rfl, fun _ => hx⟩
      · next hx =>
        rw [← h.mem_toCancel, hr]
        exact ⟨fun he => absurd he hx, nofun⟩
    · rw [hremover v hv, h.mem_toCancel]
      refine (h.removeLife_iff (fun l => l = .removed v) ⟨?_, nofun⟩ x).symm
      intro he
      rw [Life.removed.injEq] at he
      exact absurd he.symm hv
  · intro v x
    by_cases hv : v = r
    · subst hv
      rw [hself, h.removeLife_iff (fun l => l = .resetting v) ⟨nofun, nofun⟩ x, ← h.current, hr]
      exact ⟨nofun, nofun⟩
    · rw [hremover v hv, h.current]
      exact (h.removeLife_iff (fun l => l = .resetting v) ⟨nofun, nofun⟩ x).symm
  · intro v x hx
    by_cases hv : v = r
    · subst hv
      rw [hself] at hx ⊢
      rcases hx with hx | hx
      · have hid := (List.mem_filter.1 hx).2
        rw [decide_eq_true_iff] at hid
        rw [hid]
        rfl
      · cases hx
    · rw [hremover v hv] at hx ⊢
      exact h.storageId v x hx
  · intro v x hx
    by_cases hv : v = r
    · subst hv
      rw [hself] at hx
      obtain ⟨hmem, hid⟩ := List.mem_filter.1 hx
      rw [decide_eq_true_iff] at hid
      refine ⟨?_, ?_⟩
      · change (if x ∈ s.active ∧ storage x = id then { s.data x with isCurrentlyDeleting := true } else s.data x).isCurrentlyDeleting = true
        rw [if_pos ⟨hmem, hid⟩]
      · exact Or.inl ((h.removeLife_iff (fun l => ∃ w stage, l = .active w stage)
          ⟨fun ⟨_, _, he⟩ => (nomatch he), fun ⟨_, _, he⟩ => (nomatch he)⟩ x).2 ((h.mem_active x).1 hmem))
    · rw [hremover v hv] at hx
      obtain ⟨hdeleting, hawaited⟩ := h.toWait v x hx
      refine ⟨hflag x hdeleting, (h.removeLife_iff Life.Awaited ?_ x).2 hawaited⟩
      constructor
      · rintro (⟨_, _, he⟩ | he) <;> cases he
      · rintro (⟨_, _, he⟩ | he) <;> cases he
  -- the items
  · intro x hx hx'
    refine h.mem_objects x ?_ ?_
    · exact fun he => hx ((h.removeLife_iff (fun l => l = .new) ⟨nofun, nofun⟩ x).2 he)
    · exact fun he => hx' ((h.removeLife_iff (fun l => l = .destroyed) ⟨nofun, nofun⟩ x).2 he)
  · exact fun x hx => h.new_objects x ((h.removeLife_iff (fun l => l = .new) ⟨nofun, nofun⟩ x).1 hx)
  · intro x
    change (removeLife storage s life r id x).Fits
      (if x ∈ s.active ∧ storage x = id then { s.data x with isCurrentlyDeleting := true } else s.data x)
    have hfits := h.fits x
    unfold removeLife
    by_cases hpending : x ∈ s.pending ∧ storage x = id
    · have hlife := (h.mem_pending x).1 hpending.1
      have hactive : x ∉ s.active := fun hmem => by
        rw [h.mem_active, hlife] at hmem
        obtain ⟨_, _, hmem⟩ := hmem
        cases hmem
      rw [hlife] at hfits
      rw [if_pos hpending, if_neg fun he => hactive he.1]
      exact hfits.1
    · rw [if_neg hpending]
      split
      · next hx =>
        obtain ⟨w, stage, hlife⟩ := (h.mem_active x).1 hx.1
        rw [hlife] at hfits ⊢
        exact fits_mark hfits
      · exact hfits

omit [DecidableEq S] in
theorem Inv.removerStep (h : Inv storage s life) {state : Remover T S}
    (hplace : life item = .removed r ∨ life item = .resetting r)
    (hl : l = .resetting r ∨ l = .destroyed) (hdeleting : d.isCurrentlyDeleting = (s.data item).isCurrentlyDeleting)
    (hfits : l.Fits d) (hnodup : state.tasksToCancel.Nodup)
    (hmem : ∀ x, x ∈ state.tasksToCancel ↔ Function.update life item l x = .removed r)
    (hcurrent : ∀ x, state.current = some x ↔ Function.update life item l x = .resetting r)
    (hholds : ∀ x, state.Holds x → (s.remover r).Holds x) (hid : state.storageId = (s.remover r).storageId)
    (hwait : state.tasksToWait = (s.remover r).tasksToWait) :
    Inv storage ((s.setData item d).setRemover r state) (Function.update life item l) := by
  have hremover : ∀ v, v ≠ r → ((s.setData item d).setRemover r state).remover v = s.remover v :=
    fun v hv => Function.update_of_ne hv _ _
  have hself : ((s.setData item d).setRemover r state).remover r = state := Function.update_self _ _ _
  -- what is true of neither life
  have hiff : ∀ (P : Life W R → Prop), ¬ P (.removed r) → ¬ P (.resetting r) → ¬ P .destroyed →
      ∀ x, P (Function.update life item l x) ↔ P (life x) := by
    intro P h₁ h₂ h₃ x
    refine update_iff P rfl ⟨fun he => ?_, fun he => ?_⟩ x
    · rcases hl with rfl | rfl
      · exact absurd he h₂
      · exact absurd he h₃
    · rcases hplace with hlife | hlife
      · rw [hlife] at he
        exact absurd he h₁
      · rw [hlife] at he
        exact absurd he h₂
  refine ⟨⟨h.pending_nodup, ?_, h.active_nodup, ?_, ?_⟩, ⟨?_, ?_, ?_, ?_, ?_⟩, h.toObjects.update rfl rfl rfl ?_ ?_ ?_,
    fits_update h.fits hfits⟩
  -- the queues
  · exact fun x => (h.mem_pending x).trans (hiff (fun l => l = .pending) nofun nofun nofun x).symm
  · refine fun x => (h.mem_active x).trans (hiff (fun l => ∃ w stage, l = .active w stage) ?_ ?_ ?_ x).symm
    all_goals exact fun ⟨_, _, he⟩ => nomatch he
  · exact fun w stage x => (h.worker w stage x).trans (hiff (fun l => l = .active w stage) nofun nofun nofun x).symm
  -- the removals
  · intro v
    by_cases hv : v = r
    · subst hv
      rw [hself]
      exact hnodup
    · rw [hremover v hv]
      exact h.toCancel_nodup v
  · intro v x
    by_cases hv : v = r
    · subst hv
      rw [hself]
      exact hmem x
    · rw [hremover v hv]
      refine (h.mem_toCancel v x).trans (hiff (fun l => l = .removed v) ?_ nofun nofun x).symm
      intro he
      rw [Life.removed.injEq] at he
      exact hv he.symm
  · intro v x
    by_cases hv : v = r
    · subst hv
      rw [hself]
      exact hcurrent x
    · rw [hremover v hv]
      refine (h.current v x).trans (hiff (fun l => l = .resetting v) nofun ?_ nofun x).symm
      intro he
      rw [Life.resetting.injEq] at he
      exact hv he.symm
  · intro v x hx
    by_cases hv : v = r
    · subst hv
      rw [hself] at hx ⊢
      rw [hid]
      exact h.storageId v x (hholds x hx)
    · rw [hremover v hv] at hx ⊢
      exact h.storageId v x hx
  · intro v x hx
    have hx' : x ∈ (s.remover v).tasksToWait := by
      by_cases hv : v = r
      · subst hv
        rw [hself, hwait] at hx
        exact hx
      · rw [hremover v hv] at hx
        exact hx
    obtain ⟨hflag, hawaited⟩ := h.toWait v x hx'
    -- a task that is waited for is not in the list of a removal
    have hne : x ≠ item := by
      rintro rfl
      rcases hplace with hlife | hlife <;> rw [hlife] at hawaited <;> rcases hawaited with ⟨_, _, he⟩ | he <;> cases he
    change (Function.update s.data item d x).isCurrentlyDeleting = true ∧ _
    rw [Function.update_of_ne hne, Function.update_of_ne hne]
    exact ⟨hflag, hawaited⟩
  -- the items
  · rcases hplace with hlife | hlife <;> rw [hlife] <;> nofun
  · rcases hl with rfl | rfl <;> nofun
  · intro _
    rcases hplace with hlife | hlife <;> rw [hlife] <;> nofun

omit [DecidableEq S] in
/-- **A removal cancels a task.** -/
theorem Inv.removerCancel (h : Inv storage s life) {id : S} {tasksToCancel tasksToWait : List T}
    (hr : s.remover r = .removing id (item :: tasksToCancel) tasksToWait) :
    Inv storage ((s.cancel item).setRemover r (.resetting id item tasksToCancel tasksToWait))
      (Function.update life item (.resetting r)) := by
  have hlife : life item = .removed r := by
    rw [← h.mem_toCancel, hr]
    exact List.mem_cons_self
  have hfits := h.fits item
  rw [hlife] at hfits
  have hnodup := h.toCancel_nodup r
  rw [hr] at hnodup
  obtain ⟨hnotin, hrest⟩ := List.nodup_cons.1 hnodup
  refine h.removerStep (Or.inl hlife) (Or.inl rfl) ?_ ⟨hfits.accepted, hfits.task, hfits.isDone, Or.inl rfl⟩ hrest ?_ ?_ ?_ ?_ ?_
  · rfl
  · intro x
    change x ∈ tasksToCancel ↔ _
    by_cases hx : x = item
    · subst hx
      rw [Function.update_self]
      exact ⟨fun he => absurd he hnotin, nofun⟩
    · rw [Function.update_of_ne hx, ← h.mem_toCancel, hr]
      exact ⟨List.mem_cons_of_mem _, fun he => (List.mem_cons.1 he).resolve_left hx⟩
  · intro x
    change some item = some x ↔ _
    by_cases hx : x = item
    · subst hx
      rw [Function.update_self]
      exact ⟨fun _ => rfl, fun _ => rfl⟩
    · rw [Function.update_of_ne hx, ← h.current, hr]
      exact ⟨fun he => absurd (Option.some.inj he).symm hx, nofun⟩
  · rw [hr]
    rintro x (hx | hx)
    · exact Or.inl (List.mem_cons_of_mem _ hx)
    · exact Or.inl (Option.some.inj hx ▸ List.mem_cons_self)
  · rw [hr]
    rfl
  · rw [hr]
    rfl

omit [DecidableEq S] in
/-- **A removal destroys a task.** -/
theorem Inv.removerReset (h : Inv storage s life) {id : S} {tasksToCancel tasksToWait : List T}
    (hr : s.remover r = .resetting id item tasksToCancel tasksToWait) :
    Inv storage ((s.resetTask item).setRemover r (.removing id tasksToCancel tasksToWait))
      (Function.update life item .destroyed) := by
  have hlife : life item = .resetting r := by
    rw [← h.current, hr]
    rfl
  have hfits := h.fits item
  rw [hlife] at hfits
  have hnodup := h.toCancel_nodup r
  rw [hr] at hnodup
  refine h.removerStep (Or.inr hlife) (Or.inr rfl) ?_ ⟨hfits.1, rfl, hfits.2.2.2⟩ hnodup ?_ ?_ ?_ ?_ ?_
  · rfl
  · intro x
    have hx := h.mem_toCancel r x
    rw [hr] at hx
    exact hx.trans (update_eq_iff hlife (by nofun) (by nofun) x).symm
  · intro x
    by_cases hx : x = item
    · subst hx
      rw [Function.update_self]
      exact ⟨nofun, nofun⟩
    · rw [Function.update_of_ne hx, ← h.current, hr]
      exact ⟨nofun, fun he => absurd (Option.some.inj he).symm hx⟩
  · rw [hr]
    rintro x (hx | hx)
    · exact Or.inl hx
    · cases hx
  · rw [hr]
    rfl
  · rw [hr]
    rfl

omit [DecidableEq T] [DecidableEq S] in
theorem Inv.removerGoesOn (h : Inv storage s life) {state : Remover T S} (hcancel : (s.remover r).tasksToCancel = [])
    (hcurrent : (s.remover r).current = none) (hcancel' : state.tasksToCancel = []) (hcurrent' : state.current = none)
    (hwait : ∀ item ∈ state.tasksToWait, item ∈ (s.remover r).tasksToWait) :
    Inv storage (s.setRemover r state) life := by
  have hremover : ∀ v, v ≠ r → (s.setRemover r state).remover v = s.remover v := fun v hv => Function.update_of_ne hv _ _
  have hself : (s.setRemover r state).remover r = state := Function.update_self _ _ _
  refine ⟨⟨h.pending_nodup, h.mem_pending, h.active_nodup, h.mem_active, h.worker⟩, ⟨?_, ?_, ?_, ?_, ?_⟩,
    h.toObjects.congr rfl rfl rfl, h.fits⟩
  · intro v
    by_cases hv : v = r
    · subst hv
      rw [hself, hcancel']
      exact List.nodup_nil
    · rw [hremover v hv]
      exact h.toCancel_nodup v
  · intro v x
    by_cases hv : v = r
    · subst hv
      rw [hself, hcancel', ← h.mem_toCancel, hcancel]
    · rw [hremover v hv]
      exact h.mem_toCancel v x
  · intro v x
    by_cases hv : v = r
    · subst hv
      rw [hself, hcurrent', ← h.current, hcurrent]
    · rw [hremover v hv]
      exact h.current v x
  · intro v x hx
    by_cases hv : v = r
    · subst hv
      rw [hself] at hx
      rcases hx with hx | hx
      · rw [hcancel'] at hx
        cases hx
      · rw [hcurrent'] at hx
        cases hx
    · rw [hremover v hv] at hx ⊢
      exact h.storageId v x hx
  · intro v x hx
    by_cases hv : v = r
    · subst hv
      rw [hself] at hx
      exact h.toWait v x (hwait x hx)
    · rw [hremover v hv] at hx
      exact h.toWait v x hx

end Remover

/-! ## The executor -/

omit [DecidableEq T] in
theorem Inv.life_of_not_referenced (h : Inv storage s life) (href : ¬ s.Referenced item) :
    life item = .new ∨ life item = .destroyed := by
  cases hlife : life item with
  | new => exact Or.inl rfl
  | pending => exact absurd (Or.inl ((h.mem_pending item).2 hlife)) href
  | active w stage => exact absurd (Or.inr (Or.inl ((h.mem_active item).2 ⟨w, stage, hlife⟩))) href
  | removed r =>
    refine absurd (Or.inr (Or.inr (Or.inr ⟨r, ?_⟩))) href
    have hmem := (h.mem_toCancel r item).2 hlife
    cases hr : s.remover r with
    | notStarted | returned =>
      rw [hr] at hmem
      cases hmem
    | removing id tasksToCancel tasksToWait =>
      rw [hr] at hmem
      exact ⟨id, tasksToCancel, tasksToWait, Or.inl ⟨rfl, Or.inl hmem⟩⟩
    | resetting id other tasksToCancel tasksToWait =>
      rw [hr] at hmem
      exact ⟨id, tasksToCancel, tasksToWait, Or.inr ⟨other, rfl, Or.inr (Or.inl hmem)⟩⟩
  | resetting r =>
    refine absurd (Or.inr (Or.inr (Or.inr ⟨r, ?_⟩))) href
    have hcur := (h.current r item).2 hlife
    cases hr : s.remover r with
    | notStarted | returned | removing =>
      rw [hr] at hcur
      cases hcur
    | resetting id other tasksToCancel tasksToWait =>
      rw [hr] at hcur
      exact ⟨id, tasksToCancel, tasksToWait, Or.inr ⟨other, rfl, Or.inl (Option.some.inj hcur).symm⟩⟩
  | destroyed => exact Or.inr rfl

/-- **An item is destroyed.** -/
theorem Inv.destroy (h : Inv storage s life) (href : ¬ s.Referenced item) :
    Inv storage { s with objects := s.objects.erase item } life := by
  refine ⟨⟨h.pending_nodup, h.mem_pending, h.active_nodup, h.mem_active, h.worker⟩, h.toRemovals.congr rfl fun _ => rfl,
    ⟨h.objects_nodup.erase item, ?_, ?_, ?_, h.capacity⟩, h.fits⟩
  · intro x hnew hdestroyed
    refine (h.objects_nodup.mem_erase_iff).2 ⟨?_, h.mem_objects x hnew hdestroyed⟩
    rintro rfl
    exact (h.life_of_not_referenced href).elim hnew hdestroyed
  · exact fun x hx hmem => h.new_objects x hx (List.mem_of_mem_erase hmem)
  · exact (List.length_erase_le).trans h.length_objects

omit [DecidableEq T] in
/-- **The policy changes**: the tasks go to a queue of the other kind. -/
theorem Inv.updatePolicy (h : Inv storage s life) (policy : QueuePolicy) {popped : List T}
    (hpopped : QueuePolicy.Drains priority s.policy s.pending popped) :
    Inv storage { s with policy := policy,
                         pending := popped.foldl (fun queue item => policy.push s.capacity queue item) [] } life := by
  have hperm := hpopped.perm
  have hpush : popped.foldl (fun queue item => policy.push s.capacity queue item) [] = popped := by
    refine policy.foldl_push popped [] ?_
    have hle := h.length_le
    have hlength := h.length_objects
    have hcap := h.capacity
    have heq := hperm.length_eq
    rw [List.length_nil]
    omega
  refine ⟨⟨?_, ?_, h.active_nodup, h.mem_active, h.worker⟩, h.toRemovals.congr rfl fun _ => rfl,
    h.toObjects.congr rfl rfl rfl, h.fits⟩
  · change (popped.foldl _ []).Nodup
    rw [hpush]
    exact hperm.nodup_iff.1 h.pending_nodup
  · intro x
    change x ∈ popped.foldl _ [] ↔ _
    rw [hpush, ← hperm.mem_iff]
    exact h.mem_pending x

variable [DecidableEq S] [DecidableEq W] [DecidableEq R]

/-- **One step.** -/
theorem Inv.step (h : Inv storage s life) (hstep : Step storage priority s s') : ∃ life', Inv storage s' life' := by
  cases hstep with
  | schedule item hnew _ hroom => exact ⟨_, h.schedule hnew hroom⟩
  | take w hidle _ hpop => exact ⟨_, h.take hidle hpop⟩
  | stop w hidle _ => exact ⟨_, h.stop hidle⟩
  | @again w item hw =>
    have hfits := h.fits item
    rw [(h.worker w _ item).1 hw] at hfits
    refine ⟨_, h.move .restarting hw (by rfl) ⟨hfits.accepted, hfits.task, hfits.isDone, hfits.cancelled, ?_⟩⟩
    intro outcome hmem
    rcases List.mem_append.1 hmem with hmem | hmem
    · exact hfits.again outcome hmem
    · exact List.mem_singleton.1 hmem
  | @finished w item hw =>
    have hfits := h.fits item
    rw [(h.worker w _ item).1 hw] at hfits
    exact ⟨_, h.move .completing hw (by rfl) ⟨hfits.accepted, hfits.task, hfits.isDone,
      Or.inr ⟨.finished, List.mem_append_right _ (List.mem_singleton.2 rfl), nofun⟩⟩⟩
  | @threw w item hw =>
    have hfits := h.fits item
    rw [(h.worker w _ item).1 hw] at hfits
    exact ⟨_, h.move .failing hw (by rfl) ⟨hfits.accepted, hfits.task, hfits.isDone,
      Or.inr ⟨.threw, List.mem_append_right _ (List.mem_singleton.2 rfl), nofun⟩⟩⟩
  | restart w hw hdeleting => exact ⟨_, h.restart hw hdeleting⟩
  | @restartDeleting w item hw _ =>
    have hfits := h.fits item
    rw [(h.worker w _ item).1 hw] at hfits
    have hmove := h.move .cancelling hw rfl hfits
    rw [setData, Function.update_eq_self] at hmove
    exact ⟨_, hmove⟩
  | @cancel w item hw =>
    have hfits := h.fits item
    rw [(h.worker w _ item).1 hw] at hfits
    exact ⟨_, h.move .releasing hw (by rfl) ⟨hfits.accepted, hfits.task, hfits.isDone, Or.inl rfl⟩⟩
  | @onCompleted w item hw =>
    have hfits := h.fits item
    rw [(h.worker w _ item).1 hw] at hfits
    have hmove := h.move .releasing hw rfl hfits
    rw [setData, Function.update_eq_self] at hmove
    exact ⟨_, hmove⟩
  | @onCompletedThrew w item hw =>
    have hfits := h.fits item
    rw [(h.worker w _ item).1 hw] at hfits
    have hmove := h.move .failing hw rfl hfits
    rw [setData, Function.update_eq_self] at hmove
    exact ⟨_, hmove⟩
  | @cancelFailed w item hw =>
    have hfits := h.fits item
    rw [(h.worker w _ item).1 hw] at hfits
    exact ⟨_, h.move .releasing hw (by rfl) ⟨hfits.1, hfits.2.1, hfits.2.2.1, Or.inl rfl⟩⟩
  | @resetTask w item hw =>
    have hfits := h.fits item
    rw [(h.worker w _ item).1 hw] at hfits
    exact ⟨_, h.move .erasing hw (by rfl) ⟨hfits.1, rfl, hfits.2.2.1, hfits.2.2.2⟩⟩
  | erase w hw => exact ⟨_, h.erase hw⟩
  | remove r id hr => exact ⟨_, h.remove id hr⟩
  | removerCancel r hr => exact ⟨_, h.removerCancel hr⟩
  | removerReset r hr => exact ⟨_, h.removerReset hr⟩
  | removerWait r hr _ =>
    refine ⟨_, h.removerGoesOn (by rw [hr]; rfl) (by rw [hr]; rfl) rfl rfl ?_⟩
    rw [hr]
    exact fun x hx => List.mem_cons_of_mem _ hx
  | removerReturn r hr => exact ⟨_, h.removerGoesOn (by rw [hr]; rfl) (by rw [hr]; rfl) rfl rfl nofun⟩
  | destroy item href => exact ⟨_, h.destroy href⟩
  | shutdown =>
    exact ⟨life, ⟨h.pending_nodup, h.mem_pending, h.active_nodup, h.mem_active, h.worker⟩,
      h.toRemovals.congr rfl fun _ => rfl, h.toObjects.congr rfl rfl rfl, h.fits⟩
  | increaseMaxTasksCount n hle =>
    exact ⟨life, ⟨h.pending_nodup, h.mem_pending, h.active_nodup, h.mem_active, h.worker⟩,
      h.toRemovals.congr rfl fun _ => rfl,
      ⟨h.objects_nodup, h.mem_objects, h.new_objects, h.length_objects.trans hle, le_refl n⟩, h.fits⟩
  | updatePolicy policy _ hpopped => exact ⟨life, h.updatePolicy policy hpopped⟩

/-- **Every run.** -/
theorem exists_inv (h : Reachable storage priority s) : ∃ life, Inv storage s life := by
  obtain ⟨policy, maxTasksCount, hrun⟩ := h
  induction hrun with
  | refl => exact ⟨_, inv_initial storage policy maxTasksCount⟩
  | tail _ hstep ih =>
    obtain ⟨life, hinv⟩ := ih
    exact hinv.step hstep

/-! ## No further step -/

/-- How the data of a task change, apart from its steps. -/
structure Evolves (d d' : TaskRuntimeData) : Prop where
  accepted : d.accepted = true → d'.accepted = true
  cancelled : d.cancelled = true → d'.cancelled = true
  task : d.task = false → d'.task = false
  outcomes : d'.outcomes = d.outcomes

theorem Evolves.refl (d : TaskRuntimeData) : Evolves d d := ⟨id, id, id, rfl⟩

theorem Evolves.stopped {d d' : TaskRuntimeData} (h : Evolves d d') (hstopped : d.Stopped) : d'.Stopped := by
  rcases hstopped with hcancelled | ⟨outcome, hmem, hne⟩
  · exact Or.inl (h.cancelled hcancelled)
  · exact Or.inr ⟨outcome, h.outcomes ▸ hmem, hne⟩

theorem evolves_update {α : Type} [DecidableEq α] {f : α → TaskRuntimeData} {other : α}
    (hd : Evolves (f other) d) (item : α) : Evolves (f item) (Function.update f other d item) := by
  by_cases hitem : item = other
  · subst hitem
    rw [Function.update_self]
    exact hd
  · rw [Function.update_of_ne hitem]
    exact Evolves.refl _

omit [DecidableEq S] [DecidableEq W] [DecidableEq R] in
theorem evolves_cancel (s : Executor T S W R) (other item : T) : Evolves (s.data item) ((s.cancel other).data item) := by
  have hd : Evolves (s.data other) { s.data other with cancelled := true } := ⟨id, fun _ => rfl, id, rfl⟩
  exact evolves_update hd item

omit [DecidableEq S] [DecidableEq W] [DecidableEq R] in
theorem evolves_resetTask (s : Executor T S W R) (other item : T) : Evolves (s.data item) ((s.resetTask other).data item) := by
  have hd : Evolves (s.data other) { s.data other with task := false } := ⟨id, id, fun _ => rfl, rfl⟩
  exact evolves_update hd item

omit [DecidableEq S] [DecidableEq R] in
theorem evolves_erase (s : Executor T S W R) (w : W) (other item : T) : Evolves (s.data item) ((s.erase w other).data item) := by
  have hd : Evolves (s.data other) { s.data other with isDone := true } := ⟨id, id, id, rfl⟩
  exact evolves_update hd item

/-- **What a step does to an accepted task**: only a thread that executes it adds an outcome. -/
theorem Step.evolves (hstep : Step storage priority s s') (haccepted : (s.data item).accepted = true) :
    Evolves (s.data item) (s'.data item) ∨
      (s'.data item).accepted = true ∧ ∃ w, s.worker w = .busy .executing item := by
  cases hstep with
  | schedule other hnew _ _ =>
    have hne : item ≠ other := by
      rintro rfl
      rw [haccepted] at hnew
      cases hnew
    refine Or.inl ?_
    change Evolves (s.data item) (Function.update s.data other _ item)
    rw [Function.update_of_ne hne]
    exact Evolves.refl _
  | @again w other hw | @finished w other hw | @threw w other hw =>
    by_cases hitem : item = other
    · subst hitem
      refine Or.inr ⟨?_, w, hw⟩
      change (Function.update s.data item _ item).accepted = true
      rw [Function.update_self]
      exact haccepted
    · refine Or.inl ?_
      change Evolves (s.data item) (Function.update s.data other _ item)
      rw [Function.update_of_ne hitem]
      exact Evolves.refl _
  | cancel | cancelFailed | removerCancel => exact Or.inl (evolves_cancel s _ item)
  | resetTask | removerReset => exact Or.inl (evolves_resetTask s _ item)
  | erase => exact Or.inl (evolves_erase s _ _ item)
  | remove r id _ =>
    refine Or.inl ?_
    change Evolves (s.data item)
      (if item ∈ s.active ∧ storage item = id then { s.data item with isCurrentlyDeleting := true } else s.data item)
    split
    · exact ⟨fun h => h, fun h => h, fun h => h, rfl⟩
    · exact Evolves.refl _
  | take | stop | restart | restartDeleting | onCompleted | onCompletedThrew | removerWait | removerReturn | destroy | shutdown
  | increaseMaxTasksCount | updatePolicy => exact Or.inl (Evolves.refl _)

theorem Step.toCancel (hstep : Step storage priority s s') (hmem : item ∈ (s.remover r).tasksToCancel) :
    item ∈ (s'.remover r).tasksToCancel ∨ (s'.remover r).current = some item ∧ (s'.data item).cancelled = true := by
  -- another removal goes on
  have hother : ∀ (v : R) (state : Remover T S), v ≠ r →
      item ∈ (Function.update s.remover v state r).tasksToCancel := by
    intro v state hv
    rw [Function.update_of_ne hv.symm]
    exact hmem
  cases hstep with
  | remove v id hv =>
    refine Or.inl (hother v _ ?_)
    rintro rfl
    rw [hv] at hmem
    cases hmem
  | @removerCancel v id head tail _ hv =>
    by_cases hvr : v = r
    · subst hvr
      rw [hv] at hmem
      change item ∈ (Function.update s.remover v _ v).tasksToCancel ∨
        (Function.update s.remover v _ v).current = some item ∧ (Function.update s.data head _ item).cancelled = true
      rw [Function.update_self]
      rcases List.mem_cons.1 hmem with rfl | hmem
      · rw [Function.update_self]
        exact Or.inr ⟨rfl, rfl⟩
      · exact Or.inl hmem
    · exact Or.inl (hother v _ hvr)
  | @removerReset v id head tail _ hv =>
    by_cases hvr : v = r
    · subst hvr
      rw [hv] at hmem
      refine Or.inl ?_
      change item ∈ (Function.update s.remover v _ v).tasksToCancel
      rw [Function.update_self]
      exact hmem
    · exact Or.inl (hother v _ hvr)
  | removerWait v hv _ | removerReturn v hv =>
    refine Or.inl (hother v _ ?_)
    rintro rfl
    rw [hv] at hmem
    cases hmem
  | schedule | take | stop | again | finished | threw | restart | restartDeleting | cancel | onCompleted | onCompletedThrew
  | cancelFailed | resetTask | erase | destroy | shutdown | increaseMaxTasksCount | updatePolicy => exact Or.inl hmem

/-- The task has stopped, or a removal has taken it out. -/
def Retired (s : Executor T S W R) (item : T) : Prop :=
  (s.data item).Stopped ∨ ∃ r, item ∈ (s.remover r).tasksToCancel

omit [DecidableEq T] [DecidableEq S] [DecidableEq W] [DecidableEq R] in
/-- **A retired task is not executed.** -/
theorem Inv.not_executing (h : Inv storage s life) (hretired : s.Retired item) (w : W) :
    s.worker w ≠ .busy .executing item := by
  intro hw
  have hlife := (h.worker w _ item).1 hw
  have hfits := h.fits item
  rw [hlife] at hfits
  rcases hretired with hstopped | ⟨r, hmem⟩
  · exact hfits.not_stopped hstopped
  · rw [h.mem_toCancel, hlife] at hmem
    cases hmem

omit [DecidableEq T] [DecidableEq S] [DecidableEq W] [DecidableEq R] in
theorem Inv.accepted_of_retired (h : Inv storage s life) (hretired : s.Retired item) :
    (s.data item).accepted = true := by
  by_contra hnot
  have hlife := h.life_eq_new (Bool.eq_false_iff.2 hnot)
  have hfits := h.fits item
  rw [hlife] at hfits
  rcases hretired with hstopped | ⟨r, hmem⟩
  · rw [show s.data item = {} from hfits] at hstopped
    rcases hstopped with hcancelled | ⟨_, hmem, _⟩
    · cases hcancelled
    · cases hmem
  · rw [h.mem_toCancel, hlife] at hmem
    cases hmem

/-- **One step of a retired task**: it stays retired, and runs no step. -/
theorem Inv.retired_step (h : Inv storage s life) (hstep : Step storage priority s s') (hretired : s.Retired item) :
    s'.Retired item ∧ (s'.data item).outcomes = (s.data item).outcomes := by
  have hevolves := (hstep.evolves (h.accepted_of_retired hretired)).resolve_right
    fun ⟨_, w, hw⟩ => h.not_executing hretired w hw
  refine ⟨?_, hevolves.outcomes⟩
  rcases hretired with hstopped | ⟨r, hmem⟩
  · exact Or.inl (hevolves.stopped hstopped)
  · exact (hstep.toCancel hmem).elim (fun hmem => Or.inr ⟨r, hmem⟩) fun hcancelled => Or.inl (Or.inl hcancelled.2)

/-- **The task runs no further step**, whatever happens. -/
def Quiet (storage : T → S) (priority : T → ℤ) (s : Executor T S W R) (item : T) : Prop :=
  ∀ s', Relation.ReflTransGen (Step storage priority) s s' →
    (∀ w, s'.worker w ≠ .busy .executing item) ∧ (s'.data item).outcomes = (s.data item).outcomes

/-- **A retired task is quiet.** -/
theorem Inv.quiet (h : Inv storage s life) (hretired : s.Retired item) : Quiet storage priority s item := by
  intro s' hrun
  have hlater : (∃ life', Inv storage s' life') ∧ s'.Retired item ∧ (s'.data item).outcomes = (s.data item).outcomes := by
    induction hrun with
    | refl => exact ⟨⟨life, h⟩, hretired, rfl⟩
    | tail _ hstep ih =>
      obtain ⟨⟨life', hinv⟩, hretired', heq⟩ := ih
      obtain ⟨hretired'', heq'⟩ := hinv.retired_step hstep hretired'
      exact ⟨hinv.step hstep, hretired'', heq'.trans heq⟩
  obtain ⟨⟨life', hinv⟩, hretired', heq⟩ := hlater
  exact ⟨hinv.not_executing hretired', heq⟩

/-! ## A removal returns -/

/-- **The task is dealt with**: it is destroyed, or the call `r` is going to cancel it or waits for it,
or another call has it in its list. -/
def Covered (s : Executor T S W R) (r : R) (item : T) : Prop :=
  (s.data item).task = false ∨ (s.remover r).Holds item ∨ item ∈ (s.remover r).tasksToWait ∨
    ∃ v, v ≠ r ∧ (s.remover v).Holds item

omit [DecidableEq W] in
theorem Inv.covered_remove (h : Inv storage s life) {id : S} (hr : s.remover r = .notStarted)
    (haccepted : (s.data item).accepted = true) (hid : storage item = id) : (s.remove storage r id).Covered r item := by
  have hself : (s.remove storage r id).remover r = .removing id (s.pending.filter fun item => storage item = id)
      (s.active.filter fun item => storage item = id) := Function.update_self _ _ _
  have hother : ∀ v, (s.remover v).Holds item → (s.remove storage r id).Covered r item := by
    intro v hv
    have hne : v ≠ r := by
      rintro rfl
      rw [hr] at hv
      rcases hv with hv | hv <;> cases hv
    refine Or.inr (Or.inr (Or.inr ⟨v, hne, ?_⟩))
    change (Function.update s.remover r _ v).Holds item
    rw [Function.update_of_ne hne]
    exact hv
  have hfits := h.fits item
  cases hlife : life item with
  | new =>
    rw [hlife] at hfits
    rw [show s.data item = {} from hfits] at haccepted
    cases haccepted
  | pending =>
    refine Or.inr (Or.inl (Or.inl ?_))
    rw [hself]
    exact List.mem_filter.2 ⟨(h.mem_pending item).2 hlife, decide_eq_true hid⟩
  | active w stage =>
    refine Or.inr (Or.inr (Or.inl ?_))
    rw [hself]
    exact List.mem_filter.2 ⟨(h.mem_active item).2 ⟨w, stage, hlife⟩, decide_eq_true hid⟩
  | removed v => exact hother v (Or.inl ((h.mem_toCancel v item).2 hlife))
  | resetting v => exact hother v (Or.inr ((h.current v item).2 hlife))
  | destroyed =>
    rw [hlife] at hfits
    refine Or.inl ?_
    change (if item ∈ s.active ∧ storage item = id then { s.data item with isCurrentlyDeleting := true } else s.data item).task = false
    split
    · exact hfits.2.1
    · exact hfits.2.1

theorem Step.holds (hstep : Step storage priority s s') (hholds : (s.remover r).Holds item) :
    (s'.remover r).Holds item ∨ (s'.data item).task = false := by
  rcases hholds with hmem | hcur
  · rcases hstep.toCancel hmem with hmem | ⟨hcur, -⟩
    · exact Or.inl (Or.inl hmem)
    · exact Or.inl (Or.inr hcur)
  · have hother : ∀ (v : R) (state : Remover T S), v ≠ r → (Function.update s.remover v state r).Holds item := by
      intro v state hv
      rw [Function.update_of_ne hv.symm]
      exact Or.inr hcur
    cases hstep with
    | remove v id hv | removerCancel v hv | removerWait v hv _ | removerReturn v hv =>
      refine Or.inl (hother v _ ?_)
      rintro rfl
      rw [hv] at hcur
      cases hcur
    | @removerReset v id head tail _ hv =>
      by_cases hvr : v = r
      · subst hvr
        rw [hv] at hcur
        obtain rfl := Option.some.inj hcur
        refine Or.inr ?_
        change (Function.update s.data head _ head).task = false
        rw [Function.update_self]
      · exact Or.inl (hother v _ hvr)
    | schedule | take | stop | again | finished | threw | restart | restartDeleting | cancel | onCompleted | onCompletedThrew
    | cancelFailed | resetTask | erase | destroy | shutdown | increaseMaxTasksCount | updatePolicy => exact Or.inl (Or.inr hcur)

theorem Inv.step_toWait (h : Inv storage s life) (hstep : Step storage priority s s')
    (hmem : item ∈ (s.remover r).tasksToWait) :
    item ∈ (s'.remover r).tasksToWait ∨ (s.data item).task = false := by
  have hother : ∀ (v : R) (state : Remover T S), v ≠ r → item ∈ (Function.update s.remover v state r).tasksToWait := by
    intro v state hv
    rw [Function.update_of_ne hv.symm]
    exact hmem
  cases hstep with
  | remove v id hv | removerReturn v hv =>
    refine Or.inl (hother v _ ?_)
    rintro rfl
    rw [hv] at hmem
    cases hmem
  | removerCancel v hv | removerReset v hv =>
    by_cases hvr : v = r
    · subst hvr
      rw [hv] at hmem
      refine Or.inl ?_
      change item ∈ (Function.update s.remover v _ v).tasksToWait
      rw [Function.update_self]
      exact hmem
    · exact Or.inl (hother v _ hvr)
  | @removerWait v id head tail hv hdone =>
    by_cases hvr : v = r
    · subst hvr
      rw [hv] at hmem
      rcases List.mem_cons.1 hmem with rfl | hmem
      · -- what is done has been destroyed
        have hawaited := (h.toWait v item (by rw [hv]; exact List.mem_cons_self)).2
        have hfits := h.fits item
        rcases hawaited with ⟨w, stage, hlife⟩ | hlife
        · rw [hlife] at hfits
          have hnot : (s.data item).isDone = false := by
            cases stage with
            | executing | restarting | cancelling => exact hfits.isDone
            | completing | failing | releasing | erasing => exact hfits.2.2.1
          rw [hdone] at hnot
          cases hnot
        · rw [hlife] at hfits
          exact Or.inr hfits.2.1
      · refine Or.inl ?_
        change item ∈ (Function.update s.remover v _ v).tasksToWait
        rw [Function.update_self]
        exact hmem
    · exact Or.inl (hother v _ hvr)
  | schedule | take | stop | again | finished | threw | restart | restartDeleting | cancel | onCompleted | onCompletedThrew
  | cancelFailed | resetTask | erase | destroy | shutdown | increaseMaxTasksCount | updatePolicy => exact Or.inl hmem

theorem Inv.step_task (h : Inv storage s life) (hstep : Step storage priority s s')
    (haccepted : (s.data item).accepted = true) (htask : (s.data item).task = false) : (s'.data item).task = false := by
  refine ((hstep.evolves haccepted).resolve_right ?_).task htask
  rintro ⟨-, w, hw⟩
  have hfits := h.fits item
  rw [(h.worker w _ item).1 hw] at hfits
  rw [hfits.task] at htask
  cases htask

theorem Step.accepted (hstep : Step storage priority s s') (haccepted : (s.data item).accepted = true) :
    (s'.data item).accepted = true := by
  rcases hstep.evolves haccepted with hevolves | ⟨haccepted', -⟩
  · exact hevolves.accepted haccepted
  · exact haccepted'

/-- **One step of a removal** that goes on covers what it covered. -/
theorem Inv.covered_step (h : Inv storage s life) (hstep : Step storage priority s s')
    (haccepted : (s.data item).accepted = true) (hcovered : s.Covered r item) : s'.Covered r item := by
  rcases hcovered with htask | hholds | hwait | ⟨v, hv, hholds⟩
  · exact Or.inl (h.step_task hstep haccepted htask)
  · rcases hstep.holds hholds with hholds | htask
    · exact Or.inr (Or.inl hholds)
    · exact Or.inl htask
  · rcases h.step_toWait hstep hwait with hwait | htask
    · exact Or.inr (Or.inr (Or.inl hwait))
    · exact Or.inl (h.step_task hstep haccepted htask)
  · rcases hstep.holds hholds with hholds | htask
    · exact Or.inr (Or.inr (Or.inr ⟨v, hv, hholds⟩))
    · exact Or.inl htask

/-- **When a removal has returned**, every task of its storage that had been accepted is destroyed, or
in the list of another removal. -/
theorem Inv.covered_run (h : Inv storage s life) (haccepted : (s.data item).accepted = true)
    (hcovered : s.Covered r item) (hrun : Relation.ReflTransGen (Step storage priority) s s') :
    (∃ life', Inv storage s' life') ∧ (s'.data item).accepted = true ∧ s'.Covered r item := by
  induction hrun with
  | refl => exact ⟨⟨life, h⟩, haccepted, hcovered⟩
  | tail _ hstep ih =>
    obtain ⟨⟨life', hinv⟩, haccepted', hcovered'⟩ := ih
    exact ⟨hinv.step hstep, hstep.accepted haccepted', hinv.covered_step hstep haccepted' hcovered'⟩

/-! ## Every reachable state -/

/-- **A state in which no task is lost or run twice.** -/
structure Safe (storage : T → S) (priority : T → ℤ) (s : Executor T S W R) : Prop where
  /-- A live task is in exactly one of `pending`, `active` and the local list of one removal. -/
  place : ∀ item, (s.data item).task = true →
    (item ∈ s.pending ∧ item ∉ s.active ∧ ∀ r, ¬ (s.remover r).Holds item) ∨
      (item ∉ s.pending ∧ item ∈ s.active ∧ ∀ r, ¬ (s.remover r).Holds item) ∨
      (item ∉ s.pending ∧ item ∉ s.active ∧ ∃! r, (s.remover r).Holds item)
  /-- A task is in each queue once. -/
  nodup : (s.pending ++ s.active).Nodup
  /-- No two threads have one task. -/
  worker : ∀ v w stage stage' item, s.worker v = .busy stage item → s.worker w = .busy stage' item → v = w
  /-- The queues have room for all tasks. -/
  room : s.pending.length + s.active.length ≤ s.maxTasksCount ∧ s.maxTasksCount ≤ s.capacity
  /-- A task that is scheduled or put back overwrites nothing in `pending`. -/
  push_pending : s.objects.length < s.maxTasksCount ∨ s.active ≠ [] →
    ∀ item, s.policy.push s.capacity s.pending item = s.pending ++ [item]
  /-- A task that is taken overwrites nothing in `active`. -/
  push_active : s.pending ≠ [] → ∀ item, pushBack s.capacity s.active item = s.active ++ [item]
  /-- No accepted task is lost: it is destroyed only after it has stopped. -/
  kept : ∀ item, (s.data item).accepted = true → (s.data item).task = true ∨ (s.data item).Stopped
  /-- A task that has stopped runs no further step. -/
  stopped : ∀ item, (s.data item).Stopped → Quiet storage priority s item
  /-- A task that has not stopped is on its way to the next step or to `cancel`. -/
  running : ∀ item, (s.data item).accepted = true → ¬ (s.data item).Stopped →
    item ∈ s.pending ∨
      (∃ w, s.worker w = .busy .executing item ∨ s.worker w = .busy .restarting item ∨ s.worker w = .busy .cancelling item) ∨
      ∃ r, item ∈ (s.remover r).tasksToCancel

omit [DecidableEq T] [DecidableEq S] [DecidableEq W] [DecidableEq R] in
theorem Inv.holds_iff (h : Inv storage s life) (r : R) (item : T) :
    (s.remover r).Holds item ↔ life item = .removed r ∨ life item = .resetting r := by
  unfold Remover.Holds
  rw [h.mem_toCancel, h.current]

theorem Inv.safe (h : Inv storage s life) : Safe storage priority s where
  place item htask := by
    have hfits := h.fits item
    simp only [h.mem_pending, h.mem_active, h.holds_iff]
    cases hlife : life item with
    | new =>
      rw [hlife] at hfits
      rw [show s.data item = {} from hfits] at htask
      cases htask
    | pending => simp
    | active w stage => simp
    | removed r => simp
    | resetting r => simp
    | destroyed =>
      rw [hlife] at hfits
      rw [hfits.2.1] at htask
      cases htask
  nodup := h.toQueues.nodup
  worker v w stage stage' item hv hw := by
    rw [h.worker] at hv hw
    rw [hv, Life.active.injEq] at hw
    exact hw.1
  room := ⟨h.length_le.trans h.length_objects, h.capacity⟩
  push_pending hroom item := by
    refine QueuePolicy.push_of_lt ?_ item s.policy
    have hle := h.length_le
    have hlength := h.length_objects
    have hcap := h.capacity
    rcases hroom with hlt | hne
    · omega
    · have hpos := List.length_pos_iff.2 hne
      omega
  push_active hne item := by
    refine pushBack_of_lt ?_ item
    have hle := h.length_le
    have hlength := h.length_objects
    have hcap := h.capacity
    have hpos := List.length_pos_iff.2 hne
    omega
  kept item haccepted := by
    have hfits := h.fits item
    cases hlife : life item with
    | new =>
      rw [hlife] at hfits
      rw [show s.data item = {} from hfits] at haccepted
      cases haccepted
    | pending =>
      rw [hlife] at hfits
      exact Or.inl hfits.1.task
    | active w stage =>
      rw [hlife] at hfits
      cases stage with
      | executing | restarting | cancelling => exact Or.inl hfits.task
      | completing | failing | releasing => exact Or.inl hfits.2.1
      | erasing => exact Or.inr hfits.2.2.2
    | removed r =>
      rw [hlife] at hfits
      exact Or.inl hfits.task
    | resetting r =>
      rw [hlife] at hfits
      exact Or.inl hfits.2.1
    | destroyed =>
      rw [hlife] at hfits
      exact Or.inr hfits.2.2
  stopped item hstopped := h.quiet (Or.inl hstopped)
  running item haccepted hnot := by
    have hfits := h.fits item
    cases hlife : life item with
    | new =>
      rw [hlife] at hfits
      rw [show s.data item = {} from hfits] at haccepted
      cases haccepted
    | pending => exact Or.inl ((h.mem_pending item).2 hlife)
    | active w stage =>
      have hw := (h.worker w stage item).2 hlife
      rw [hlife] at hfits
      cases stage with
      | executing => exact Or.inr (Or.inl ⟨w, Or.inl hw⟩)
      | restarting => exact Or.inr (Or.inl ⟨w, Or.inr (Or.inl hw)⟩)
      | cancelling => exact Or.inr (Or.inl ⟨w, Or.inr (Or.inr hw)⟩)
      | completing | failing | releasing | erasing => exact absurd hfits.2.2.2 hnot
    | removed r => exact Or.inr (Or.inr ⟨r, (h.mem_toCancel r item).2 hlife⟩)
    | resetting r =>
      rw [hlife] at hfits
      exact absurd hfits.2.2.2 hnot
    | destroyed =>
      rw [hlife] at hfits
      exact absurd hfits.2.2 hnot

/-- **Every reachable state is safe**, and when a call of `removeTasksCorrespondingToStorage` has
returned, every task of the storage that was accepted before it runs no further step, and is destroyed
unless another call for the storage still has it in its list. -/
theorem safe_of_reachable (h : Reachable storage priority s) :
    Safe storage priority s ∧
      ∀ (r : R) (id : S), s.remover r = .notStarted →
        ∀ s', Relation.ReflTransGen (Step storage priority) (s.remove storage r id) s' → s'.remover r = .returned →
          ∀ item, storage item = id → (s.data item).accepted = true →
            Quiet storage priority s' item ∧
              ((s'.data item).task = false ∨
                ∃ v, v ≠ r ∧ (s'.remover v).storageId = some id ∧ (s'.remover v).Holds item) := by
  obtain ⟨life, hinv⟩ := exists_inv h
  refine ⟨hinv.safe, fun r id hr s' hrun hreturned item hid haccepted => ?_⟩
  have hstep : Step storage priority s (s.remove storage r id) := .remove s r id hr
  have haccepted' := hstep.accepted haccepted
  obtain ⟨⟨life', hinv'⟩, haccepted'', hcovered⟩ :=
    (hinv.remove id hr).covered_run haccepted' (hinv.covered_remove hr haccepted hid) hrun
  rcases hcovered with htask | hholds | hwait | ⟨v, hv, hholds⟩
  · refine ⟨hinv'.quiet (Or.inl ?_), Or.inl htask⟩
    have hsafe : Safe storage priority s' := hinv'.safe
    refine (hsafe.kept item haccepted'').resolve_left ?_
    rw [htask]
    exact Bool.false_ne_true
  · rw [hreturned] at hholds
    rcases hholds with hholds | hholds <;> cases hholds
  · rw [hreturned] at hwait
    cases hwait
  · refine ⟨hinv'.quiet ?_, Or.inr ⟨v, hv, ?_, hholds⟩⟩
    · rcases hholds with hmem | hcur
      · exact Or.inr ⟨v, hmem⟩
      · have hfits := hinv'.fits item
        rw [(hinv'.current v item).1 hcur] at hfits
        exact Or.inl hfits.2.2.2
    · rw [hinv'.storageId v item hholds, hid]

/-- Two tasks of a storage and one of another one, of which a thread executes the first. -/
def threeTasks : Executor (Fin 3) Bool Bool Bool :=
  ((((initial .roundRobin 3).schedule 0).schedule 1).schedule 2).take false 0 [1, 2]

theorem reachable_threeTasks : Reachable (fun item => item != 2) (fun _ => 0) threeTasks :=
  ⟨.roundRobin, 3, (((Relation.ReflTransGen.refl.tail (.schedule _ 0 rfl rfl (by decide))).tail (.schedule _ 1 rfl rfl (by decide))).tail
    (.schedule _ 2 rfl rfl (by decide))).tail (.take _ false rfl rfl (.front 0 [1, 2]))⟩

/-- The storage is removed: the second task is cancelled, and the first one does not go back to the queue. -/
theorem safe_threeTasks : (threeTasks.active = [0] ∧ threeTasks.pending = [1, 2] ∧ Safe (fun item => item != 2) (fun _ => 0) threeTasks) ∧
    ∃ s', Relation.ReflTransGen (Step (fun item => item != 2) fun _ => 0) (threeTasks.remove (fun item => item != 2) false true) s' ∧
      (s'.remover false = .returned ∧ s'.active = [] ∧ s'.pending = [2]) ∧
      ∀ item ≠ 2, Quiet (fun item => item != 2) (fun _ => 0) s' item ∧ (s'.data item).task = false := by
  obtain ⟨hsafe, hremoval⟩ := safe_of_reachable reachable_threeTasks
  have hbegin : Relation.ReflTransGen (Step (fun item => item != 2) fun _ => 0) (threeTasks.remove (fun item => item != 2) false true)
    (threeTasks.remove (fun item => item != 2) false true) := .refl
  have hcancelled := (hbegin.tail (.removerCancel _ false rfl)).tail (.removerReset _ false rfl)
  have hstopped := ((hcancelled.tail (.again _ false rfl)).tail (.restartDeleting _ false rfl rfl)).tail (.cancel _ false rfl)
  have hreleased := (hstopped.tail (.resetTask _ false rfl)).tail (.erase _ false rfl)
  have hreturned := (hreleased.tail (.removerWait _ false rfl rfl)).tail (.removerReturn _ false rfl)
  refine ⟨⟨rfl, rfl, hsafe⟩, _, hreturned, ⟨rfl, rfl, rfl⟩, fun item hitem => ?_⟩
  have hid : (item != 2) = true := bne_iff_ne.2 hitem
  have haccepted : (threeTasks.data item).accepted = true := by decide +revert
  obtain ⟨hquiet, hdestroyed⟩ := hremoval false true rfl _ hreturned rfl item hid haccepted
  refine ⟨hquiet, hdestroyed.resolve_right ?_⟩
  rintro ⟨v, hv, hstorage, -⟩
  obtain rfl : v = true := by simpa using hv
  cases hstorage

/-! ## Two removals of one storage -/

/-- An executor with one task that waits. -/
def oneTask : Executor Unit Unit Unit Bool := (initial .roundRobin 1).schedule ()

theorem reachable_oneTask : Reachable id (fun _ => 0) oneTask :=
  ⟨.roundRobin, 1, .single (.schedule _ () rfl rfl (by decide))⟩

/-- The second of two removals returns while the first one is about to cancel the task. -/
theorem not_destroyed_oneTask :
    ∃ s s' : Executor Unit Unit Unit Bool, Reachable id (fun _ => 0) s ∧ s.remover false = .notStarted ∧
      Relation.ReflTransGen (Step id fun _ => 0) (s.remove id false ()) s' ∧ s'.remover false = .returned ∧
      (s.data ()).accepted = true ∧ (s'.data ()).task = true := by
  obtain ⟨policy, n, hrun⟩ := reachable_oneTask
  refine ⟨oneTask.remove id true (), ((oneTask.remove id true ()).remove id false ()).setRemover false .returned,
    ⟨policy, n, hrun.tail (.remove _ true () rfl)⟩, rfl, .single (.removerReturn _ false rfl), rfl, rfl, rfl⟩

end Executor

end MergeTree
