import MergeTree.Lib.Lists
import MergeTree.Spec.BlocksCleanup
import Mathlib.Data.Finset.Max
import Mathlib.Data.List.Infix

/-!
# Cleaning of deduplication nodes

A pass judges nodes by the stats that it has for the names it listed. As long as these are the
stats of the nodes that it listed (`SeesPresent`), what it plans to remove was outside of the
window when the directory was listed (`PassSound`), and it removes nothing else
(`removedNodes_outdated`). A replica whose cache has the stat of a predecessor removes a node
that has just been created (`not_respectsWindow_predecessor`).
-/

namespace MergeTree

variable {ι : Type} {window : DeduplicationWindow} {listed nodes : List BlockNode} {timedBlocks : List NodeWithStat}
variable {node : BlockNode} {r : ι}
  {block : NodeWithStat}

/-! ## What is outdated -/

theorem milliseconds_eq (h : 1000 * window.windowSeconds < 2 ^ 63) : window.milliseconds = 1000 * window.windowSeconds := by
  unfold DeduplicationWindow.milliseconds
  exact Int.bmod_eq_of_le_mul_two (by omega) (by omega)

theorem greaterByTime_eq_false {lhs rhs : NodeWithStat} : rhs.greaterByTime lhs = false ↔ rhs.createdKey ≤ lhs.createdKey := by
  simp [NodeWithStat.greaterByTime]

theorem ctime_le_of_createdKey_le {lhs rhs : NodeWithStat} (h : lhs.createdKey ≤ rhs.createdKey) : lhs.ctime ≤ rhs.ctime := by
  rcases Prod.Lex.le_iff.1 h with hlt | ⟨heq, -⟩
  · exact hlt.le
  · exact heq.le

theorem ctime_lt_of_threshold {threshold : ℕ} (h : (⟨"", threshold, 0, 0⟩ : NodeWithStat).greaterByTime block = true) :
    block.ctime < threshold := by
  rcases Prod.Lex.lt_iff.1 (of_decide_eq_true h) with hlt | ⟨-, hlt⟩
  · exact hlt
  · exact absurd hlt (Nat.not_lt_zero _)

/-- A block from the first outdated one on comes after as many blocks as the window holds, or is too old. -/
theorem mem_firstOutdatedBlock (hms : 1000 * window.windowSeconds < 2 ^ 63)
    (hsorted : timedBlocks.Pairwise fun lhs rhs => rhs.createdKey ≤ lhs.createdKey)
    (h : block ∈ firstOutdatedBlock window timedBlocks) :
    ∃ i, ∃ hi : i < timedBlocks.length, timedBlocks[i] = block ∧
      (window.windowSize ≤ i ∨ ∃ front ∈ timedBlocks, block.ctime + 1000 * window.windowSeconds < front.ctime) := by
  unfold firstOutdatedBlock at h
  split at h
  · exact absurd h List.not_mem_nil
  rename_i front rest
  obtain ⟨i, hi, rfl, hold⟩ := exists_of_mem_drop_min_findIdx h
  refine ⟨i, hi, rfl, ?_⟩
  rcases hold with hsize | ⟨k, hk, hki, hthreshold⟩
  · exact Or.inl (by omega)
  · refine Or.inr ⟨front, List.mem_cons_self, ?_⟩
    have hctime : ((front :: rest)[i]).ctime ≤ ((front :: rest)[k]).ctime := by
      rcases hki.eq_or_lt with rfl | hlt
      · exact le_rfl
      · exact ctime_le_of_createdKey_le (List.pairwise_iff_getElem.1 hsorted k i hk hi hlt)
    have hlt := hctime.trans_lt (ctime_lt_of_threshold hthreshold)
    rw [milliseconds_eq hms] at hlt
    omega

/-- What a pass with the stats of the listed nodes plans to remove was outside of the window. -/
theorem outdated_of_mem (hms : 1000 * window.windowSeconds < 2 ^ 63)
    (hsorted : timedBlocks.Pairwise fun lhs rhs => rhs.createdKey ≤ lhs.createdKey)
    (hnames : (timedBlocks.map NodeWithStat.node).Nodup) (hstat : ∀ block ∈ timedBlocks, ∃ node ∈ listed, node.withStat = block)
    (h : block ∈ firstOutdatedBlock window timedBlocks) : ∃ node ∈ listed, node.withStat = block ∧ window.Outdated listed node := by
  obtain ⟨i, hi, rfl, hold⟩ := mem_firstOutdatedBlock hms hsorted h
  obtain ⟨node, hnode, heq⟩ := hstat _ (List.getElem_mem hi)
  refine ⟨node, hnode, heq, ?_⟩
  rcases hold with hsize | ⟨front, hfront, htime⟩
  · -- the blocks before it are as many listed nodes
    refine Or.inl (hsize.trans ?_)
    have htake : ((timedBlocks.take i).map NodeWithStat.node).Nodup := hnames.sublist ((List.take_sublist i _).map _)
    have hsub : ∀ name ∈ (timedBlocks.take i).map NodeWithStat.node, name ∈
        (listed.filter fun other => other ≠ node ∧ node.withStat.createdKey ≤ other.withStat.createdKey).map BlockNode.name := by
      intro name hname
      obtain ⟨newer, hnewer, rfl⟩ := List.mem_map.1 hname
      obtain ⟨k, hk, rfl⟩ := List.mem_iff_getElem.1 hnewer
      rw [List.length_take] at hk
      rw [List.getElem_take] at hnewer ⊢
      obtain ⟨other, hother, hothereq⟩ := hstat _ (List.getElem_mem (by omega : k < timedBlocks.length))
      have hkey : node.withStat.createdKey ≤ other.withStat.createdKey := by
        rw [heq, hothereq]
        exact List.pairwise_iff_getElem.1 hsorted k i _ hi (by omega)
      have hne : other ≠ node := by
        rintro rfl
        have hdistinct := List.pairwise_iff_getElem.1 hnames k i (by rw [List.length_map]; omega) (by rw [List.length_map]; omega) (by omega)
        rw [List.getElem_map, List.getElem_map] at hdistinct
        exact hdistinct (congrArg NodeWithStat.node (hothereq.symm.trans heq))
      exact List.mem_map.2 ⟨other, List.mem_filter.2 ⟨hother, decide_eq_true ⟨hne, hkey⟩⟩, congrArg NodeWithStat.node hothereq⟩
    have hlength := (htake.subperm hsub).length_le
    rw [List.length_map, List.length_map, List.length_take, min_eq_left hi.le] at hlength
    exact hlength
  · obtain ⟨other, hother, hothereq⟩ := hstat _ hfront
    obtain ⟨newest, hnewest, hmax⟩ := Finset.exists_max_image listed.toFinset BlockNode.ctime ⟨other, List.mem_toFinset.2 hother⟩
    refine Or.inr ⟨newest, List.mem_toFinset.1 hnewest, fun n hn => hmax n (List.mem_toFinset.2 hn), ?_⟩
    have hctime : node.ctime = timedBlocks[i].ctime := congrArg NodeWithStat.ctime heq
    have hfrontctime : other.ctime = front.ctime := congrArg NodeWithStat.ctime hothereq
    have hle := hmax other (List.mem_toFinset.2 hother)
    omega

/-! ## Passes -/

/-- What the nodes still are for a pass that listed the directory: nodes with listed names are the listed ones. -/
structure Unchanged (nodes listed : List BlockNode) : Prop where
  nodup : (listed.map BlockNode.name).Nodup
  mem_listed : ∀ node ∈ nodes, node.name ∈ listed.map BlockNode.name → node ∈ listed

/-- **A pass under way is sound**: it has the stats of listed nodes, and what it removes was outside of the window. -/
def PassSound (window : DeduplicationWindow) (nodes : List BlockNode) : CleanupPass → Prop
  | .idle => True
  | .fetching listed timedBlocks existsPaths existsResults =>
    Unchanged nodes listed ∧ ((timedBlocks ++ existsResults).map NodeWithStat.node ++ existsPaths).Nodup ∧
      (∀ block ∈ timedBlocks ++ existsResults, ∃ node ∈ listed, node.withStat = block) ∧
      ∀ path ∈ existsPaths, path ∈ listed.map BlockNode.name
  | .removing listed tryRemoveFutures answers outdated =>
    Unchanged nodes listed ∧ (∀ block ∈ outdated, ∃ node ∈ listed, node.withStat = block ∧ window.Outdated listed node) ∧
      answers.map Prod.fst ++ tryRemoveFutures.map NodeWithStat.node = outdated.map NodeWithStat.node

/-- **A late removal is sound**: what has its name was listed, and was outside of the window. -/
def LateSound (window : DeduplicationWindow) (nodes : List BlockNode) (removal : LateRemoval) : Prop :=
  ∀ node ∈ nodes, node.name = removal.path → node ∈ removal.listed ∧ window.Outdated removal.listed node

variable {nodes' : List BlockNode} {pass : CleanupPass} {removal : LateRemoval}

theorem Unchanged.refl (h : (nodes.map BlockNode.name).Nodup) : Unchanged nodes nodes := ⟨h, fun _ hnode _ => hnode⟩

theorem Unchanged.mono (h : Unchanged nodes listed) (hsub : ∀ node ∈ nodes', node ∈ nodes) : Unchanged nodes' listed :=
  ⟨h.nodup, fun node hnode hname => h.mem_listed node (hsub node hnode) hname⟩

theorem Unchanged.create (h : Unchanged nodes listed) (hname : node.name ∉ listed.map BlockNode.name) :
    Unchanged (nodes ++ [node]) listed := by
  refine ⟨h.nodup, fun other hother hlisted => ?_⟩
  rcases List.mem_append.1 hother with hother | hother
  · exact h.mem_listed other hother hlisted
  · rw [List.mem_singleton.1 hother] at hlisted
    exact absurd hlisted hname

theorem Unchanged.eq_of_name_eq (h : Unchanged nodes listed) {node node' : BlockNode} (hnode : node ∈ nodes) (hnode' : node' ∈ listed)
    (hname : node.name = node'.name) : node = node' :=
  List.inj_on_of_nodup_map h.nodup (h.mem_listed node hnode (hname ▸ List.mem_map_of_mem hnode')) hnode' hname

theorem PassSound.imp (h : PassSound window nodes pass)
    (hnodes : Unchanged nodes pass.listed → Unchanged nodes' pass.listed) : PassSound window nodes' pass := by
  cases pass with
  | idle => trivial
  | fetching listed timedBlocks existsPaths existsResults => exact ⟨hnodes h.1, h.2⟩
  | removing listed tryRemoveFutures answers outdated => exact ⟨hnodes h.1, h.2⟩

theorem PassSound.mono (h : PassSound window nodes pass) (hsub : ∀ node ∈ nodes', node ∈ nodes) : PassSound window nodes' pass :=
  h.imp fun hunchanged => hunchanged.mono hsub

theorem PassSound.create (h : PassSound window nodes pass) (hname : node.name ∉ pass.listed.map BlockNode.name) :
    PassSound window (nodes ++ [node]) pass := h.imp fun hunchanged => hunchanged.create hname

theorem LateSound.mono (h : LateSound window nodes removal) (hsub : ∀ node ∈ nodes', node ∈ nodes) : LateSound window nodes' removal :=
  fun node hnode hname => h node (hsub node hnode) hname

theorem LateSound.create (h : LateSound window nodes removal) (hname : node.name ≠ removal.path) :
    LateSound window (nodes ++ [node]) removal := by
  intro other hother hpath
  rcases List.mem_append.1 hother with hother | hother
  · exact h other hother hpath
  · rw [List.mem_singleton.1 hother] at hpath
    exact absurd hpath hname

/-! ## The steps of a pass -/

theorem name_eq_of_find {path : String} (h : nodes.find? (fun node => node.name = path) = some node) :
    node.name = path := by simpa using List.find?_some h

theorem passSound_list {cache : NodeCTimeAndVersionCache} (hnodes : (nodes.map BlockNode.name).Nodup)
    (hcache : ∀ node ∈ nodes, ∀ entry, cache node.name = some entry → entry = node.stat) :
    PassSound window nodes (.fetching nodes
      ((nodes.map BlockNode.name).filterMap fun block => (cache block).map fun entry => entry.withStat block)
      ((nodes.map BlockNode.name).filter fun block => (cache block).isNone) []) := by
  refine ⟨.refl hnodes, ?_, ?_, fun path hpath => (List.mem_filter.1 hpath).1⟩
  · -- a name is cached, or it is asked for
    have hmap : ((nodes.map BlockNode.name).filterMap fun block => (cache block).map fun entry => entry.withStat block).map NodeWithStat.node =
        (nodes.map BlockNode.name).filter fun block => (cache block).isSome := by
      rw [List.map_filterMap, ← List.filterMap_eq_filter]
      refine List.filterMap_congr fun block _ => ?_
      cases hblock : cache block with
      | none => simp [hblock, Option.guard]
      | some entry => simp [hblock, Option.guard, NodeCacheEntry.withStat]
    rw [List.append_nil, hmap, List.nodup_append']
    refine ⟨hnodes.filter _, hnodes.filter _, fun block hsome hnone => ?_⟩
    have hblock := (List.mem_filter.1 hnone).2
    rw [Option.isNone_iff_eq_none] at hblock
    have hblock' := (List.mem_filter.1 hsome).2
    rw [hblock] at hblock'
    exact absurd hblock' (by decide)
  · intro block hblock
    rw [List.append_nil] at hblock
    obtain ⟨name, hname, hentry⟩ := List.mem_filterMap.1 hblock
    obtain ⟨node, hnode, rfl⟩ := List.mem_map.1 hname
    obtain ⟨entry, hcached, rfl⟩ := Option.map_eq_some_iff.1 hentry
    exact ⟨node, hnode, by rw [hcache node hnode entry hcached]; rfl⟩

theorem passSound_fetch {path : String} {existsPaths : List String} {existsResults : List NodeWithStat}
    (h : PassSound window nodes (.fetching listed timedBlocks (path :: existsPaths) existsResults)) :
    PassSound window nodes (.fetching listed timedBlocks existsPaths
      (existsResults ++ ((nodes.find? fun node => node.name = path).map BlockNode.withStat).toList)) := by
  obtain ⟨hunchanged, hnodup, hstat, hpaths⟩ := h
  refine ⟨hunchanged, ?_, ?_, fun p hp => hpaths p (List.mem_cons_of_mem _ hp)⟩
  · cases hfind : nodes.find? fun node => node.name = path with
    | none =>
      rw [Option.map_none, Option.toList_none, List.append_nil]
      exact hnodup.sublist (List.Sublist.append_left (List.sublist_cons_self path existsPaths) _)
    | some node =>
      have hname : node.name = path := name_eq_of_find hfind
      rw [Option.map_some, Option.toList_some, ← List.append_assoc, List.map_append, List.append_assoc]
      have hnode : [node.withStat].map NodeWithStat.node = [path] := congrArg (fun name => [name]) hname
      rw [hnode]
      exact hnodup
  · intro block hblock
    rw [← List.append_assoc] at hblock
    rcases List.mem_append.1 hblock with hblock | hblock
    · exact hstat block hblock
    · obtain ⟨node, hfind, rfl⟩ := Option.map_eq_some_iff.1 (Option.mem_toList.1 hblock)
      have hname : node.name = path := name_eq_of_find hfind
      exact ⟨node, hunchanged.mem_listed node (List.mem_of_find?_eq_some hfind) (hname ▸ hpaths path List.mem_cons_self), rfl⟩

theorem passSound_plan (hms : 1000 * window.windowSeconds < 2 ^ 63) {timedBlocks' existsResults : List NodeWithStat}
    (h : PassSound window nodes (.fetching listed timedBlocks' [] existsResults)) (hperm : timedBlocks.Perm (timedBlocks' ++ existsResults))
    (hsorted : timedBlocks.Pairwise fun lhs rhs => !rhs.greaterByTime lhs) :
    PassSound window nodes (.removing listed (firstOutdatedBlock window timedBlocks) [] (firstOutdatedBlock window timedBlocks)) := by
  obtain ⟨hunchanged, hnodup, hstat, -⟩ := h
  rw [List.append_nil] at hnodup
  refine ⟨hunchanged, fun block hblock => ?_, rfl⟩
  refine outdated_of_mem hms ?_ ((hperm.map _).nodup_iff.2 hnodup) (fun b hb => hstat b (hperm.mem_iff.1 hb)) hblock
  exact hsorted.imp fun hle => greaterByTime_eq_false.1 (Bool.not_eq_true' _ ▸ hle)

theorem tryRemove_sublist {name : String} {version : ℕ} : (tryRemove nodes name version).2.Sublist nodes := by
  unfold tryRemove
  split
  · exact List.Sublist.refl _
  · split
    · exact List.Sublist.refl _
    · split
      · exact List.Sublist.refl _
      · exact List.filter_sublist

theorem name_eq_of_removed {name : String} {version : ℕ} (hnode : node ∈ nodes)
    (h : node ∉ (tryRemove nodes name version).2) : node.name = name := by
  by_contra hne
  apply h
  unfold tryRemove
  split
  · exact hnode
  · split
    · exact hnode
    · split
      · exact hnode
      · exact List.mem_filter.2 ⟨hnode, decide_eq_true hne⟩

theorem name_eq_of_filtered {name : String} (hnode : node ∈ nodes)
    (h : node ∉ nodes.filter fun node => node.name ≠ name) : node.name = name := by
  by_contra hne
  exact h (List.mem_filter.2 ⟨hnode, decide_eq_true hne⟩)

theorem run_sublist : (removal.run nodes).Sublist nodes := by
  unfold LateRemoval.run
  split
  · exact tryRemove_sublist
  · exact List.filter_sublist

theorem name_eq_of_run (hnode : node ∈ nodes) (h : node ∉ removal.run nodes) : node.name = removal.path := by
  unfold LateRemoval.run at h
  split at h
  · exact name_eq_of_removed hnode h
  · exact name_eq_of_filtered hnode h

section Removing

variable {block' : NodeWithStat} {tryRemoveFutures outdated : List NodeWithStat} {path : String} {rc : RemoveError}
  {answers : List (String × RemoveError)}

theorem PassSound.answer (h : PassSound window nodes (.removing listed (block :: tryRemoveFutures) answers outdated)) :
    PassSound window nodes (.removing listed tryRemoveFutures (answers ++ [(block.node, rc)]) outdated) := by
  obtain ⟨hunchanged, hold, hnames⟩ := h
  refine ⟨hunchanged, hold, ?_⟩
  rw [List.map_append, List.append_assoc]
  exact hnames

theorem passSound_remove (h : PassSound window nodes (.removing listed (block :: tryRemoveFutures) answers outdated)) :
    PassSound window (tryRemove nodes block.node block.version).2
      (.removing listed tryRemoveFutures (answers ++ [(block.node, (tryRemove nodes block.node block.version).1)]) outdated) :=
  h.answer.mono fun _ hnode => tryRemove_sublist.subset hnode

theorem passSound_finish (h : PassSound window nodes (.removing listed tryRemoveFutures ((path, rc) :: answers) (block :: outdated))) :
    path = block.node ∧ PassSound window nodes (.removing listed tryRemoveFutures answers outdated) := by
  obtain ⟨hunchanged, hold, hnames⟩ := h
  rw [List.map_cons, List.map_cons, List.cons_append, List.cons.injEq] at hnames
  exact ⟨hnames.1, hunchanged, fun b hb => hold b (List.mem_cons_of_mem _ hb), hnames.2⟩

/-- What has the name of a block to be removed was listed, and was outside of the window. -/
theorem outdated_of_name_mem (h : PassSound window nodes (.removing listed tryRemoveFutures answers outdated))
    (hnode : node ∈ nodes) (hname : node.name ∈ outdated.map NodeWithStat.node) : node ∈ listed ∧ window.Outdated listed node := by
  obtain ⟨hunchanged, hold, -⟩ := h
  obtain ⟨b, hb, hbname⟩ := List.mem_map.1 hname
  obtain ⟨node', hnode', rfl, houtdated⟩ := hold b hb
  obtain rfl := hunchanged.eq_of_name_eq hnode hnode' hbname.symm
  exact ⟨hnode', houtdated⟩

theorem PassSound.lateSound_future (h : PassSound window nodes (.removing listed tryRemoveFutures answers outdated)) {version : Option ℕ}
    (hblock : block ∈ tryRemoveFutures) : LateSound window nodes ⟨listed, block.node, version⟩ := by
  intro node hnode hname
  refine outdated_of_name_mem h hnode ?_
  rw [hname, ← h.2.2]
  exact List.mem_append_right _ (List.mem_map_of_mem hblock)

theorem PassSound.late (h : PassSound window nodes pass) (hremoval : removal ∈ pass.late) : LateSound window nodes removal := by
  cases pass with
  | idle => exact absurd hremoval List.not_mem_nil
  | fetching listed timedBlocks existsPaths existsResults => exact absurd hremoval List.not_mem_nil
  | removing listed tryRemoveFutures answers outdated =>
    rcases List.mem_append.1 hremoval with hfuture | hrecursive
    · obtain ⟨block, hblock, rfl⟩ := List.mem_map.1 hfuture
      exact h.lateSound_future hblock
    · obtain ⟨answer, hanswer, rfl⟩ := List.mem_map.1 hrecursive
      intro node hnode hname
      refine outdated_of_name_mem h hnode ?_
      rw [hname, ← h.2.2]
      exact List.mem_append_left _ (List.mem_map_of_mem (List.mem_of_mem_take (List.mem_filter.1 hanswer).1))

end Removing

/-! ## Runs -/

namespace BlocksDirectory

variable [DecidableEq ι] {windows : ι → DeduplicationWindow} {s s' start : BlocksDirectory ι} {action : CleanupAction ι}

/-- The names of a directory are distinct, and all passes and late removals are sound. -/
structure Sound (windows : ι → DeduplicationWindow) (s : BlocksDirectory ι) : Prop where
  nodup : (s.nodes.map BlockNode.name).Nodup
  pass : ∀ r, PassSound (windows r) s.nodes (s.replicas r).pass
  late : ∀ r, ∀ removal ∈ (s.replicas r).late, LateSound (windows r) s.nodes removal

omit [DecidableEq ι] in
theorem Starts.sound (h : start.Starts) : start.Sound windows := by
  refine ⟨h.nodup, fun r => ?_, fun r => ?_⟩
  · rw [h.replicas r]
    trivial
  · rw [h.replicas r]
    exact fun _ hremoval => absurd hremoval List.not_mem_nil

omit [DecidableEq ι] in
theorem Sound.mono (h : s.Sound windows) {nodes : List BlockNode} (hsub : nodes.Sublist s.nodes) :
    ({ s with nodes := nodes } : BlocksDirectory ι).Sound windows :=
  ⟨h.nodup.sublist (hsub.map _), fun r => (h.pass r).mono fun _ hnode => hsub.subset hnode,
    fun r removal hremoval => (h.late r removal hremoval).mono fun _ hnode => hsub.subset hnode⟩

theorem Sound.setReplica (h : s.Sound windows) {replica : CleanupReplica} (hpass : PassSound (windows r) s.nodes replica.pass)
    (hlate : ∀ removal ∈ replica.late, LateSound (windows r) s.nodes removal) : (s.setReplica r replica).Sound windows := by
  have hreplicas : ∀ r', PassSound (windows r') s.nodes ((s.setReplica r replica).replicas r').pass ∧
      ∀ removal ∈ ((s.setReplica r replica).replicas r').late, LateSound (windows r') s.nodes removal := by
    intro r'
    rcases eq_or_ne r' r with rfl | hne
    · have hreplica : (s.setReplica r' replica).replicas r' = replica := Function.update_self ..
      rw [hreplica]
      exact ⟨hpass, hlate⟩
    · have hreplica : (s.setReplica r replica).replicas r' = s.replicas r' := Function.update_of_ne hne ..
      rw [hreplica]
      exact ⟨h.pass r', h.late r'⟩
  exact ⟨h.nodup, fun r' => (hreplicas r').1, fun r' => (hreplicas r').2⟩

omit [DecidableEq ι] in
theorem Sound.create (h : s.Sound windows) {name : String} {ctime czxid : ℕ}
    (hnew : ∀ r, name ∉ (s.replicas r).pass.listed.map BlockNode.name ∧ name ∉ (s.replicas r).late.map LateRemoval.path)
    (hstep : s.create name ctime czxid = some s') :
    s'.Sound windows := by
  unfold BlocksDirectory.create at hstep
  split at hstep
  · exact absurd hstep (by simp)
  rename_i hallowed
  cases hstep
  have hname : name ∉ s.nodes.map BlockNode.name := fun hmem => hallowed (Or.inl hmem)
  have hlate : ∀ r, ∀ removal ∈ (s.replicas r).late, name ≠ removal.path := fun r removal hremoval heq =>
    (hnew r).2 (heq ▸ List.mem_map_of_mem hremoval)
  refine ⟨?_, fun r => (h.pass r).create (hnew r).1, fun r removal hremoval => (h.late r removal hremoval).create (hlate r removal hremoval)⟩
  rw [List.map_append, List.nodup_append']
  refine ⟨h.nodup, List.nodup_singleton _, fun other hother hsingle => ?_⟩
  rw [List.mem_singleton.1 hsingle] at hother
  exact hname hother

theorem Sound.list (h : s.Sound windows)
    (hcache : ∀ node ∈ s.nodes, ∀ entry, (s.replicas r).cachedBlockStats node.name = some entry → entry = node.stat)
    (hstep : s.list r = some s') : s'.Sound windows := by
  unfold BlocksDirectory.list at hstep
  split at hstep
  · cases hstep
    refine h.setReplica (passSound_list h.nodup fun node hnode entry hentry => ?_) (h.late r)
    rw [if_pos (List.mem_map_of_mem hnode)] at hentry
    exact hcache node hnode entry hentry
  · exact absurd hstep (by simp)

theorem Sound.fetch (h : s.Sound windows) (hstep : s.fetch r = some s') : s'.Sound windows := by
  unfold BlocksDirectory.fetch at hstep
  split at hstep
  · rename_i listed timedBlocks path existsPaths existsResults hpass
    cases hstep
    exact h.setReplica (passSound_fetch (hpass ▸ h.pass r)) (h.late r)
  · exact absurd hstep (by simp)

theorem Sound.plan (hms : ∀ r, 1000 * (windows r).windowSeconds < 2 ^ 63) (h : s.Sound windows) {timedBlocks : List NodeWithStat}
    (hstep : s.plan (windows r) r timedBlocks = some s') : s'.Sound windows := by
  unfold BlocksDirectory.plan at hstep
  split at hstep
  · rename_i listed timedBlocks' existsResults hpass
    split at hstep
    · rename_i hsorted
      cases hstep
      refine h.setReplica ?_ (h.late r)
      have hplan := passSound_plan (hms r) (hpass ▸ h.pass r) hsorted.1 hsorted.2
      dsimp only
      split
      · trivial
      · exact hplan
    · exact absurd hstep (by simp)
  · exact absurd hstep (by simp)

theorem Sound.remove (h : s.Sound windows) (hstep : s.remove r = some s') :
    s'.Sound windows ∧ RespectsWindow windows s (.remove r) s' := by
  unfold BlocksDirectory.remove at hstep
  split at hstep
  · rename_i listed block tryRemoveFutures answers outdated hpass
    cases hstep
    have hsound := hpass ▸ h.pass r
    constructor
    · have hsub : (tryRemove s.nodes block.node block.version).2.Sublist s.nodes := tryRemove_sublist
      exact (h.mono hsub).setReplica (passSound_remove hsound) ((h.mono hsub).late r)
    · rintro r' listed' hr' node hnode hremoved
      cases hr'
      rw [hpass]
      refine outdated_of_name_mem hsound hnode ?_
      rw [name_eq_of_removed hnode hremoved, ← hsound.2.2]
      exact List.mem_append_right _ List.mem_cons_self
  · exact absurd hstep (by simp)

theorem Sound.fail (h : s.Sound windows) (hstep : s.fail r = some s') : s'.Sound windows := by
  unfold BlocksDirectory.fail at hstep
  split at hstep
  · rename_i listed block tryRemoveFutures answers outdated hpass
    cases hstep
    have hsound := hpass ▸ h.pass r
    refine h.setReplica hsound.answer fun removal hremoval => ?_
    -- the failed request may have reached the server, so it joins those in flight
    rcases List.mem_append.1 hremoval with hlate | hfailed
    · exact h.late r removal hlate
    · rw [List.mem_singleton.1 hfailed]
      exact hsound.lateSound_future List.mem_cons_self
  · exact absurd hstep (by simp)

theorem Sound.abort (h : s.Sound windows) (r : ι) : (s.abort r).Sound windows := by
  refine h.setReplica trivial fun removal hremoval => ?_
  rcases List.mem_append.1 hremoval with hlate | hpass
  · exact h.late r removal hlate
  · exact (h.pass r).late hpass

theorem Sound.removeLate (h : s.Sound windows) {i : ℕ} (hstep : s.removeLate r i = some s') :
    s'.Sound windows ∧ RespectsWindow windows s (.removeLate r i) s' := by
  obtain ⟨removal, hremoval, rfl⟩ := Option.map_eq_some_iff.1 hstep
  constructor
  · have hsub : (removal.run s.nodes).Sublist s.nodes := run_sublist
    exact (h.mono hsub).setReplica ((h.mono hsub).pass r) fun other hother => (h.mono hsub).late r other (List.mem_of_mem_eraseIdx hother)
  · rintro r' listed hr' node hnode hremoved
    obtain ⟨removal', hremoval', heq⟩ := Option.map_eq_some_iff.1 hr'
    rw [hremoval] at hremoval'
    cases hremoval'
    cases heq
    exact h.late r removal (List.mem_of_getElem? hremoval) node hnode (name_eq_of_run hnode hremoved)

theorem Sound.finish (h : s.Sound windows) (hstep : s.finish r = some s') :
    s'.Sound windows ∧ RespectsWindow windows s (.finish r) s' := by
  unfold BlocksDirectory.finish at hstep
  split at hstep
  · rename_i listed tryRemoveFutures path rc answers block outdated hpass
    cases hstep
    have hsound := hpass ▸ h.pass r
    obtain ⟨hpath, hafter⟩ := passSound_finish hsound
    have hsub : (if rc = .notEmpty then s.nodes.filter fun node => node.name ≠ path else s.nodes).Sublist s.nodes := by
      split
      · exact List.filter_sublist
      · exact List.Sublist.refl _
    constructor
    · refine (h.mono hsub).setReplica ?_ ((h.mono hsub).late r)
      cases outdated with
      | nil => trivial
      | cons block' outdated => exact hafter.mono fun _ hnode => hsub.subset hnode
    · -- only the recursive removal of a node with children removes something here
      rintro r' listed' hr' node hnode hremoved
      cases hr'
      rw [hpass]
      refine outdated_of_name_mem hsound hnode ?_
      have hname : node.name = path := by
        change node ∉ if rc = .notEmpty then s.nodes.filter fun node => node.name ≠ path else s.nodes at hremoved
        split at hremoved
        · exact name_eq_of_filtered hnode hremoved
        · exact absurd hnode hremoved
      rw [hname, hpath]
      exact List.mem_cons_self
  · exact absurd hstep (by simp)

theorem Reached.next {allowed : BlocksDirectory ι → CleanupAction ι → Prop} (h : Reached windows allowed start s) (action : CleanupAction ι)
    (hallowed : allowed s action) (hstep : s.step windows action = some s') : Reached windows allowed start s' := h.step hallowed hstep

omit [DecidableEq ι] in
theorem respectsWindow_of_removesFor_eq_none (h : action.removesFor s = none) : RespectsWindow windows s action s' :=
  fun r listed hr => absurd (h.symm.trans hr) (by simp)

/-- **What one step keeps**, and what it removes. -/
theorem Sound.step (hms : ∀ r, 1000 * (windows r).windowSeconds < 2 ^ 63) (h : s.Sound windows) (hsees : SeesPresent s action)
    (hstep : s.step windows action = some s') : s'.Sound windows ∧ RespectsWindow windows s action s' := by
  cases action with
  | create name ctime czxid => exact ⟨h.create hsees hstep, respectsWindow_of_removesFor_eq_none rfl⟩
  | drop name =>
    refine ⟨?_, respectsWindow_of_removesFor_eq_none rfl⟩
    cases hstep
    exact h.mono List.filter_sublist
  | list r => exact ⟨h.list hsees hstep, respectsWindow_of_removesFor_eq_none rfl⟩
  | fetch r => exact ⟨h.fetch hstep, respectsWindow_of_removesFor_eq_none rfl⟩
  | plan r timedBlocks => exact ⟨h.plan hms hstep, respectsWindow_of_removesFor_eq_none rfl⟩
  | remove r => exact h.remove hstep
  | fail r => exact ⟨h.fail hstep, respectsWindow_of_removesFor_eq_none rfl⟩
  | finish r => exact h.finish hstep
  | abort r =>
    refine ⟨?_, respectsWindow_of_removesFor_eq_none rfl⟩
    cases hstep
    exact h.abort r
  | removeLate r i => exact h.removeLate hstep

theorem Reached.sound (hms : ∀ r, 1000 * (windows r).windowSeconds < 2 ^ 63) (hstart : start.Starts)
    (h : Reached windows SeesPresent start s) : s.Sound windows := by
  induction h with
  | start => exact hstart.sound
  | step _ hsees hstep ih => exact (ih.step hms hsees hstep).1

end BlocksDirectory

open BlocksDirectory

variable [DecidableEq ι] {windows : ι → DeduplicationWindow} {start s s' : BlocksDirectory ι} {action : CleanupAction ι}

/-- **The window is respected**: in a run in which no replica sees a predecessor of a node, whatever a pass removes was there when
the pass listed the directory, and was outside of the window then. -/
theorem removedNodes_outdated (hms : ∀ r, 1000 * (windows r).windowSeconds < 2 ^ 63) (hstart : start.Starts)
    (hreached : Reached windows SeesPresent start s) (hstep : s.step windows action = some s') : RespectsWindow windows s action s' := by
  intro r listed hr
  have hsees : SeesPresent s action := by
    cases action with
    | remove r => trivial
    | finish r => trivial
    | removeLate r i => trivial
    | _ => exact absurd hr (by simp [CleanupAction.removesFor])
  exact ((hreached.sound hms hstart).step hms hsees hstep).2 r listed hr

/-- A window of two nodes. A replica judges an old node by what it has cached, another one ended its pass with an exception and left the
removal of the node to Keeper. -/
theorem removedNodes_outdated_cachedNode : ∃ s s' s'' : BlocksDirectory (Fin 2),
    ((s.replicas 0).cachedBlockStats "x" = some ⟨0, 1, 0⟩ ∧ ⟨"x", 0, 1, 0, false⟩ ∈ s.nodes) ∧
      (s.step (fun _ => ⟨100, 2⟩) (.remove 0) = some s' ∧ s'.nodes = [⟨"y", 5, 2, 0, false⟩, ⟨"z", 7, 3, 0, false⟩] ∧
        RespectsWindow (fun _ => ⟨100, 2⟩) s (.remove 0) s') ∧
      s.step (fun _ => ⟨100, 2⟩) (.removeLate 1 0) = some s'' ∧ s''.nodes = [⟨"y", 5, 2, 0, false⟩, ⟨"z", 7, 3, 0, false⟩] ∧
        RespectsWindow (fun _ => ⟨100, 2⟩) s (.removeLate 1 0) s'' := by
  let start : BlocksDirectory (Fin 2) := ⟨[⟨"x", 0, 1, 0, false⟩, ⟨"y", 5, 2, 0, false⟩], 5, 2, fun _ => {}⟩
  have hstart : start.Starts := ⟨by decide +kernel, by decide +kernel, fun _ => rfl⟩
  have hbegin : Reached (fun _ => ⟨100, 2⟩) SeesPresent start start := .start
  have hcached := (((hbegin.next (.list 0) (by decide +kernel) rfl).next (.fetch 0) trivial rfl).next
    (.fetch 0) trivial rfl).next (.plan 0 [⟨"y", 5, 2, 0⟩, ⟨"x", 0, 1, 0⟩]) trivial rfl
  have hnewer := hcached.next (.create "z" 7 3) (by decide +kernel) rfl
  have hlisted := (((hnewer.next (.list 1) (by decide +kernel) rfl).next (.fetch 1) trivial rfl).next
    (.fetch 1) trivial rfl).next (.fetch 1) trivial rfl
  have haborted := (hlisted.next (.plan 1 [⟨"z", 7, 3, 0⟩, ⟨"y", 5, 2, 0⟩, ⟨"x", 0, 1, 0⟩]) trivial rfl).next (.abort 1) trivial rfl
  have hplan := ((haborted.next (.list 0) (by decide +kernel) rfl).next (.fetch 0) trivial rfl).next
    (.plan 0 [⟨"z", 7, 3, 0⟩, ⟨"y", 5, 2, 0⟩, ⟨"x", 0, 1, 0⟩]) trivial rfl
  exact ⟨_, _, _, ⟨by decide +kernel, by decide +kernel⟩,
    ⟨rfl, by decide +kernel, removedNodes_outdated (fun _ => by decide) hstart hplan rfl⟩,
    rfl, by decide +kernel, removedNodes_outdated (fun _ => by decide) hstart hplan rfl⟩

/-- A replica has cached a node, another one removes it, and an insert creates it again: the first replica takes the latest node for its
predecessor and removes it. -/
theorem not_respectsWindow_predecessor : ¬∀ (windows : Fin 2 → DeduplicationWindow) (start s s' : BlocksDirectory (Fin 2))
    (action : CleanupAction (Fin 2)), (∀ r, 1000 * (windows r).windowSeconds < 2 ^ 63) → start.Starts →
    Reached windows (fun _ _ => True) start s → s.step windows action = some s' → RespectsWindow windows s action s' := by
  intro hall
  let start : BlocksDirectory (Fin 2) := ⟨[⟨"x", 0, 1, 0, false⟩], 0, 1, fun _ => {}⟩
  have hstart : start.Starts := ⟨by decide +kernel, by decide +kernel, fun _ => rfl⟩
  have hbegin : Reached (fun _ => ⟨100, 1⟩) (fun _ _ => True) start start := .start
  have hcached := ((hbegin.next (.list 0) trivial rfl).next (.fetch 0) trivial rfl).next (.plan 0 [⟨"x", 0, 1, 0⟩]) trivial rfl
  have hnewer := hcached.next (.create "y" 1 2) trivial rfl
  have hplan := (((hnewer.next (.list 1) trivial rfl).next (.fetch 1) trivial rfl).next (.fetch 1) trivial rfl).next
    (.plan 1 [⟨"y", 1, 2, 0⟩, ⟨"x", 0, 1, 0⟩]) trivial rfl
  have hremoved := (hplan.next (.remove 1) trivial rfl).next (.finish 1) trivial rfl
  have hagain := hremoved.next (.create "x" 2 3) trivial rfl
  have hjudged := ((hagain.next (.list 0) trivial rfl).next (.fetch 0) trivial rfl).next
    (.plan 0 [⟨"y", 1, 2, 0⟩, ⟨"x", 0, 1, 0⟩]) trivial rfl
  have hrespects := hall _ _ _ _ (.remove 0) (fun _ => by decide) hstart hjudged rfl 0 _ rfl ⟨"x", 2, 3, 0, false⟩
    (by decide +kernel) (by decide +kernel)
  rcases hrespects.2 with hsize | ⟨newest, hnewest, -, htime⟩
  · exact absurd hsize (by decide +kernel)
  · have hnewest' : newest ∈ [(⟨"y", 1, 2, 0, false⟩ : BlockNode), ⟨"x", 2, 3, 0, false⟩] := hnewest
    have hctime : ∀ node ∈ [(⟨"y", 1, 2, 0, false⟩ : BlockNode), ⟨"x", 2, 3, 0, false⟩], node.ctime ≤ 2 := by decide +kernel
    have hle := hctime newest hnewest'
    dsimp only at htime
    omega

end MergeTree
