import MergeTree.Proof.DeduplicationLog

/-!
# Reloading the deduplication log

`reload_eq_iff`: **after any calls a reload gives the same map exactly when each live block
is still added by a record in some file.** A rotation can remove a file with such a record
(`stranded_block`), because it counts records and not live blocks.
-/

namespace MergeTree

open DeduplicationEntry

namespace DeduplicationLog

open WrittenLog

variable {dir : String} {append : Bool}

variable [NumberText] {log : DeduplicationLog} {logs older : List WrittenLog} {w cur : WrittenLog}
  {removed : List DeduplicationEntry}

/-- A log as the directory shows it: its records are not counted yet. -/
def WrittenLog.registered (dir : String) (w : WrittenLog) : DeduplicationLogFile where
  number := w.number
  path := getLogPath dir w.number
  entriesCount := 0

-- numbers are read back by `getLogNumber_getLogPath` only
attribute [local irreducible] getLogNumber

/-- The files `rest` of the directory are still to be registered, the others are. -/
structure Registers (dir : String) (logs : List WrittenLog) (log : DeduplicationLog) (rest : List DiskFile)
    (t : DeduplicationLog) : Prop where
  nodup : rest.Nodup
  files : ∀ f ∈ rest, ∃ w ∈ logs, f = w.diskFile dir
  same : t = { log with existingLogs := t.existingLogs }
  mem : ∀ d, d ∈ t.existingLogs ↔ ∃ w ∈ logs, w.diskFile dir ∉ rest ∧ d = WrittenLog.registered dir w

theorem Registers.step {f : DiskFile} {rest : List DiskFile} {t : DeduplicationLog}
    (h : Registers dir logs log (f :: rest) t) :
    (registerFile f.path).wp (fun _ => Registers dir logs log rest) (fun _ _ => False) t := by
  obtain ⟨hf, hnd⟩ := List.nodup_cons.1 h.nodup
  obtain ⟨x, hx, rfl⟩ := h.files f List.mem_cons_self
  have hnumber : getLogNumber (x.diskFile dir).path = .ok x.number := getLogNumber_getLogPath dir x.number
  unfold registerFile
  rw [Prog.wp_bind, Prog.wp_lift, hnumber]
  refine ⟨?_, fun e he => nomatch he⟩
  rintro number hnum
  obtain rfl : x.number = number := Except.ok.inj hnum
  rw [Prog.wp_modify]
  refine ⟨hnd, fun f hf => h.files f (List.mem_cons_of_mem _ hf), ?_, ?_⟩
  · have hset : ∀ S, { t with existingLogs := S } = { log with existingLogs := S } := by
      intro S
      rw [h.same]
    exact hset _
  · intro d
    have hmem : d ∈ (t.existingLogs.erase (WrittenLog.registered dir x).number).emplace (WrittenLog.registered dir x) ↔
        d = WrittenLog.registered dir x ∨ (d ∈ t.existingLogs ∧ d.number ≠ (WrittenLog.registered dir x).number) :=
      KeyedSet.mem_emplace_erase
    refine hmem.trans ?_
    rw [h.mem]
    constructor
    · rintro (rfl | ⟨⟨y, hy, hnot, rfl⟩, _⟩)
      · exact ⟨x, hx, hf, rfl⟩
      · exact ⟨y, hy, fun hin => hnot (List.mem_cons_of_mem _ hin), rfl⟩
    · rintro ⟨y, hy, hnot, rfl⟩
      by_cases heq : y.number = x.number
      · left
        unfold WrittenLog.registered
        rw [heq]
      · refine Or.inr ⟨⟨y, hy, ?_, rfl⟩, heq⟩
        rw [List.mem_cons, not_or]
        exact ⟨fun hfile => heq (getLogPath_injective (congrArg DiskFile.path hfile)), hnot⟩

/-- **Every file of the directory is registered**, whatever the order of the directory. -/
theorem registerFiles_wp {D : KeyedSet DiskFile.path} (hempty : log.existingLogs = KeyedSet.empty)
    (hdisk : ∀ f, f ∈ D ↔ ∃ w ∈ logs, f = w.diskFile dir) :
    (D.toList.forM fun file => registerFile file.path).wp
      (fun _ t => t = { log with existingLogs := t.existingLogs } ∧
        ∀ d, d ∈ t.existingLogs ↔ ∃ w ∈ logs, d = WrittenLog.registered dir w)
      (fun _ _ => False) log := by
  have hstart : Registers dir logs log D.toList log := by
    refine ⟨D.sorted.imp fun hlt heq => hlt.ne (congrArg DiskFile.path heq), fun f hf => (hdisk f).1 hf, rfl, ?_⟩
    intro d
    constructor
    · intro hd
      rw [hempty] at hd
      exact absurd hd (KeyedSet.notMem_empty d)
    · rintro ⟨w, hw, hnot, _⟩
      exact absurd ((hdisk _).2 ⟨w, hw, rfl⟩) hnot
  refine Prog.wp_mono (Prog.wp_forM (Registers dir logs log) D.toList (fun _ _ _ h => h.step) hstart) ?_
    fun _ _ he => he
  intro _ t ht
  refine ⟨ht.same, fun d => (ht.mem d).trans ?_⟩
  simp only [List.not_mem_nil, not_false_eq_true, true_and]

variable [LawfulNumberText]

/-- **One log is loaded**: its records are replayed, and only counts change besides. -/
theorem loadSingleLog_eq (file : DeduplicationLogFile) {es : List DeduplicationEntry}
    (hfile : log.readFile file.path = text es) (hread : ∀ e ∈ es, e.Readable log.formatVersion) :
    ∃ S, log.loadSingleLog file =
      { log with deduplicationMap := es.foldl apply log.deduplicationMap, existingLogs := S } := by
  unfold DeduplicationLog.loadSingleLog
  simp only [hfile, loadRecords_entries hread le_rfl]
  exact ⟨_, rfl⟩

/-- **All logs are loaded**, from the first to the last. -/
theorem loadLogs_eq (logs : List WrittenLog) (log : DeduplicationLog)
    (hfiles : ∀ w ∈ logs, log.readFile (getLogPath dir w.number) = text w.entries)
    (hread : ∀ e ∈ entriesOf logs, e.Readable log.formatVersion) :
    ((logs.map (WrittenLog.registered dir)).foldl loadSingleLog log).deduplicationMap =
      (entriesOf logs).foldl apply log.deduplicationMap := by
  induction logs generalizing log with
  | nil => rfl
  | cons w logs ih =>
    have hentries : entriesOf (w :: logs) = w.entries ++ entriesOf logs := rfl
    rw [hentries] at hread ⊢
    obtain ⟨S, hS⟩ := loadSingleLog_eq (WrittenLog.registered dir w)
      (hfiles w List.mem_cons_self) fun e he => hread e (List.mem_append_left _ he)
    rw [List.map_cons, List.foldl_cons, hS, List.foldl_append]
    exact ih _ (fun x hx => hfiles x (List.mem_cons_of_mem w hx))
      fun e he => hread e (List.mem_append_right _ he)

/-- **A new log over the files replays them.** -/
theorem opened_map {W v : ℕ} {D : KeyedSet DiskFile.path} (hW : 0 < W) (hdisk : ∀ f, f ∈ D ↔ ∃ w ∈ logs, f = w.diskFile dir)
    (hascending : logs.Pairwise fun v w => v.number < w.number)
    (hread : ∀ e ∈ entriesOf logs, e.Readable v) :
    (opened dir W v append D).deduplicationMap = replay W (entriesOf logs) := by
  have hfind : ∀ w ∈ logs, D.find (getLogPath dir w.number) = some (w.diskFile dir) := by
    intro w hw
    rw [KeyedSet.find_eq_some, hdisk]
    exact ⟨⟨w, hw, rfl⟩, rfl⟩
  have hload : load.wp (fun _ t => t.deduplicationMap = replay W (entriesOf logs))
      (fun _ t => t.deduplicationMap = replay W (entriesOf logs)) (make dir W v append D) := by
    unfold load
    rw [Prog.wp_bind, Prog.wp_get, Prog.wp_bind]
    refine Prog.wp_mono (registerFiles_wp rfl hdisk) ?_ fun _ _ he => he.elim
    intro _ t ⟨ht, hmem⟩
    have hlist : t.existingLogs.toList = logs.map (WrittenLog.registered dir) := by
      refine KeyedSet.toList_eq_of_mem ?_ fun d => ?_
      · rw [List.pairwise_map]
        exact hascending
      · rw [hmem, List.mem_map]
        exact ⟨fun ⟨w, hw, hd⟩ => ⟨w, hw, hd.symm⟩, fun ⟨w, hw, hd⟩ => ⟨w, hw, hd.symm⟩⟩
    rw [Prog.wp_bind, Prog.wp_modify, Prog.wp_bind, Prog.wp_get]
    have hwindow : t.deduplicationWindow ≠ 0 := by
      rw [ht]
      exact hW.ne'
    refine Prog.wp_when (fun _ => ?_) fun hzero => absurd hwindow hzero
    rw [Prog.wp_bind, Prog.wp_modify, Prog.wp_bind, Prog.wp_modify, Prog.wp_modify]
    change (rotateAndDropIfNeeded _).deduplicationMap = _
    rw [(rotateAndDropIfNeeded_map _).2]
    dsimp only
    rw [hlist, ht]
    refine loadLogs_eq logs _ (fun w hw => ?_) hread
    unfold DeduplicationLog.readFile
    dsimp only [make]
    rw [hfind w hw]
    rfl
  exact Prog.exec_snd_of_wp hload

omit [LawfulNumberText] in
theorem Files.rotateAndDropIfNeeded_nil (h : Files log []) (hwindow : log.deduplicationWindow ≠ 0) :
    log.rotateAndDropIfNeeded = log.rotate := by
  have hnone : removeFrom log.rotate.deduplicationWindow 0 log.rotate.existingLogs.toList.reverse = 0 := by
    rw [(h.rotate hwindow).existing]
    simp [removeFrom]
  have hisEmpty : log.existingLogs.toList.isEmpty = true := by
    rw [h.existing]
    rfl
  unfold DeduplicationLog.rotateAndDropIfNeeded
  rw [if_pos (Or.inl hisEmpty)]
  unfold DeduplicationLog.dropOutdatedLogs
  rw [hnone]
  exact if_neg (not_not.2 rfl)

omit [LawfulNumberText] in
theorem Files.rotate_holds (h : Files log []) (hwindow : 0 < log.deduplicationWindow) (hrunning : log.stopped = false)
    (hmap : log.deduplicationMap = LimitedOrderedHashMap.empty log.deduplicationWindow) :
    Holds log.rotate [] [] ⟨log.currentLogNumber + 1, []⟩ := by
  have hrotate := h.rotate hwindow.ne'
  unfold DeduplicationLog.rotate at hrotate ⊢
  rw [if_neg hwindow.ne'] at hrotate ⊢
  exact ⟨hwindow, hrunning, hrotate, rfl, rfl, hmap, FreshAdds.nil, fun e he => nomatch he⟩

omit [LawfulNumberText] in
/-- **A log that starts over an empty directory.** -/
theorem opened_consistent {W v : ℕ} (hW : 0 < W) :
    Consistent (opened dir W v append KeyedSet.empty) := by
  have hdisk : ∀ f, f ∈ (KeyedSet.empty : KeyedSet DiskFile.path) ↔ ∃ w ∈ ([] : List WrittenLog), f = w.diskFile dir := by
    intro f
    constructor
    · intro hf
      exact absurd hf (KeyedSet.notMem_empty f)
    · rintro ⟨w, hw, _⟩
      cases hw
  have hload : load.wp (fun _ t => Consistent t) (fun _ t => Consistent t) (make dir W v append KeyedSet.empty) := by
    unfold load
    rw [Prog.wp_bind, Prog.wp_get, Prog.wp_bind]
    refine Prog.wp_mono (registerFiles_wp rfl hdisk) ?_ fun _ _ he => he.elim
    intro _ t ⟨ht, hmem⟩
    have hnil : t.existingLogs.toList = [] := by
      rw [List.eq_nil_iff_forall_not_mem]
      intro d hd
      obtain ⟨w, hw, _⟩ := (hmem d).1 hd
      cases hw
    have hfields : t.deduplicationWindow = W ∧ t.stopped = false ∧ t.disk = KeyedSet.empty ∧
        t.deduplicationMap = LimitedOrderedHashMap.empty t.deduplicationWindow := by
      rw [ht]
      exact ⟨rfl, rfl, rfl, rfl⟩
    obtain ⟨hwindow, hrunning, htdisk, hmap⟩ := hfields
    have hfiles : Files t [] := by
      refine ⟨hnil, fun f => ?_, fun w hw => nomatch hw⟩
      rw [htdisk, hdisk]
      constructor
      · rintro ⟨w, hw, _⟩
        cases hw
      · rintro ⟨w, hw, _⟩
        cases hw
    have hpos : 0 < t.deduplicationWindow := by
      rw [hwindow]
      exact hW
    have hholds := hfiles.rotate_holds hpos hrunning hmap
    have hwriter := hholds.writer
    rw [Prog.wp_bind, Prog.wp_modify, hnil, Prog.wp_bind, Prog.wp_get]
    refine Prog.wp_when (fun _ => ?_) fun hzero => absurd hpos.ne' hzero
    rw [Prog.wp_bind, Prog.wp_modify, Prog.wp_bind, Prog.wp_modify, Prog.wp_modify]
    dsimp only [List.getLast?_nil, Option.map_none, Option.getD_none]
    rw [hnil, List.foldl_nil, hfiles.rotateAndDropIfNeeded_nil hpos.ne', hwriter, Option.some_or, ← hwriter]
    exact ⟨[], [], _, hholds⟩
  exact Prog.exec_snd_of_wp hload

/-! ## The reload after any calls -/

/-- The states of a log that starts empty. -/
inductive Reaches (dir : String) (W v : ℕ) (append : Bool) : DeduplicationLog → Prop
  | start : Reaches dir W v append (opened dir W v append KeyedSet.empty)
  | call {log : DeduplicationLog} {call : Call} (hlog : Reaches dir W v append log) (hcall : call.WellFormed) :
    Reaches dir W v append (call.run log)

theorem Reaches.consistent {W v : ℕ} (hW : 0 < W) (h : Reaches dir W v append log) : Consistent log := by
  induction h with
  | start => exact opened_consistent hW
  | call _ hcall ih => exact ih.call hcall

omit [LawfulNumberText] in
theorem Reaches.run {W v : ℕ} {calls : List Call} (h : Reaches dir W v append log)
    (hcalls : ∀ call ∈ calls, call.WellFormed) : Reaches dir W v append (calls.foldl Call.run log) := by
  induction calls generalizing log with
  | nil => exact h
  | cons call calls ih =>
    exact ih (h.call (hcalls call List.mem_cons_self)) fun c hc => hcalls c (List.mem_cons_of_mem call hc)

theorem Files.recorded_iff (h : Files log logs) (hread : ∀ e ∈ entriesOf logs, e.Readable log.formatVersion)
    (blockId : String) :
    log.Recorded blockId ↔ ∃ e ∈ entriesOf logs, e.dropped = false ∧ e.blockId = blockId := by
  have hrecords : ∀ w ∈ logs, readRecords (text w.entries).length (text w.entries) = w.entries.map record :=
    fun w hw => readRecords_entries (fun e he => hread e (List.mem_flatMap.2 ⟨w, hw, he⟩)) le_rfl
  unfold Recorded
  constructor
  · rintro ⟨f, hf, r, hr, hop, hid⟩
    obtain ⟨w, hw, rfl⟩ := (h.disk f).1 hf
    have hr' : r ∈ w.entries.map record := by
      rw [← hrecords w hw]
      exact hr
    obtain ⟨e, he, rfl⟩ := List.mem_map.1 hr'
    refine ⟨e, List.mem_flatMap.2 ⟨w, hw, he⟩, ?_, hid⟩
    unfold record at hop
    cases hd : e.dropped with
    | true => simp [hd] at hop
    | false => rfl
  · rintro ⟨e, he, hadd, hid⟩
    obtain ⟨w, hw, hew⟩ := List.mem_flatMap.1 he
    refine ⟨w.diskFile log.logsDir, (h.disk _).2 ⟨w, hw, rfl⟩, e.record, ?_, ?_, hid⟩
    · change e.record ∈ readRecords (text w.entries).length (text w.entries)
      rw [hrecords w hw]
      exact List.mem_map_of_mem hew
    · unfold record
      rw [hadd]
      rfl

/-- **A reload gives the same map**, the same blocks in the same order with the same parts,
**exactly when each live block is still added by a record in some file.** -/
theorem reload_eq_iff {dir : String} {W v : ℕ} {append : Bool} (hW : 1 ≤ W) (h : Reaches dir W v append log) :
    log.reload.deduplicationMap = log.deduplicationMap ↔
      ∀ node ∈ log.deduplicationMap.queue, log.Recorded node.1 := by
  obtain ⟨removed, older, cur, hlog⟩ := h.consistent hW
  have hread : ∀ e ∈ entriesOf (older ++ [cur]), e.Readable log.formatVersion := fun e he =>
    hlog.readable e (List.mem_append_right removed he)
  have hreload : log.reload.deduplicationMap = replay log.deduplicationWindow (entriesOf (older ++ [cur])) :=
    opened_map hlog.window_pos hlog.files.disk hlog.files.ascending hread
  have hmap := hlog.map
  unfold history at hmap
  rw [hreload, hmap, replay_eq_iff hlog.window_pos hlog.fresh]
  constructor
  · intro hall node hnode
    exact (hlog.files.recorded_iff hread node.1).2 (hall node hnode)
  · intro hall node hnode
    exact (hlog.files.recorded_iff hread node.1).1 (hall node hnode)

end DeduplicationLog

/-! ## A block whose record is removed -/

namespace DeduplicationLog

attribute [local instance] NumberText.decimal LawfulNumberText.decimal

/-- A part of one block. -/
def blockPart (block : ℕ) : PartInfo :=
  { ({} : PartInfo).setPartitionId "p" with minBlock := block, maxBlock := block }

/-- With a window of two blocks: the second one is dropped and added again and again. -/
def droppingCalls : List Call :=
  let again := [Call.dropPart (blockPart 1), Call.addPart ["x"] (blockPart 1)]
  [.addPart ["a"] (blockPart 0), .addPart ["x"] (blockPart 1)] ++ again ++ again ++ again

/-- The log after some calls on an empty directory. -/
def logAfter (calls : List Call) : DeduplicationLog :=
  calls.foldl Call.run (opened "d" 2 minFormatVersionWithCustomPartitioning true KeyedSet.empty)

theorem blockPart_plain {block : ℕ} (h : block < 2) : PlainPart (blockPart block) := by
  have hid : ∀ c ∈ "p".toList, c ≠ '_' ∧ endsString c = false := by
    intro c hc
    obtain rfl : c = 'p' := by simpa using hc
    decide
  have hkind : (blockPart block).kind = getKind (blockPart block).partitionId := by
    simp only [blockPart, PartInfo.setPartitionId]
  refine ⟨⟨⟨hkind, le_rfl⟩, by decide +revert, fun hc => (hid _ hc).1 rfl, ?_, ?_, by decide +revert, ?_, ?_⟩,
    fun c hc => (hid c hc).2⟩
  · change -(2 ^ 63) ≤ (block : ℤ)
    omega
  · change (block : ℤ) < 2 ^ 63
    omega
  · intro hlegacy
    cases hlegacy
  · exact ⟨le_rfl, (by decide : (0 : ℤ) < 2 ^ 32)⟩

theorem logAfter_reaches (k : ℕ) :
    Reaches "d" 2 minFormatVersionWithCustomPartitioning true (logAfter (droppingCalls.take k)) := by
  have hadd : ∀ id, (id = "a" ∨ id = "x") → ∀ block < 2, (Call.addPart [id] (blockPart block)).WellFormed := by
    intro id hid block hblock
    refine ⟨List.nodup_singleton id, ?_, blockPart_plain hblock⟩
    intro i hi c hc
    obtain rfl := List.mem_singleton.1 hi
    rcases hid with rfl | rfl
    · obtain rfl : c = 'a' := by simpa using hc
      decide
    · obtain rfl : c = 'x' := by simpa using hc
      decide
  refine Reaches.start.run ?_
  intro call hcall
  have hmem := List.mem_of_mem_take hcall
  simp only [droppingCalls, List.cons_append, List.nil_append, List.mem_cons, List.not_mem_nil, or_false] at hmem
  cases call with
  | dropPart info => exact trivial
  | addPart ids info =>
    simp only [reduceCtorEq, false_or, Call.addPart.injEq] at hmem
    rcases hmem with ⟨rfl, rfl⟩ | ⟨rfl, rfl⟩ | ⟨rfl, rfl⟩ | ⟨rfl, rfl⟩ | ⟨rfl, rfl⟩
    · exact hadd "a" (Or.inl rfl) 0 (by decide)
    all_goals exact hadd "x" (Or.inr rfl) 1 (by decide)

/-- Two blocks are live after two drops, and the files are rotated: the older one is still there. -/
theorem reload_eq_iff_two_files : (logAfter (droppingCalls.take 6)).disk.toList.length = 2 ∧
    (logAfter (droppingCalls.take 6)).deduplicationMap.queue.map Prod.fst = ["a", "x"] ∧
    (logAfter (droppingCalls.take 6)).reload.deduplicationMap = (logAfter (droppingCalls.take 6)).deduplicationMap :=
  ⟨by decide +kernel, by decide +kernel, (reload_eq_iff (by decide) (logAfter_reaches 6)).2 (by decide +kernel)⟩

/-- The first block is live to the end, but the file with its record is removed when the
second file is full: **a reload forgets it.** -/
theorem stranded_block : Reaches "d" 2 minFormatVersionWithCustomPartitioning true (logAfter droppingCalls) ∧
    (logAfter droppingCalls).deduplicationMap.contains "a" ∧
      (logAfter droppingCalls).reload.deduplicationMap ≠ (logAfter droppingCalls).deduplicationMap := by
  have hreaches := logAfter_reaches droppingCalls.length
  rw [List.take_length] at hreaches
  have hlive : (logAfter droppingCalls).deduplicationMap.contains "a" := by decide +kernel
  have hforgotten : ¬ (logAfter droppingCalls).reload.deduplicationMap.contains "a" := by decide +kernel
  refine ⟨hreaches, hlive, fun heq => hforgotten ?_⟩
  rw [heq]
  exact hlive

end DeduplicationLog

end MergeTree
