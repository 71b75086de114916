import MergeTree.Proof.DeduplicationReplay

/-!
# The files of the deduplication log

* `getLogNumber_getLogPath`: the number of a log is read back from its path.
* `Holds`: what the memory and the files of a running log have in common. The map is the
  replay of all records, and the files hold the newest of them.
* `Consistent.call`: every call keeps memory and files together.
-/

namespace MergeTree

open DeduplicationEntry

variable {partInfo : PartInfo}

/-! ## Paths -/

theorem afterLast_append {c : Char} {a b : List Char} (hb : ∀ d ∈ b, d ≠ c)
    (ha : a.getLast?.all (· = c) = true) : afterLast c (a ++ b) = b := by
  have hpass : ∀ d ∈ b.reverse, decide (d ≠ c) = true := by
    intro d hd
    simpa using hb d (List.mem_reverse.1 hd)
  unfold afterLast
  rw [List.reverse_append, List.takeWhile_append_of_pos hpass]
  rw [← List.head?_reverse] at ha
  cases hr : a.reverse with
  | nil => simp
  | cons d rest =>
    rw [hr] at ha
    simp_all

theorem beforeLast_append {c : Char} {a b : List Char} (hb : ∀ d ∈ b, d ≠ c) :
    beforeLast c (a ++ c :: b) = a := by
  have hpass : ∀ d ∈ b.reverse, decide (d ≠ c) = true := by
    intro d hd
    simpa using hb d (List.mem_reverse.1 hd)
  unfold beforeLast
  rw [List.reverse_append, List.reverse_cons, List.append_assoc, List.dropWhile_append_of_pos hpass]
  simp

theorem afterUnderscore_append {a b : List Char} (ha : ∀ d ∈ a, d ≠ '_') :
    afterUnderscore (a ++ '_' :: b) = b := by
  have hpass : ∀ d ∈ a, decide (d ≠ '_') = true := by
    intro d hd
    simpa using ha d hd
  unfold afterUnderscore
  rw [List.dropWhile_append_of_pos hpass]
  simp

theorem joinPath_toList (dir name : String) : ∃ parent : List Char,
    (joinPath dir name).toList = parent ++ name.toList ∧ parent.getLast?.all (· = '/') = true := by
  unfold joinPath
  split
  · next h => exact ⟨dir.toList, String.toList_append, h⟩
  · refine ⟨dir.toList ++ ['/'], ?_, by simp⟩
    rw [String.toList_append, String.toList_append]
    rfl

theorem getLogNumber_getLogPath (dir : String) (number : ℕ) :
    getLogNumber (getLogPath dir number) = .ok number := by
  have hdigit : ∀ d ∈ Nat.toDigits 10 number, d.isDigit = true := fun d hd =>
    Nat.isDigit_of_mem_toDigits (by decide) (by decide) hd
  have hne : ∀ c : Char, c.isDigit = false → ∀ d ∈ Nat.toDigits 10 number, d ≠ c := by
    rintro c hc d hd rfl
    rw [hdigit d hd] at hc
    cases hc
  obtain ⟨parent, hpath, hparent⟩ := joinPath_toList dir ("deduplication_log_" ++ number.repr ++ ".txt")
  have hname : ("deduplication_log_" ++ number.repr ++ ".txt").toList =
      ("deduplication".toList ++ '_' :: ("log".toList ++ '_' :: Nat.toDigits 10 number)) ++ '.' :: "txt".toList := by
    rw [String.toList_append, String.toList_append, Nat.toList_repr]
    rfl
  have hslash : ∀ d ∈ ("deduplication_log_" ++ number.repr ++ ".txt").toList, d ≠ '/' := by
    intro d hd
    rw [String.toList_append, String.toList_append, Nat.toList_repr, List.mem_append, List.mem_append] at hd
    rcases hd with (hd | hd) | hd
    · revert d
      simp
    · exact hne '/' (by decide) d hd
    · revert d
      simp
  have hread := readDigits_append NoDigit.nil 0 hdigit
  rw [List.append_nil, Nat.ofDigitChars_ten_toDigits] at hread
  have htake : (Nat.toDigits 10 number).takeWhile (· ≠ '_') = Nat.toDigits 10 number := by
    rw [List.takeWhile_eq_self_iff]
    intro d hd
    simpa using hne '_' (by decide) d hd
  unfold getLogNumber getLogPath
  dsimp only
  rw [hpath, afterLast_append hslash hparent, hname, beforeLast_append (by simp),
    afterUnderscore_append (by simp), afterUnderscore_append (by simp), htake, hread]
  rfl

theorem getLogPath_injective {dir : String} {m n : ℕ} (h : getLogPath dir m = getLogPath dir n) : m = n := by
  have hm := getLogNumber_getLogPath dir m
  rw [h, getLogNumber_getLogPath] at hm
  cases hm
  rfl

/-! ## The files -/

/-- A log with the entries that were written to it. -/
structure WrittenLog where
  number : ℕ
  entries : List DeduplicationEntry

namespace WrittenLog

variable [NumberText]

/-- What `existing_logs` says of it. -/
def file (dir : String) (w : WrittenLog) : DeduplicationLogFile where
  number := w.number
  path := getLogPath dir w.number
  entriesCount := w.entries.length

/-- Its file. -/
def diskFile (dir : String) (w : WrittenLog) : DiskFile where
  path := getLogPath dir w.number
  text := text w.entries

/-- The entries of several logs, in the order of the logs. -/
def entriesOf (logs : List WrittenLog) : List DeduplicationEntry := logs.flatMap entries

end WrittenLog

namespace DeduplicationLog

open WrittenLog

variable [NumberText] {log : DeduplicationLog} {logs older : List WrittenLog} {w cur : WrittenLog}

/-- **The logs in memory and on the disk** are the written ones. -/
structure Files (log : DeduplicationLog) (logs : List WrittenLog) : Prop where
  existing : log.existingLogs.toList = logs.map (file log.logsDir)
  disk : ∀ f, f ∈ log.disk ↔ ∃ w ∈ logs, f = w.diskFile log.logsDir
  le_current : ∀ w ∈ logs, w.number ≤ log.currentLogNumber

theorem Files.ascending (h : Files log logs) : logs.Pairwise fun v w => v.number < w.number := by
  have hsorted := log.existingLogs.sorted
  rw [h.existing, List.pairwise_map] at hsorted
  exact hsorted

omit [NumberText] in
theorem ascending_files (dir : String) (h : logs.Pairwise fun v w => v.number < w.number) :
    (logs.map (file dir)).Pairwise fun a b => a.number < b.number := by
  rw [List.pairwise_map]
  exact h

omit [NumberText] in
theorem number_ne_of_mem {x : WrittenLog} (h : (older ++ [cur]).Pairwise fun v w => v.number < w.number)
    (hx : x ∈ older) : x.number ≠ cur.number := by
  rw [List.pairwise_append] at h
  exact (h.2.2 x hx cur (List.mem_singleton_self cur)).ne

omit [NumberText] in
theorem toList_setLog {S : KeyedSet DeduplicationLogFile.number} {dir : String} (cur' : WrittenLog)
    (h : (older ++ [cur]).Pairwise fun v w => v.number < w.number)
    (hS : S.toList = (older ++ [cur]).map (file dir)) (hnumber : cur'.number = cur.number) :
    ((S.erase cur'.number).emplace (file dir cur')).toList = (older ++ [cur']).map (file dir) := by
  have hascending : (older ++ [cur']).Pairwise fun v w => v.number < w.number := by
    rw [List.pairwise_append] at h ⊢
    refine ⟨h.1, List.pairwise_singleton _ _, ?_⟩
    intro v hv x hx
    obtain rfl := List.mem_singleton.1 hx
    rw [hnumber]
    exact h.2.2 v hv cur (List.mem_singleton_self cur)
  refine KeyedSet.toList_eq_of_mem (ascending_files dir hascending) ?_
  intro a
  have hmem : a ∈ (S.erase cur'.number).emplace (file dir cur') ↔
      a = file dir cur' ∨ (a ∈ S ∧ a.number ≠ cur'.number) := KeyedSet.mem_emplace_erase
  rw [hmem, KeyedSet.mem_def, hS, List.map_append, List.map_append, List.mem_append, List.mem_append]
  simp only [List.map_cons, List.map_nil, List.mem_singleton]
  constructor
  · rintro (rfl | ⟨hold | rfl, hne⟩)
    · exact Or.inr rfl
    · exact Or.inl hold
    · exact absurd hnumber.symm hne
  · rintro (hold | rfl)
    · obtain ⟨x, hx, rfl⟩ := List.mem_map.1 hold
      refine Or.inr ⟨Or.inl hold, ?_⟩
      change x.number ≠ cur'.number
      rw [hnumber]
      exact number_ne_of_mem h hx
    · exact Or.inl rfl

theorem mem_writeFile {S : KeyedSet DiskFile.path} {dir : String} (cur' : WrittenLog)
    (h : (older ++ [cur]).Pairwise fun v w => v.number < w.number)
    (hS : ∀ f, f ∈ S ↔ ∃ w ∈ older ++ [cur], f = w.diskFile dir) (hnumber : cur'.number = cur.number)
    (f : DiskFile) : f ∈ (S.erase (cur'.diskFile dir).path).emplace (cur'.diskFile dir) ↔
      ∃ w ∈ older ++ [cur'], f = w.diskFile dir := by
  rw [KeyedSet.mem_emplace_erase, hS]
  constructor
  · rintro (rfl | ⟨⟨x, hx, rfl⟩, hne⟩)
    · exact ⟨cur', List.mem_append_right _ (List.mem_singleton_self cur'), rfl⟩
    · rcases List.mem_append.1 hx with hx | hx
      · exact ⟨x, List.mem_append_left _ hx, rfl⟩
      · obtain rfl := List.mem_singleton.1 hx
        exact absurd (congrArg (getLogPath dir) hnumber.symm) hne
  · rintro ⟨x, hx, rfl⟩
    rcases List.mem_append.1 hx with hx | hx
    · refine Or.inr ⟨⟨x, List.mem_append_left _ hx, rfl⟩, ?_⟩
      intro heq
      have hnum : x.number = cur'.number := getLogPath_injective heq
      exact number_ne_of_mem h hx (hnum.trans hnumber)
    · obtain rfl := List.mem_singleton.1 hx
      exact Or.inl rfl

theorem Files.currentLog (h : Files log (older ++ [cur])) (hcur : cur.number = log.currentLogNumber) :
    log.currentLog = cur.file log.logsDir := by
  have hfind : log.existingLogs.find log.currentLogNumber = some (cur.file log.logsDir) := by
    rw [KeyedSet.find_eq_some, KeyedSet.mem_def, h.existing]
    exact ⟨List.mem_map_of_mem (List.mem_append_right _ (List.mem_singleton_self cur)), hcur⟩
  unfold DeduplicationLog.currentLog
  rw [hfind]
  rfl

theorem Files.readFile (h : Files log logs) (hw : w ∈ logs) :
    log.readFile (getLogPath log.logsDir w.number) = text w.entries := by
  have hfind : log.disk.find (getLogPath log.logsDir w.number) = some (w.diskFile log.logsDir) := by
    rw [KeyedSet.find_eq_some, h.disk]
    exact ⟨⟨w, hw, rfl⟩, rfl⟩
  unfold DeduplicationLog.readFile
  rw [hfind]
  rfl

/-- **A record goes to the newest log.** -/
theorem Files.write (h : Files log (older ++ [cur])) (hcur : cur.number = log.currentLogNumber)
    (hwriter : log.currentWriter = some (getLogPath log.logsDir log.currentLogNumber)) (e : DeduplicationEntry) :
    Files (log.write e.record) (older ++ [{ cur with entries := cur.entries ++ [e] }]) := by
  have hread := h.readFile (List.mem_append_right older (List.mem_singleton_self cur))
  have hcurrent := h.currentLog hcur
  have htext : text (cur.entries ++ [e]) = text cur.entries ++ e.record.text := by
    simp [text]
  have hlength : (cur.entries ++ [e]).length = cur.entries.length + 1 := by simp
  refine ⟨?_, ?_, ?_⟩
  · have hset := toList_setLog { cur with entries := cur.entries ++ [e] } h.ascending h.existing rfl
    unfold file at hset
    rw [hlength] at hset
    unfold DeduplicationLog.write
    simp only [setLog, writeFile, DeduplicationLog.currentLog] at hcurrent ⊢
    rw [hcurrent]
    exact hset
  · intro f
    have hmem := mem_writeFile { cur with entries := cur.entries ++ [e] } h.ascending h.disk rfl f
    unfold diskFile at hmem
    rw [htext] at hmem
    unfold DeduplicationLog.write
    simp only [setLog, writeFile, hwriter, Option.getD_some]
    rw [← hcur, hread]
    exact hmem
  · intro x hx
    rcases List.mem_append.1 hx with hx | hx
    · exact h.le_current x (List.mem_append_left _ hx)
    · obtain rfl := List.mem_singleton.1 hx
      exact hcur.le

/-- **A rotation starts an empty log.** -/
theorem Files.rotate (h : Files log logs) (hwindow : log.deduplicationWindow ≠ 0) :
    Files log.rotate (logs ++ [{ number := log.currentLogNumber + 1, entries := [] }]) := by
  have hnew : ∀ x ∈ logs, x.number ≠ log.currentLogNumber + 1 := by
    intro x hx
    have := h.le_current x hx
    omega
  have hascending : (logs ++ [(⟨log.currentLogNumber + 1, []⟩ : WrittenLog)]).Pairwise
      fun v w => v.number < w.number := by
    rw [List.pairwise_append]
    refine ⟨h.ascending, List.pairwise_singleton _ _, ?_⟩
    intro v hv x hx
    obtain rfl := List.mem_singleton.1 hx
    have := h.le_current v hv
    change v.number < log.currentLogNumber + 1
    omega
  unfold DeduplicationLog.rotate
  rw [if_neg hwindow]
  refine ⟨?_, ?_, ?_⟩
  · refine KeyedSet.toList_eq_of_mem (ascending_files _ hascending) ?_
    intro a
    simp only [writeFile]
    rw [KeyedSet.mem_emplace, List.map_append, List.mem_append, KeyedSet.mem_def, h.existing]
    simp only [List.map_cons, List.map_nil, List.mem_singleton]
    constructor
    · rintro (hold | ⟨rfl, _⟩)
      · exact Or.inl hold
      · exact Or.inr rfl
    · rintro (hold | rfl)
      · exact Or.inl hold
      · refine Or.inr ⟨rfl, ?_⟩
        intro b hb
        rw [KeyedSet.mem_def, h.existing] at hb
        obtain ⟨x, hx, rfl⟩ := List.mem_map.1 hb
        exact hnew x hx
  · intro f
    have hmem : ∀ g : DiskFile, f ∈ (log.disk.erase g.path).emplace g ↔ f = g ∨ (f ∈ log.disk ∧ f.path ≠ g.path) :=
      fun g => KeyedSet.mem_emplace_erase
    simp only [writeFile]
    rw [hmem { path := getLogPath log.logsDir (log.currentLogNumber + 1), text := [] }, h.disk]
    constructor
    · rintro (rfl | ⟨⟨x, hx, rfl⟩, _⟩)
      · exact ⟨_, List.mem_append_right _ (List.mem_singleton_self _), rfl⟩
      · exact ⟨x, List.mem_append_left _ hx, rfl⟩
    · rintro ⟨x, hx, rfl⟩
      rcases List.mem_append.1 hx with hx | hx
      · exact Or.inr ⟨⟨x, hx, rfl⟩, fun heq => hnew x hx (getLogPath_injective heq)⟩
      · obtain rfl := List.mem_singleton.1 hx
        exact Or.inl rfl
  · intro x hx
    change x.number ≤ log.currentLogNumber + 1
    rcases List.mem_append.1 hx with hx | hx
    · exact (h.le_current x hx).trans (Nat.le_succ _)
    · obtain rfl := List.mem_singleton.1 hx
      exact le_rfl

theorem Files.tail (h : Files log (w :: logs)) :
    Files { log with
      disk := log.disk.erase (w.file log.logsDir).path
      existingLogs := log.existingLogs.erase (w.file log.logsDir).number } logs := by
  have hascending := List.pairwise_cons.1 h.ascending
  refine ⟨?_, ?_, fun x hx => h.le_current x (List.mem_cons_of_mem w hx)⟩
  · refine KeyedSet.toList_eq_of_mem (ascending_files _ hascending.2) ?_
    intro a
    dsimp only
    rw [KeyedSet.mem_erase, KeyedSet.mem_def, h.existing, List.map_cons, List.mem_cons]
    constructor
    · rintro ⟨rfl | ha, hne⟩
      · exact absurd rfl hne
      · exact ha
    · intro ha
      refine ⟨Or.inr ha, ?_⟩
      obtain ⟨x, hx, rfl⟩ := List.mem_map.1 ha
      exact (hascending.1 x hx).ne'
  · intro f
    dsimp only
    rw [KeyedSet.mem_erase, h.disk]
    constructor
    · rintro ⟨⟨x, hx, rfl⟩, hne⟩
      rcases List.mem_cons.1 hx with rfl | hx
      · exact absurd rfl hne
      · exact ⟨x, hx, rfl⟩
    · rintro ⟨x, hx, rfl⟩
      refine ⟨⟨x, List.mem_cons_of_mem w hx, rfl⟩, ?_⟩
      intro heq
      exact (hascending.1 x hx).ne' (getLogPath_injective heq)

/-- The fields that removing old logs leaves as they are. -/
structure SameMemory (log log' : DeduplicationLog) : Prop where
  logsDir : log'.logsDir = log.logsDir
  deduplicationWindow : log'.deduplicationWindow = log.deduplicationWindow
  deduplicationMap : log'.deduplicationMap = log.deduplicationMap
  stopped : log'.stopped = log.stopped
  formatVersion : log'.formatVersion = log.formatVersion
  currentLogNumber : log'.currentLogNumber = log.currentLogNumber
  currentWriter : log'.currentWriter = log.currentWriter

omit [NumberText] in
theorem removeLogs_sameMemory (last : ℕ) (files : List DeduplicationLogFile) (log : DeduplicationLog) :
    SameMemory log (removeLogs last files log) := by
  induction files generalizing log with
  | nil => exact ⟨rfl, rfl, rfl, rfl, rfl, rfl, rfl⟩
  | cons d files ih =>
    unfold removeLogs
    dsimp only
    split
    · exact ⟨rfl, rfl, rfl, rfl, rfl, rfl, rfl⟩
    · obtain ⟨h1, h2, h3, h4, h5, h6, h7⟩ := ih { log with
        disk := log.disk.erase d.path
        existingLogs := log.existingLogs.erase d.number }
      exact ⟨h1, h2, h3, h4, h5, h6, h7⟩

/-- **The logs up to one of the older ones are removed.** -/
theorem Files.removeLogs {last : ℕ} {newer : List WrittenLog} (hlast : ∃ x ∈ older, x.number = last)
    (h : Files log (older ++ newer)) : ∃ dropped kept, older = dropped ++ kept ∧
      Files (removeLogs last ((older ++ newer).map (file log.logsDir)) log) (kept ++ newer) := by
  induction older generalizing log with
  | nil =>
    obtain ⟨x, hx, _⟩ := hlast
    cases hx
  | cons w older ih =>
    have htail := h.tail
    rw [List.cons_append, List.map_cons]
    unfold DeduplicationLog.removeLogs
    dsimp only
    by_cases hw : (w.file log.logsDir).number = last
    · rw [if_pos hw]
      exact ⟨[w], older, rfl, htail⟩
    · rw [if_neg hw]
      have hrest : ∃ x ∈ older, x.number = last := by
        obtain ⟨x, hx, hxl⟩ := hlast
        rcases List.mem_cons.1 hx with rfl | hx
        · exact absurd hxl hw
        · exact ⟨x, hx, hxl⟩
      obtain ⟨dropped, kept, rfl, hfiles⟩ := ih hrest htail
      exact ⟨w :: dropped, kept, rfl, hfiles⟩

omit [NumberText] in
theorem removeFrom_eq (window sum : ℕ) (files : List DeduplicationLogFile) :
    removeFrom window sum files = 0 ∨ ∃ d ∈ files, d.number = removeFrom window sum files := by
  induction files generalizing sum with
  | nil => exact Or.inl rfl
  | cons d files ih =>
    unfold removeFrom
    split
    · exact Or.inr ⟨d, List.mem_cons_self, rfl⟩
    · rcases ih (sum + d.entriesCount) with h | ⟨x, hx, heq⟩
      · exact Or.inl h
      · exact Or.inr ⟨x, List.mem_cons_of_mem d hx, heq⟩

omit [NumberText] in
theorem dropOutdatedLogs_sameMemory (log : DeduplicationLog) : SameMemory log log.dropOutdatedLogs := by
  unfold dropOutdatedLogs
  dsimp only
  split
  · exact removeLogs_sameMemory _ _ log
  · exact ⟨rfl, rfl, rfl, rfl, rfl, rfl, rfl⟩

/-- **Dropping outdated logs** removes some of the older logs, and never the newest. -/
theorem Files.dropOutdatedLogs (h : Files log (older ++ [cur])) : ∃ dropped kept, older = dropped ++ kept ∧
    Files log.dropOutdatedLogs (kept ++ [cur]) := by
  -- the newest log is looked at before any record is counted
  have hfrom : removeFrom log.deduplicationWindow 0 log.existingLogs.toList.reverse =
      removeFrom log.deduplicationWindow cur.entries.length ((older.map (file log.logsDir)).reverse) := by
    rw [h.existing, List.map_append, List.reverse_append]
    simp only [List.map_cons, List.map_nil, List.reverse_cons, List.reverse_nil, List.nil_append,
      List.cons_append, removeFrom]
    rw [if_neg (Nat.not_lt_zero _), Nat.zero_add]
    rfl
  unfold DeduplicationLog.dropOutdatedLogs
  dsimp only
  rw [hfrom]
  split
  · next hne =>
    have hlast : ∃ x ∈ older, x.number =
        removeFrom log.deduplicationWindow cur.entries.length ((older.map (file log.logsDir)).reverse) := by
      rcases removeFrom_eq log.deduplicationWindow cur.entries.length ((older.map (file log.logsDir)).reverse)
        with h0 | ⟨d, hd, heq⟩
      · exact absurd h0 hne
      · obtain ⟨x, hx, rfl⟩ := List.mem_map.1 (List.mem_reverse.1 hd)
        exact ⟨x, hx, heq⟩
    rw [h.existing]
    exact h.removeLogs hlast
  · exact ⟨[], older, rfl, h⟩

/-! ## Runs -/

/-- All entries that were ever written: those of removed logs, and those of the files. -/
def history (removed : List DeduplicationEntry) (older : List WrittenLog) (cur : WrittenLog) :
    List DeduplicationEntry :=
  removed ++ entriesOf (older ++ [cur])

/-- **Memory and files of a running log.** -/
structure Holds (log : DeduplicationLog) (removed : List DeduplicationEntry) (older : List WrittenLog)
    (cur : WrittenLog) : Prop where
  window_pos : 0 < log.deduplicationWindow
  running : log.stopped = false
  files : Files log (older ++ [cur])
  current : cur.number = log.currentLogNumber
  writer : log.currentWriter = some (getLogPath log.logsDir log.currentLogNumber)
  map : log.deduplicationMap = replay log.deduplicationWindow (history removed older cur)
  fresh : FreshAdds log.deduplicationWindow (history removed older cur)
  readable : ∀ e ∈ history removed older cur, e.Readable log.formatVersion

/-- Memory and files fit together. -/
def Consistent (log : DeduplicationLog) : Prop := ∃ removed older cur, Holds log removed older cur

variable {removed : List DeduplicationEntry}

omit [NumberText] in
theorem history_write (removed : List DeduplicationEntry) (older : List WrittenLog) (cur : WrittenLog)
    (e : DeduplicationEntry) :
    history removed older { cur with entries := cur.entries ++ [e] } = history removed older cur ++ [e] := by
  unfold history entriesOf
  simp

/-- **A record is written and applied to the map.** -/
theorem Holds.write (h : Holds log removed older cur) {e : DeduplicationEntry}
    (hread : e.Readable log.formatVersion)
    (hfresh : e.dropped = false → ¬ log.deduplicationMap.contains e.blockId) :
    Holds { log.write e.record with deduplicationMap := e.apply log.deduplicationMap }
      removed older { cur with entries := cur.entries ++ [e] } := by
  have hfiles := h.files.write h.current h.writer e
  refine ⟨h.window_pos, h.running, ⟨hfiles.existing, hfiles.disk, hfiles.le_current⟩, h.current, h.writer, ?_, ?_, ?_⟩
  · rw [history_write, replay_snoc]
    exact congrArg (fun m => e.apply m) h.map
  · rw [history_write, freshAdds_snoc]
    refine ⟨h.fresh, fun hadd => ?_⟩
    have hmap := h.map
    have hnew := hfresh hadd
    rw [hmap] at hnew
    exact hnew
  · rw [history_write]
    intro x hx
    rcases List.mem_append.1 hx with hx | hx
    · exact h.readable x hx
    · obtain rfl := List.mem_singleton.1 hx
      exact hread

/-- **A rotation keeps memory and files together.** The entries of the logs that it removes
are forgotten. -/
theorem Holds.rotateAndDropIfNeeded (h : Holds log removed older cur) :
    Consistent log.rotateAndDropIfNeeded := by
  unfold DeduplicationLog.rotateAndDropIfNeeded
  split
  · have hwindow : log.deduplicationWindow ≠ 0 := h.window_pos.ne'
    obtain ⟨dropped, kept, hsplit, hfiles⟩ := (h.files.rotate hwindow).dropOutdatedLogs
    obtain ⟨_, h2, h3, h4, h5, h6, h7⟩ := dropOutdatedLogs_sameMemory log.rotate
    have hrotate : log.rotate.deduplicationWindow = log.deduplicationWindow ∧
        log.rotate.deduplicationMap = log.deduplicationMap ∧ log.rotate.stopped = log.stopped ∧
        log.rotate.formatVersion = log.formatVersion ∧
        log.rotate.currentLogNumber = log.currentLogNumber + 1 ∧
        log.rotate.currentWriter = some (getLogPath log.rotate.logsDir (log.currentLogNumber + 1)) := by
      unfold DeduplicationLog.rotate
      rw [if_neg hwindow]
      exact ⟨rfl, rfl, rfl, rfl, rfl, rfl⟩
    obtain ⟨r2, r3, r4, r5, r6, r7⟩ := hrotate
    have hhistory : history (removed ++ entriesOf dropped) kept ⟨log.currentLogNumber + 1, []⟩ =
        history removed older cur := by
      unfold history
      rw [hsplit]
      unfold entriesOf
      simp
    refine ⟨removed ++ entriesOf dropped, kept, ⟨log.currentLogNumber + 1, []⟩, ?_, ?_, hfiles, ?_, ?_, ?_, ?_, ?_⟩
    · rw [h2, r2]
      exact h.window_pos
    · rw [h4, r4]
      exact h.running
    · rw [h6, r6]
    · rw [h7, r7, h6, r6, (dropOutdatedLogs_sameMemory log.rotate).logsDir]
    · rw [h3, r3, h2, r2, hhistory]
      exact h.map
    · rw [h2, r2, hhistory]
      exact h.fresh
    · rw [h5, r5, hhistory]
      exact h.readable
  · exact ⟨removed, older, cur, h⟩

/-- The texts of a call can be written as words, and the part can be named. -/
structure PlainPart (partInfo : PartInfo) : Prop where
  nameable : partInfo.Nameable
  partitionId : ∀ c ∈ partInfo.partitionId.toList, endsString c = false

/-- What the table promises for a call: no block identifier comes twice, and identifiers
and the name of the part have no tab and no line break. -/
def Call.WellFormed : Call → Prop
  | .addPart blockIds partInfo =>
    blockIds.Nodup ∧ (∀ id ∈ blockIds, ∀ c ∈ id.toList, endsString c = false) ∧ PlainPart partInfo
  | .dropPart _ => True

variable [LawfulNumberText]

theorem writeIntText_endsString (n : ℤ) : ∀ c ∈ (IntText.writeIntText n).toList, endsString c = false := by
  intro c hc
  have hplain := LawfulNumberText.writeIntText_plain n c hc
  unfold endsString
  rcases hplain with rfl | hdigit
  · decide
  · have htab : c ≠ '\t' := by
      rintro rfl
      revert hdigit
      decide
    have hline : c ≠ '\n' := by
      rintro rfl
      revert hdigit
      decide
    simp [htab, hline]

theorem PlainPart.partName (h : PlainPart partInfo) :
    ∀ c ∈ partInfo.getPartNameV1.toList, endsString c = false := by
  have hunderscore : ∀ c ∈ "_".toList, endsString c = false := by
    intro c hc
    obtain rfl : c = '_' := by simpa using hc
    decide
  intro c hc
  unfold PartInfo.getPartNameV1 at hc
  simp only [String.toList_append, List.mem_append] at hc
  rcases hc with ((((((hc | hc) | hc) | hc) | hc) | hc) | hc) | hc
  · exact h.partitionId c hc
  · exact hunderscore c hc
  · exact writeIntText_endsString _ c hc
  · exact hunderscore c hc
  · exact writeIntText_endsString _ c hc
  · exact hunderscore c hc
  · split at hc
    · exact writeIntText_endsString _ c hc
    · exact writeIntText_endsString _ c hc
  · split at hc
    · rw [String.toList_append, List.mem_append] at hc
      rcases hc with hc | hc
      · exact hunderscore c hc
      · exact writeIntText_endsString _ c hc
    · cases hc

omit [LawfulNumberText] in
theorem getPartNameAndCheckFormat_eq_ok {v : ℕ} {name : String} (h : partInfo.getPartNameAndCheckFormat v = .ok name) :
    v = minFormatVersionWithCustomPartitioning ∧ name = partInfo.getPartNameV1 := by
  unfold PartInfo.getPartNameAndCheckFormat at h
  split at h
  · next hv =>
    cases h
    exact ⟨hv, rfl⟩
  · cases h

theorem PlainPart.readable {v : ℕ} (h : PlainPart partInfo)
    (hv : v = minFormatVersionWithCustomPartitioning) {blockId : String}
    (hid : ∀ c ∈ blockId.toList, endsString c = false) (dropped : Bool) :
    Readable v ⟨dropped, partInfo, blockId⟩ :=
  ⟨h.partName, hid, fromPartName_getPartNameV1 hv.ge h.nameable⟩

/-- **One block of an added part.** -/
theorem addBlock_wp {blockId : String} (hpart : PlainPart partInfo)
    (hid : ∀ c ∈ blockId.toList, endsString c = false) (h : Consistent log)
    (hnew : ¬ log.deduplicationMap.contains blockId) :
    (addBlock partInfo blockId).wp
      (fun _ t => Consistent t ∧ t.deduplicationMap = log.deduplicationMap.insert blockId partInfo)
      (fun _ t => Consistent t) log := by
  obtain ⟨removed, older, cur, hlog⟩ := h
  unfold addBlock
  rw [Prog.wp_bind, Prog.wp_get, Prog.wp_bind, Prog.wp_lift]
  refine ⟨?_, fun _ _ => ⟨removed, older, cur, hlog⟩⟩
  intro name hname
  obtain ⟨hv, rfl⟩ := getPartNameAndCheckFormat_eq_ok hname
  rw [Prog.wp_bind, Prog.wp_modify, Prog.wp_modify]
  have hwrite := hlog.write (hpart.readable hv hid false) (fun _ => hnew)
  exact ⟨⟨removed, older, _, hwrite⟩, rfl⟩

omit [NumberText] [LawfulNumberText] in
theorem contains_insert {m : LimitedOrderedHashMap PartInfo} {key key' : String} {value : PartInfo}
    (h : (m.insert key value).contains key') : key' = key ∨ m.contains key' := by
  by_cases hc : m.contains key
  · rw [insert_of_contains hc] at h
    exact Or.inr h
  · unfold LimitedOrderedHashMap.contains at h ⊢
    rw [queue_insert hc, List.map_append, List.mem_append] at h
    rcases h with h | h
    · exact Or.inr ((m.room_sublist.map _).subset h)
    · exact Or.inl (by simpa using h)

theorem addPart_wp {blockIds : List String} (hcall : (Call.addPart blockIds partInfo).WellFormed) (h : Consistent log) :
    (DeduplicationLog.addPart blockIds partInfo).wp (fun _ t => Consistent t) (fun _ t => Consistent t) log := by
  obtain ⟨hnodup, hids, hpart⟩ := hcall
  have hnew : blockIds.filterMap (fun blockId =>
      (log.deduplicationMap.get blockId).map fun info => (info, blockId)) = [] →
      ∀ id ∈ blockIds, ¬ log.deduplicationMap.contains id := by
    intro hnil id hid hc
    rw [List.filterMap_eq_nil_iff] at hnil
    have hlookup := hnil id hid
    rw [Option.map_eq_none_iff] at hlookup
    unfold LimitedOrderedHashMap.get at hlookup
    rw [List.lookup_eq_none_iff] at hlookup
    obtain ⟨node, hnode, rfl⟩ := List.mem_map.1 hc
    simpa using hlookup node hnode
  -- the blocks still to come are not in the map
  let I : List String → DeduplicationLog → Prop := fun rest t => Consistent t ∧ rest.Nodup ∧
    ∀ id ∈ rest, (∀ c ∈ id.toList, endsString c = false) ∧ ¬ t.deduplicationMap.contains id
  have hloop : (∀ id ∈ blockIds, ¬ log.deduplicationMap.contains id) →
      (blockIds.forM (addBlock partInfo)).wp (fun _ => I []) (fun _ t => Consistent t) log := by
    intro hall
    refine Prog.wp_forM I blockIds ?_ ⟨h, hnodup, fun id hid => ⟨hids id hid, hall id hid⟩⟩
    intro id rest t ⟨ht, hnd, hrest⟩
    obtain ⟨hplain, habsent⟩ := hrest id List.mem_cons_self
    obtain ⟨hfirst, hnd⟩ := List.nodup_cons.1 hnd
    refine Prog.wp_mono (addBlock_wp hpart hplain ht habsent) ?_ fun _ _ he => he
    rintro _ u ⟨hu, hmap⟩
    refine ⟨hu, hnd, fun id' hid' => ?_⟩
    obtain ⟨hplain', habsent'⟩ := hrest id' (List.mem_cons_of_mem id hid')
    refine ⟨hplain', fun hc => ?_⟩
    rw [hmap] at hc
    rcases contains_insert hc with rfl | hc
    · exact hfirst hid'
    · exact habsent' hc
  unfold DeduplicationLog.addPart
  simp only [Prog.wp_bind, Prog.wp_get]
  refine Prog.wp_ite (fun _ => h) fun _ => ?_
  refine Prog.wp_ite (fun _ => h) fun hnil => ?_
  refine Prog.wp_ite (fun _ => h) fun _ => ?_
  rw [Prog.wp_bind]
  refine Prog.wp_mono (hloop (hnew (not_not.1 hnil))) ?_ fun _ _ he => he
  rintro _ t ⟨⟨removed, older, cur, ht⟩, _⟩
  exact ht.rotateAndDropIfNeeded

omit [NumberText] [LawfulNumberText] in
theorem rotateAndDropIfNeeded_map (log : DeduplicationLog) :
    log.rotateAndDropIfNeeded.formatVersion = log.formatVersion ∧
      log.rotateAndDropIfNeeded.deduplicationMap = log.deduplicationMap := by
  unfold DeduplicationLog.rotateAndDropIfNeeded
  split
  · have hrotate : log.rotate.formatVersion = log.formatVersion ∧
        log.rotate.deduplicationMap = log.deduplicationMap := by
      unfold DeduplicationLog.rotate
      split
      · exact ⟨rfl, rfl⟩
      · exact ⟨rfl, rfl⟩
    have hdrop := dropOutdatedLogs_sameMemory log.rotate
    exact ⟨hdrop.formatVersion.trans hrotate.1, hdrop.deduplicationMap.trans hrotate.2⟩
  · exact ⟨rfl, rfl⟩

omit [LawfulNumberText] in
/-- **One entry of a dropped part.** -/
theorem dropNode_wp {dropPartInfo : PartInfo} {node : String × PartInfo} (h : Consistent log)
    (hread : Readable log.formatVersion ⟨true, node.2, node.1⟩) :
    (dropNode dropPartInfo node).wp (fun _ t => Consistent t ∧ t.formatVersion = log.formatVersion)
      (fun _ t => Consistent t) log := by
  obtain ⟨removed, older, cur, hlog⟩ := h
  unfold dropNode
  refine Prog.wp_when (fun _ => ?_) fun _ => ⟨⟨removed, older, cur, hlog⟩, rfl⟩
  rw [Prog.wp_bind, Prog.wp_get, Prog.wp_bind, Prog.wp_lift]
  refine ⟨?_, fun _ _ => ⟨removed, older, cur, hlog⟩⟩
  intro name hname
  obtain ⟨_, rfl⟩ := getPartNameAndCheckFormat_eq_ok hname
  have hwrite := hlog.write hread (fun hadd => nomatch hadd)
  rw [Prog.wp_bind, Prog.wp_modify, Prog.wp_bind, Prog.wp_modify, Prog.wp_modify]
  exact ⟨hwrite.rotateAndDropIfNeeded, (rotateAndDropIfNeeded_map _).1⟩

omit [LawfulNumberText] in
theorem Holds.node_readable (h : Holds log removed older cur) {node : String × PartInfo}
    (hnode : node ∈ log.deduplicationMap.queue) : Readable log.formatVersion ⟨true, node.2, node.1⟩ := by
  rw [h.map] at hnode
  obtain ⟨e, he, _, hid, hinfo⟩ := mem_replay hnode
  obtain ⟨hname, hblock, hparse⟩ := h.readable e he
  rw [hinfo] at hname hparse
  rw [hid] at hblock
  exact ⟨hname, hblock, hparse⟩

omit [LawfulNumberText] in
theorem dropPart_wp (dropPartInfo : PartInfo) (h : Consistent log) :
    (DeduplicationLog.dropPart dropPartInfo).wp (fun _ t => Consistent t) (fun _ t => Consistent t) log := by
  have hread : ∀ node ∈ log.deduplicationMap.queue, Readable log.formatVersion ⟨true, node.2, node.1⟩ := by
    obtain ⟨removed, older, cur, hlog⟩ := h
    exact fun node hnode => hlog.node_readable hnode
  let I : List (String × PartInfo) → DeduplicationLog → Prop := fun rest t => Consistent t ∧
    t.formatVersion = log.formatVersion ∧ ∀ node ∈ rest, Readable log.formatVersion ⟨true, node.2, node.1⟩
  have hloop : (log.deduplicationMap.queue.forM (dropNode dropPartInfo)).wp (fun _ => I [])
      (fun _ t => Consistent t) log := by
    refine Prog.wp_forM I _ ?_ ⟨h, rfl, hread⟩
    intro node rest t ⟨ht, hv, hrest⟩
    have hnode := hrest node List.mem_cons_self
    rw [← hv] at hnode
    refine Prog.wp_mono (dropNode_wp ht hnode) ?_ fun _ _ he => he
    rintro _ u ⟨hu, huv⟩
    exact ⟨hu, huv.trans hv, fun x hx => hrest x (List.mem_cons_of_mem node hx)⟩
  unfold DeduplicationLog.dropPart
  simp only [Prog.wp_bind, Prog.wp_get]
  refine Prog.wp_when (fun _ => ?_) fun _ => h
  refine Prog.wp_ite (fun _ => h) fun _ => ?_
  exact Prog.wp_mono hloop (fun _ t ht => ht.1) fun _ _ he => he

/-- **A call keeps memory and files together**, whether it returns or throws. -/
theorem Consistent.call (h : Consistent log) {call : Call} (hcall : call.WellFormed) :
    Consistent (call.run log) := by
  cases call with
  | addPart blockIds partInfo => exact Prog.exec_snd_of_wp (addPart_wp hcall h)
  | dropPart dropPartInfo => exact Prog.exec_snd_of_wp (dropPart_wp dropPartInfo h)

end DeduplicationLog

end MergeTree
