import MergeTree.Proof.PartWriterGranules

/-!
# The columns of a wide part

The streams of a column are those of a replay of its marks: at every mark the position is
taken and then the chunks of the mark are serialized (`ColumnReplay`). While a mark is open
its position is saved in `last_non_written_marks` (`ColumnAligned`), and it goes to the mark
file with the rows of the mark once these are known.

Every stream has one column that writes it (`assignStreams`), so what one column does leaves
the others alone.
-/

namespace MergeTree

/-! ## Streams -/

section Streams

variable {σ : Type} (ops : BufferOps σ) (minCompressBlockSize : ℕ) {names : List String}

theorem getCurrentMarks_eq (hn : names.Nodup) (streams : Streams σ) :
    streams.getCurrentMarks ops minCompressBlockSize names =
      (fun name =>
        if name ∈ names then { streams name with buffer := ops.startMark minCompressBlockSize (streams name).buffer }
        else streams name,
      names.map fun name => ⟨name, ops.position (ops.startMark minCompressBlockSize (streams name).buffer)⟩) := by
  have hfold : ∀ (names : List String) (streams : Streams σ) (marks : List StreamNameAndMark), names.Nodup →
      names.foldl (Streams.takeMark ops minCompressBlockSize) (streams, marks) =
        (fun name =>
          if name ∈ names then { streams name with buffer := ops.startMark minCompressBlockSize (streams name).buffer }
          else streams name,
        marks ++ names.map fun name => ⟨name, ops.position (ops.startMark minCompressBlockSize (streams name).buffer)⟩) := by
    intro names
    induction names with
    | nil => intro streams marks _; simp
    | cons first rest ih =>
      intro streams marks hnodup
      obtain ⟨hfirst, hrest⟩ := List.nodup_cons.1 hnodup
      rw [List.foldl_cons, Streams.takeMark, ih _ _ hrest]
      refine Prod.ext (funext fun name => ?_) ?_
      · by_cases heq : name = first
        · subst heq
          simp [hfirst]
        · simp [heq]
      · have hmap : ∀ name ∈ rest, name ≠ first := fun name hname heq => hfirst (heq ▸ hname)
        simp only [List.map_cons, List.append_assoc, List.singleton_append]
        refine congrArg _ (congrArg _ (List.map_congr_left fun name hname => ?_))
        rw [Function.update_of_ne (hmap name hname)]
  exact (hfold names streams [] hn).trans (by rw [List.nil_append])

theorem flushMarks_eq (hn : names.Nodup) (adaptive : Bool) (rows : ℕ) (mark : String → MarkInCompressedFile)
    (streams : Streams σ) :
    streams.flushMarks adaptive rows (names.map fun name => ⟨name, mark name⟩) = fun name =>
      if name ∈ names then
        { streams name with marks := (streams name).marks ++ [(mark name, if adaptive then some rows else none)] }
      else streams name := by
  unfold Streams.flushMarks
  induction names generalizing streams with
  | nil => simp
  | cons first rest ih =>
    obtain ⟨hfirst, hrest⟩ := List.nodup_cons.1 hn
    rw [List.map_cons, List.foldl_cons, ih hrest]
    funext name
    by_cases heq : name = first
    · subst heq
      simp [hfirst, Streams.flushMarkToFile]
    · simp [heq, Streams.flushMarkToFile]

end Streams

/-! ## One column -/

section Column

variable {ρ κ σ τ α γ : Type} (cfg : WriterConfig ρ κ σ τ α γ) (c : WriterColumn ρ σ τ) (names : List String)

/-- The streams with these names, by their buffers. -/
def bufferGetter (buffers : String → σ) : String → Option σ := fun name => if name ∈ names then some (buffers name) else none

namespace ColumnReplay

/-- The state prefix. -/
def init : τ × (String → σ) :=
  let result := c.serialization.serializeBinaryBulkStatePrefix (bufferGetter names fun _ => cfg.bufferOps.fresh)
  (result.1, fun name => (result.2 name).getD cfg.bufferOps.fresh)

/-- Before a mark. -/
def start (r : τ × (String → σ)) : τ × (String → σ) :=
  (r.1, fun name => cfg.bufferOps.startMark c.minCompressBlockSize (r.2 name))

/-- A chunk of a mark. -/
def feed (r : τ × (String → σ)) (rows : List ρ) : τ × (String → σ) :=
  let result := c.serialization.serializeBinaryBulk (bufferGetter names r.2) rows r.1
  (result.1, fun name => cfg.bufferOps.nextIfAtEnd ((result.2 name).getD (r.2 name)))

/-- The state suffix. -/
def finish (r : τ × (String → σ)) : τ × (String → σ) :=
  let result := c.serialization.serializeBinaryBulkStateSuffix (bufferGetter names r.2) r.1
  (result.1, fun name => (result.2 name).getD (r.2 name))

/-- The marks, one after the other. -/
def run (marks : List (List (List ρ))) : τ × (String → σ) :=
  Replay.run (start cfg c) (feed cfg c names) (init cfg c names) marks

/-- The mark file of a stream: the position before the first row of every mark, and its rows. -/
def markFile (name : String) (marks : List (List (List ρ))) : List (MarkInCompressedFile × Option ℕ) :=
  List.zipWith
    (fun r chunks => (cfg.bufferOps.position (r.2 name), if cfg.canUseAdaptiveGranularity then some (Grouping.rowsOf chunks) else none))
    (Replay.starts (start cfg c) (feed cfg c names) (init cfg c names) marks) marks

theorem run_append (marks : List (List (List ρ))) (chunks : List (List ρ)) :
    run cfg c names (marks ++ [chunks]) =
      Replay.runUnit (start cfg c) (feed cfg c names) (run cfg c names marks) chunks :=
  Replay.run_append _ _ _ _ _

theorem markFile_append (name : String) (marks : List (List (List ρ))) (chunks : List (List ρ)) :
    markFile cfg c names name (marks ++ [chunks]) = markFile cfg c names name marks ++
      [(cfg.bufferOps.position ((start cfg c (run cfg c names marks)).2 name),
        if cfg.canUseAdaptiveGranularity then some (Grouping.rowsOf chunks) else none)] := by
  unfold markFile
  rw [Replay.starts_append, List.zipWith_append (Replay.length_starts _ _ _ _)]
  rfl

end ColumnReplay

/-- What a column has reached. -/
def columnReached (t : Grouping ρ) : τ × (String → σ) :=
  match t.opened with
  | none => ColumnReplay.run cfg c names t.done
  | some chunks => Replay.runUnit (ColumnReplay.start cfg c) (ColumnReplay.feed cfg c names) (ColumnReplay.run cfg c names t.done) chunks

/-- A column in the state of a replay. -/
structure Reached (r : τ × (String → σ)) (s : Writer.ColumnState σ τ) : Prop where
  state : s.serializationState = r.1
  buffers : ∀ name ∈ names, (s.streams name).buffer = r.2 name

/-- The marks that are saved for the open mark. -/
def savedMarks (t : Grouping ρ) : Option (List StreamNameAndMark) :=
  t.opened.map fun _ => names.map fun name =>
    ⟨name, cfg.bufferOps.position ((ColumnReplay.start cfg c (ColumnReplay.run cfg c names t.done)).2 name)⟩

/-- **A column that is written up to here.** -/
structure ColumnAligned (t : Grouping ρ) (s : Writer.ColumnState σ τ) : Prop where
  reached : Reached names (columnReached cfg c names t) s
  markFile : ∀ name ∈ names, (s.streams name).marks = ColumnReplay.markFile cfg c names name t.done
  saved : s.lastNonWrittenMarks = savedMarks cfg c names t

variable {cfg c names} {t : Grouping ρ} {s : Writer.ColumnState σ τ} {w : Writer ρ κ σ τ α} {l : List ℕ}
  {block : List ρ} {granule : Granule} {granules : List Granule}

theorem getter_eq {streams : Streams σ} {buffers : String → σ} (h : ∀ name ∈ names, (streams name).buffer = buffers name) :
    streams.getter names = bufferGetter names buffers := by
  funext name
  unfold Streams.getter bufferGetter
  by_cases hname : name ∈ names
  · rw [if_pos hname, if_pos hname, h name hname]
  · rw [if_neg hname, if_neg hname]

theorem reached_writeSingleGranule {r : τ × (String → σ)} (h : Reached names r s) (rows : List ρ) :
    Reached names (ColumnReplay.feed cfg c names r rows) (Writer.writeSingleGranule cfg c names rows s) := by
  have hget := getter_eq h.buffers
  refine ⟨?_, fun name hname => ?_⟩
  · simp only [Writer.writeSingleGranule, ColumnReplay.feed, hget, h.state]
  · simp only [Writer.writeSingleGranule, ColumnReplay.feed, Streams.nextIfAtEnd, Streams.written, if_pos hname, hget, h.state,
      h.buffers name hname]

theorem writeSingleGranule_marks (rows : List ρ) (name : String) :
    ((Writer.writeSingleGranule cfg c names rows s).streams name).marks = (s.streams name).marks := by
  unfold Writer.writeSingleGranule Streams.nextIfAtEnd Streams.written
  by_cases hname : name ∈ names <;> simp [hname]

theorem writeSingleGranule_frame (rows : List ρ) {name : String} (hname : name ∉ names) :
    (Writer.writeSingleGranule cfg c names rows s).streams name = s.streams name := by
  simp [Writer.writeSingleGranule, Streams.nextIfAtEnd, Streams.written, hname]

theorem exists_flushSavedMark (w : Writer ρ κ σ τ α) (hn : names.Nodup) (hg : GranuleOk l block t granule) (hl : w.indexGranularity.MarkRows l)
    {r : τ × (String → σ)} (hreached : Reached names r s)
    (hr : ColumnReplay.feed cfg c names r (granule.rows block) =
      Replay.runUnit (ColumnReplay.start cfg c) (ColumnReplay.feed cfg c names) (ColumnReplay.run cfg c names t.done)
        (t.opened.getD [] ++ [granule.rows block]))
    (hmarks : ∀ name ∈ names, (s.streams name).marks = ColumnReplay.markFile cfg c names name t.done)
    (hsaved : s.lastNonWrittenMarks = savedMarks cfg c names ⟨t.done, some []⟩) :
    ∃ s', w.flushSavedMark cfg c granule (Writer.writeSingleGranule cfg c names (granule.rows block) s) = .ok s' ∧
      ColumnAligned cfg c names (feedGranule block t granule) s' ∧ ∀ name ∉ names, s'.streams name = s.streams name := by
  have hreached' : Reached names (ColumnReplay.feed cfg c names r (granule.rows block))
      (Writer.writeSingleGranule cfg c names (granule.rows block) s) := reached_writeSingleGranule hreached _
  rw [hr] at hreached'
  have hsaved' : (Writer.writeSingleGranule cfg c names (granule.rows block) s).lastNonWrittenMarks =
      savedMarks cfg c names ⟨t.done, some []⟩ := hsaved
  unfold Writer.flushSavedMark
  by_cases hc : granule.isComplete = true
  · obtain ⟨hlt, -, hcomplete⟩ := hg.planned
    have hrows := hl.rows _ hlt
    have hsum : l.get ⟨t.done.length, hlt⟩ = Grouping.rowsOf (t.opened.getD [] ++ [granule.rows block]) := by
      rw [← hcomplete.1 hc, Grouping.rowsOf_append, hg.length]
      rfl
    have hfeed : feedGranule block t granule = ⟨t.done ++ [t.opened.getD [] ++ [granule.rows block]], none⟩ := by
      simp [feedGranule, Grouping.feed, hc]
    have hflush := flushMarks_eq hn cfg.canUseAdaptiveGranularity
      (Grouping.rowsOf (t.opened.getD [] ++ [granule.rows block]))
      (fun name => cfg.bufferOps.position ((ColumnReplay.start cfg c (ColumnReplay.run cfg c names t.done)).2 name))
      (Writer.writeSingleGranule cfg c names (granule.rows block) s).streams
    rw [hsum] at hrows
    rw [if_pos hc, hsaved', hfeed, hg.markNumber, hrows]
    refine ⟨_, rfl, ⟨⟨?_, fun name hname => ?_⟩, fun name hname => ?_, rfl⟩, fun name hname => ?_⟩
    · simp only [columnReached, ColumnReplay.run_append]
      exact hreached'.state
    · simp only [columnReached, ColumnReplay.run_append, hflush, if_pos hname]
      exact hreached'.buffers name hname
    · simp only [hflush, if_pos hname, writeSingleGranule_marks, hmarks name hname, ColumnReplay.markFile_append]
    · simp only [hflush, if_neg hname]
      exact writeSingleGranule_frame _ hname
  · have hfeed : feedGranule block t granule = ⟨t.done, some (t.opened.getD [] ++ [granule.rows block])⟩ := by
      simp [feedGranule, Grouping.feed, hc]
    rw [if_neg hc, hfeed]
    refine ⟨_, rfl, ⟨hreached', fun name hname => ?_, hsaved'⟩, fun name hname => writeSingleGranule_frame _ hname⟩
    rw [writeSingleGranule_marks]
    exact hmarks name hname

theorem exists_writeGranule (hn : names.Nodup) (h : ColumnAligned cfg c names t s) (hg : GranuleOk l block t granule)
    (hl : w.indexGranularity.MarkRows l) :
    ∃ s', w.writeGranule cfg c names block s granule = .ok s' ∧
      ColumnAligned cfg c names (feedGranule block t granule) s' ∧ ∀ name ∉ names, s'.streams name = s.streams name := by
  unfold Writer.writeGranule Writer.saveMark
  cases hopened : t.opened with
  | none =>
    have hstart : granule.markOnStart = true := by rw [hg.markOnStart, hopened]; rfl
    have hsaved : s.lastNonWrittenMarks = none := by rw [h.saved, savedMarks, hopened]; rfl
    have hreached := h.reached
    simp only [columnReached, hopened] at hreached
    have hmarks := getCurrentMarks_eq cfg.bufferOps c.minCompressBlockSize hn s.streams
    -- the state once the mark is taken
    let started : Writer.ColumnState σ τ :=
      { s with
        lastNonWrittenMarks := some (s.streams.getCurrentMarks cfg.bufferOps c.minCompressBlockSize names).2
        streams := (s.streams.getCurrentMarks cfg.bufferOps c.minCompressBlockSize names).1 }
    have hstarted : Reached names (ColumnReplay.start cfg c (ColumnReplay.run cfg c names t.done)) started := by
      refine ⟨hreached.state, fun name hname => ?_⟩
      simp only [started, hmarks, if_pos hname, hreached.buffers name hname]
      rfl
    obtain ⟨s', hrun, haligned, hframe⟩ := exists_flushSavedMark w hn hg hl hstarted
      (by rw [hopened]; rfl) (fun name hname => by simp only [started, hmarks, if_pos hname, h.markFile name hname])
      (by
        simp only [started, hmarks, savedMarks, Option.map_some]
        exact congrArg some (List.map_congr_left fun name hname => by rw [hreached.buffers name hname]; rfl))
    refine ⟨s', ?_, haligned, fun name hname => ?_⟩
    · simp only [hstart, hsaved, if_true, Option.isSome_none]
      exact hrun
    · rw [hframe name hname]
      simp only [started, hmarks, if_neg hname]
  | some chunks =>
    have hstart : granule.markOnStart = false := by rw [hg.markOnStart, hopened]; rfl
    have hreached := h.reached
    simp only [columnReached, hopened] at hreached
    obtain ⟨s', hrun, haligned, hframe⟩ := exists_flushSavedMark w hn hg hl hreached
      (by rw [hopened]; simp [Replay.runUnit]) h.markFile (by rw [h.saved, savedMarks, savedMarks, hopened]; rfl)
    refine ⟨s', ?_, haligned, hframe⟩
    simp only [hstart]
    exact hrun

/-- **All granules of a block**, by induction on the granules. -/
theorem exists_writeGranules (hn : names.Nodup) (hl : w.indexGranularity.MarkRows l) (hvalid : Valid l block t granules)
    (h : ColumnAligned cfg c names t s) :
    ∃ s', granules.foldlM (w.writeGranule cfg c names block) s = .ok s' ∧
      ColumnAligned cfg c names (feedAll block t granules) s' ∧ ∀ name ∉ names, s'.streams name = s.streams name := by
  induction granules generalizing t s with
  | nil => exact ⟨s, rfl, h, fun _ _ => rfl⟩
  | cons granule rest ih =>
    obtain ⟨hg, -, hrest⟩ := hvalid
    obtain ⟨s₁, hstep, h₁, hframe₁⟩ := exists_writeGranule hn h hg hl
    obtain ⟨s', hrun, h', hframe⟩ := ih hrest h₁
    refine ⟨s', ?_, h', fun name hname => (hframe name hname).trans (hframe₁ name hname)⟩
    rw [List.foldlM_cons, hstep]
    exact hrun

theorem ColumnAligned.congr (h : ColumnAligned cfg c names t s) {s' : Writer.ColumnState σ τ}
    (hstate : s'.serializationState = s.serializationState) (hsaved : s'.lastNonWrittenMarks = s.lastNonWrittenMarks)
    (hstreams : ∀ name ∈ names, s'.streams name = s.streams name) : ColumnAligned cfg c names t s' := by
  refine ⟨⟨hstate.trans h.reached.state, fun name hname => ?_⟩, fun name hname => ?_, hsaved.trans h.saved⟩
  · rw [hstreams name hname]
    exact h.reached.buffers name hname
  · rw [hstreams name hname]
    exact h.markFile name hname

end Column

/-! ## All columns -/

section Columns

variable {ρ κ σ τ α γ : Type}

/-- The columns with the streams each of them writes. -/
def assignStreams : List String → List (WriterColumn ρ σ τ) → List (WriterColumn ρ σ τ × List String)
  | _, [] => []
  | offsetSubstreams, c :: rest => (c, c.streamNames offsetSubstreams) :: assignStreams (offsetSubstreams ++ c.offsetNames) rest

/-- **What makes a writer's configuration sane.** Streams of different columns have
different names, but for the offsets of a Nested type. An aggregator is empty exactly when
no row was added to it. -/
structure WriterConfig.WellFormed (cfg : WriterConfig ρ κ σ τ α γ) : Prop where
  columnNames : (cfg.columnsList.map WriterColumn.name).Nodup
  streamNames : ∀ c ∈ cfg.columnsList, (c.substreams.map Substream.streamName).Nodup
  shared : cfg.columnsList.Pairwise fun c d => ∀ s ∈ c.substreams, ∀ s' ∈ d.substreams,
    s.streamName = s'.streamName → s.isOffsets = true ∧ s'.isOffsets = true
  indexStreams : ∀ idx ∈ cfg.skipIndices, idx.substreams.Nodup
  indexGranularity : ∀ idx ∈ cfg.skipIndices, 1 ≤ idx.granularity
  emptyUpdated : ∀ idx ∈ cfg.skipIndices, ∀ chunks : List (List ρ),
    idx.empty (chunks.foldl idx.update idx.createIndexAggregator) = chunks.all List.isEmpty
  emptyReset : ∀ idx ∈ cfg.skipIndices, ∀ aggregator, idx.empty (idx.getGranuleAndReset aggregator).2 = true

/-- Two columns that share neither their names nor their streams. -/
def Separate (p q : WriterColumn ρ σ τ × List String) : Prop := p.1.name ≠ q.1.name ∧ p.2.Disjoint q.2

theorem mem_assignStreams {offsetSubstreams : List String} {columns : List (WriterColumn ρ σ τ)}
    {q : WriterColumn ρ σ τ × List String} (hq : q ∈ assignStreams offsetSubstreams columns) :
    q.1 ∈ columns ∧ q.2.Sublist (q.1.substreams.map Substream.streamName) ∧
      ∀ name ∈ q.2, ∃ s ∈ q.1.substreams, s.streamName = name ∧ (s.isOffsets = true → name ∉ offsetSubstreams) := by
  induction columns generalizing offsetSubstreams with
  | nil => simp [assignStreams] at hq
  | cons c rest ih =>
    rcases List.mem_cons.1 hq with rfl | hrest
    · refine ⟨List.mem_cons_self, List.Sublist.map _ List.filter_sublist, fun name hname => ?_⟩
      obtain ⟨s, hs, rfl⟩ := List.mem_map.1 hname
      obtain ⟨hmem, hvisible⟩ := List.mem_filter.1 hs
      refine ⟨s, hmem, rfl, fun hoffsets => ?_⟩
      simpa [hoffsets] using hvisible
    · obtain ⟨hmem, hsub, hstreams⟩ := ih hrest
      refine ⟨List.mem_cons_of_mem _ hmem, hsub, fun name hname => ?_⟩
      obtain ⟨s, hs, hname', hoffsets⟩ := hstreams name hname
      exact ⟨s, hs, hname', fun ho hin => hoffsets ho (List.mem_append_left _ hin)⟩

theorem pairwise_assignStreams {columns : List (WriterColumn ρ σ τ)} (hnames : (columns.map WriterColumn.name).Nodup)
    (hshared : columns.Pairwise fun c d => ∀ s ∈ c.substreams, ∀ s' ∈ d.substreams,
      s.streamName = s'.streamName → s.isOffsets = true ∧ s'.isOffsets = true) (offsetSubstreams : List String) :
    (assignStreams offsetSubstreams columns).Pairwise Separate := by
  induction columns generalizing offsetSubstreams with
  | nil => exact List.Pairwise.nil
  | cons c rest ih =>
    obtain ⟨hname, hnames⟩ := List.nodup_cons.1 hnames
    obtain ⟨hfirst, hshared⟩ := List.pairwise_cons.1 hshared
    refine List.pairwise_cons.2 ⟨fun q hq => ?_, ih hnames hshared _⟩
    obtain ⟨hmem, -, hstreams⟩ := mem_assignStreams hq
    refine ⟨fun heq => hname (List.mem_map.2 ⟨q.1, hmem, heq.symm⟩), fun name hc hq' => ?_⟩
    obtain ⟨s, hs, rfl⟩ := List.mem_map.1 hc
    obtain ⟨s', hs', hname', hoffsets⟩ := hstreams _ hq'
    -- a shared stream has offsets, which the first column wrote
    obtain ⟨ho, ho'⟩ := hfirst q.1 hmem s (List.mem_filter.1 hs).1 s' hs' hname'.symm
    refine hoffsets ho' (List.mem_append_right _ (List.mem_map.2 ⟨s, List.mem_filter.2 ⟨(List.mem_filter.1 hs).1, ho⟩, rfl⟩))

variable {cfg : WriterConfig ρ κ σ τ α γ} {t : Grouping ρ} {w w' : Writer ρ κ σ τ α} {l : List ℕ} {block : List ρ}
  {granules : List Granule} {p q : WriterColumn ρ σ τ × List String} {ps : List (WriterColumn ρ σ τ × List String)}

/-- A column of the writer that is written up to here. -/
def ColumnAt (cfg : WriterConfig ρ κ σ τ α γ) (t : Grouping ρ) (w : Writer ρ κ σ τ α) (p : WriterColumn ρ σ τ × List String) :
    Prop :=
  ∃ state, w.serializationStates p.1.name = some state ∧
    ColumnAligned cfg p.1 p.2 t ⟨state, w.lastNonWrittenMarks p.1.name, w.columnStreams⟩

/-- A column before the first block. -/
structure ColumnFresh (cfg : WriterConfig ρ κ σ τ α γ) (w : Writer ρ κ σ τ α) (p : WriterColumn ρ σ τ × List String) :
    Prop where
  state : w.serializationStates p.1.name = none
  saved : w.lastNonWrittenMarks p.1.name = none
  streams : ∀ name ∈ p.2, w.columnStreams name = { buffer := cfg.bufferOps.fresh }

/-- What is done for some columns changes nothing else. -/
structure ColumnsOnly (ps : List (WriterColumn ρ σ τ × List String)) (w w' : Writer ρ κ σ τ α) : Prop where
  writer : ∃ dataWritten states saved streams, w' = { w with
    dataWritten := dataWritten
    serializationStates := states
    lastNonWrittenMarks := saved
    columnStreams := streams }
  names : ∀ name, (∀ p ∈ ps, p.1.name ≠ name) →
    w'.serializationStates name = w.serializationStates name ∧ w'.lastNonWrittenMarks name = w.lastNonWrittenMarks name
  streams : ∀ name, (∀ p ∈ ps, name ∉ p.2) → w'.columnStreams name = w.columnStreams name

theorem ColumnsOnly.refl (w : Writer ρ κ σ τ α) : ColumnsOnly ps w w :=
  ⟨⟨_, _, _, _, rfl⟩, fun _ _ => ⟨rfl, rfl⟩, fun _ _ => rfl⟩

theorem ColumnsOnly.trans {w'' : Writer ρ κ σ τ α} (h : ColumnsOnly [p] w w') (h' : ColumnsOnly ps w' w'') :
    ColumnsOnly (p :: ps) w w'' := by
  obtain ⟨_, _, _, _, heq⟩ := h.writer
  obtain ⟨_, _, _, _, heq'⟩ := h'.writer
  refine ⟨⟨_, _, _, _, heq'.trans (by rw [heq])⟩, fun name hname => ?_, fun name hname => ?_⟩
  · have h₁ := h.names name fun q hq => hname q (List.mem_cons.2 (Or.inl (List.mem_singleton.1 hq)))
    have h₂ := h'.names name fun q hq => hname q (List.mem_cons_of_mem _ hq)
    exact ⟨h₂.1.trans h₁.1, h₂.2.trans h₁.2⟩
  · have h₁ := h.streams name fun q hq => hname q (List.mem_cons.2 (Or.inl (List.mem_singleton.1 hq)))
    exact (h'.streams name fun q hq => hname q (List.mem_cons_of_mem _ hq)).trans h₁

theorem ColumnAt.frame (h : ColumnAt cfg t w q) (honly : ColumnsOnly ps w w') (hsep : ∀ p ∈ ps, Separate p q) :
    ColumnAt cfg t w' q := by
  obtain ⟨state, hstate, haligned⟩ := h
  have hnames := honly.names q.1.name fun p hp => (hsep p hp).1
  refine ⟨state, hnames.1.trans hstate, haligned.congr rfl hnames.2 fun name hname => ?_⟩
  exact honly.streams name fun p hp hin => (hsep p hp).2 hin hname

theorem ColumnFresh.frame (h : ColumnFresh cfg w q) (honly : ColumnsOnly ps w w') (hsep : ∀ p ∈ ps, Separate p q) :
    ColumnFresh cfg w' q := by
  have hnames := honly.names q.1.name fun p hp => (hsep p hp).1
  refine ⟨hnames.1.trans h.state, hnames.2.trans h.saved, fun name hname => ?_⟩
  rw [honly.streams name fun p hp hin => (hsep p hp).2 hin hname]
  exact h.streams name hname

/-- A column of the writer, before the first block or later. -/
def ColumnInv (cfg : WriterConfig ρ κ σ τ α γ) (t : Grouping ρ) (w : Writer ρ κ σ τ α) (p : WriterColumn ρ σ τ × List String) :
    Prop :=
  ColumnAt cfg t w p ∨ t = {} ∧ ColumnFresh cfg w p

theorem ColumnInv.frame (h : ColumnInv cfg t w q) (honly : ColumnsOnly ps w w') (hsep : ∀ p ∈ ps, Separate p q) :
    ColumnInv cfg t w' q :=
  h.imp (fun h => h.frame honly hsep) fun h => ⟨h.1, h.2.frame honly hsep⟩

theorem ColumnInv.columnState (h : ColumnInv cfg t w p) :
    ColumnAligned cfg p.1 p.2 t (w.columnState p.1 p.2) ∧
      ∀ name ∉ p.2, (w.columnState p.1 p.2).streams name = w.columnStreams name := by
  unfold Writer.columnState
  rcases h with ⟨state, hstate, haligned⟩ | ⟨rfl, hfresh⟩
  · rw [hstate]
    exact ⟨haligned, fun _ _ => rfl⟩
  · rw [hfresh.state]
    have hget : w.columnStreams.getter p.2 = bufferGetter p.2 fun _ => cfg.bufferOps.fresh :=
      getter_eq fun name hname => by rw [hfresh.streams name hname]
    refine ⟨⟨⟨?_, fun name hname => ?_⟩, fun name hname => ?_, hfresh.saved⟩, fun name hname => ?_⟩
    · simp only [hget]
      rfl
    · simp only [Streams.written, if_pos hname, hget, hfresh.streams name hname]
      rfl
    · simp only [Streams.written, if_pos hname, hfresh.streams name hname]
      rfl
    · simp only [Streams.written, if_neg hname]

theorem exists_writeColumn {offsetSubstreams : List String} {c : WriterColumn ρ σ τ} (hne : granules ≠ [])
    (hn : (c.streamNames offsetSubstreams).Nodup) (hl : w.indexGranularity.MarkRows l) (hvalid : Valid l block t granules)
    (h : ColumnInv cfg t w (c, c.streamNames offsetSubstreams)) :
    ∃ w', Writer.writeColumn cfg granules block (w, offsetSubstreams) c = .ok (w', offsetSubstreams ++ c.offsetNames) ∧
      ColumnAt cfg (feedAll block t granules) w' (c, c.streamNames offsetSubstreams) ∧
      ColumnsOnly [(c, c.streamNames offsetSubstreams)] w w' ∧ w'.dataWritten = true := by
  obtain ⟨haligned, hframe⟩ := h.columnState
  obtain ⟨s', hrun, haligned', hframe'⟩ := exists_writeGranules hn hl hvalid haligned
  unfold Writer.writeColumn
  simp only [List.isEmpty_iff, if_neg hne, hrun]
  refine ⟨_, rfl, ⟨s'.serializationState, by simp, ?_⟩, ⟨⟨_, _, _, _, rfl⟩, fun name hname => ?_, fun name hname => ?_⟩, rfl⟩
  · exact haligned'.congr rfl (by simp) fun _ _ => rfl
  · have hne' : name ≠ c.name := fun heq => hname _ List.mem_cons_self heq.symm
    simp [Function.update_of_ne hne']
  · have hname' := hname _ List.mem_cons_self
    exact (hframe' name hname').trans (hframe name hname')

/-- **All columns of a block**, by induction on the columns: those before are written, those
after are as they were. -/
theorem exists_writeColumns (hne : granules ≠ []) (hvalid : Valid l block t granules) :
    ∀ {columns : List (WriterColumn ρ σ τ)} {offsetSubstreams : List String} {w : Writer ρ κ σ τ α},
      w.indexGranularity.MarkRows l → (assignStreams offsetSubstreams columns).Pairwise Separate →
      (∀ p ∈ assignStreams offsetSubstreams columns, p.2.Nodup ∧ ColumnInv cfg t w p) →
      ∃ w' offsets, columns.foldlM (Writer.writeColumn cfg granules block) (w, offsetSubstreams) = .ok (w', offsets) ∧
        (∀ p ∈ assignStreams offsetSubstreams columns, ColumnAt cfg (feedAll block t granules) w' p) ∧
        ColumnsOnly (assignStreams offsetSubstreams columns) w w' ∧
        (w.dataWritten = true ∨ columns ≠ [] → w'.dataWritten = true) := by
  intro columns
  induction columns with
  | nil => exact fun {_ w} _ _ _ => ⟨w, _, rfl, fun _ hp => absurd hp List.not_mem_nil, ColumnsOnly.refl w,
      fun h => h.resolve_right fun h0 => h0 rfl⟩
  | cons c rest ih =>
    intro offsetSubstreams w hl hsep hinv
    obtain ⟨hfirst, hsep'⟩ := List.pairwise_cons.1 hsep
    obtain ⟨hnodup, hc⟩ := hinv _ List.mem_cons_self
    obtain ⟨w₁, hstep, hat, honly, hdata⟩ := exists_writeColumn hne hnodup hl hvalid hc
    obtain ⟨_, _, _, _, heq⟩ := honly.writer
    obtain ⟨w', offsets, hrun, hats, honly', hdata'⟩ := ih (w := w₁) (by rw [heq]; exact hl) hsep' fun q hq => by
      obtain ⟨hnodup', hq'⟩ := hinv q (List.mem_cons_of_mem _ hq)
      exact ⟨hnodup', hq'.frame honly fun p hp => by rw [List.mem_singleton.1 hp]; exact hfirst q hq⟩
    refine ⟨w', offsets, ?_, fun q hq => ?_, honly.trans honly', fun _ => hdata' (Or.inl hdata)⟩
    · rw [List.foldlM_cons, hstep]
      exact hrun
    · rcases List.mem_cons.1 hq with rfl | hq
      · exact hat.frame honly' fun p hp => ⟨(hfirst p hp).1.symm, (hfirst p hp).2.symm⟩
      · exact hats q hq

/-! ## The last mark -/

theorem flushColumns_eq (rows : ℕ) {saved : String → Option (List StreamNameAndMark)}
    {mark : WriterColumn ρ σ τ × List String → String → MarkInCompressedFile} (adaptive : Bool) (hsep : ps.Pairwise Separate)
    (hsaved : ∀ p ∈ ps, p.2.Nodup ∧ saved p.1.name = some (p.2.map fun name => ⟨name, mark p name⟩)) (streams : Streams σ) :
    let result := ps.foldl (fun streams p => streams.flushMarks adaptive rows ((saved p.1.name).getD [])) streams
    (∀ p ∈ ps, ∀ name ∈ p.2, result name =
      { streams name with marks := (streams name).marks ++ [(mark p name, if adaptive then some rows else none)] }) ∧
    ∀ name, (∀ p ∈ ps, name ∉ p.2) → result name = streams name := by
  induction ps generalizing streams with
  | nil => simp
  | cons p ps ih =>
    obtain ⟨hfirst, hsep'⟩ := List.pairwise_cons.1 hsep
    obtain ⟨hnodup, hp⟩ := hsaved p List.mem_cons_self
    obtain ⟨hwritten, hframe⟩ := ih hsep' (fun q hq => hsaved q (List.mem_cons_of_mem _ hq))
      (streams.flushMarks adaptive rows ((saved p.1.name).getD []))
    have hflush := flushMarks_eq hnodup adaptive rows (mark p) streams
    rw [hp, Option.getD_some, hflush] at hwritten hframe
    simp only [List.foldl_cons, hp, Option.getD_some, hflush]
    refine ⟨fun q hq name hname => ?_, fun name hname => ?_⟩
    · rcases List.mem_cons.1 hq with rfl | hq
      · rw [hframe name fun q' hq' hin => (hfirst q' hq').2 hname hin]
        simp only [if_pos hname]
      · have hother : name ∉ p.2 := fun hin => (hfirst q hq).2 hin hname
        rw [hwritten q hq name hname]
        simp only [if_neg hother]
    · rw [hframe name fun q hq => hname q (List.mem_cons_of_mem _ hq)]
      simp only [if_neg (hname p List.mem_cons_self)]

theorem map_fst_assignStreams (offsetSubstreams : List String) (columns : List (WriterColumn ρ σ τ)) :
    (assignStreams offsetSubstreams columns).map Prod.fst = columns := by
  induction columns generalizing offsetSubstreams with
  | nil => rfl
  | cons c rest ih => simp only [assignStreams, List.map_cons, ih]

theorem columnAt_flushSavedMarks {chunks : List (List ρ)} (hopened : t.opened = some chunks)
    (hsep : (assignStreams cfg.writtenOffsetSubstreams cfg.columnsList).Pairwise Separate)
    (h : ∀ p ∈ assignStreams cfg.writtenOffsetSubstreams cfg.columnsList, p.2.Nodup ∧ ColumnAt cfg t w p)
    (hp : p ∈ assignStreams cfg.writtenOffsetSubstreams cfg.columnsList) :
    ColumnAt cfg t.close (w.flushSavedMarks cfg (Grouping.rowsOf chunks)) p := by
  have hsaved : ∀ p ∈ assignStreams cfg.writtenOffsetSubstreams cfg.columnsList, p.2.Nodup ∧
      w.lastNonWrittenMarks p.1.name = some (p.2.map fun name =>
        ⟨name, cfg.bufferOps.position ((ColumnReplay.start cfg p.1 (ColumnReplay.run cfg p.1 p.2 t.done)).2 name)⟩) := by
    intro p hp
    obtain ⟨hnodup, state, hstate, haligned⟩ := h p hp
    refine ⟨hnodup, ?_⟩
    have hsaved := haligned.saved
    rw [savedMarks, hopened] at hsaved
    exact hsaved
  obtain ⟨hwritten, -⟩ := flushColumns_eq (Grouping.rowsOf chunks) cfg.canUseAdaptiveGranularity hsep hsaved w.columnStreams
  have hfold : (w.flushSavedMarks cfg (Grouping.rowsOf chunks)).columnStreams =
      (assignStreams cfg.writtenOffsetSubstreams cfg.columnsList).foldl (fun streams p =>
        streams.flushMarks cfg.canUseAdaptiveGranularity (Grouping.rowsOf chunks) ((w.lastNonWrittenMarks p.1.name).getD []))
        w.columnStreams := by
    conv_lhs => rw [Writer.flushSavedMarks, ← map_fst_assignStreams cfg.writtenOffsetSubstreams cfg.columnsList]
    simp only [List.foldl_map]
  rw [← hfold] at hwritten
  obtain ⟨-, state, hstate, haligned⟩ := h p hp
  have hreached := haligned.reached
  rw [columnReached, hopened] at hreached
  have hall : t.close.done = t.done ++ [chunks] := by simp [Grouping.close, Grouping.all, hopened]
  have hnone : t.close.opened = none := rfl
  refine ⟨state, hstate, ⟨⟨?_, fun name hname => ?_⟩, fun name hname => ?_, ?_⟩⟩
  · rw [columnReached, hnone, hall, ColumnReplay.run_append]
    exact hreached.state
  · rw [columnReached, hnone, hall, ColumnReplay.run_append]
    simp only [hwritten p hp name hname]
    exact hreached.buffers name hname
  · rw [hall, ColumnReplay.markFile_append]
    simp only [hwritten p hp name hname]
    exact congrArg (· ++ _) (haligned.markFile name hname)
  · rw [savedMarks, hnone]
    rfl

/-- **A column in the end**: a mark for every mark, then the final mark after the state suffix. -/
structure ColumnFinal (cfg : WriterConfig ρ κ σ τ α γ) (marks : List (List (List ρ))) (streams : Streams σ)
    (p : WriterColumn ρ σ τ × List String) : Prop where
  buffers : ∀ name ∈ p.2, (streams name).buffer =
    (ColumnReplay.start cfg p.1 (ColumnReplay.finish p.1 p.2 (ColumnReplay.run cfg p.1 p.2 marks))).2 name
  markFile : ∀ name ∈ p.2, (streams name).marks = ColumnReplay.markFile cfg p.1 p.2 name marks ++
    [(cfg.bufferOps.position
        ((ColumnReplay.start cfg p.1 (ColumnReplay.finish p.1 p.2 (ColumnReplay.run cfg p.1 p.2 marks))).2 name),
      if cfg.canUseAdaptiveGranularity then some 0 else none)]

theorem columnFinal_finalizeColumn {offsetSubstreams : List String} {c : WriterColumn ρ σ τ}
    (hn : (c.streamNames offsetSubstreams).Nodup) (hopened : t.opened = none)
    (h : ColumnAt cfg t w (c, c.streamNames offsetSubstreams)) :
    ∃ w', Writer.finalizeColumn cfg true true (w, offsetSubstreams) c = (w', offsetSubstreams ++ c.offsetNames) ∧
      ColumnFinal cfg t.done w'.columnStreams (c, c.streamNames offsetSubstreams) ∧
      ColumnsOnly [(c, c.streamNames offsetSubstreams)] w w' ∧ w'.dataWritten = w.dataWritten := by
  obtain ⟨state, hstate, haligned⟩ := h
  have hreached := haligned.reached
  rw [columnReached, hopened] at hreached
  have hget : w.columnStreams.getter _ = _ := getter_eq hreached.buffers
  have hrun : state = (ColumnReplay.run cfg c (c.streamNames offsetSubstreams) t.done).1 := hreached.state
  -- the streams after the state suffix, then with the final mark
  let suffixed := w.columnStreams.written (c.streamNames offsetSubstreams)
    (c.serialization.serializeBinaryBulkStateSuffix (w.columnStreams.getter (c.streamNames offsetSubstreams)) state).2
  have hsuffixed : ∀ name ∈ c.streamNames offsetSubstreams, (suffixed name).buffer =
      (ColumnReplay.finish c (c.streamNames offsetSubstreams)
        (ColumnReplay.run cfg c (c.streamNames offsetSubstreams) t.done)).2 name ∧
      (suffixed name).marks = (w.columnStreams name).marks := by
    intro name hname
    simp only [suffixed, Streams.written, if_pos hname, ColumnReplay.finish, hget, hrun]
    refine ⟨?_, trivial⟩
    rw [show (w.columnStreams name).buffer = _ from hreached.buffers name hname]
  have hmarks := getCurrentMarks_eq cfg.bufferOps c.minCompressBlockSize hn suffixed
  have hflush := flushMarks_eq hn cfg.canUseAdaptiveGranularity 0
    (fun name => cfg.bufferOps.position (cfg.bufferOps.startMark c.minCompressBlockSize (suffixed name).buffer))
    (suffixed.getCurrentMarks cfg.bufferOps c.minCompressBlockSize (c.streamNames offsetSubstreams)).1
  let final := (suffixed.getCurrentMarks cfg.bufferOps c.minCompressBlockSize (c.streamNames offsetSubstreams)).1.flushMarks
    cfg.canUseAdaptiveGranularity 0
    (suffixed.getCurrentMarks cfg.bufferOps c.minCompressBlockSize (c.streamNames offsetSubstreams)).2
  have hfinal : ∀ name, final name = if name ∈ c.streamNames offsetSubstreams then
      { buffer := cfg.bufferOps.startMark c.minCompressBlockSize (suffixed name).buffer
        marks := (suffixed name).marks ++
          [(cfg.bufferOps.position (cfg.bufferOps.startMark c.minCompressBlockSize (suffixed name).buffer),
            if cfg.canUseAdaptiveGranularity then some 0 else none)] }
      else suffixed name := by
    intro name
    simp only [final]
    rw [hmarks] at hflush ⊢
    rw [hflush]
    by_cases hname : name ∈ c.streamNames offsetSubstreams
    · simp only [if_pos hname]
    · simp only [if_neg hname]
  refine ⟨{ w with
      serializationStates := Function.update w.serializationStates c.name (some (c.serialization.serializeBinaryBulkStateSuffix
        (w.columnStreams.getter (c.streamNames offsetSubstreams)) state).1)
      columnStreams := final }, ?_, ⟨fun name hname => ?_, fun name hname => ?_⟩,
    ⟨⟨_, _, _, _, rfl⟩, fun name hname => ?_, fun name hname => ?_⟩, rfl⟩
  · simp only [Writer.finalizeColumn, hstate, if_true]
    rfl
  · simp only [hfinal, if_pos hname, (hsuffixed name hname).1]
    rfl
  · simp only [hfinal, if_pos hname, (hsuffixed name hname).1, (hsuffixed name hname).2]
    exact congrArg (· ++ _) (haligned.markFile name hname)
  · have hne' : name ≠ c.name := fun heq => hname _ List.mem_cons_self heq.symm
    simp [Function.update_of_ne hne']
  · have hname' : name ∉ c.streamNames offsetSubstreams := hname _ List.mem_cons_self
    simp only [hfinal, if_neg hname', suffixed, Streams.written]

theorem columnFinal_finalizeColumns (cfg : WriterConfig ρ κ σ τ α γ) (hopened : t.opened = none) :
    ∀ {columns : List (WriterColumn ρ σ τ)} {offsetSubstreams : List String} {w : Writer ρ κ σ τ α},
      (assignStreams offsetSubstreams columns).Pairwise Separate →
      (∀ p ∈ assignStreams offsetSubstreams columns, p.2.Nodup ∧ ColumnAt cfg t w p) →
      ∃ w' offsets, columns.foldl (Writer.finalizeColumn cfg true true) (w, offsetSubstreams) = (w', offsets) ∧
        (∀ p ∈ assignStreams offsetSubstreams columns, ColumnFinal cfg t.done w'.columnStreams p) ∧
        ColumnsOnly (assignStreams offsetSubstreams columns) w w' ∧ w'.dataWritten = w.dataWritten := by
  intro columns
  induction columns with
  | nil => exact fun {_ w} _ _ => ⟨w, _, rfl, fun _ hp => absurd hp List.not_mem_nil, ColumnsOnly.refl w, rfl⟩
  | cons c rest ih =>
    intro offsetSubstreams w hsep hinv
    obtain ⟨hfirst, hsep'⟩ := List.pairwise_cons.1 hsep
    obtain ⟨hnodup, hc⟩ := hinv _ List.mem_cons_self
    obtain ⟨w₁, hstep, hfinal, honly, hdata⟩ := columnFinal_finalizeColumn hnodup hopened hc
    obtain ⟨w', offsets, hrun, hfinals, honly', hdata'⟩ := ih (w := w₁) hsep' fun q hq => by
      obtain ⟨hnodup', hq'⟩ := hinv q (List.mem_cons_of_mem _ hq)
      exact ⟨hnodup', hq'.frame honly fun p hp => by rw [List.mem_singleton.1 hp]; exact hfirst q hq⟩
    refine ⟨w', offsets, ?_, fun q hq => ?_, honly.trans honly', hdata'.trans hdata⟩
    · rw [List.foldl_cons, hstep]
      exact hrun
    · rcases List.mem_cons.1 hq with rfl | hq
      · have hsame : ∀ name ∈ c.streamNames offsetSubstreams, w'.columnStreams name = w₁.columnStreams name :=
          fun name hname => honly'.streams name fun p hp hin => (hfirst p hp).2 hname hin
        exact ⟨fun name hname => by rw [hsame name hname]; exact hfinal.buffers name hname,
          fun name hname => by rw [hsame name hname]; exact hfinal.markFile name hname⟩
      · exact hfinals q hq

end Columns

end MergeTree
