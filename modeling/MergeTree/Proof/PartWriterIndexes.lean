import MergeTree.Proof.PartWriterColumns

/-!
# The primary index and the skip indexes of a wide part

The primary index has the key of the first row of every mark (`primaryIndex_granules`). A
skip index groups its granularity of marks into one granule: the groups that are written,
and the marks that the aggregator has accumulated (`SkipAligned`).
-/

namespace MergeTree

section Indexes

variable {ρ κ σ τ α γ : Type} {cfg : WriterConfig ρ κ σ τ α γ} {t : Grouping ρ} {l : List ℕ} {block : List ρ}
  {granule : Granule} {granules : List Granule}

theorem GranuleOk.rows_ne_nil (hg : GranuleOk l block t granule) : granule.rows block ≠ [] := by
  intro h0
  have hlen := hg.length
  rw [h0] at hlen
  exact absurd hlen (Nat.ne_of_lt hg.rows)

theorem GranuleOk.head_rows (hg : GranuleOk l block t granule) : (granule.rows block).head? = block[granule.startRow]? := by
  have hrows := hg.rows
  rw [Granule.rows, List.head?_take, if_neg (by omega), List.head?_drop]

theorem GranuleOk.solid (hg : GranuleOk l block t granule) (h : t.Solid) : (feedGranule block t granule).Solid :=
  h.feed hg.rows_ne_nil _

/-! ## Primary index -/

/-- The key of the first row of a mark. -/
def firstKey (cfg : WriterConfig ρ κ σ τ α γ) (chunks : List (List ρ)) : Option κ := chunks.flatten.head?.map cfg.primaryKey

/-- The rows of `primary.idx` for the granules of a block. -/
def primaryRows (cfg : WriterConfig ρ κ σ τ α γ) (block : List ρ) (granules : List Granule) : List κ :=
  granules.flatMap fun granule => if granule.markOnStart then (block[granule.startRow]?.map cfg.primaryKey).toList else []

/-- **The primary index goes along with the marks**, by induction on the granules: only a
granule that opens a mark has a row. -/
theorem primaryIndex_granules (hvalid : Valid l block t granules) (hsolid : t.Solid) {index : List κ}
    (h : index.map some = t.all.map (firstKey cfg)) :
    (index ++ primaryRows cfg block granules).map some = (feedAll block t granules).all.map (firstKey cfg) := by
  induction granules generalizing t index with
  | nil => simpa [primaryRows, feedAll] using h
  | cons granule rest ih =>
    obtain ⟨hg, -, hrest⟩ := hvalid
    have hstep : (index ++ primaryRows cfg block [granule]).map some = (feedGranule block t granule).all.map (firstKey cfg) := by
      have hhead := hg.head_rows
      obtain ⟨row, rows, hcons⟩ := List.exists_cons_of_ne_nil hg.rows_ne_nil
      rw [hcons, List.head?_cons] at hhead
      unfold feedGranule
      rw [Grouping.all_feed, hcons]
      cases hopened : t.opened with
      | none =>
        have hstart : granule.markOnStart = true := by rw [hg.markOnStart, hopened]; rfl
        have hall := Grouping.all_of_none hopened
        simp [primaryRows, hstart, ← hhead, h, hall, firstKey]
      | some chunks =>
        have hstart : granule.markOnStart = false := by rw [hg.markOnStart, hopened]; rfl
        have hall := Grouping.all_of_some hopened
        obtain ⟨first, others, hflat⟩ := List.exists_cons_of_ne_nil (hsolid chunks (by rw [hall]; simp))
        simp [primaryRows, hstart, h, hall, firstKey, hflat]
    have hcons : primaryRows cfg block (granule :: rest) = primaryRows cfg block [granule] ++ primaryRows cfg block rest := by
      simp [primaryRows]
    rw [hcons, ← List.append_assoc]
    exact ih hrest (hg.solid hsolid) hstep

/-! ## Skip indexes -/

section SkipIndexes

variable {idx : WriterSkipIndex ρ σ α γ} {s : SkipIndexState σ α}

namespace IndexReplay

/-- Before the mark of an index granule. -/
def start (cfg : WriterConfig ρ κ σ τ α γ) (buffers : String → σ) : String → σ := fun name =>
  cfg.bufferOps.startMark cfg.minCompressBlockSize (buffers name)

/-- An index granule is written. -/
def feed (idx : WriterSkipIndex ρ σ α γ) (buffers : String → σ) (granule : γ) : String → σ := fun name =>
  (idx.serializeBinaryWithMultipleStreams (bufferGetter idx.substreams buffers) granule name).getD (buffers name)

/-- The index granules, one after the other. -/
def run (cfg : WriterConfig ρ κ σ τ α γ) (idx : WriterSkipIndex ρ σ α γ) (units : List (List γ)) : String → σ :=
  Replay.run (start cfg) (feed idx) (fun _ => cfg.bufferOps.fresh) units

/-- The mark file of an index stream: the position before every index granule. -/
def markFile (cfg : WriterConfig ρ κ σ τ α γ) (idx : WriterSkipIndex ρ σ α γ) (name : String) (units : List (List γ)) :
    List (MarkInCompressedFile × Option ℕ) :=
  (Replay.starts (start cfg) (feed idx) (fun _ => cfg.bufferOps.fresh) units).map fun buffers =>
    (cfg.bufferOps.position (buffers name), if cfg.canUseAdaptiveGranularity then some 1 else none)

/-- The granule of a group of marks. -/
def granuleOf (idx : WriterSkipIndex ρ σ α γ) (group : List (List (List ρ))) : γ :=
  (idx.getGranuleAndReset (group.flatten.foldl idx.update idx.createIndexAggregator)).1

theorem run_written (units : List (List γ)) (g : γ) :
    run cfg idx (units ++ [[g]]) = feed idx (run cfg idx (units ++ [[]])) g := by
  unfold run
  rw [Replay.run_append, Replay.run_append]
  rfl

theorem markFile_written (name : String) (units : List (List γ)) (g : γ) :
    markFile cfg idx name (units ++ [[g]]) = markFile cfg idx name (units ++ [[]]) := by
  unfold markFile
  rw [Replay.starts_append, Replay.starts_append]

end IndexReplay

/-- The streams of a skip index after these index granules; an empty unit has only its mark. -/
structure IndexReached (cfg : WriterConfig ρ κ σ τ α γ) (idx : WriterSkipIndex ρ σ α γ) (units : List (List γ)) (streams : Streams σ) :
    Prop where
  buffers : ∀ name ∈ idx.substreams, (streams name).buffer = IndexReplay.run cfg idx units name
  markFile : ∀ name ∈ idx.substreams, (streams name).marks = IndexReplay.markFile cfg idx name units

/-- The marks of the groups that are written, and those that the aggregator has. -/
structure SkipAt (cfg : WriterConfig ρ κ σ τ α γ) (idx : WriterSkipIndex ρ σ α γ) (groups : List (List (List (List ρ))))
    (current : List (List (List ρ))) (s : SkipIndexState σ α) : Prop where
  full : ∀ group ∈ groups, group.length = idx.granularity
  streams : IndexReached cfg idx
    ((groups.map fun group => [IndexReplay.granuleOf idx group]) ++ if current = [] then [] else [[]]) s.streams
  empty : current = [] → idx.empty s.aggregator = true
  aggregator : current ≠ [] → s.aggregator = current.flatten.foldl idx.update idx.createIndexAggregator

/-- **A skip index that is built up to here.** -/
def SkipAligned (cfg : WriterConfig ρ κ σ τ α γ) (idx : WriterSkipIndex ρ σ α γ) (t : Grouping ρ) (s : SkipIndexState σ α) : Prop :=
  ∃ groups current, t.all = groups.flatten ++ current ∧ current.length ≤ idx.granularity ∧
    s.accumulatedMarks + t.opened.toList.length = current.length ∧ SkipAt cfg idx groups current s

variable {groups : List (List (List (List ρ)))} {current : List (List (List ρ))}

theorem SkipAt.written (h : SkipAt cfg idx groups current s) (hcurrent : current ≠ []) :
    IndexReached cfg idx ((groups ++ [current]).map fun group => [IndexReplay.granuleOf idx group])
      (Writer.writeIndexGranule idx s).streams := by
  have hstreams := h.streams
  rw [if_neg hcurrent] at hstreams
  have hget : s.streams.getter idx.substreams = _ := getter_eq hstreams.buffers
  rw [List.map_append, List.map_singleton]
  refine ⟨fun name hname => ?_, fun name hname => ?_⟩
  · simp only [Writer.writeIndexGranule, Streams.written, if_pos hname, IndexReplay.run_written, hget, h.aggregator hcurrent,
      IndexReplay.feed, IndexReplay.granuleOf]
    rw [hstreams.buffers name hname]
    rfl
  · simp only [Writer.writeIndexGranule, Streams.written, if_pos hname, IndexReplay.markFile_written]
    exact hstreams.markFile name hname

theorem SkipAt.writeIndexGranule (h : SkipAt cfg idx groups current s) (hcurrent : current ≠ [])
    (hlength : current.length = idx.granularity) (hreset : ∀ aggregator, idx.empty (idx.getGranuleAndReset aggregator).2 = true) :
    SkipAt cfg idx (groups ++ [current]) [] (Writer.writeIndexGranule idx s) := by
  refine ⟨fun group hgroup => ?_, ?_, fun _ => hreset _, fun h0 => absurd rfl h0⟩
  · rcases List.mem_append.1 hgroup with hgroup | hgroup
    · exact h.full group hgroup
    · rw [List.mem_singleton.1 hgroup]
      exact hlength
  · rw [if_pos rfl, List.append_nil]
    exact h.written hcurrent

theorem SkipAt.startMark (hn : idx.substreams.Nodup) (h : SkipAt cfg idx groups [] s) (mark : List (List ρ)) :
    IndexReached cfg idx
      ((groups.map fun group => [IndexReplay.granuleOf idx group]) ++ if [mark] = [] then [] else [[]])
      ((s.streams.getCurrentMarks cfg.bufferOps cfg.minCompressBlockSize idx.substreams).1.flushMarks
        cfg.canUseAdaptiveGranularity 1
        (s.streams.getCurrentMarks cfg.bufferOps cfg.minCompressBlockSize idx.substreams).2) := by
  have hstreams := h.streams
  rw [if_pos rfl, List.append_nil] at hstreams
  have hmarks := getCurrentMarks_eq cfg.bufferOps cfg.minCompressBlockSize hn s.streams
  have hflush := flushMarks_eq hn cfg.canUseAdaptiveGranularity 1
    (fun name => cfg.bufferOps.position (cfg.bufferOps.startMark cfg.minCompressBlockSize (s.streams name).buffer))
    (s.streams.getCurrentMarks cfg.bufferOps cfg.minCompressBlockSize idx.substreams).1
  rw [hmarks] at hflush ⊢
  rw [hflush, if_neg (List.cons_ne_nil _ _)]
  refine ⟨fun name hname => ?_, fun name hname => ?_⟩
  · simp only [if_pos hname, hstreams.buffers name hname]
    simp only [IndexReplay.run, Replay.run_append]
    rfl
  · simp only [if_pos hname, hstreams.markFile name hname, hstreams.buffers name hname]
    simp only [IndexReplay.markFile, Replay.starts_append, List.map_append, List.map_singleton]
    rfl

/-- What an index of the configuration has to satisfy. -/
structure IndexOk (idx : WriterSkipIndex ρ σ α γ) : Prop where
  streams : idx.substreams.Nodup
  granularity : 1 ≤ idx.granularity
  emptyUpdated : ∀ chunks : List (List ρ),
    idx.empty (chunks.foldl idx.update idx.createIndexAggregator) = chunks.all List.isEmpty
  emptyReset : ∀ aggregator, idx.empty (idx.getGranuleAndReset aggregator).2 = true

theorem SkipAligned.reset (hidx : IndexOk idx) (h : SkipAligned cfg idx t s) :
    let s' := if s.accumulatedMarks = idx.granularity then { Writer.writeIndexGranule idx s with accumulatedMarks := 0 } else s
    SkipAligned cfg idx t s' ∧ s'.accumulatedMarks < idx.granularity := by
  obtain ⟨groups, current, hall, hle, hcount, hat⟩ := h
  have hg := hidx.granularity
  by_cases hfull : s.accumulatedMarks = idx.granularity
  · have hlength : current.length = idx.granularity := by omega
    have hopened : t.opened.toList.length = 0 := by omega
    have hcurrent : current ≠ [] := List.length_pos_iff.1 (by omega)
    have hwritten := hat.writeIndexGranule hcurrent hlength hidx.emptyReset
    simp only [if_pos hfull]
    refine ⟨⟨groups ++ [current], [], by simp [hall], Nat.zero_le _, by simpa using hopened, ?_⟩, hg⟩
    exact ⟨hwritten.full, hwritten.streams, hwritten.empty, hwritten.aggregator⟩
  · simp only [if_neg hfull]
    exact ⟨⟨groups, current, hall, hle, hcount, hat⟩, by omega⟩

theorem IndexOk.empty_iff (hidx : IndexOk idx) (hat : SkipAt cfg idx groups current s)
    (hsolid : ∀ chunks ∈ current, chunks.flatten ≠ []) : idx.empty s.aggregator = true ↔ current = [] := by
  refine ⟨fun hempty => ?_, hat.empty⟩
  by_contra hne
  obtain ⟨chunks, rest, rfl⟩ := List.exists_cons_of_ne_nil hne
  rw [hat.aggregator hne, hidx.emptyUpdated, List.all_eq_true] at hempty
  refine hsolid chunks List.mem_cons_self (List.flatten_eq_nil_iff.2 fun chunk hchunk => ?_)
  exact List.isEmpty_iff.1 (hempty chunk (by simp [hchunk]))

theorem SkipAt.update (h : SkipAt cfg idx groups current s) (hne : current ≠ []) {current' : List (List (List ρ))} {chunk : List ρ}
    (hflatten : current'.flatten = current.flatten ++ [chunk]) (accumulated : ℕ) :
    SkipAt cfg idx groups current' { s with aggregator := idx.update s.aggregator chunk, accumulatedMarks := accumulated } := by
  have hne' : current' ≠ [] := by
    rintro rfl
    simp at hflatten
  have hstreams := h.streams
  rw [if_neg hne] at hstreams
  refine ⟨h.full, by rw [if_neg hne']; exact hstreams, fun h0 => absurd h0 hne', fun _ => ?_⟩
  simp only [hflatten, List.foldl_append, h.aggregator hne, List.foldl_cons, List.foldl_nil]

/-- **One granule of `calculateAndSerializeSkipIndices`.** The marks of the aggregator get
the chunk, as a new mark or as a part of the last one. -/
theorem SkipAligned.updateSkipIndex (hidx : IndexOk idx) (hsolid : t.Solid) (hg : GranuleOk l block t granule)
    (h : SkipAligned cfg idx t s) :
    SkipAligned cfg idx (feedGranule block t granule) (Writer.updateSkipIndex cfg idx block s granule) := by
  obtain ⟨hreset, hlt⟩ := h.reset hidx
  unfold Writer.updateSkipIndex
  set s₁ := if s.accumulatedMarks = idx.granularity then { Writer.writeIndexGranule idx s with accumulatedMarks := 0 } else s
  obtain ⟨groups, current, hall, hle, hcount, hat⟩ := hreset
  have hempty := hidx.empty_iff hat fun chunks hmem => hsolid chunks (by rw [hall]; exact List.mem_append_right _ hmem)
  have hopen : (feedGranule block t granule).opened.toList.length = if granule.isComplete then 0 else 1 := by
    unfold feedGranule Grouping.feed
    by_cases hc : granule.isComplete = true <;> simp [hc]
  have hcounted : ∀ marks : ℕ, (if granule.isComplete then marks + 1 else marks) +
      (feedGranule block t granule).opened.toList.length = marks + 1 := by
    intro marks
    rw [hopen]
    by_cases hc : granule.isComplete = true <;> simp [hc]
  cases hopened : t.opened with
  | none =>
    have hstart : granule.markOnStart = true := by rw [hg.markOnStart, hopened]; rfl
    have hdone := Grouping.all_of_none hopened
    have hfeed : (feedGranule block t granule).all = groups.flatten ++ (current ++ [[granule.rows block]]) := by
      rw [feedGranule, Grouping.all_feed, hopened, ← hdone, hall]
      simp
    rw [hopened, Option.toList_none, List.length_nil] at hcount
    by_cases hcurrent : current = []
    · subst hcurrent
      have hstarted := hat.startMark hidx.streams [granule.rows block]
      simp only [hempty.2 rfl, hstart, Bool.and_self, if_true]
      refine ⟨groups, [[granule.rows block]], hfeed, hidx.granularity, ?_, hat.full, hstarted, ?_, fun _ => by simp⟩
      · rw [hcounted]
        simpa using hcount
      · exact fun h0 => absurd h0 (List.cons_ne_nil _ _)
    · have hnot : idx.empty s₁.aggregator = false := Bool.eq_false_iff.2 fun h0 => hcurrent (hempty.1 h0)
      simp only [hnot, Bool.false_and]
      refine ⟨groups, current ++ [[granule.rows block]], hfeed, ?_, ?_, hat.update hcurrent (by simp) _⟩
      · rw [List.length_append, List.length_singleton]
        omega
      · rw [if_neg Bool.false_ne_true, hcounted, List.length_append, List.length_singleton]
        omega
  | some chunks =>
    have hstart : granule.markOnStart = false := by rw [hg.markOnStart, hopened]; rfl
    have hdone := Grouping.all_of_some hopened
    rw [hopened, Option.toList_some, List.length_singleton] at hcount
    -- the open mark is the last one of the aggregator
    have hcurrent : current ≠ [] := List.length_pos_iff.1 (by omega)
    obtain ⟨init, last, rfl⟩ := (List.eq_nil_or_concat current).resolve_left hcurrent
    rw [List.concat_eq_append] at *
    rw [hdone, ← List.append_assoc] at hall
    obtain ⟨hinit, hlast⟩ := List.append_inj' hall rfl
    cases hlast
    have hfeed : (feedGranule block t granule).all = groups.flatten ++ (init ++ [chunks ++ [granule.rows block]]) := by
      rw [feedGranule, Grouping.all_feed, hopened, hinit]
      simp
    simp only [hstart, Bool.and_false]
    refine ⟨groups, init ++ [chunks ++ [granule.rows block]], hfeed, ?_, ?_, hat.update hcurrent (by simp) _⟩
    · rw [List.length_append, List.length_singleton] at hle ⊢
      exact hle
    · rw [if_neg Bool.false_ne_true, hcounted, List.length_append, List.length_singleton]
      simpa using hcount

theorem SkipAligned.updateSkipIndexes (hidx : IndexOk idx) (hsolid : t.Solid) (hvalid : Valid l block t granules)
    (h : SkipAligned cfg idx t s) :
    SkipAligned cfg idx (feedAll block t granules) (granules.foldl (Writer.updateSkipIndex cfg idx block) s) := by
  induction granules generalizing t s with
  | nil => exact h
  | cons granule rest ih =>
    obtain ⟨hg, -, hrest⟩ := hvalid
    exact ih (hg.solid hsolid) hrest (h.updateSkipIndex hidx hsolid hg)

theorem SkipAligned.close {chunks : List (List ρ)} (hopened : t.opened = some chunks) (h : SkipAligned cfg idx t s) :
    SkipAligned cfg idx t.close { s with accumulatedMarks := s.accumulatedMarks + 1 } := by
  obtain ⟨groups, current, hall, hle, hcount, hat⟩ := h
  rw [hopened, Option.toList_some, List.length_singleton] at hcount
  exact ⟨groups, current, by rw [Grouping.all_close, hall], hle, hcount, hat.full, hat.streams, hat.empty, hat.aggregator⟩

/-- **A skip index in the end**: its granules are groups of marks, all but the last one full. -/
structure SkipFinal (cfg : WriterConfig ρ κ σ τ α γ) (idx : WriterSkipIndex ρ σ α γ) (marks : List (List (List ρ)))
    (groups : List (List (List (List ρ)))) (streams : Streams σ) : Prop where
  flatten : groups.flatten = marks
  length : ∀ group ∈ groups, 1 ≤ group.length ∧ group.length ≤ idx.granularity
  full : ∀ group ∈ groups.dropLast, group.length = idx.granularity
  streams : IndexReached cfg idx (groups.map fun group => [IndexReplay.granuleOf idx group]) streams

theorem SkipAligned.final (hidx : IndexOk idx) (hsolid : t.Solid) (h : SkipAligned cfg idx t s) :
    ∃ groups, SkipFinal cfg idx t.all groups (if idx.empty s.aggregator then s else Writer.writeIndexGranule idx s).streams := by
  obtain ⟨groups, current, hall, hle, -, hat⟩ := h
  have hempty := hidx.empty_iff hat fun chunks hmem => hsolid chunks (by rw [hall]; exact List.mem_append_right _ hmem)
  have hlength : ∀ group ∈ groups, 1 ≤ group.length ∧ group.length ≤ idx.granularity := fun group hgroup => by
    rw [hat.full group hgroup]
    exact ⟨hidx.granularity, le_refl _⟩
  by_cases hcurrent : current = []
  · have hstreams := hat.streams
    rw [if_pos hcurrent, List.append_nil] at hstreams
    rw [if_pos (hempty.2 hcurrent)]
    refine ⟨groups, by rw [hall, hcurrent, List.append_nil], hlength, fun group hgroup => ?_, hstreams⟩
    exact hat.full group (List.mem_of_mem_dropLast hgroup)
  · rw [if_neg fun h0 => hcurrent (hempty.1 h0)]
    refine ⟨groups ++ [current], by simp [hall], fun group hgroup => ?_, fun group hgroup => ?_, hat.written hcurrent⟩
    · rcases List.mem_append.1 hgroup with hgroup | hgroup
      · exact hlength group hgroup
      · rw [List.mem_singleton.1 hgroup]
        exact ⟨List.length_pos_of_ne_nil hcurrent, hle⟩
    · rw [List.dropLast_concat] at hgroup
      exact hat.full group hgroup

end SkipIndexes

end Indexes

end MergeTree
