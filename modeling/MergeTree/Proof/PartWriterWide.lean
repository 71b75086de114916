import MergeTree.Proof.PartWriterIndexes

/-!
# Marks, data and indexes of a wide part go together

The columns, the primary index and the skip indexes follow one sequence of marks
(`WriterAligned`). A block first shrinks or closes the open mark when its own granularity
is smaller, then appends the marks it needs, and its granules carry everything along
(`WriterAligned.write`).
-/

namespace MergeTree

section Rows

variable {ρ : Type} {t : Grouping ρ} {l : List ℕ} {offset : ℕ}

theorem Grouping.length_rows (t : Grouping ρ) : t.rows.length = (t.all.map Grouping.rowsOf).sum := by
  unfold Grouping.rows
  rw [List.length_flatten, List.map_flatten, List.sum_flatten, List.map_map]
  refine congrArg List.sum (List.map_congr_left fun chunks _ => ?_)
  simp [Grouping.rowsOf, List.length_flatten]

theorem WriterBlock.length_permuted (block : WriterBlock ρ) : block.permuted.length = block.rows.length := by
  unfold WriterBlock.permuted
  cases hp : block.permutation with
  | none => rfl
  | some p =>
    have hperm := block.permutes p hp
    have hsome : ∀ i ∈ p, (block.rows[i]?).isSome = true := fun i hi => by
      simpa using hperm.mem_iff.1 hi
    rw [List.filterMap_length_eq_length.2 hsome, hperm.length_eq, List.length_range]

/-- The rows planned so far are those written and those that the open mark still takes. -/
theorem sum_planned (hplanned : Planned l t) (hfull : l.length = t.all.length) (hleft : RowsLeft l t offset) :
    l.sum = t.rows.length + offset := by
  rw [Grouping.length_rows]
  cases hopened : t.opened with
  | none =>
    have hall := Grouping.all_of_none hopened
    rw [hall] at hfull ⊢
    have hdone := hplanned.done
    rw [← hfull, List.take_length] at hdone
    rw [← hdone, hleft.closed hopened, Nat.add_zero]
  | some chunks =>
    have hall := Grouping.all_of_some hopened
    obtain ⟨-, -, hlt, hget⟩ := hleft.opened chunks hopened
    rw [hall, List.length_append, List.length_singleton] at hfull
    have hsum := IndexGranularity.sum_take_succ hlt
    rw [← hfull, List.take_length, hplanned.done, hget] at hsum
    have hopenRows := Grouping.openRows_of_some hopened
    rw [hsum, hall, hopenRows]
    simp [Nat.add_assoc]

end Rows

section Writer

variable {ρ κ σ τ α γ : Type} {cfg : WriterConfig ρ κ σ τ α γ} {t : Grouping ρ} {w : Writer ρ κ σ τ α} {l : List ℕ}
variable {g : IndexGranularity} {chunks : List (List ρ)}
  {offset granularity : ℕ}

/-- The columns with their streams. -/
def WriterConfig.columnStreams (cfg : WriterConfig ρ κ σ τ α γ) : List (WriterColumn ρ σ τ × List String) :=
  assignStreams cfg.writtenOffsetSubstreams cfg.columnsList

/-- **A writer that computes its granularity** with adaptive mark files. -/
structure WriterConfig.Computes (cfg : WriterConfig ρ κ σ τ α γ) : Prop extends cfg.WellFormed where
  adaptive : cfg.canUseAdaptiveGranularity = true
  notBlocks : cfg.blocksAreGranulesSize = false
  primary : cfg.rewritePrimaryKey = true
  columns : cfg.columnsList ≠ []

/-- What follows the marks. -/
structure Contents (cfg : WriterConfig ρ κ σ τ α γ) (t : Grouping ρ) (w : Writer ρ κ σ τ α) : Prop where
  computes : w.computeGranularity = true
  solid : t.Solid
  columns : ∀ p ∈ cfg.columnStreams, ColumnInv cfg t w p
  primary : w.primaryIndex.map some = if cfg.hasPrimaryKey then t.all.map (firstKey cfg) else []
  lastBlock : cfg.hasPrimaryKey = true → w.lastIndexBlock.getLast? = t.rows.getLast?
  skip : List.Forall₂ (fun idx s => SkipAligned cfg idx t s) cfg.skipIndices w.skipIndices
  dataWritten : t.all ≠ [] → w.dataWritten = true

/-- **A writer between two blocks.** -/
structure WriterAligned (cfg : WriterConfig ρ κ σ τ α γ) (t : Grouping ρ) (l : List ℕ) (w : Writer ρ κ σ τ α) : Prop where
  marks : w.indexGranularity.Marks l
  full : l.length = t.all.length
  planned : Planned l t
  currentMark : w.currentMark = t.done.length
  rowsWritten : w.rowsWrittenInLastMark = t.openRows
  contents : Contents cfg t w

theorem WriterConfig.WellFormed.separate (h : cfg.WellFormed) : cfg.columnStreams.Pairwise Separate :=
  pairwise_assignStreams h.columnNames h.shared _

theorem WriterConfig.WellFormed.nodup (h : cfg.WellFormed) {p : WriterColumn ρ σ τ × List String} (hp : p ∈ cfg.columnStreams) :
    p.2.Nodup := by
  obtain ⟨hmem, hsub, -⟩ := mem_assignStreams hp
  exact (h.streamNames p.1 hmem).sublist hsub

theorem WriterConfig.WellFormed.indexOk (h : cfg.WellFormed) {idx : WriterSkipIndex ρ σ α γ} (hidx : idx ∈ cfg.skipIndices) :
    IndexOk idx :=
  ⟨h.indexStreams idx hidx, h.indexGranularity idx hidx, h.emptyUpdated idx hidx, h.emptyReset idx hidx⟩

theorem Contents.columnAt (h : Contents cfg t w) (hne : t.all ≠ []) {p : WriterColumn ρ σ τ × List String}
    (hp : p ∈ cfg.columnStreams) : ColumnAt cfg t w p := by
  rcases h.columns p hp with hat | ⟨rfl, -⟩
  · exact hat
  · exact absurd rfl hne

theorem Contents.congr (h : Contents cfg t w) (g : IndexGranularity) (currentMark rowsWritten : ℕ) :
    Contents cfg t { w with indexGranularity := g, currentMark := currentMark, rowsWrittenInLastMark := rowsWritten } :=
  ⟨h.computes, h.solid, fun p hp => (h.columns p hp).imp (fun h => h) fun h => ⟨h.1, ⟨h.2.state, h.2.saved, h.2.streams⟩⟩,
    h.primary, h.lastBlock, h.skip, h.dataWritten⟩

/-! ## The last mark -/

theorem WriterAligned.all_ne_nil (hopened : t.opened = some chunks) : t.all ≠ [] := by
  simp [Grouping.all, hopened]

theorem Contents.noSavedMarks (hcfg : cfg.Computes) (h : Contents cfg t w)
    (hopened : t.opened = some chunks) : w.noSavedMarks cfg = false := by
  obtain ⟨c, rest, hcolumns⟩ := List.exists_cons_of_ne_nil hcfg.columns
  have hp : (c, c.streamNames cfg.writtenOffsetSubstreams) ∈ cfg.columnStreams := by
    rw [WriterConfig.columnStreams, hcolumns]
    exact List.mem_cons_self
  obtain ⟨state, -, haligned⟩ := h.columnAt (WriterAligned.all_ne_nil hopened) hp
  have hsaved := haligned.saved
  rw [savedMarks, hopened, Option.map_some] at hsaved
  simp only at hsaved
  simp [Writer.noSavedMarks, hcolumns, hsaved]

theorem Contents.flushSavedMarks (hcfg : cfg.Computes) (h : Contents cfg t w) (hopened : t.opened = some chunks) :
    Contents cfg t.close { w.flushSavedMarks cfg (Grouping.rowsOf chunks) with
      skipIndices := w.skipIndices.map fun s => { s with accumulatedMarks := s.accumulatedMarks + 1 } } := by
  have hne := WriterAligned.all_ne_nil hopened
  refine ⟨h.computes, h.solid.close, fun p hp => Or.inl ?_, ?_, ?_, ?_, fun _ => h.dataWritten hne⟩
  · exact columnAt_flushSavedMarks hopened hcfg.separate (fun q hq => ⟨hcfg.nodup hq, h.columnAt hne hq⟩) hp
  · rw [Grouping.all_close]
    exact h.primary
  · rw [Grouping.rows_close]
    exact h.lastBlock
  · rw [List.forall₂_map_right_iff]
    exact h.skip.imp fun _ _ hidx => hidx.close hopened

theorem WriterAligned.rowsLeft (h : WriterAligned cfg t l w) (hopened : t.opened = some chunks) :
    ∃ init x, l = init ++ [x] ∧ init = t.done.map Grouping.rowsOf ∧ 0 < t.openRows ∧ t.openRows < x ∧
      w.currentMark = init.length := by
  obtain ⟨hlt, hrows⟩ := h.planned.opened chunks hopened
  have hfull := h.full
  have hall := Grouping.all_of_some hopened
  rw [hall, List.length_append, List.length_singleton] at hfull
  have hopenRows := Grouping.openRows_of_some hopened
  have hsolid := h.contents.solid chunks (by rw [hall]; simp)
  refine ⟨l.take t.done.length, l.get ⟨t.done.length, hlt⟩, ?_, h.planned.done, ?_, by omega, ?_⟩
  · have htake := List.take_add_one (l := l) (i := t.done.length)
    rw [List.getElem?_eq_getElem hlt, ← hfull, List.take_length] at htake
    exact htake
  · rw [hopenRows]
    exact List.length_pos_of_ne_nil hsolid
  · rw [h.currentMark, List.length_take]
    omega

theorem adjustLastMark_eq (hcfg : cfg.Computes) (hcomputes : w.computeGranularity = true) {rows : ℕ}
    (hle : w.rowsWrittenInLastMark ≤ rows) (hmark : w.currentMark = w.indexGranularity.getMarksCount - 1)
    (hadjust : w.indexGranularity.adjustLastMark rows = .ok g) (hsaved : w.noSavedMarks cfg = false) :
    w.adjustLastMarkIfNeedAndFlushToDisk cfg rows =
      if w.rowsWrittenInLastMark = rows then do
        let markRows ← g.getMarkRows w.currentMark
        return { ({ w with indexGranularity := g } : Writer ρ κ σ τ α).flushSavedMarks cfg markRows with
          skipIndices := w.skipIndices.map fun s => { s with accumulatedMarks := s.accumulatedMarks + 1 }
          currentMark := w.currentMark + 1
          rowsWrittenInLastMark := 0 }
      else .ok { w with indexGranularity := g } := by
  obtain ⟨indexGranularity, computeGranularity⟩ := w
  simp only at hcomputes hle hmark hadjust hsaved
  subst hcomputes
  unfold Writer.noSavedMarks at hsaved
  unfold Writer.adjustLastMarkIfNeedAndFlushToDisk Writer.noSavedMarks
  simp only [hcfg.adaptive, Bool.and_self, if_true, if_neg (Nat.not_lt.2 hle), if_neg (not_not.2 hmark), hadjust, bind,
    Except.bind, pure, Except.pure, hsaved, Bool.false_eq_true, if_false]
  rfl

/-- **The open mark is closed with the rows it has.** -/
theorem WriterAligned.closeMark (hcfg : cfg.Computes) (h : WriterAligned cfg t l w) (hlt : t.rows.length < 2 ^ 64)
    (hopened : t.opened = some chunks) :
    ∃ w' l', w.adjustLastMarkIfNeedAndFlushToDisk cfg w.rowsWrittenInLastMark = .ok w' ∧ WriterAligned cfg t.close l' w' ∧
      (w.indexGranularity.getConstantGranularity = none → w'.indexGranularity.getConstantGranularity = none) := by
  obtain ⟨init, x, rfl, hinit, hpos, -, hcurrent⟩ := h.rowsLeft hopened
  have hopenRows := Grouping.openRows_of_some hopened
  have hall := Grouping.all_of_some hopened
  have hsum : init.sum + t.openRows = t.rows.length := by
    rw [Grouping.length_rows, hall, hinit, hopenRows]
    simp
  obtain ⟨g, hadjust, hmarks, hconst⟩ := h.marks.adjustLastMark (r := t.openRows) hpos (by omega)
  have hcount : w.indexGranularity.getMarksCount = init.length + 1 := by
    rw [h.marks.count, List.length_append, List.length_singleton]
  have hrows := hmarks.getMarkRows (i := init.length) (by simp)
  simp only [List.get_eq_getElem, List.getElem_concat_length] at hrows
  have hstep := adjustLastMark_eq (w := w) hcfg h.contents.computes (le_refl w.rowsWrittenInLastMark) (by omega)
    (by rw [h.rowsWritten]; exact hadjust) (h.contents.noSavedMarks hcfg hopened)
  rw [if_pos rfl, hcurrent, hrows, hopenRows] at hstep
  have hcontents := (h.contents.congr g w.currentMark w.rowsWrittenInLastMark).flushSavedMarks hcfg hopened
  have hclose : t.close.done = t.done ++ [chunks] := hall
  refine ⟨_, init ++ [t.openRows], hstep, ⟨hmarks, ?_, ⟨?_, ?_, fun cs h0 => by cases h0⟩, ?_, ?_, ?_⟩, hconst⟩
  · rw [Grouping.all_close, ← h.full]
    simp
  · rw [hclose, hinit, hopenRows]
    simp
  · rw [hclose, hinit]
    simp
  · rw [hclose, hinit]
    simp
  · exact (Grouping.openRows_close t).symm
  · exact hcontents.congr g (init.length + 1) 0

/-- **The open mark is made smaller**, but not smaller than what it has. -/
theorem WriterAligned.shrinkMark (hcfg : cfg.Computes) (h : WriterAligned cfg t l w)
    (hlt : t.rows.length + granularity < 2 ^ 64) (hopened : t.opened = some chunks)
    (hgranularity : t.openRows < granularity) :
    ∃ w' l', w.adjustLastMarkIfNeedAndFlushToDisk cfg granularity = .ok w' ∧ WriterAligned cfg t l' w' ∧
      (w.indexGranularity.getConstantGranularity = none → w'.indexGranularity.getConstantGranularity = none) ∧
      RowsLeft l' t (granularity - t.openRows) := by
  obtain ⟨init, x, rfl, hinit, hpos, -, hcurrent⟩ := h.rowsLeft hopened
  have hopenRows := Grouping.openRows_of_some hopened
  have hall := Grouping.all_of_some hopened
  have hsum : init.sum + t.openRows = t.rows.length := by
    rw [Grouping.length_rows, hall, hinit, hopenRows]
    simp
  obtain ⟨g, hadjust, hmarks, hconst⟩ := h.marks.adjustLastMark (r := granularity) (by omega) (by omega)
  have hcount : w.indexGranularity.getMarksCount = init.length + 1 := by
    rw [h.marks.count, List.length_append, List.length_singleton]
  have hrows := h.rowsWritten
  have hstep := adjustLastMark_eq (w := w) hcfg h.contents.computes (by omega) (by omega) hadjust
    (h.contents.noSavedMarks hcfg hopened)
  rw [if_neg (by omega)] at hstep
  have hdone : t.done.length = init.length := by rw [hinit, List.length_map]
  have hget : ∃ hlt : t.done.length < (init ++ [granularity]).length,
      (init ++ [granularity]).get ⟨t.done.length, hlt⟩ = granularity := by
    refine ⟨by rw [hdone]; simp, ?_⟩
    simp [hdone]
  obtain ⟨hlt', hget⟩ := hget
  refine ⟨_, init ++ [granularity], hstep, ⟨hmarks, ?_, ⟨?_, le_of_lt hlt', fun cs hcs => ⟨hlt', ?_⟩⟩, h.currentMark, hrows,
    h.contents.congr g w.currentMark w.rowsWrittenInLastMark⟩, hconst, ⟨fun h0 => ?_, fun cs _ => ⟨?_, hpos, hlt', ?_⟩⟩⟩
  · rw [← h.full]
    simp
  · rw [hdone, hinit]
    simp
  · rw [hget]
    rw [hopened] at hcs
    cases hcs
    omega
  · rw [hopened] at h0
    cases h0
  · omega
  · rw [hget]
    omega

/-! ## Marks of a block -/

/-- A granularity whose last mark has the rows of the others, when these are constant. -/
def Steady (g : IndexGranularity) : Prop := ∀ r, g.getConstantGranularity = some r → g.Fits r

theorem fits_of_none (h : g.getConstantGranularity = none) (r : ℕ) : g.Fits r := by
  cases g with
  | adaptive a => trivial
  | constant c => cases h

theorem get_eq_of_fits {r : ℕ} (hmarks : g.Marks l) (hfits : g.Fits granularity)
    (hconst : g.getConstantGranularity = some r) {i : ℕ} (hi : i < l.length) : l.get ⟨i, hi⟩ = granularity := by
  cases g with
  | adaptive a => cases hconst
  | constant c =>
    rw [hmarks.2.2 i hi, hfits.1, hfits.2, ite_self]

theorem WriterAligned.adjustForBlock (hcfg : cfg.Computes) (h : WriterAligned cfg t l w)
    (hlt : t.rows.length + granularity < 2 ^ 64) (hsum : l.sum < 2 ^ 64) (hfits : w.indexGranularity.Fits granularity) :
    ∃ w' t' l' offset, w.adjustForBlock cfg granularity = .ok w' ∧ WriterAligned cfg t' l' w' ∧ RowsLeft l' t' offset ∧
      offset ≤ granularity ∧ t'.all = t.all ∧ w'.indexGranularity.Fits granularity ∧
      w'.indexGranularity.getConstantGranularity = w.indexGranularity.getConstantGranularity := by
  unfold Writer.adjustForBlock
  cases hopened : t.opened with
  | none =>
    have hopenRows : t.openRows = 0 := by simp [Grouping.openRows, hopened, Grouping.rowsOf]
    have hrows := h.rowsWritten
    rw [if_neg (by omega)]
    exact ⟨w, t, l, 0, rfl, h, ⟨fun _ => rfl, fun cs hcs => by rw [hopened] at hcs; cases hcs⟩, Nat.zero_le _, rfl, hfits, rfl⟩
  | some chunks =>
    obtain ⟨init, x, hl, hinit, hpos, hx, hcurrent⟩ := h.rowsLeft hopened
    have hrows := h.rowsWritten
    have hlast : init.length < l.length := by rw [hl]; simp
    have hget : l.get ⟨init.length, hlast⟩ = x := by simp [hl]
    have hmark := h.marks.getMarkRows hlast
    have hxle : x ≤ l.sum := by rw [hl]; simp
    have hdone : t.done.length = init.length := by rw [hinit, List.length_map]
    rw [if_pos (by omega), hcurrent, hmark, hget, hrows]
    have hsub : subSize x t.openRows = x - t.openRows := subSize_of_le (by omega) (by omega)
    by_cases hadjust : granularity < x - t.openRows
    · -- a constant granularity is never above that of the block
      have hnone : w.indexGranularity.getConstantGranularity = none := by
        cases hconst : w.indexGranularity.getConstantGranularity with
        | none => rfl
        | some r =>
          have hgr := get_eq_of_fits h.marks hfits hconst hlast
          omega
      simp only [bind, Except.bind, hsub, if_pos hadjust]
      by_cases hle : granularity ≤ t.openRows
      · obtain ⟨w', l', hrun, haligned, hconst⟩ := h.closeMark hcfg (by omega) hopened
        rw [hrows] at hrun
        rw [if_pos hle]
        refine ⟨w', t.close, l', 0, hrun, haligned, ⟨fun _ => rfl, fun cs hcs => by cases hcs⟩, Nat.zero_le _,
          Grouping.all_close t, fits_of_none (hconst hnone) _, (hconst hnone).trans hnone.symm⟩
      · obtain ⟨w', l', hrun, haligned, hconst, hleft⟩ := h.shrinkMark hcfg hlt hopened (Nat.lt_of_not_le hle)
        rw [if_neg hle]
        exact ⟨w', t, l', _, hrun, haligned, hleft, Nat.sub_le _ _, rfl, fits_of_none (hconst hnone) _,
          (hconst hnone).trans hnone.symm⟩
    · simp only [bind, Except.bind, hsub, if_neg hadjust]
      refine ⟨w, t, l, x - t.openRows, rfl, h, ⟨fun h0 => ?_, fun cs _ => ⟨by omega, hpos, ?_⟩⟩, by omega, rfl, hfits, rfl⟩
      · rw [hopened] at h0
        cases h0
      · refine ⟨by omega, ?_⟩
        simp only [hdone, hget]
        omega

/-- `fillIndexGranularity` appends the marks for the rows that the open mark does not take. -/
theorem WriterAligned.fillIndexGranularity (h : WriterAligned cfg t l w) (hleft : RowsLeft l t offset) {rowsInBlock : ℕ}
    (hpos : 0 < granularity) (hoffset : offset ≤ granularity) (hrows : 0 < rowsInBlock)
    (hlt : t.rows.length + rowsInBlock + granularity ≤ 2 ^ 64) (hfits : w.indexGranularity.Fits granularity) :
    ∃ g n, w.fillIndexGranularity granularity rowsInBlock = .ok { w with indexGranularity := g } ∧
      Filled w.indexGranularity l granularity (rowsInBlock - offset) g n := by
  have hsum := sum_planned h.planned h.full hleft
  obtain ⟨g, n, hrun, hfilled⟩ := exists_fillIndexGranularityImpl hpos
    (show rowsInBlock + granularity ≤ 2 ^ 64 by omega) (2 ^ 64) offset (by omega) h.marks hfits (fun hcurrent => by omega)
  refine ⟨g, n, ?_, hfilled⟩
  have hcount := h.marks.count
  have hfull := h.full
  have hcurrent := h.currentMark
  unfold Writer.fillIndexGranularity
  cases hopened : t.opened with
  | none =>
    have hall := Grouping.all_of_none hopened
    have hopenRows : t.openRows = 0 := by simp [Grouping.openRows, hopened, Grouping.rowsOf]
    have hwritten := h.rowsWritten
    rw [hall] at hfull
    rw [hleft.closed hopened] at hrun
    rw [if_neg (by omega), if_neg (by omega)]
    simp only [bind, Except.bind, hrun]
    rfl
  | some chunks =>
    obtain ⟨hoffset', hopenRows, hlast, hget⟩ := hleft.opened chunks hopened
    have hall := Grouping.all_of_some hopened
    have hwritten := h.rowsWritten
    rw [hall, List.length_append, List.length_singleton] at hfull
    have hmark := h.marks.getMarkRows hlast
    rw [hget] at hmark
    have hlastRows : w.indexGranularity.getLastMarkRows = .ok (t.openRows + offset) := by
      unfold IndexGranularity.getLastMarkRows
      rw [hcount, hfull, Nat.add_sub_cancel]
      exact hmark
    have hopenLe : t.openRows ≤ t.rows.length := by
      rw [Grouping.length_rows, hall]
      simp [Grouping.openRows, hopened]
    have hsub : subSize (t.openRows + offset) t.openRows = offset := by
      rw [subSize_of_le (by omega) (by omega)]
      omega
    rw [if_neg (by omega), if_pos (by omega), hlastRows]
    simp only [bind, Except.bind, pure, Except.pure, hwritten, hsub, hrun]

/-! ## A block -/

section Block

variable {block : List ρ} {granules : List Granule}

theorem Valid.solid (hvalid : Valid l block t granules) (h : t.Solid) : (feedAll block t granules).Solid := by
  induction granules generalizing t with
  | nil => exact h
  | cons granule rest ih => exact ih hvalid.2.2 (hvalid.1.solid h)

theorem Valid.planned (hvalid : Valid l block t granules) (h : Planned l t) : Planned l (feedAll block t granules) := by
  induction granules generalizing t with
  | nil => exact h
  | cons granule rest ih => exact ih hvalid.2.2 (hvalid.1.planned_feed h)

theorem Planned.append (h : Planned l t) (more : List ℕ) : Planned (l ++ more) t := by
  refine ⟨?_, ?_, fun chunks hchunks => ?_⟩
  · rw [List.take_append_of_le_length h.length_le, h.done]
  · rw [List.length_append]
    exact Nat.le_add_right_of_le h.length_le
  · obtain ⟨hlt, hrows⟩ := h.opened chunks hchunks
    refine ⟨by rw [List.length_append]; omega, ?_⟩
    rw [List.get_eq_getElem, List.getElem_append_left hlt]
    exact hrows

theorem steady_of_fits (h : g.Fits granularity) : Steady g := by
  intro r hr
  cases g with
  | adaptive a => cases hr
  | constant c =>
    cases hr
    exact ⟨rfl, h.2⟩

theorem Contents.write (hcfg : cfg.Computes) (h : Contents cfg t w) (hne : granules ≠ []) (hvalid : Valid l block t granules)
    (hl : w.indexGranularity.MarkRows l) (hrows : granuleRows block granules = block) (hblock : block ≠ []) :
    ∃ w' offsets, cfg.columnsList.foldlM (Writer.writeColumn cfg granules block) (w, cfg.writtenOffsetSubstreams) =
        .ok (w', offsets) ∧
      Contents cfg (feedAll block t granules)
        ((w'.calculateAndSerializePrimaryIndex cfg block granules).calculateAndSerializeSkipIndices cfg block granules) ∧
      w'.indexGranularity = w.indexGranularity ∧ w'.currentMark = w.currentMark ∧
      w'.rowsWrittenInLastMark = w.rowsWrittenInLastMark := by
  obtain ⟨w', offsets, hrun, hat, honly, hdata⟩ := exists_writeColumns hne hvalid hl hcfg.separate
    fun p hp => ⟨hcfg.nodup hp, h.columns p hp⟩
  obtain ⟨_, _, _, _, rfl⟩ := honly.writer
  refine ⟨_, offsets, hrun, ⟨?_, hvalid.solid h.solid, fun p hp => Or.inl ?_, ?_, ?_, ?_, fun _ => ?_⟩, rfl, rfl, rfl⟩
  · unfold Writer.calculateAndSerializePrimaryIndex
    split <;> exact h.computes
  · have hp' := hat p hp
    unfold Writer.calculateAndSerializePrimaryIndex
    split <;> exact hp'
  · unfold Writer.calculateAndSerializePrimaryIndex
    by_cases hkey : cfg.hasPrimaryKey = true
    · have hprimary := h.primary
      rw [if_pos hkey] at hprimary ⊢
      rw [if_pos hkey]
      exact primaryIndex_granules hvalid h.solid hprimary
    · have hprimary := h.primary
      rw [if_neg hkey] at hprimary ⊢
      rw [if_neg hkey]
      exact hprimary
  · intro hkey
    have hlast : (feedAll block t granules).rows.getLast? = block.getLast? := by
      rw [rows_feedAll, hrows, List.getLast?_append_of_ne_nil _ hblock]
    unfold Writer.calculateAndSerializePrimaryIndex
    rw [if_pos hkey, hlast]
    simp [Writer.calculateAndSerializeSkipIndices, hcfg.adaptive]
  · have hskip : ∀ (indexes : List (WriterSkipIndex ρ σ α γ)) (states : List (SkipIndexState σ α)),
        (∀ idx ∈ indexes, IndexOk idx) → List.Forall₂ (fun idx s => SkipAligned cfg idx t s) indexes states →
        List.Forall₂ (fun idx s => SkipAligned cfg idx (feedAll block t granules) s) indexes
          (List.zipWith (fun idx s => granules.foldl (Writer.updateSkipIndex cfg idx block) s) indexes states) := by
      intro indexes states hok hall
      induction hall with
      | nil => exact List.Forall₂.nil
      | cons hidx _ ih =>
        refine List.Forall₂.cons ?_ (ih fun idx hmem => hok idx (List.mem_cons_of_mem _ hmem))
        exact hidx.updateSkipIndexes (hok _ List.mem_cons_self) h.solid hvalid
    have hall := hskip cfg.skipIndices w.skipIndices (fun idx hidx => hcfg.indexOk hidx) h.skip
    unfold Writer.calculateAndSerializePrimaryIndex
    split <;> exact hall
  · have hwritten := hdata (Or.inr hcfg.columns)
    unfold Writer.calculateAndSerializePrimaryIndex
    split <;> exact hwritten

theorem shiftCurrentMark_eq (hcfg : cfg.Computes) (hne : granules ≠ []) (hvalid : Valid l block t granules)
    (hcurrent : w.currentMark = t.done.length) (hwritten : w.rowsWrittenInLastMark = t.openRows)
    (hlt : (feedAll block t granules).openRows < 2 ^ 64) :
    w.shiftCurrentMark cfg granules = .ok { w with
      currentMark := (feedAll block t granules).done.length
      rowsWrittenInLastMark := (feedAll block t granules).openRows } := by
  obtain ⟨last, hlast, hopen⟩ := hvalid.leftOpen hne
  unfold Writer.shiftCurrentMark
  simp only [hlast, hcfg.notBlocks, Bool.and_false, Bool.false_eq_true, if_false]
  by_cases hc : last.isComplete = true
  · obtain ⟨hnone, hcount⟩ := hopen.complete hc
    have hopenRows : (feedAll block t granules).openRows = 0 := by
      unfold Grouping.openRows
      rw [hnone]
      rfl
    rw [if_pos hc, hcurrent, ← hcount, hopenRows]
  · obtain ⟨-, hcount, hrows⟩ := hopen.incomplete (Bool.eq_false_iff.2 hc)
    rw [if_neg hc, hcurrent, ← hcount, Nat.add_sub_cancel, hwritten]
    by_cases hone : granules.length = 1
    · rw [if_pos hone] at hrows
      rw [if_pos hone, hrows, addSize_of_lt (by omega)]
    · rw [if_neg hone] at hrows
      rw [if_neg hone, hrows]

end Block

/-- **A block keeps the writer aligned.** -/
theorem WriterAligned.write (hcfg : cfg.Computes) (h : WriterAligned cfg t l w) (hsteady : Steady w.indexGranularity)
    (hsum : l.sum < 2 ^ 64) {block : WriterBlock ρ} (hblock : block.rows ≠ []) (hpos : 0 < w.granularityForBlock block)
    (hlt : t.rows.length + block.rows.length + w.granularityForBlock block ≤ 2 ^ 64) :
    ∃ w' t' l', w.write cfg block = .ok w' ∧ WriterAligned cfg t' l' w' ∧ Steady w'.indexGranularity ∧ l'.sum < 2 ^ 64 ∧
      t'.rows = t.rows ++ block.permuted ∧
      w'.indexGranularity.getConstantGranularity = w.indexGranularity.getConstantGranularity := by
  have hlength := block.length_permuted
  have hrows := List.length_pos_of_ne_nil hblock
  have hne : block.permuted ≠ [] := List.length_pos_iff.1 (by omega)
  have hfits : w.indexGranularity.Fits (w.granularityForBlock block) := by
    unfold Writer.granularityForBlock
    cases hconst : w.indexGranularity.getConstantGranularity with
    | none => exact fits_of_none hconst _
    | some r => exact hsteady r hconst
  obtain ⟨w₁, t₁, l₁, offset, hadjust, h₁, hleft, hoffset, hall, hfits₁, hconst₁⟩ := h.adjustForBlock hcfg (by omega) hsum hfits
  have hrows₁ : t₁.rows = t.rows := by rw [Grouping.rows, hall]; rfl
  obtain ⟨g, n, hfill, hfilled⟩ := h₁.fillIndexGranularity hleft hpos hoffset hrows (by rw [hrows₁]; exact hlt) hfits₁
  have hplanned := sum_planned h₁.planned h₁.full hleft
  have hsum' : (l₁ ++ List.replicate n (w.granularityForBlock block)).sum < 2 ^ 64 := by
    rw [List.sum_append, List.sum_replicate, smul_eq_mul, hplanned, hrows₁]
    rcases Nat.eq_zero_or_pos n with h0 | hn
    · subst h0
      omega
    · obtain ⟨k, rfl⟩ := Nat.exists_eq_succ_of_ne_zero (Nat.ne_of_gt hn)
      have hneeded := hfilled.needed k rfl
      rw [Nat.succ_mul]
      omega
  obtain ⟨granules, hgranules, hgne, hvalid, hgrows, hgall⟩ := exists_getGranulesToWrite block.permuted
    hfilled.marks.markRows hsum' hpos h₁.full hleft (by rw [hlength]; exact hfilled.enough)
    (by rw [hlength]; exact hfilled.needed) hne
  obtain ⟨w₂, offsets, hcolumns, hcontents, hg₂, hcurrent₂, hwritten₂⟩ := (h₁.contents.congr g w₁.currentMark
    w₁.rowsWrittenInLastMark).write hcfg hgne hvalid hfilled.marks.markRows hgrows hne
  have hrows' : (feedAll block.permuted t₁ granules).rows = t.rows ++ block.permuted := by rw [rows_feedAll, hgrows, hrows₁]
  have hopenLe : (feedAll block.permuted t₁ granules).openRows ≤ (feedAll block.permuted t₁ granules).rows.length := by
    rw [Grouping.length_rows]
    cases hopened : (feedAll block.permuted t₁ granules).opened <;>
      simp [Grouping.openRows, Grouping.all, hopened, Grouping.rowsOf]
  let w₃ := (w₂.calculateAndSerializePrimaryIndex cfg block.permuted granules).calculateAndSerializeSkipIndices cfg
    block.permuted granules
  have hw₃ : w₃.indexGranularity = g ∧ w₃.currentMark = w₁.currentMark ∧ w₃.rowsWrittenInLastMark = w₁.rowsWrittenInLastMark := by
    simp only [w₃, Writer.calculateAndSerializePrimaryIndex, Writer.calculateAndSerializeSkipIndices]
    split <;> exact ⟨hg₂, hcurrent₂, hwritten₂⟩
  have hshift := shiftCurrentMark_eq (w := w₃) hcfg hgne hvalid (hw₃.2.1.trans h₁.currentMark)
    (hw₃.2.2.trans h₁.rowsWritten) (by rw [hrows', List.length_append, hlength] at hopenLe; omega)
  refine ⟨_, feedAll block.permuted t₁ granules, l₁ ++ List.replicate n (w.granularityForBlock block), ?_,
    ⟨?_, hgall.symm, hvalid.planned (h₁.planned.append _), rfl, rfl, hcontents.congr w₃.indexGranularity _ _⟩, ?_, hsum', hrows', ?_⟩
  · rw [h₁.currentMark.symm, h₁.rowsWritten.symm, hlength] at hgranules
    simp only [Writer.write, Writer.computeMarks, h.contents.computes, if_true, hadjust, hfill, hgranules, hcolumns, hcfg.primary,
      bind, Except.bind]
    exact hshift
  · rw [show ({ w₃ with currentMark := _, rowsWrittenInLastMark := _ } : Writer ρ κ σ τ α).indexGranularity = g from hw₃.1]
    exact hfilled.marks
  · exact steady_of_fits (by rw [show _ = g from hw₃.1]; exact hfilled.fits)
  · exact (congrArg _ hw₃.1).trans (hfilled.constant.trans hconst₁)

/-! ## The end of the part -/

/-- A granularity without marks. -/
inductive IndexGranularity.New : IndexGranularity → Prop
  | adaptive : New (.adaptive {})
  | constant {c : ℕ} (hpos : 0 < c) : New (.constant { constantGranularity := c, lastMarkGranularity := c })

/-- **Marks, data and indexes of a part that is written.** A mark is the list of its chunks.
The rows of the marks are those written, and only the final mark has none. Every stream has
the data of the marks and their positions, the primary index the first keys and the last
one, and a skip index the granules of groups of marks. -/
structure PartAligned (cfg : WriterConfig ρ κ σ τ α γ) (rows : List ρ) (marks : List (List (List ρ)))
    (w : Writer ρ κ σ τ α) : Prop where
  flatten : marks.flatten.flatten = rows
  total : (marks.map Grouping.rowsOf).sum = rows.length
  nonempty : ∀ chunks ∈ marks, chunks.flatten ≠ []
  granularity : w.indexGranularity.MarkRows (marks.map Grouping.rowsOf ++ [0])
  columns : ∀ p ∈ cfg.columnStreams, ColumnFinal cfg marks w.columnStreams p
  primary : cfg.hasPrimaryKey = true →
    w.primaryIndex.map some = marks.map (firstKey cfg) ++ [rows.getLast?.map cfg.primaryKey]
  skip : List.Forall₂ (fun idx s => ∃ groups, SkipFinal cfg idx marks groups s.streams) cfg.skipIndices w.skipIndices

theorem IndexGranularity.New.marks (h : g.New) : g.Marks [] := by
  cases h with
  | adaptive => exact ⟨rfl, fun _ hi => absurd hi (Nat.not_lt_zero _), fun _ hr => absurd hr List.not_mem_nil, by simp⟩
  | constant => exact ⟨rfl, rfl, fun _ hi => absurd hi (Nat.not_lt_zero _)⟩

theorem IndexGranularity.New.steady (h : g.New) : Steady g := by
  intro r hr
  cases h with
  | adaptive => cases hr
  | constant => cases hr; exact ⟨rfl, rfl⟩

theorem WriterAligned.create (hcfg : cfg.Computes) (hg : g.New) :
    WriterAligned cfg {} [] (Writer.create cfg g) := by
  refine ⟨hg.marks, rfl, ⟨rfl, Nat.zero_le _, fun chunks h0 => by cases h0⟩, rfl, rfl,
    ⟨?_, fun chunks hmem => absurd hmem List.not_mem_nil, fun p _ => Or.inr ⟨rfl, rfl, rfl, fun _ _ => rfl⟩, ?_, fun _ => rfl, ?_,
      fun h0 => absurd rfl h0⟩⟩
  · have hcount := hg.marks.count
    simpa [Writer.create, IndexGranularity.empty] using hcount
  · simp [Writer.create, Grouping.all]
  · unfold Writer.create
    rw [List.forall₂_map_right_iff, List.forall₂_same]
    intro idx hidx
    have hempty := hcfg.emptyUpdated idx hidx []
    exact ⟨[], [], rfl, Nat.zero_le _, rfl, fun _ h0 => absurd h0 List.not_mem_nil, ⟨fun _ _ => rfl, fun _ _ => rfl⟩,
      fun _ => hempty, fun h0 => absurd rfl h0⟩

/-- **All blocks**, by induction on the blocks. -/
theorem exists_writeBlocks (hcfg : cfg.Computes) :
    ∀ {blocks : List (WriterBlock ρ)} {t : Grouping ρ} {l : List ℕ} {w : Writer ρ κ σ τ α}, WriterAligned cfg t l w →
      Steady w.indexGranularity → l.sum < 2 ^ 64 →
      (∀ block ∈ blocks, block.rows ≠ [] ∧ 0 < w.granularityForBlock block ∧
        t.rows.length + (blocks.map fun b => b.rows.length).sum + w.granularityForBlock block ≤ 2 ^ 64) →
      ∃ w' t' l', blocks.foldlM (fun w block => w.write cfg block) w = .ok w' ∧ WriterAligned cfg t' l' w' ∧
        t'.rows = t.rows ++ blocks.flatMap WriterBlock.permuted := by
  intro blocks
  induction blocks with
  | nil => exact fun {t l w} h _ _ _ => ⟨w, t, l, rfl, h, by simp⟩
  | cons block rest ih =>
    intro t l w h hsteady hsum hblocks
    obtain ⟨hne, hpos, hlt⟩ := hblocks block List.mem_cons_self
    rw [List.map_cons, List.sum_cons] at hlt
    obtain ⟨w₁, t₁, l₁, hstep, h₁, hsteady₁, hsum₁, hrows₁, hconst₁⟩ := h.write hcfg hsteady hsum hne hpos (by omega)
    have hgran : ∀ b : WriterBlock ρ, w₁.granularityForBlock b = w.granularityForBlock b := fun b => by
      rw [Writer.granularityForBlock, Writer.granularityForBlock, hconst₁]
    have hlength := block.length_permuted
    obtain ⟨w', t', l', hrun, h', hrows'⟩ := ih h₁ hsteady₁ hsum₁ fun b hb => by
      obtain ⟨hne', hpos', hlt'⟩ := hblocks b (List.mem_cons_of_mem _ hb)
      rw [List.map_cons, List.sum_cons] at hlt'
      rw [hgran, hrows₁, List.length_append, hlength]
      exact ⟨hne', hpos', by omega⟩
    refine ⟨w', t', l', ?_, h', ?_⟩
    · rw [List.foldlM_cons, hstep]
      exact hrun
    · rw [hrows', hrows₁, List.flatMap_cons, List.append_assoc]

theorem WriterAligned.closeLast (hcfg : cfg.Computes) (h : WriterAligned cfg t l w) (hlt : t.rows.length < 2 ^ 64) :
    ∃ w' l', (if 0 < w.rowsWrittenInLastMark then w.adjustLastMarkIfNeedAndFlushToDisk cfg w.rowsWrittenInLastMark else .ok w) =
      .ok w' ∧ WriterAligned cfg t.close l' w' := by
  have hwritten := h.rowsWritten
  cases hopened : t.opened with
  | none =>
    have hopenRows : t.openRows = 0 := by simp [Grouping.openRows, hopened, Grouping.rowsOf]
    have hclose : t.close = t := by
      obtain ⟨done, opened⟩ := t
      simp only at hopened
      subst hopened
      simp [Grouping.close, Grouping.all]
    rw [if_neg (by omega), hclose]
    exact ⟨w, l, rfl, h⟩
  | some chunks =>
    obtain ⟨-, -, -, -, hpos, -⟩ := h.rowsLeft hopened
    obtain ⟨w', l', hrun, haligned, -⟩ := h.closeMark hcfg hlt hopened
    rw [if_pos (by omega)]
    exact ⟨w', l', hrun, haligned⟩

theorem WriterAligned.finalizeIndexGranularity (hcfg : cfg.Computes) (h : WriterAligned cfg t l w) (hlt : t.rows.length < 2 ^ 64)
    (hne : t.all ≠ []) :
    ∃ w' l' w'', w.finalizeIndexGranularity cfg = .ok w'' ∧ WriterAligned cfg t.close l' w' ∧
      (∀ p ∈ cfg.columnStreams, ColumnFinal cfg t.all w''.columnStreams p) ∧ ColumnsOnly cfg.columnStreams w' w'' ∧
      w''.dataWritten = true := by
  obtain ⟨w', l', hclose, h'⟩ := h.closeLast hcfg hlt
  have hne' : t.close.all ≠ [] := by rwa [Grouping.all_close]
  have hdata := h'.contents.dataWritten hne'
  obtain ⟨w'', offsets, hrun, hfinal, honly, hdata'⟩ := columnFinal_finalizeColumns cfg (show t.close.opened = none from rfl)
    hcfg.separate fun p hp => ⟨hcfg.nodup hp, h'.contents.columnAt hne' hp⟩
  have hstates : (cfg.columnsList.any fun c => (w'.serializationStates c.name).isSome) = true := by
    obtain ⟨c, rest, hcolumns⟩ := List.exists_cons_of_ne_nil hcfg.columns
    obtain ⟨state, hstate, -⟩ := h'.contents.columnAt (p := (c, c.streamNames cfg.writtenOffsetSubstreams)) hne' (by
      rw [WriterConfig.columnStreams, hcolumns]
      exact List.mem_cons_self)
    rw [hcolumns, List.any_cons, hstate]
    rfl
  have hfinal' : w'.writeFinalMarks cfg = true := by simp [Writer.writeFinalMarks, hcfg.adaptive, hdata]
  refine ⟨w', l', w'', ?_, h', hfinal, honly, hdata'.trans hdata⟩
  unfold Writer.finalizeIndexGranularity
  simp only [hcfg.notBlocks, Bool.and_false, Bool.false_eq_true, if_false, hclose, bind, Except.bind, pure, Except.pure,
    hstates, hfinal', hrun]

/-- `fillChecksums`: the final mark, the last key and what the skip indexes have left. -/
theorem exists_fillChecksums (hcfg : cfg.Computes) {w' w'' : Writer ρ κ σ τ α} (h : WriterAligned cfg t.close l w')
    (hne : t.all ≠ [])
    (hfinal : ∀ p ∈ cfg.columnStreams, ColumnFinal cfg t.all w''.columnStreams p) (honly : ColumnsOnly cfg.columnStreams w' w'')
    (hdata : w''.dataWritten = true) :
    ∃ part, w''.fillChecksums cfg = .ok part ∧ PartAligned cfg t.rows t.all part := by
  obtain ⟨_, _, _, _, hwriter⟩ := honly.writer
  have hl : l = t.all.map Grouping.rowsOf := by
    have hdone := h.planned.done
    have hfull := h.full
    rw [Grouping.all_close] at hfull
    have hclose : t.close.done = t.all := rfl
    rwa [hclose, ← hfull, List.take_length] at hdone
  obtain ⟨g, happend, hmarks⟩ := h.marks.appendFinalMark
  have hsolid := h.contents.solid
  have hwrite : w''.writeFinalMarks cfg = true := by simp [Writer.writeFinalMarks, hcfg.adaptive, hdata]
  have hcomputes : w''.computeGranularity = true := by rw [hwriter]; exact h.contents.computes
  have hg : w''.indexGranularity = w'.indexGranularity := by rw [hwriter]
  have hprimary : w''.primaryIndex = w'.primaryIndex := by rw [hwriter]
  have hlast : w''.lastIndexBlock = w'.lastIndexBlock := by rw [hwriter]
  have hskip : w''.skipIndices = w'.skipIndices := by rw [hwriter]
  -- every skip index writes what it has left
  have hskipFinal : ∀ (indexes : List (WriterSkipIndex ρ σ α γ)) (states : List (SkipIndexState σ α)), (∀ idx ∈ indexes, IndexOk idx) →
      List.Forall₂ (fun idx s => SkipAligned cfg idx t.close s) indexes states →
      List.Forall₂ (fun idx s => ∃ groups, SkipFinal cfg idx t.all groups s.streams) indexes
        (List.zipWith (fun idx s => if idx.empty s.aggregator then s else Writer.writeIndexGranule idx s) indexes states) := by
    intro indexes states hok hall
    induction hall with
    | nil => exact List.Forall₂.nil
    | cons hidx _ ih =>
      refine List.Forall₂.cons ?_ (ih fun idx hmem => hok idx (List.mem_cons_of_mem _ hmem))
      have hgroups := hidx.final (hok _ List.mem_cons_self) hsolid
      rwa [Grouping.all_close] at hgroups
  have hskips := hskipFinal cfg.skipIndices w'.skipIndices (fun idx hidx => hcfg.indexOk hidx) h.contents.skip
  have hrows : t.all.flatten.flatten = t.rows := rfl
  rw [← hg] at happend
  rw [hl] at hmarks
  rw [← hskip] at hskips
  unfold Writer.fillChecksums Writer.fillPrimaryIndexChecksums
  simp only [hcfg.primary, hwrite, hcomputes, Bool.and_self, if_true, happend, bind, Except.bind, pure, Except.pure]
  by_cases hkey : cfg.hasPrimaryKey = true
  · have hkeys := h.contents.primary
    rw [if_pos hkey, Grouping.all_close, ← hprimary] at hkeys
    have hlastBlock := h.contents.lastBlock hkey
    rw [Grouping.rows_close, ← hlast] at hlastBlock
    simp only [hkey, if_true]
    refine ⟨_, rfl, ⟨hrows, (Grouping.length_rows t).symm, fun chunks hmem => hsolid chunks (by rwa [Grouping.all_close]), hmarks,
      hfinal, fun _ => ?_, hskips⟩⟩
    obtain ⟨chunks, rest, hall⟩ := List.exists_cons_of_ne_nil hne
    have hrowsNe : t.rows ≠ [] := by
      intro h0
      rw [Grouping.rows, hall, List.flatten_cons, List.flatten_append] at h0
      exact hsolid chunks (by rw [Grouping.all_close, hall]; exact List.mem_cons_self) (List.append_eq_nil_iff.1 h0).1
    obtain ⟨row, hrow⟩ : ∃ row, t.rows.getLast? = some row := ⟨_, List.getLast?_eq_some_getLast hrowsNe⟩
    have hfinalMark : cfg.canUseAdaptiveGranularity = true := hcfg.adaptive
    simp [Writer.fillSkipIndicesChecksums, Writer.writeFinalMarks, hfinalMark, hdata, hlastBlock, hrow, hkeys]
  · simp only [hkey]
    refine ⟨_, rfl, ⟨hrows, (Grouping.length_rows t).symm, fun chunks hmem => hsolid chunks (by rwa [Grouping.all_close]), hmarks,
      hfinal, fun h0 => absurd h0 hkey, hskips⟩⟩

theorem writePart_nil (hcfg : cfg.Computes) (g : IndexGranularity) :
    Writer.writePart cfg g [] = .ok (Writer.create cfg g : Writer ρ κ σ τ α) := by
  have hfinalize : ∀ (columns : List (WriterColumn ρ σ τ)) (s : Writer ρ κ σ τ α × List String),
      columns.foldl (Writer.finalizeColumn cfg false false) s = s := by
    intro columns
    induction columns with
    | nil => exact fun _ => rfl
    | cons c rest ih => exact fun s => ih s
  have hskip : ∀ indexes : List (WriterSkipIndex ρ σ α γ), (∀ idx ∈ indexes, idx ∈ cfg.skipIndices) →
      List.zipWith (fun idx s => if idx.empty s.aggregator then s else Writer.writeIndexGranule idx s) indexes
        (indexes.map fun idx => { aggregator := idx.createIndexAggregator, streams := fun _ => { buffer := cfg.bufferOps.fresh } }) =
      indexes.map fun idx => { aggregator := idx.createIndexAggregator, streams := fun _ => { buffer := cfg.bufferOps.fresh } } := by
    intro indexes hmem
    induction indexes with
    | nil => rfl
    | cons idx rest ih =>
      have hempty : idx.empty idx.createIndexAggregator = true := hcfg.emptyUpdated idx (hmem idx List.mem_cons_self) []
      rw [List.map_cons, List.zipWith_cons_cons, ih fun i hi => hmem i (List.mem_cons_of_mem _ hi)]
      simp only [hempty, if_true]
  have hstates : (cfg.columnsList.any fun _ => false) = false := by simp
  simp only [Writer.writePart, List.foldlM_nil, Writer.finalizeIndexGranularity, Writer.create, Writer.writeFinalMarks,
    Bool.and_false, Nat.lt_irrefl, if_false, bind, Except.bind, pure, Except.pure, Option.isSome_none, hstates, hfinalize,
    Writer.fillChecksums, hcfg.primary, if_true, Writer.fillPrimaryIndexChecksums, Bool.false_and, Bool.false_eq_true,
    Writer.fillSkipIndicesChecksums, List.append_nil]
  rw [ite_self]
  exact congrArg (fun skipIndices => Except.ok { Writer.create cfg g with skipIndices := skipIndices })
    (hskip cfg.skipIndices fun _ h => h)

/-- **Marks, data and indexes go together**: a part that is written with at least one block
is aligned, and nothing throws. -/
theorem writePart_aligned (hcfg : cfg.Computes) {g : IndexGranularity} (hg : g.New) {blocks : List (WriterBlock ρ)}
    (hblocks : ∀ block ∈ blocks, block.rows ≠ [] ∧ 0 < block.granularity ∧
      (blocks.map fun b => b.rows.length).sum + g.getConstantGranularity.getD block.granularity ≤ 2 ^ 64) :
    (blocks = [] → Writer.writePart cfg g blocks = .ok (Writer.create cfg g : Writer ρ κ σ τ α)) ∧
    (blocks ≠ [] → ∃ w : Writer ρ κ σ τ α, Writer.writePart cfg g blocks = .ok w ∧
      ∃ marks, PartAligned cfg (blocks.flatMap WriterBlock.permuted) marks w) := by
  refine ⟨fun h0 => by rw [h0]; exact writePart_nil hcfg g, fun hne => ?_⟩
  have hcreate := WriterAligned.create (α := α) hcfg hg
  have hpos : ∀ block : WriterBlock ρ, 0 < block.granularity → 0 < g.getConstantGranularity.getD block.granularity := by
    intro block hblock
    cases hg with
    | adaptive => exact hblock
    | constant hc => exact hc
  obtain ⟨w, t, l, hrun, haligned, hrows⟩ := exists_writeBlocks hcfg hcreate hg.steady (by simp) fun block hblock => by
    obtain ⟨hrows, hgran, hlt⟩ := hblocks block hblock
    refine ⟨hrows, hpos block hgran, ?_⟩
    rw [show (({} : Grouping ρ).rows.length) = 0 from rfl, Nat.zero_add]
    exact hlt
  obtain ⟨block, rest, rfl⟩ := List.exists_cons_of_ne_nil hne
  obtain ⟨hblockRows, hgran, hlt⟩ := hblocks block List.mem_cons_self
  have hlength : ∀ blocks : List (WriterBlock ρ), (blocks.flatMap WriterBlock.permuted).length =
      (blocks.map fun b => b.rows.length).sum := by
    intro blocks
    rw [List.length_flatMap]
    exact congrArg List.sum (List.map_congr_left fun b _ => b.length_permuted)
  have htotal : t.rows.length = ((block :: rest).map fun b => b.rows.length).sum := by
    rw [hrows, ← hlength]
    rfl
  have hgpos := hpos block hgran
  have hall : t.all ≠ [] := by
    intro h0
    have hlen := List.length_pos_of_ne_nil hblockRows
    rw [Grouping.rows, h0, List.map_cons, List.sum_cons] at htotal
    simp at htotal
    omega
  obtain ⟨w', l', w'', hfinalize, haligned', hfinal, honly, hdata⟩ := haligned.finalizeIndexGranularity hcfg (by omega) hall
  obtain ⟨part, hfill, hpart⟩ := exists_fillChecksums hcfg haligned' hall hfinal honly hdata
  refine ⟨part, ?_, t.all, ?_⟩
  · simp only [Writer.writePart, hrun, bind, Except.bind, hfinalize, hfill]
  · rw [hrows] at hpart
    exact hpart

end Writer

/-! ## A small writer -/

namespace SmallWriter

/-- Two columns of a Nested type, and a skip index of two marks. A buffer has its place in
the file and its offset; every row takes one byte in every stream. -/
def config : WriterConfig ℕ ℕ (ℕ × ℕ) Unit (List ℕ) (List ℕ) where
  canUseAdaptiveGranularity := true
  blocksAreGranulesSize := false
  rewritePrimaryKey := true
  hasPrimaryKey := true
  minCompressBlockSize := 4
  columnsList := [column "n.a", column "n.b"]
  skipIndices :=
    [{ granularity := 2
       substreams := ["skp_idx_i"]
       createIndexAggregator := []
       empty := List.isEmpty
       update := fun aggregator rows => aggregator ++ rows
       getGranuleAndReset := fun aggregator => (aggregator, [])
       serializeBinaryWithMultipleStreams := fun getter granule => append granule.length getter }]
  writtenOffsetSubstreams := []
  primaryKey := id
  bufferOps :=
    { fresh := (0, 0)
      count := Prod.fst
      offset := Prod.snd
      next := fun b => (b.1 + b.2, 0)
      nextIfAtEnd := fun b => if b.2 = 8 then (b.1 + b.2, 0) else b }
where
  append (bytes : ℕ) (getter : String → Option (ℕ × ℕ)) : String → Option (ℕ × ℕ) :=
    fun name => (getter name).map fun b => (b.1, b.2 + bytes)
  column (name : String) : WriterColumn ℕ (ℕ × ℕ) Unit :=
    { name := name
      minCompressBlockSize := 4
      substreams := [⟨"n.size0", true⟩, ⟨name, false⟩]
      serialization :=
        { serializeBinaryBulkStatePrefix := fun getter => ((), getter)
          serializeBinaryBulk := fun getter rows _ => ((), append rows.length getter)
          serializeBinaryBulkStateSuffix := fun getter _ => ((), getter) } }

theorem computes : config.Computes := by
  refine ⟨⟨by decide, by decide, by decide, by decide, by decide, fun idx hidx chunks => ?_, fun idx hidx aggregator => ?_⟩,
    rfl, rfl, rfl, by decide⟩
  · rw [List.mem_singleton.1 hidx]
    have hfold : ∀ (chunks : List (List ℕ)) (rows : List ℕ),
        (chunks.foldl (fun aggregator rows => aggregator ++ rows) rows).isEmpty = (rows.isEmpty && chunks.all List.isEmpty) := by
      intro chunks
      induction chunks with
      | nil => simp
      | cons chunk rest ih =>
        intro rows
        rw [List.foldl_cons, ih]
        cases rows <;> simp
    exact hfold chunks []
  · rw [List.mem_singleton.1 hidx]
    rfl

/-- The same without columns. -/
def withoutColumns : WriterConfig ℕ ℕ (ℕ × ℕ) Unit (List ℕ) (List ℕ) := { config with columnsList := [] }

/-- A permuted block, then one that closes the open mark. -/
def blocks : List (WriterBlock ℕ) :=
  [⟨[30, 10, 20], some [1, 2, 0], 5, by decide⟩, ⟨[40], none, 1, by decide⟩]

/-- Five rows into a mark of ten, then ten rows of the largest granularity. -/
def wrappingBlocks : List (WriterBlock ℕ) :=
  [⟨List.range 5, none, 10, by decide⟩, ⟨List.range 10, none, 2 ^ 64 - 1, by decide⟩]

end SmallWriter

theorem writePart_aligned_smallWriter :
    ∃ w, Writer.writePart SmallWriter.config (.adaptive {}) SmallWriter.blocks = .ok w ∧
      ∃ marks, PartAligned SmallWriter.config (SmallWriter.blocks.flatMap WriterBlock.permuted) marks w :=
  (writePart_aligned SmallWriter.computes IndexGranularity.New.adaptive (by decide)).2 (by decide)

/-- Without a block there is no final mark; without columns the open mark cannot be closed;
a granularity near `2 ^ 64` wraps around and marks are appended that nothing fills. -/
theorem writePart_boundaries :
    (¬∃ w, Writer.writePart SmallWriter.config (.adaptive {}) [] = .ok w ∧ ∃ marks, PartAligned SmallWriter.config [] marks w) ∧
    (¬∃ w, Writer.writePart SmallWriter.withoutColumns (.adaptive {}) SmallWriter.blocks = .ok w) ∧
    ¬∃ w, Writer.writePart SmallWriter.config (.adaptive {}) SmallWriter.wrappingBlocks = .ok w := by
  refine ⟨?_, ?_, ?_⟩
  · rintro ⟨w, hrun, marks, haligned⟩
    rw [writePart_nil SmallWriter.computes, Except.ok.injEq] at hrun
    have hcount := haligned.granularity.count
    rw [← hrun, List.length_append, List.length_singleton] at hcount
    exact absurd hcount (Nat.succ_ne_zero _).symm
  · rintro ⟨w, hrun⟩
    have herror : (Writer.writePart SmallWriter.withoutColumns (.adaptive {}) SmallWriter.blocks).isOk = false := by
      decide +kernel
    rw [hrun] at herror
    cases herror
  · rintro ⟨w, hrun⟩
    have herror : (Writer.writePart SmallWriter.config (.adaptive {}) SmallWriter.wrappingBlocks).isOk = false := by
      decide +kernel
    rw [hrun] at herror
    cases herror

end MergeTree
