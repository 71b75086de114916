import MergeTree.Lib.Loops
import MergeTree.Spec.TextIndexBuilder

/-!
# Row numbers of a text index

What is stored is always the number of the row modulo `2 ^ 32` (`Tracks.run`): `update`
compares the position in the block with the limit, not the row counter, and the counter
goes on over blocks and segments. So the stored numbers are exact if and only if every row
with a token is below `2 ^ 32` (`rowNumbersExact_iff`). The transform makes such a run for
each of its indexes (`aggregate_follows`), and its segments hold the whole stream
(`segments_hold_stream`).
-/

namespace MergeTree

/-! ## Posting lists -/

theorem PostingListBuilder.rows_add (builder : PostingListBuilder) (value : ℕ) :
    (builder.add value).rows = insert value builder.rows := by
  cases builder with
  | large postings => rfl
  | small values =>
    unfold add
    dsimp only
    split
    · rename_i hlast
      exact (Finset.insert_eq_of_mem (List.mem_toFinset.2 (List.mem_of_getLast? hlast))).symm
    · have happend : (values ++ [value]).toFinset = insert value values.toFinset := by
        ext v
        simp only [List.mem_toFinset, List.mem_append, List.mem_singleton, Finset.mem_insert]
        exact or_comm
      split <;> exact happend

namespace TextGranuleBuilder

variable (tokenizer : String → List String) (builder : TextGranuleBuilder)

@[simp] theorem addToken_currentRow (token : String) : (builder.addToken token).currentRow = builder.currentRow := rfl

theorem mem_addToken {token t : String} {r : ℕ} :
    r ∈ (builder.addToken token).tokensMap.rows t ↔
      r ∈ builder.tokensMap.rows t ∨ t = token ∧ r = builder.currentRow % 2 ^ 32 := by
  unfold addToken TokenToPostingsBuilderMap.rows
  dsimp only
  by_cases ht : t = token
  · subst ht
    rw [Function.update_self, Option.elim_some, PostingListBuilder.rows_add, Finset.mem_insert]
    cases builder.tokensMap t with
    | none =>
      have hempty : (Option.getD none (PostingListBuilder.small [])).rows = ∅ := rfl
      rw [hempty, Option.elim_none]
      tauto
    | some postingListBuilder =>
      rw [Option.getD_some, Option.elim_some]
      tauto
  · rw [Function.update_of_ne ht]
    tauto

theorem mem_addDocument (document : String) {t : String} {r : ℕ} :
    (builder.addDocument tokenizer document).currentRow = builder.currentRow ∧
      (r ∈ (builder.addDocument tokenizer document).tokensMap.rows t ↔
        r ∈ builder.tokensMap.rows t ∨ t ∈ tokenizer document ∧ r = builder.currentRow % 2 ^ 32) := by
  unfold addDocument
  induction tokenizer document generalizing builder with
  | nil => simp
  | cons token tokens ih =>
    obtain ⟨hrow, hmem⟩ := ih (builder.addToken token)
    rw [List.foldl_cons]
    refine ⟨hrow, hmem.trans ?_⟩
    rw [mem_addToken, addToken_currentRow, List.mem_cons]
    tauto

theorem mem_addDocuments (documents : List String) {t : String} {r : ℕ} :
    (documents.foldl (addDocument tokenizer) builder).currentRow = builder.currentRow ∧
      (r ∈ (documents.foldl (addDocument tokenizer) builder).tokensMap.rows t ↔
        r ∈ builder.tokensMap.rows t ∨ (∃ document ∈ documents, t ∈ tokenizer document) ∧ r = builder.currentRow % 2 ^ 32) := by
  induction documents generalizing builder with
  | nil => simp
  | cons document documents ih =>
    obtain ⟨hrow, hmem⟩ := ih (builder.addDocument tokenizer document)
    obtain ⟨hrowFirst, hmemFirst⟩ := builder.mem_addDocument tokenizer document (t := t) (r := r)
    rw [List.foldl_cons]
    refine ⟨hrow.trans hrowFirst, hmem.trans ?_⟩
    rw [hmemFirst, hrowFirst]
    simp only [List.mem_cons, exists_eq_or_imp]
    tauto

end TextGranuleBuilder

variable {params : TextIndexParams}

/-- **Rows of documents**: the builder counts them, and stores their numbers modulo `2 ^ 32`. -/
theorem mem_addRows (rows : List (List String)) {builder : TextGranuleBuilder} {k : ℕ} (hrow : builder.currentRow = k % 2 ^ 64)
    {t : String} {r : ℕ} :
    (rows.foldl params.addRow builder).currentRow = (k + rows.length) % 2 ^ 64 ∧
      (r ∈ (rows.foldl params.addRow builder).tokensMap.rows t ↔
        r ∈ builder.tokensMap.rows t ∨
          ∃ i < rows.length, (∃ document ∈ rows.getD i [], t ∈ params.tokenizer document) ∧ r = (k + i) % 2 ^ 32) := by
  induction rows generalizing builder k with
  | nil => simpa using hrow
  | cons documents rows ih =>
    obtain ⟨hrowFirst, hmemFirst⟩ := builder.mem_addDocuments params.tokenizer documents (t := t) (r := r)
    have hnext : (params.addRow builder documents).currentRow = (k + 1) % 2 ^ 64 := by
      unfold TextIndexParams.addRow TextGranuleBuilder.incrementCurrentRow
      dsimp only
      rw [hrowFirst, hrow]
      unfold addSize
      omega
    obtain ⟨hrowRest, hmemRest⟩ := ih hnext
    have hfirst : r ∈ (params.addRow builder documents).tokensMap.rows t ↔ r ∈ builder.tokensMap.rows t ∨
        (∃ document ∈ documents, t ∈ params.tokenizer document) ∧ r = k % 2 ^ 32 := by
      refine hmemFirst.trans ?_
      rw [hrow, Nat.mod_mod_of_dvd k (by decide : 2 ^ 32 ∣ 2 ^ 64)]
    rw [List.foldl_cons, List.length_cons]
    refine ⟨by rw [hrowRest]; congr 1; omega, hmemRest.trans ?_⟩
    rw [hfirst, or_assoc]
    refine or_congr_right ?_
    constructor
    · rintro (⟨hin, hr⟩ | ⟨i, hi, hin, hr⟩)
      · exact ⟨0, Nat.succ_pos _, hin, hr⟩
      · exact ⟨i + 1, Nat.succ_lt_succ hi, hin, by rw [hr]; congr 1; omega⟩
    · rintro ⟨i, hi, hin, hr⟩
      cases i with
      | zero => exact Or.inl ⟨hin, hr⟩
      | succ i => exact Or.inr ⟨i, Nat.lt_of_succ_lt_succ hi, hin, by rw [hr]; congr 1; omega⟩

/-! ## Runs -/

namespace TextIndexBuild

/-- **What is stored are the row numbers modulo `2 ^ 32`**, and every row is in a segment. -/
structure Tracks (params : TextIndexParams) (build : TextIndexBuild) : Prop where
  currentRow : build.builder.currentRow = build.rows.length % 2 ^ 64
  beginRow_le : build.beginRow ≤ build.rows.length
  stored : ∀ segment ∈ build.segments, segment.endRow ≤ build.rows.length ∧ ∀ token r, r ∈ segment.tokensMap.rows token ↔
    ∃ row, segment.beginRow ≤ row ∧ row < segment.endRow ∧ build.Contains params token row ∧ r = row % 2 ^ 32
  covered : ∀ row < build.rows.length, ∃ segment ∈ build.segments, segment.beginRow ≤ row ∧ row < segment.endRow

theorem Tracks.init (params : TextIndexParams) : Tracks params init where
  currentRow := rfl
  beginRow_le := le_rfl
  stored := by
    intro segment hsegment
    obtain rfl := List.mem_singleton.1 hsegment
    refine ⟨le_rfl, fun token r => ⟨fun hr => ?_, ?_⟩⟩
    · exact absurd hr (Finset.notMem_empty r)
    · rintro ⟨row, -, hrow, -⟩
      exact absurd hrow (Nat.not_lt_zero row)
  covered row hrow := absurd hrow (Nat.not_lt_zero row)

theorem Tracks.feed {build : TextIndexBuild} (h : Tracks params build) (rows : List (List String)) :
    Tracks params { build with builder := rows.foldl params.addRow build.builder, rows := build.rows ++ rows } := by
  have hlength : (build.rows ++ rows).length = build.rows.length + rows.length := List.length_append
  have hbegin := h.beginRow_le
  -- rows that were there before
  have hbefore : ∀ {row}, row < build.rows.length → ∀ token,
      Contains params { build with builder := rows.foldl params.addRow build.builder, rows := build.rows ++ rows } token row ↔
        build.Contains params token row := by
    intro row hrow token
    unfold Contains
    dsimp only
    rw [List.getD_append _ _ _ _ hrow]
  refine ⟨?_, ?_, ?_, ?_⟩
  · dsimp only
    rw [hlength]
    exact (mem_addRows rows h.currentRow (t := "") (r := 0)).1
  · dsimp only
    omega
  · intro segment hsegment
    dsimp only
    rcases List.mem_append.1 hsegment with hflushed | hlast
    · obtain ⟨hend, hstored⟩ := h.stored segment (List.mem_append_left _ hflushed)
      refine ⟨by omega, fun token r => (hstored token r).trans (exists_congr fun row => ?_)⟩
      refine and_congr_right fun _ => and_congr_right fun hlt => ?_
      rw [hbefore (lt_of_lt_of_le hlt hend)]
    · obtain rfl := List.mem_singleton.1 hlast
      obtain ⟨-, hstored⟩ := h.stored ⟨build.builder.tokensMap, build.beginRow, build.rows.length⟩
        (List.mem_append_right _ List.mem_cons_self)
      refine ⟨le_rfl, fun token r => ?_⟩
      dsimp only at hstored ⊢
      rw [(mem_addRows rows h.currentRow (t := token) (r := r)).2, hstored token r]
      constructor
      · rintro (⟨row, hle, hlt, hin, hr⟩ | ⟨i, hi, hin, hr⟩)
        · exact ⟨row, hle, by omega, (hbefore hlt token).2 hin, hr⟩
        · refine ⟨build.rows.length + i, by omega, by omega, ?_, hr⟩
          unfold Contains
          dsimp only
          rw [List.getD_append_right _ _ _ _ (Nat.le_add_right _ i), Nat.add_sub_cancel_left]
          exact hin
      · rintro ⟨row, hle, hlt, hin, hr⟩
        rcases Nat.lt_or_ge row build.rows.length with hold | hnew
        · exact Or.inl ⟨row, hle, hold, (hbefore hold token).1 hin, hr⟩
        · refine Or.inr ⟨row - build.rows.length, by omega, ?_, by rw [hr]; congr 1; omega⟩
          unfold Contains at hin
          dsimp only at hin
          rwa [List.getD_append_right _ _ _ _ hnew] at hin
  · intro row hrow
    dsimp only at hrow
    rcases Nat.lt_or_ge row build.rows.length with hold | hnew
    · obtain ⟨segment, hsegment, hle, hlt⟩ := h.covered row hold
      rcases List.mem_append.1 hsegment with hflushed | hlast
      · exact ⟨segment, List.mem_append_left _ hflushed, hle, hlt⟩
      · obtain rfl := List.mem_singleton.1 hlast
        exact ⟨_, List.mem_append_right _ List.mem_cons_self, hle, hrow⟩
    · exact ⟨_, List.mem_append_right _ List.mem_cons_self, hbegin.trans hnew, hrow⟩

theorem Tracks.step {build : TextIndexBuild} (h : Tracks params build) (call : TextIndexCall) : Tracks params (build.step params call) := by
  cases call with
  | update block pos limit =>
    unfold TextIndexBuild.step TextIndexParams.update
    dsimp only
    split
    · rename_i builder _ heq
      split at heq
      · cases heq
      split at heq
      · cases heq
      unfold rowsOfCall
      dsimp only
      split at heq
      · rename_i hnone
        obtain ⟨rfl, -⟩ := Prod.mk.inj (Except.ok.inj heq)
        rw [hnone]
        have hempty : ((block.getByName params.indexColumnName).elim [] fun column => params.documentsRead column pos 0) = [] := by
          cases block.getByName params.indexColumnName <;> rfl
        rw [hempty]
        exact h.feed []
      · split at heq
        · cases heq
        · rename_i column hcolumn
          obtain ⟨rfl, -⟩ := Prod.mk.inj (Except.ok.inj heq)
          rw [hcolumn]
          exact h.feed _
    · exact h
  | flush =>
    refine ⟨rfl, le_rfl, ?_, ?_⟩
    · intro segment hsegment
      rcases List.mem_append.1 hsegment with hflushed | hlast
      · exact h.stored segment hflushed
      · obtain rfl := List.mem_singleton.1 hlast
        refine ⟨le_rfl, fun token r => ⟨fun hr => absurd hr (Finset.notMem_empty r), ?_⟩⟩
        rintro ⟨row, hle, hlt, -⟩
        exact absurd hlt (Nat.not_lt.2 hle)
    · intro row hrow
      obtain ⟨segment, hsegment, hin⟩ := h.covered row hrow
      exact ⟨segment, List.mem_append_left _ hsegment, hin⟩

theorem run_concat (calls : List TextIndexCall) (call : TextIndexCall) :
    run params (calls ++ [call]) = (run params calls).step params call := List.foldl_concat ..

theorem Tracks.run (calls : List TextIndexCall) : Tracks params (run params calls) := by
  induction calls using List.reverseRecOn with
  | nil => exact Tracks.init params
  | append_singleton calls call ih =>
    rw [run_concat]
    exact ih.step call

theorem Contains.lt_length {build : TextIndexBuild} {token : String} {row : ℕ} (h : build.Contains params token row) :
    row < build.rows.length := by
  obtain ⟨document, hdocument, -⟩ := h
  by_contra hge
  rw [List.getD_eq_default _ _ (not_lt.1 hge)] at hdocument
  exact absurd hdocument List.not_mem_nil

theorem Tracks.exact_iff {build : TextIndexBuild} (h : Tracks params build) :
    build.RowNumbersExact params ↔ ∀ token row, build.Contains params token row → row < 2 ^ 32 := by
  constructor
  · intro hexact token row hcontains
    obtain ⟨segment, hsegment, hin⟩ := h.covered row hcontains.lt_length
    have hstored := (hexact segment hsegment token row).2 ⟨hin.1, hin.2, hcontains⟩
    obtain ⟨row', -, -, -, heq⟩ := ((h.stored segment hsegment).2 token row).1 hstored
    rw [heq]
    exact Nat.mod_lt _ (by decide)
  · intro hsmall segment hsegment token row
    rw [(h.stored segment hsegment).2 token row]
    constructor
    · rintro ⟨row', hle, hlt, hcontains, rfl⟩
      rw [Nat.mod_eq_of_lt (hsmall token row' hcontains)]
      exact ⟨hle, hlt, hcontains⟩
    · rintro ⟨hle, hlt, hcontains⟩
      exact ⟨row, hle, hlt, hcontains, (Nat.mod_eq_of_lt (hsmall token row hcontains)).symm⟩

/-- **The stored row numbers are exact if and only if every row with a token is below `2 ^ 32`.** -/
theorem rowNumbersExact_iff (params : TextIndexParams) (calls : List TextIndexCall) :
    (run params calls).RowNumbersExact params ↔
      ∀ token row, (run params calls).Contains params token row → row < 2 ^ 32 :=
  (Tracks.run calls).exact_iff

end TextIndexBuild

/-! ## The transform -/

variable {rows : List (List String)} {numProcessedRows : ℕ} {indexes : List TextIndexParams} {blocks : List TextBlock}

/-- The rows of a block: the documents of the index column, preprocessed as a whole. -/
def TextIndexParams.blockRows (params : TextIndexParams) (block : TextBlock) : List (List String) :=
  (block.getByName params.indexColumnName).elim [] fun column =>
    let preprocessed := params.actions.elim column fun actions => actions (column.cut 0 block.rows)
    (List.range block.rows).map fun row => preprocessed.documents row

/-- The rows of the stream. -/
def streamRows (params : TextIndexParams) (blocks : List TextBlock) : List (List String) := blocks.flatMap params.blockRows

theorem TextColumn.cut_size (column : TextColumn) : column.cut 0 column.size = column := by
  cases column with
  | string rows => exact congrArg TextColumn.string (List.take_length (l := rows))
  | array rows => exact congrArg TextColumn.array (List.take_length (l := rows))

theorem rowsOfCall_block (block : TextBlock) : TextIndexBuild.rowsOfCall params block 0 block.rows = params.blockRows block := by
  unfold TextIndexBuild.rowsOfCall TextIndexParams.blockRows TextIndexParams.documentsRead processColumn
  cases block.getByName params.indexColumnName with
  | none => rfl
  | some column =>
    rw [Nat.sub_zero, min_self, List.range_eq_range']
    cases params.actions with
    | none => rfl
    | some actions =>
      have hcut : (if 0 ≠ 0 ∨ block.rows ≠ column.size then column.cut 0 block.rows else column) = column.cut 0 block.rows := by
        split
        · rfl
        · rename_i hsame
          rw [not_not.1 fun hne => hsame (Or.inr hne), TextColumn.cut_size]
      dsimp only [Option.elim_some]
      rw [hcut]

/-- The index was built by calls that read these rows, the counter of the transform is their number, and an
empty builder was given none of them. -/
def TextIndexAggregator.Follows (aggregator : TextIndexAggregator) (rows : List (List String)) (numProcessedRows : ℕ) : Prop :=
  ∃ calls, (TextIndexBuild.run aggregator.params calls).builder = aggregator.builder ∧
    (TextIndexBuild.run aggregator.params calls).flushed.map TextSegment.tokensMap = aggregator.segments ∧
    (TextIndexBuild.run aggregator.params calls).rows = rows ∧
    (aggregator.builder.isEmpty = true → (TextIndexBuild.run aggregator.params calls).beginRow = rows.length) ∧
    rows.length % 2 ^ 64 = numProcessedRows

theorem isEmpty_addRows (hrows : rows ≠ []) (builder : TextGranuleBuilder) :
    (rows.foldl params.addRow builder).isEmpty = false := by
  obtain rfl | ⟨init, last, rfl⟩ := List.eq_nil_or_concat rows
  · exact absurd rfl hrows
  · rw [List.concat_eq_append, List.foldl_concat]
    rfl

theorem TextIndexAggregator.Follows.writeTemporarySegment {aggregator : TextIndexAggregator}
    (h : aggregator.Follows rows numProcessedRows) :
    (aggregator.writeTemporarySegment numProcessedRows).Follows rows numProcessedRows := by
  obtain ⟨calls, hbuilder, hsegments, hrows, -, hcount⟩ := h
  refine ⟨calls ++ [.flush], ?_⟩
  unfold TextIndexAggregator.writeTemporarySegment
  dsimp only
  rw [TextIndexBuild.run_concat]
  generalize TextIndexBuild.run aggregator.params calls = build at *
  unfold TextIndexBuild.step
  dsimp only
  rw [List.map_append, hsegments, hrows, hbuilder, hcount]
  exact ⟨rfl, rfl, rfl, fun _ => rfl, rfl⟩

theorem TextIndexAggregator.Follows.aggregate {aggregator aggregator' : TextIndexAggregator} {block : TextBlock}
    (h : aggregator.Follows rows numProcessedRows) (hrows : block.rows ≠ 0)
    (haggregate : aggregator.aggregate (addSize numProcessedRows block.rows) block = .ok aggregator') :
    aggregator'.params = aggregator.params ∧
      aggregator'.Follows (rows ++ TextIndexBuild.rowsOfCall aggregator.params block 0 block.rows) (addSize numProcessedRows block.rows) := by
  obtain ⟨calls, hbuilder, hsegments, hread, -, hcount⟩ := h
  unfold TextIndexAggregator.aggregate at haggregate
  cases hupdate : aggregator.params.update aggregator.builder block 0 block.rows with
  | error e =>
    rw [hupdate] at haggregate
    cases haggregate
  | ok result =>
    rw [hupdate] at haggregate
    have hlength : (TextIndexBuild.rowsOfCall aggregator.params block 0 block.rows).length = block.rows ∧ result.1.isEmpty = false := by
      unfold TextIndexParams.update at hupdate
      rw [if_neg (by omega)] at hupdate
      split at hupdate
      · cases hupdate
      dsimp only at hupdate
      rw [Nat.sub_zero, min_self, if_neg hrows] at hupdate
      unfold TextIndexBuild.rowsOfCall
      cases hcolumn : block.getByName aggregator.params.indexColumnName with
      | none =>
        rw [hcolumn] at hupdate
        cases hupdate
      | some column =>
        rw [hcolumn] at hupdate
        have hread : (aggregator.params.documentsRead column 0 block.rows).length = block.rows := by
          unfold TextIndexParams.documentsRead
          rw [List.length_map, List.length_range']
        obtain rfl := Except.ok.inj hupdate
        dsimp only
        rw [Option.elim_some, Nat.sub_zero, min_self]
        exact ⟨hread, isEmpty_addRows (fun hnil => hrows (by rw [← hread, hnil, List.length_nil])) _⟩
    have hupdated : TextIndexAggregator.Follows { aggregator with builder := result.1 }
        (rows ++ TextIndexBuild.rowsOfCall aggregator.params block 0 block.rows) (addSize numProcessedRows block.rows) := by
      refine ⟨calls ++ [.update block 0 block.rows], ?_⟩
      dsimp only
      rw [TextIndexBuild.run_concat]
      generalize TextIndexBuild.run aggregator.params calls = build at *
      unfold TextIndexBuild.step
      dsimp only
      rw [hbuilder, hupdate]
      dsimp only
      refine ⟨rfl, hsegments, by rw [hread], fun hempty => ?_, ?_⟩
      · rw [hlength.2] at hempty
        cases hempty
      · rw [List.length_append, hlength.1, ← hcount]
        unfold addSize
        omega
    obtain rfl := Except.ok.inj haggregate
    split
    · exact ⟨rfl, hupdated.writeTemporarySegment⟩
    · exact ⟨rfl, hupdated⟩

namespace BuildTextIndexTransform

/-- Every index of the transform was built from the blocks. -/
def Built (indexes : List TextIndexParams) (blocks : List TextBlock) (transform : BuildTextIndexTransform) : Prop :=
  List.Forall₂ (fun params aggregator => aggregator.params = params ∧
    aggregator.Follows (streamRows params blocks) transform.numProcessedRows) indexes transform.aggregators

/-- **The transform makes such a run for each of its indexes.** -/
theorem aggregate_follows {transform transform' : BuildTextIndexTransform} {block : TextBlock} (h : Built indexes blocks transform) (haggregate : transform.aggregate block = .ok transform') :
    Built indexes (blocks ++ [block]) transform' := by
  have hstream : ∀ params, streamRows params (blocks ++ [block]) =
      streamRows params blocks ++ TextIndexBuild.rowsOfCall params block 0 block.rows := fun params => by
    unfold streamRows
    rw [List.flatMap_append, List.flatMap_singleton, rowsOfCall_block]
  unfold Built
  simp only [hstream]
  unfold BuildTextIndexTransform.aggregate at haggregate
  split at haggregate
  · rename_i hzero
    obtain rfl := Except.ok.inj haggregate
    have hnone : ∀ params, TextIndexBuild.rowsOfCall params block 0 block.rows = [] := fun params => by
      unfold TextIndexBuild.rowsOfCall
      rw [hzero]
      cases block.getByName params.indexColumnName <;> rfl
    simp only [hnone, List.append_nil]
    exact h
  · rename_i hrows
    cases haggregators : transform.aggregators.mapM fun aggregator =>
        aggregator.aggregate (addSize transform.numProcessedRows block.rows) block with
    | error e =>
      dsimp only at haggregate
      rw [haggregators] at haggregate
      cases haggregate
    | ok aggregators =>
      dsimp only at haggregate
      rw [haggregators] at haggregate
      obtain rfl := Except.ok.inj haggregate
      have hsteps := Loop.forall₂_of_mapM haggregators
      unfold Built at h
      dsimp only
      generalize transform.aggregators = before at h hsteps
      clear haggregators haggregate
      induction h generalizing aggregators with
      | nil =>
        cases hsteps
        exact .nil
      | cons hfirst _ ih =>
        cases hsteps with
        | cons hstep hrest =>
          obtain ⟨rfl, hfollows⟩ := hfirst
          exact .cons (hfollows.aggregate hrows hstep) (ih _ hrest)

theorem finalize_follows {transform : BuildTextIndexTransform} (h : Built indexes blocks transform) :
    List.Forall₂ (fun params aggregator => aggregator.params = params ∧
      aggregator.Follows (streamRows params blocks) transform.numProcessedRows ∧ aggregator.builder.isEmpty = true)
      indexes transform.finalize.aggregators := by
  unfold finalize
  rw [List.forall₂_map_right_iff]
  refine h.imp fun params aggregator ⟨hparams, hfollows⟩ => ?_
  split
  · rename_i hempty
    exact ⟨hparams, hfollows, hempty⟩
  · exact ⟨hparams, hfollows.writeTemporarySegment, rfl⟩

theorem foldlM_follows : ∀ {transform : BuildTextIndexTransform},
    blocks.foldlM aggregate (create indexes) = .ok transform → Built indexes blocks transform := by
  induction blocks using List.reverseRecOn with
  | nil =>
    intro transform h
    obtain rfl := Except.ok.inj h
    unfold Built create
    rw [List.forall₂_map_right_iff, List.forall₂_same]
    exact fun params _ => ⟨rfl, [], rfl, rfl, rfl, fun _ => rfl, rfl⟩
  | append_singleton blocks block ih =>
    intro transform h
    rw [List.foldlM_append] at h
    simp only [List.foldlM_cons, List.foldlM_nil, bind_pure] at h
    cases hbefore : blocks.foldlM aggregate (create indexes) with
    | error e =>
      rw [hbefore] at h
      cases h
    | ok before =>
      rw [hbefore] at h
      exact aggregate_follows (ih hbefore) h

/-- **What the segments of an index hold**: for every token the rows of the whole stream that contain it, each
as its number modulo `2 ^ 32`, and nothing else; no row is left in a builder. -/
theorem segments_hold_stream {result : BuildTextIndexTransform} (h : transform indexes blocks = .ok result) :
    List.Forall₂ (fun params aggregator => ∀ token r, (∃ segment ∈ aggregator.segments, r ∈ segment.rows token) ↔
      ∃ row, (∃ document ∈ (streamRows params blocks).getD row [], token ∈ params.tokenizer document) ∧ r = row % 2 ^ 32)
      indexes result.aggregators := by
  unfold transform at h
  cases hrun : blocks.foldlM aggregate (create indexes) with
  | error e =>
    rw [hrun] at h
    cases h
  | ok before =>
    rw [hrun] at h
    obtain rfl := Except.ok.inj h
    refine (finalize_follows (foldlM_follows hrun)).imp ?_
    rintro _ aggregator ⟨rfl, ⟨calls, -, hsegments, hrows, hbegin, -⟩, hempty⟩ token r
    have htracks : TextIndexBuild.Tracks aggregator.params _ := TextIndexBuild.Tracks.run calls
    generalize TextIndexBuild.run aggregator.params calls = build at *
    have hlast := hbegin hempty
    rw [← hrows] at hlast ⊢
    rw [← hsegments]
    constructor
    · rintro ⟨tokensMap, hmem, hr⟩
      obtain ⟨segment, hsegment, rfl⟩ := List.mem_map.1 hmem
      obtain ⟨row, -, -, hcontains, heq⟩ := ((htracks.stored segment (List.mem_append_left _ hsegment)).2 token r).1 hr
      exact ⟨row, hcontains, heq⟩
    · rintro ⟨row, hcontains, rfl⟩
      have hcontains : build.Contains aggregator.params token row := hcontains
      obtain ⟨segment, hsegment, hle, hlt⟩ := htracks.covered row hcontains.lt_length
      rcases List.mem_append.1 hsegment with hflushed | hbuilder
      · exact ⟨segment.tokensMap, List.mem_map_of_mem hflushed,
          ((htracks.stored segment hsegment).2 token _).2 ⟨row, hle, hlt, hcontains, rfl⟩⟩
      · -- the rows of an empty builder are none
        obtain rfl := List.mem_singleton.1 hbuilder
        dsimp only at hle hlt
        omega

end BuildTextIndexTransform

namespace TextIndexBuild

/-! ## A part with more rows -/

/-- Every document is one token. -/
def wholeDocuments : TextIndexParams := ⟨"c", fun document => [document], none⟩

/-- A long document has a hundred million and one tokens. -/
def longDocuments : TextIndexParams := ⟨"c", fun document => List.replicate (if document = "long" then 100000001 else 1) document, none⟩

theorem numProcessedTokens_addTokens (tokens : List String) {builder : TextGranuleBuilder} (h : builder.numProcessedTokens + tokens.length < 2 ^ 64) :
    (tokens.foldl TextGranuleBuilder.addToken builder).numProcessedTokens = builder.numProcessedTokens + tokens.length := by
  induction tokens generalizing builder with
  | nil => rfl
  | cons token tokens ih =>
    rw [List.length_cons] at h ⊢
    have hone : (builder.addToken token).numProcessedTokens = builder.numProcessedTokens + 1 := Nat.mod_eq_of_lt (by omega)
    rw [List.foldl_cons, ih (by omega), hone]
    omega

theorem aggregate_oneRow (document : String) (row : ℕ) (segments : List TokenToPostingsBuilderMap) :
    TextIndexAggregator.aggregate ⟨longDocuments, { currentRow := row }, segments⟩ (row + 1) ⟨[("c", .string [some document])]⟩ =
      .ok (if document = "long" then ⟨longDocuments, { currentRow := row + 1 },
          segments ++ [(longDocuments.addRow { currentRow := row } [document]).tokensMap]⟩
        else ⟨longDocuments, longDocuments.addRow { currentRow := row } [document], segments⟩) := by
  have hupdate : longDocuments.update { currentRow := row } ⟨[("c", .string [some document])]⟩ 0 1 =
      .ok (longDocuments.addRow { currentRow := row } [document], 1) := rfl
  have htokens : (longDocuments.addRow { currentRow := row } [document]).numProcessedTokens =
      if document = "long" then 100000001 else 1 := by
    have hlength : (longDocuments.tokenizer document).length = if document = "long" then 100000001 else 1 := List.length_replicate
    refine (numProcessedTokens_addTokens (longDocuments.tokenizer document) ?_).trans ?_
    · rw [hlength]
      split <;> norm_num
    · rw [hlength]
      exact Nat.zero_add _
  unfold TextIndexAggregator.aggregate
  have hrows : TextBlock.rows ⟨[("c", .string [some document])]⟩ = 1 := rfl
  rw [hrows, hupdate]
  change Except.ok (if maxProcessedTokens < (longDocuments.addRow { currentRow := row } [document]).numProcessedTokens then
    TextIndexAggregator.writeTemporarySegment _ _ else _) = _
  rw [htokens]
  by_cases hlong : document = "long"
  · rw [if_pos hlong, if_pos hlong, if_pos (by decide)]
    rfl
  · rw [if_neg hlong, if_neg hlong, if_neg (by decide)]

/-- The first row fills a temporary segment, the second one is in the segment that is written at the end. -/
theorem segments_hold_stream_twoSegments :
    ∃ aggregator, BuildTextIndexTransform.transform [longDocuments]
        [⟨[("c", .string [some "long"])]⟩, ⟨[("c", .string [some "short"])]⟩] = .ok ⟨2, [aggregator]⟩ ∧
      aggregator.segments.length = 2 ∧
      (∃ segment ∈ aggregator.segments, 0 ∈ segment.rows "long") ∧ ∃ segment ∈ aggregator.segments, 1 ∈ segment.rows "short" := by
  have hlong := aggregate_oneRow "long" 0 []
  have hshort := aggregate_oneRow "short" 1 [(longDocuments.addRow {} ["long"]).tokensMap]
  have hrun : BuildTextIndexTransform.transform [longDocuments]
      [⟨[("c", .string [some "long"])]⟩, ⟨[("c", .string [some "short"])]⟩] = .ok ⟨2, [⟨longDocuments, { currentRow := 2 },
        [(longDocuments.addRow {} ["long"]).tokensMap, (longDocuments.addRow { currentRow := 1 } ["short"]).tokensMap]⟩]⟩ := by
    rw [if_pos rfl] at hlong
    rw [if_neg (by decide)] at hshort
    have hfirst : BuildTextIndexTransform.aggregate (BuildTextIndexTransform.create [longDocuments]) ⟨[("c", .string [some "long"])]⟩ =
        .ok ⟨1, [⟨longDocuments, { currentRow := 1 }, [(longDocuments.addRow {} ["long"]).tokensMap]⟩]⟩ :=
      congrArg (fun result => result.map fun aggregator => (⟨1, [aggregator]⟩ : BuildTextIndexTransform)) hlong
    have hsecond : BuildTextIndexTransform.aggregate ⟨1, [⟨longDocuments, { currentRow := 1 }, [(longDocuments.addRow {} ["long"]).tokensMap]⟩]⟩
        ⟨[("c", .string [some "short"])]⟩ = .ok ⟨2, [⟨longDocuments, longDocuments.addRow { currentRow := 1 } ["short"],
          [(longDocuments.addRow {} ["long"]).tokensMap]⟩]⟩ :=
      congrArg (fun result => result.map fun aggregator => (⟨2, [aggregator]⟩ : BuildTextIndexTransform)) hshort
    unfold BuildTextIndexTransform.transform
    rw [List.foldlM_cons, hfirst]
    exact congrArg (fun result => (result >>= fun transform => pure transform) >>= fun transform => pure transform.finalize) hsecond
  cases BuildTextIndexTransform.segments_hold_stream hrun with
  | cons hholds _ =>
    refine ⟨_, hrun, rfl, (hholds "long" 0).2 ⟨0, ⟨"long", ?_, ?_⟩, rfl⟩, (hholds "short" 1).2 ⟨1, ⟨"short", ?_, ?_⟩, rfl⟩⟩
    · decide
    · exact List.mem_replicate.2 ⟨by norm_num, rfl⟩
    · decide
    · decide

/-- A block of NULLs. -/
def nullBlock (n : ℕ) : TextBlock := ⟨[("c", .string (List.replicate n none))]⟩

/-- Rows of NULL, then two rows of which the last has a token. -/
def longCalls (n : ℕ) : List TextIndexCall :=
  [.update (nullBlock n) 0 n, .update ⟨[("c", .string [none, some "a"])]⟩ 0 2]

theorem documentsRead_null (n : ℕ) :
    wholeDocuments.documentsRead (.string (List.replicate n none)) 0 n = List.replicate n [] := by
  refine List.eq_replicate_iff.2 ⟨?_, fun documents hdocuments => ?_⟩
  · unfold TextIndexParams.documentsRead
    rw [List.length_map, List.length_range']
  · obtain ⟨i, -, rfl⟩ := List.mem_map.1 hdocuments
    change ((List.replicate n (none : Option String)).getD i none).toList = []
    rw [List.getD_eq_getElem?_getD, List.getElem?_replicate]
    split <;> rfl

theorem step_nullBlock {n : ℕ} (hpos : 0 < n) (hlt : n < 2 ^ 32) (build : TextIndexBuild) :
    wholeDocuments.update build.builder (nullBlock n) 0 n =
      .ok ((List.replicate n []).foldl wholeDocuments.addRow build.builder, n) ∧
    rowsOfCall wholeDocuments (nullBlock n) 0 n = List.replicate n [] := by
  have hrows : (nullBlock n).rows = n := List.length_replicate
  have hcolumn : (nullBlock n).getByName wholeDocuments.indexColumnName = some (.string (List.replicate n none)) := rfl
  have hsum : addSize 0 n = n := by
    unfold addSize
    omega
  constructor
  · unfold TextIndexParams.update
    rw [hrows, if_neg (by omega), hsum, if_neg (by omega)]
    dsimp only
    rw [Nat.sub_zero, min_self, if_neg hpos.ne', hcolumn]
    dsimp only
    rw [documentsRead_null, hsum]
  · unfold rowsOfCall
    dsimp only
    rw [hrows, Nat.sub_zero, min_self, hcolumn, Option.elim_some, documentsRead_null]

theorem longCalls_spec {n : ℕ} (hpos : 0 < n) (hlt : n < 2 ^ 32) :
    ¬ Disabled wholeDocuments init (longCalls n) ∧ (run wholeDocuments (longCalls n)).Contains wholeDocuments "a" (n + 1) := by
  obtain ⟨hupdate, hrows⟩ := step_nullBlock hpos hlt init
  have hfirst : init.step wholeDocuments (.update (nullBlock n) 0 n) =
      { init with builder := (List.replicate n []).foldl wholeDocuments.addRow init.builder, rows := List.replicate n [] } := by
    unfold step
    dsimp only
    rw [hupdate, hrows]
    rfl
  constructor
  · rintro (⟨block, pos, limit, rows, hcall, hthrows⟩ | ⟨block, pos, limit, rows, hcall, hthrows⟩ | hnone)
    · obtain ⟨rfl, rfl, rfl⟩ := TextIndexCall.update.inj hcall
      rw [hupdate] at hthrows
      cases hthrows
    · obtain ⟨rfl, rfl, rfl⟩ := TextIndexCall.update.inj hcall
      cases hthrows
    · exact hnone
  · unfold run longCalls
    rw [List.foldl_cons, hfirst, List.foldl_cons, List.foldl_nil]
    refine ⟨"a", ?_, List.mem_singleton.2 rfl⟩
    change "a" ∈ (List.replicate n [] ++ [[], ["a"]]).getD (n + 1) []
    rw [List.getD_append_right _ _ _ _ (by rw [List.length_replicate]; omega), List.length_replicate, Nat.add_sub_cancel_left]
    exact List.mem_singleton.2 rfl

/-- With a block as large as the guard allows the row of the token is stored as 0. -/
theorem longCalls_wraps : ∃ calls, ¬ Disabled wholeDocuments init calls ∧
    ¬ (run wholeDocuments calls).RowNumbersExact wholeDocuments := by
  obtain ⟨hdisabled, hcontains⟩ := @longCalls_spec (2 ^ 32 - 1) (by decide) (by decide)
  refine ⟨longCalls (2 ^ 32 - 1), hdisabled, fun hexact => ?_⟩
  have hlt := (Tracks.run _).exact_iff.1 hexact _ _ hcontains
  exact absurd hlt (by decide)

end TextIndexBuild

end MergeTree
