import MergeTree.Lib.Grouping
import MergeTree.Lib.Loops
import MergeTree.Spec.SplitBlock

/-!
# Splitting an inserted block groups its rows by key

`Scattered` is the invariant of the loop of `buildScatterSelector`: after some rows the
partitions are the distinct keys of these rows in the order of their first occurrence, and
from the second partition on the selector has the number of the key of every row so far.

* `buildScatterSelector_spec`: it throws exactly when there are more distinct keys than
  allowed, and otherwise ends in that state.
* `splitBlockIntoParts_eq`: the returned blocks are the groups of rows with one key.
-/

namespace MergeTree

open RowGroups

/-- There are too many partitions. -/
def SplitContext.Exceeded (ctx : SplitContext) (count : ℕ) : Prop :=
  ctx.maxParts ≠ 0 ∧ ctx.throwOnLimit = true ∧ ctx.maxParts < count

instance (ctx : SplitContext) (count : ℕ) : Decidable (ctx.Exceeded count) := by
  unfold SplitContext.Exceeded
  infer_instance

/-- Different rows of keys have different hashes. -/
def SplitContext.HashInjective (ctx : SplitContext) (keys : List Row) : Prop :=
  ∀ key ∈ keys, ∀ key' ∈ keys, ctx.hash128 key = ctx.hash128 key' → key = key'

/-- **The loop invariant** after the rows `pre` of `keys`. -/
structure Scattered (ctx : SplitContext) (keys pre : List Row) (s : ScatterSelector) : Prop where
  count_eq : s.partitionsCount = (distinct pre).length
  first_eq : s.partitionNumToFirstRow = (distinct pre).map fun key => keys.idxOf key
  lookup_eq : ∀ key ∈ keys, s.partitionsMap.lookup (ctx.hash128 key) =
    if key ∈ pre then some ((distinct pre).idxOf key) else none
  selector_length : 1 < s.partitionsCount → s.selector.length = keys.length
  selector_eq : 1 < s.partitionsCount → ∀ i < pre.length,
    s.selector[i]? = (pre[i]?).map fun key => (distinct pre).idxOf key

theorem Scattered.empty (ctx : SplitContext) (keys : List Row) : Scattered ctx keys [] {} where
  count_eq := rfl
  first_eq := rfl
  lookup_eq _ _ := rfl
  selector_length h := absurd h (by decide)
  selector_eq h := absurd h (by decide)

variable {ctx : SplitContext} {keys pre rest : List Row} {key : Row} {s : ScatterSelector}

theorem setRow_partitionsCount (s : ScatterSelector) (i p : ℕ) : (s.setRow i p).partitionsCount = s.partitionsCount := by
  unfold ScatterSelector.setRow
  split <;> rfl

theorem setRow_first (s : ScatterSelector) (i p : ℕ) :
    (s.setRow i p).partitionNumToFirstRow = s.partitionNumToFirstRow := by
  unfold ScatterSelector.setRow
  split <;> rfl

theorem setRow_partitionsMap (s : ScatterSelector) (i p : ℕ) : (s.setRow i p).partitionsMap = s.partitionsMap := by
  unfold ScatterSelector.setRow
  split <;> rfl

theorem setRow_selector {s : ScatterSelector} (h : 1 < s.partitionsCount) (i p : ℕ) :
    (s.setRow i p).selector = s.selector.set i p := by
  rw [ScatterSelector.setRow, if_pos h]

theorem Scattered.setRow (h : Scattered ctx keys pre s) (hkeys : keys = pre ++ key :: rest) (hmem : key ∈ pre) :
    Scattered ctx keys (pre ++ [key]) (s.setRow pre.length ((distinct pre).idxOf key)) := by
  have hdistinct := distinct_append_of_mem hmem
  have hmem_iff : ∀ k, k ∈ pre ++ [key] ↔ k ∈ pre := by
    intro k
    rw [List.mem_append, List.mem_singleton]
    constructor
    · rintro (hk | rfl)
      · exact hk
      · exact hmem
    · exact Or.inl
  refine ⟨?_, ?_, ?_, ?_, ?_⟩
  · rw [setRow_partitionsCount, hdistinct]
    exact h.count_eq
  · rw [setRow_first, hdistinct]
    exact h.first_eq
  · intro k hk
    rw [setRow_partitionsMap, hdistinct, h.lookup_eq k hk]
    simp only [hmem_iff]
  · intro hcount
    rw [setRow_partitionsCount] at hcount
    rw [setRow_selector hcount, List.length_set]
    exact h.selector_length hcount
  · intro hcount i hi
    rw [setRow_partitionsCount] at hcount
    rw [setRow_selector hcount, hdistinct]
    have hlength := h.selector_length hcount
    rcases Nat.lt_or_ge i pre.length with hlt | hge
    · rw [List.getElem?_set_ne (Nat.ne_of_gt hlt), List.getElem?_append_left hlt]
      exact h.selector_eq hcount i hlt
    · obtain rfl : i = pre.length := by
        rw [List.length_append, List.length_singleton] at hi
        omega
      have hbound : pre.length < s.selector.length := by
        rw [hlength, hkeys, List.length_append, List.length_cons]
        omega
      rw [List.getElem?_set_self hbound, List.getElem?_append_right (Nat.le_refl _), Nat.sub_self]
      rfl

/-- **The first row of a partition.** -/
theorem Scattered.addPartition (h : Scattered ctx keys pre s) (hkeys : keys = pre ++ key :: rest) (hnew : key ∉ pre)
    (hhash : ctx.HashInjective keys) :
    Scattered ctx keys (pre ++ [key])
      ((s.addPartition ctx keys.length pre.length (ctx.hash128 key)).setRow pre.length s.partitionsCount) := by
  have hdistinct := distinct_append_of_not_mem hnew
  have hkey : key ∈ keys := by
    rw [hkeys]
    exact List.mem_append_right _ List.mem_cons_self
  have hindex : (distinct pre ++ [key]).idxOf key = s.partitionsCount := by
    rw [List.idxOf_append_of_notMem (mt mem_distinct.1 hnew), List.idxOf_cons_self, h.count_eq, Nat.add_zero]
  have hlength : keys.length = pre.length + (rest.length + 1) := by
    rw [hkeys, List.length_append, List.length_cons]
  refine ⟨?_, ?_, ?_, ?_, ?_⟩
  · rw [setRow_partitionsCount, hdistinct, List.length_append, List.length_singleton, ← h.count_eq]
    rfl
  · rw [setRow_first, hdistinct, List.map_append, ← h.first_eq, List.map_singleton, hkeys,
      List.idxOf_append_of_notMem hnew, List.idxOf_cons_self, Nat.add_zero]
    rfl
  · intro k hk
    rw [setRow_partitionsMap, hdistinct]
    change List.lookup (ctx.hash128 k) ((ctx.hash128 key, s.partitionsCount) :: s.partitionsMap) = _
    by_cases heq : k = key
    · subst heq
      rw [List.lookup_cons_self, if_pos (List.mem_append_right _ (List.mem_singleton_self k)), hindex]
    · have hne : (ctx.hash128 k == ctx.hash128 key) = false := by
        rw [beq_eq_false_iff_ne]
        exact fun hcontra => heq (hhash k hk key hkey hcontra)
      rw [List.lookup_cons, hne, h.lookup_eq k hk]
      simp only [List.mem_append, List.mem_singleton, heq, or_false]
      split
      · next hmem => rw [List.idxOf_append_of_mem (mem_distinct.2 hmem)]
      · rfl
  · intro hcount
    rw [setRow_partitionsCount] at hcount
    rw [setRow_selector hcount, List.length_set]
    change (if s.partitionsCount + 1 = 2 then _ else s.selector).length = _
    split
    · rw [List.length_append, List.length_replicate, List.length_replicate]
      omega
    · change 1 < s.partitionsCount + 1 at hcount
      exact h.selector_length (by omega)
  · intro hcount i hi
    rw [setRow_partitionsCount] at hcount
    rw [setRow_selector hcount, hdistinct]
    change ((if s.partitionsCount + 1 = 2 then _ else s.selector).set pre.length s.partitionsCount)[i]? = _
    change 1 < s.partitionsCount + 1 at hcount
    rcases Nat.lt_or_ge i pre.length with hlt | hge
    · have hki : pre[i]? = some pre[i] := List.getElem?_eq_getElem hlt
      have hmem : pre[i] ∈ distinct pre := mem_distinct.2 (List.getElem_mem hlt)
      rw [List.getElem?_set_ne (Nat.ne_of_gt hlt), List.getElem?_append_left hlt, hki, Option.map_some,
        List.idxOf_append_of_mem hmem]
      split
      · next htwo =>
        -- all rows before are rows of the only partition
        have hone : (distinct pre).length = 1 := by
          rw [← h.count_eq]
          omega
        have hzero : (distinct pre).idxOf pre[i] = 0 := by
          have := List.idxOf_lt_length_of_mem hmem
          omega
        rw [List.getElem?_append_left (by rw [List.length_replicate]; exact hlt), List.getElem?_replicate, if_pos hlt, hzero]
      · have hsel := h.selector_eq (by omega) i hlt
        rw [hsel, hki, Option.map_some]
    · obtain rfl : i = pre.length := by
        rw [List.length_append, List.length_singleton] at hi
        omega
      rw [List.getElem?_append_right (Nat.le_refl _), Nat.sub_self, List.getElem?_cons_zero, Option.map_some, hindex]
      refine List.getElem?_set_self ?_
      split
      · rw [List.length_append, List.length_replicate, List.length_replicate]
        omega
      · rw [h.selector_length (by omega)]
        omega

/-- **One row**: it throws exactly when the key is one too many. -/
theorem addRow_spec (h : Scattered ctx keys pre s) (hkeys : keys = pre ++ key :: rest) (hhash : ctx.HashInjective keys)
    (hsofar : ¬ctx.Exceeded (distinct pre).length) :
    (ctx.Exceeded (distinct (pre ++ [key])).length ∧ ∃ error, s.addRow ctx keys.length pre.length key = .error error) ∨
      (¬ctx.Exceeded (distinct (pre ++ [key])).length ∧
        ∃ s', s.addRow ctx keys.length pre.length key = .ok s' ∧ Scattered ctx keys (pre ++ [key]) s') := by
  have hkey : key ∈ keys := by
    rw [hkeys]
    exact List.mem_append_right _ List.mem_cons_self
  have hlookup := h.lookup_eq key hkey
  by_cases hmem : key ∈ pre
  · rw [if_pos hmem] at hlookup
    refine Or.inr ⟨?_, _, ?_, h.setRow hkeys hmem⟩
    · rw [distinct_append_of_mem hmem]
      exact hsofar
    · rw [ScatterSelector.addRow, hlookup]
  · rw [if_neg hmem] at hlookup
    have hcount : (distinct (pre ++ [key])).length = s.partitionsCount + 1 := by
      rw [distinct_append_of_not_mem hmem, List.length_append, List.length_singleton, h.count_eq]
    have hthrow : (ctx.maxParts ≠ 0 ∧ ctx.maxParts ≤ s.partitionsCount ∧ ctx.throwOnLimit = true) ↔
        ctx.Exceeded (distinct (pre ++ [key])).length := by
      rw [SplitContext.Exceeded, hcount, Nat.lt_succ_iff]
      tauto
    by_cases hlimit : ctx.Exceeded (distinct (pre ++ [key])).length
    · refine Or.inl ⟨hlimit, s!"Too many partitions for single INSERT block (more than {ctx.maxParts}).", ?_⟩
      rw [ScatterSelector.addRow, hlookup]
      exact if_pos (hthrow.2 hlimit)
    · refine Or.inr ⟨hlimit, _, ?_, h.addPartition hkeys hmem hhash⟩
      rw [ScatterSelector.addRow, hlookup]
      exact if_neg (mt hthrow.1 hlimit)

theorem exceeded_mono {count count' : ℕ} (h : ctx.Exceeded count) (hle : count ≤ count') : ctx.Exceeded count' :=
  ⟨h.1, h.2.1, Nat.lt_of_lt_of_le h.2.2 hle⟩

theorem addRows_spec (hhash : ctx.HashInjective keys) : ∀ {rest pre : List Row} {s : ScatterSelector},
    keys = pre ++ rest → Scattered ctx keys pre s → ¬ctx.Exceeded (distinct pre).length →
      (ctx.Exceeded (distinct keys).length ∧
        ∃ error, ScatterSelector.addRows ctx keys.length pre.length rest s = .error error) ∨
      (¬ctx.Exceeded (distinct keys).length ∧
        ∃ s', ScatterSelector.addRows ctx keys.length pre.length rest s = .ok s' ∧ Scattered ctx keys keys s') := by
  intro rest
  induction rest with
  | nil =>
    intro pre s hkeys h hsofar
    rw [List.append_nil] at hkeys
    subst hkeys
    exact Or.inr ⟨hsofar, s, rfl, h⟩
  | cons key rest ih =>
    intro pre s hkeys h hsofar
    have hkeys' : keys = (pre ++ [key]) ++ rest := by rw [List.append_assoc]; exact hkeys
    rcases addRow_spec h hkeys hhash hsofar with ⟨hlimit, error, herror⟩ | ⟨hlimit, s', hs', h'⟩
    · have hprefix : distinct (pre ++ [key]) <+: distinct keys := by
        rw [hkeys']
        exact distinct_prefix _ _
      refine Or.inl ⟨exceeded_mono hlimit hprefix.length_le, error, ?_⟩
      rw [ScatterSelector.addRows, herror]
      rfl
    · have hmore := ih hkeys' h' hlimit
      rw [List.length_append, List.length_singleton] at hmore
      rw [ScatterSelector.addRows, hs']
      exact hmore

/-- **The whole loop.** -/
theorem buildScatterSelector_spec (hhash : ctx.HashInjective keys) :
    (ctx.Exceeded (distinct keys).length ∧ ∃ error, buildScatterSelector ctx keys = .error error) ∨
      (¬ctx.Exceeded (distinct keys).length ∧
        ∃ s, buildScatterSelector ctx keys = .ok s ∧ Scattered ctx keys keys s) := by
  refine addRows_spec hhash (List.nil_append keys).symm (Scattered.empty ctx keys) ?_
  rintro ⟨-, -, hlt⟩
  exact absurd hlt (Nat.not_lt_zero _)

/-! ## Scattered columns -/

variable {α : Type}

theorem Scattered.selector_eq_map (h : Scattered ctx keys keys s) (hcount : 1 < s.partitionsCount) :
    s.selector = keys.map fun key => (distinct keys).idxOf key := by
  refine List.ext_getElem? fun i => ?_
  rw [List.getElem?_map]
  rcases Nat.lt_or_ge i keys.length with hlt | hge
  · exact h.selector_eq hcount i hlt
  · rw [List.getElem?_eq_none hge, List.getElem?_eq_none (by rw [h.selector_length hcount]; exact hge), Option.map_none]

/-- **A scattered column**: one part for every key, with the rows of the key. -/
theorem scatter_spec {column : List α} (hlength : column.length = keys.length) :
    scatter (distinct keys).length (keys.map fun key => (distinct keys).idxOf key) column =
      .ok ((distinct keys).map fun key => gather column (positions keys key)) := by
  have hsize : ¬column.length ≠ (keys.map fun key => (distinct keys).idxOf key).length := by
    rw [List.length_map]
    exact not_not.2 hlength
  rw [scatter, if_neg hsize]
  congr 1
  refine List.ext_getElem ?_ fun p hp hp' => ?_
  · rw [List.length_map, List.length_map, List.length_range]
  · rw [List.length_map, List.length_range] at hp
    rw [List.getElem_map, List.getElem_map, List.getElem_range, gather_positions hlength, List.zip_map_right,
      List.filter_map, List.map_map]
    have hfilter : (column.zip keys).filter ((fun cell => decide (cell.2 = p)) ∘
        Prod.map id fun key => (distinct keys).idxOf key) =
        (column.zip keys).filter fun cell => cell.2 = (distinct keys)[p] := by
      refine List.filter_congr fun cell hcell => ?_
      have hmem : cell.2 ∈ distinct keys := mem_distinct.2 (List.of_mem_zip hcell).2
      -- the number of a key is its place among the distinct keys
      have hiff : (distinct keys).idxOf cell.2 = p ↔ cell.2 = (distinct keys)[p] := by
        constructor
        · rintro rfl
          exact (List.getElem_idxOf (List.idxOf_lt_length_of_mem hmem)).symm
        · intro heq
          rw [heq, (nodup_distinct keys).idxOf_getElem]
      simp only [Function.comp_apply, Prod.map_snd, hiff]
    rw [hfilter]
    rfl

/-! ## The keys of a block -/

/-- The key of every row of a block. -/
def PartitionMetadata.rowKeys (metadata : PartitionMetadata α) (block : Block α) : List Row :=
  (List.range block.rows).map (getPartition (metadata.executePartitionByExpression block))

variable {metadata : PartitionMetadata α} {block : Block α}

theorem length_rowKeys : (metadata.rowKeys block).length = block.rows := by
  rw [PartitionMetadata.rowKeys, List.length_map, List.length_range]

theorem not_isEmpty_of_rows (hrows : 0 < block.rows) : ¬(block.columns.isEmpty = true ∨ block.rows = 0) := by
  rintro (hempty | hzero)
  · rw [Block.rows, List.isEmpty_iff.1 hempty] at hrows
    exact absurd hrows (Nat.lt_irrefl 0)
  · omega

theorem length_column {column : List α} (h : column ∈ block.columns) : column.length = block.rows := by
  unfold Block.rows
  cases hcolumns : block.columns with
  | nil =>
    rw [hcolumns] at h
    exact absurd h List.not_mem_nil
  | cons first others =>
    exact block.sameRows column h first (by rw [hcolumns]; exact List.mem_cons_self)

theorem getElem?_rowKeys {i : ℕ} (hi : i < block.rows) :
    (metadata.rowKeys block)[i]? = some (getPartition (metadata.executePartitionByExpression block) i) := by
  rw [PartitionMetadata.rowKeys, List.getElem?_map, List.getElem?_range hi, Option.map_some]

theorem getPartition_idxOf (h : key ∈ metadata.rowKeys block) :
    getPartition (metadata.executePartitionByExpression block) ((metadata.rowKeys block).idxOf key) = key := by
  have hlt := List.idxOf_lt_length_of_mem h
  have hget := @getElem?_rowKeys _ metadata _ _ (length_rowKeys ▸ hlt)
  rw [List.getElem?_eq_getElem hlt, List.getElem_idxOf hlt] at hget
  exact (Option.some.inj hget).symm

section Ids

variable [NumberText] [DateLUT] [FieldText]

theorem keyText_of_hasField {type : DataType} {field : Field} (h : type.HasField field) :
    ∃ text, keyText type field = .ok text := by
  cases type with
  | date =>
    obtain ⟨day, rfl⟩ := h
    exact ⟨_, rfl⟩
  | ipv4 =>
    obtain ⟨address, rfl⟩ := h
    exact ⟨_, rfl⟩
  | _ => exact ⟨_, rfl⟩

theorem joinKeys_of_hasField : ∀ {fields : List (DataType × Field)}, (∀ x ∈ fields, x.1.HasField x.2) →
    ∃ text, joinKeys fields = .ok text := by
  intro fields
  induction fields with
  | nil => exact fun _ => ⟨"", rfl⟩
  | cons x fields ih =>
    intro h
    obtain ⟨text, htext⟩ := keyText_of_hasField (h x List.mem_cons_self)
    obtain ⟨result, hresult⟩ := ih fun y hy => h y (List.mem_cons_of_mem x hy)
    cases fields with
    | nil => exact ⟨text, htext⟩
    | cons y fields =>
      refine ⟨text ++ "-" ++ result, ?_⟩
      rw [joinKeys, htext, hresult]
      rfl

theorem getID_getPartition {sample : List DataType} {partitionColumns : List KeyColumn} {row : ℕ}
    (hcolumns : partitionColumns.length = sample.length)
    (hfield : ∀ x ∈ sample.zip partitionColumns, ∀ field ∈ x.2.values, x.1.HasField field)
    (hrow : ∀ column ∈ partitionColumns, row < column.values.length) :
    ∃ id, getID (getPartition partitionColumns row) sample = .ok id := by
  have hlength : (getPartition partitionColumns row).length = sample.length := by
    rw [getPartition, List.length_map, hcolumns]
  have hfields : ∀ x ∈ sample.zip (getPartition partitionColumns row), x.1.HasField x.2 := by
    intro x hx
    rw [getPartition, List.zip_map_right, List.mem_map] at hx
    obtain ⟨⟨type, column⟩, hmem, rfl⟩ := hx
    refine hfield _ hmem _ ?_
    dsimp only [Prod.map]
    rw [List.getD_eq_getElem _ _ (hrow column (List.of_mem_zip hmem).2)]
    exact List.getElem_mem _
  obtain ⟨text, htext⟩ := joinKeys_of_hasField hfields
  rw [getID, if_neg (not_not.2 hlength)]
  split
  · exact ⟨_, rfl⟩
  · split
    · exact ⟨text, htext⟩
    · exact ⟨_, rfl⟩

/-! ## The returned blocks -/

/-- The rows of a block with one key. -/
def groupOf (metadata : PartitionMetadata α) (block : Block α) (key : Row) : BlockWithPartition α where
  columns := block.columns.map fun column => gather column (positions (metadata.rowKeys block) key)
  partition := key
  partitionId := (getID key metadata.partitionKeySample).toOption.getD ""

theorem getID_of_mem_rowKeys (h : key ∈ metadata.rowKeys block) :
    getID key metadata.partitionKeySample = .ok ((getID key metadata.partitionKeySample).toOption.getD "") := by
  obtain ⟨row, hrow, rfl⟩ := List.mem_map.1 h
  have hlt : ∀ column ∈ metadata.executePartitionByExpression block, row < column.values.length := by
    intro column hcolumn
    rw [metadata.rows_eq block column hcolumn]
    exact List.mem_range.1 hrow
  obtain ⟨id, hid⟩ := getID_getPartition (metadata.length_eq block) (metadata.hasField block) hlt
  rw [hid]
  rfl

theorem withPartitionId_of_mem (columns : List (List α)) (h : key ∈ metadata.rowKeys block) :
    withPartitionId metadata.partitionKeySample columns key =
      .ok ⟨columns, key, (getID key metadata.partitionKeySample).toOption.getD ""⟩ := by
  rw [withPartitionId, getID_of_mem_rowKeys h]
  rfl

/-- **The scattered columns are the groups.** -/
theorem scatterBlock_spec (h : Scattered ctx (metadata.rowKeys block) (metadata.rowKeys block) s)
    (hcount : 1 < s.partitionsCount) :
    scatterBlock block (metadata.executePartitionByExpression block) metadata.partitionKeySample s =
      .ok ((distinct (metadata.rowKeys block)).map (groupOf metadata block)) := by
  have hfirst : s.partitionNumToFirstRow.length = (distinct (metadata.rowKeys block)).length := by
    rw [h.first_eq, List.length_map]
  have hscatter : block.columns.mapM (scatter s.partitionNumToFirstRow.length s.selector) =
      .ok (block.columns.map fun column => (distinct (metadata.rowKeys block)).map fun key =>
        gather column (positions (metadata.rowKeys block) key)) := by
    refine Loop.mapM_eq_ok fun column hcolumn => ?_
    rw [hfirst, h.selector_eq_map hcount]
    exact scatter_spec (by rw [length_column hcolumn, length_rowKeys])
  have hitems : (List.range s.partitionNumToFirstRow.length).mapM (fun i =>
      withPartitionId metadata.partitionKeySample
        ((block.columns.map fun column => (distinct (metadata.rowKeys block)).map fun key =>
          gather column (positions (metadata.rowKeys block) key)).map fun parts => parts.getD i [])
        (getPartition (metadata.executePartitionByExpression block) (s.partitionNumToFirstRow.getD i 0))) =
      .ok ((List.range s.partitionNumToFirstRow.length).map fun i =>
        groupOf metadata block ((distinct (metadata.rowKeys block)).getD i [])) := by
    refine Loop.mapM_eq_ok fun i hi => ?_
    have hlt : i < (distinct (metadata.rowKeys block)).length := by
      rw [← hfirst]
      exact List.mem_range.1 hi
    have hmem : (distinct (metadata.rowKeys block))[i] ∈ metadata.rowKeys block := mem_distinct.1 (List.getElem_mem hlt)
    have hrow : s.partitionNumToFirstRow.getD i 0 = (metadata.rowKeys block).idxOf (distinct (metadata.rowKeys block))[i] := by
      rw [h.first_eq, List.getD_eq_getElem _ _ (by rw [List.length_map]; exact hlt), List.getElem_map]
    have hcolumns : ((block.columns.map fun column => (distinct (metadata.rowKeys block)).map fun key =>
        gather column (positions (metadata.rowKeys block) key)).map fun parts => parts.getD i []) =
        block.columns.map fun column => gather column (positions (metadata.rowKeys block) (distinct (metadata.rowKeys block))[i]) := by
      rw [List.map_map]
      refine List.map_congr_left fun column _ => ?_
      rw [Function.comp_apply, List.getD_eq_getElem _ _ (by rw [List.length_map]; exact hlt), List.getElem_map]
    rw [hrow, getPartition_idxOf hmem, hcolumns, withPartitionId_of_mem _ hmem, List.getD_eq_getElem _ _ hlt]
    rfl
  have hrange : ((List.range s.partitionNumToFirstRow.length).map fun i =>
      groupOf metadata block ((distinct (metadata.rowKeys block)).getD i [])) =
      (distinct (metadata.rowKeys block)).map (groupOf metadata block) := by
    refine List.ext_getElem (by rw [List.length_map, List.length_map, List.length_range, hfirst]) fun i hi hi' => ?_
    rw [List.length_map] at hi'
    rw [List.getElem_map, List.getElem_map, List.getElem_range, List.getD_eq_getElem _ _ hi']
  rw [scatterBlock]
  simp only [hscatter, bind, Except.bind, hitems, hrange]

theorem map_groupOf_of_const (hrows : 0 < block.rows) (hkey : ∀ key' ∈ metadata.rowKeys block, key' = key) :
    (distinct (metadata.rowKeys block)).map (groupOf metadata block) =
      [⟨block.columns, key, (getID key metadata.partitionKeySample).toOption.getD ""⟩] := by
  have hreplicate : metadata.rowKeys block = List.replicate block.rows key :=
    List.eq_replicate_iff.2 ⟨length_rowKeys, hkey⟩
  have hdistinct : distinct (metadata.rowKeys block) = [key] := by
    have hmem : ∀ k, k ∈ distinct (metadata.rowKeys block) ↔ k ∈ [key] := by
      intro k
      rw [mem_distinct, hreplicate, List.mem_replicate, List.mem_singleton]
      exact ⟨And.right, fun h => ⟨Nat.ne_of_gt hrows, h⟩⟩
    have hperm := (List.perm_ext_iff_of_nodup (nodup_distinct _) (List.nodup_singleton key)).2 hmem
    exact List.perm_singleton.1 hperm
  have hcolumns : (block.columns.map fun column => gather column (positions (metadata.rowKeys block) key)) =
      block.columns := by
    refine (List.map_congr_left fun column hcolumn => ?_).trans (List.map_id _)
    have hlength : column.length = (metadata.rowKeys block).length := by rw [length_column hcolumn, length_rowKeys]
    have hall : (column.zip (metadata.rowKeys block)).filter (fun cell => cell.2 = key) =
        column.zip (metadata.rowKeys block) := by
      refine List.filter_eq_self.2 fun cell hcell => ?_
      exact decide_eq_true (hkey _ (List.of_mem_zip hcell).2)
    rw [gather_positions hlength, hall, List.map_fst_zip (Nat.le_of_eq hlength)]
    rfl
  rw [hdistinct, List.map_singleton, groupOf, hcolumns]

/-- `hasEqualValues` says of every key column whether its values are equal. -/
def SplitContext.Truthful (ctx : SplitContext) (partitionColumns : List KeyColumn) : Prop :=
  ∀ column ∈ partitionColumns, ctx.hasEqualValues column.values = true ↔
    ∀ field ∈ column.values, ∀ field' ∈ column.values, field = field'

omit [NumberText] [DateLUT] [FieldText] in
theorem rowKeys_of_equal (hrows : 0 < block.rows) (hequal : ctx.Truthful (metadata.executePartitionByExpression block))
    (hall : (metadata.executePartitionByExpression block).all (fun column => ctx.hasEqualValues column.values) = true) :
    ∀ key ∈ metadata.rowKeys block, key = getPartition (metadata.executePartitionByExpression block) 0 := by
  intro key hkey
  obtain ⟨row, hrow, rfl⟩ := List.mem_map.1 hkey
  refine List.map_congr_left fun column hcolumn => ?_
  have hvalues := (hequal column hcolumn).1 (List.all_eq_true.1 hall column hcolumn)
  have hlength := metadata.rows_eq block column hcolumn
  have hlt : row < column.values.length := by
    rw [hlength]
    exact List.mem_range.1 hrow
  have hpos : 0 < column.values.length := by
    rw [hlength]
    exact hrows
  rw [List.getD_eq_getElem _ _ hlt, List.getD_eq_getElem _ _ hpos]
  exact hvalues _ (List.getElem_mem hlt) _ (List.getElem_mem hpos)

omit [NumberText] [DateLUT] [FieldText] in
theorem one_lt_distinct (hequal : ctx.Truthful (metadata.executePartitionByExpression block))
    (hall : ¬(metadata.executePartitionByExpression block).all (fun column => ctx.hasEqualValues column.values) = true) :
    1 < (distinct (metadata.rowKeys block)).length := by
  by_contra hle
  refine hall (List.all_eq_true.2 fun column hcolumn => ?_)
  rw [hequal column hcolumn]
  intro field hfield field' hfield'
  obtain ⟨i, hi, rfl⟩ := List.mem_iff_getElem.1 hfield
  obtain ⟨j, hj, rfl⟩ := List.mem_iff_getElem.1 hfield'
  have hlength := metadata.rows_eq block column hcolumn
  have hmem : ∀ {row}, row < column.values.length →
      getPartition (metadata.executePartitionByExpression block) row ∈ distinct (metadata.rowKeys block) := by
    intro row hrow
    rw [hlength] at hrow
    exact mem_distinct.2 (List.mem_of_getElem? (getElem?_rowKeys hrow))
  -- both rows have the only key
  have hsame : getPartition (metadata.executePartitionByExpression block) i =
      getPartition (metadata.executePartitionByExpression block) j := by
    have hi' := hmem hi
    have hj' := hmem hj
    rcases hkeys : distinct (metadata.rowKeys block) with _ | ⟨key, _ | ⟨key', more⟩⟩
    · rw [hkeys] at hi'
      exact absurd hi' List.not_mem_nil
    · rw [hkeys] at hi' hj'
      rw [List.mem_singleton.1 hi', List.mem_singleton.1 hj']
    · rw [hkeys] at hle
      simp at hle
  have hvalue := List.map_inj_left.1 hsame column hcolumn
  rw [List.getD_eq_getElem _ _ hi, List.getD_eq_getElem _ _ hj] at hvalue
  exact hvalue

/-- **The returned blocks are the groups of rows with one key**, unless there are too many keys. -/
theorem splitBlockIntoParts_eq (hrows : 0 < block.rows) (hcheck : metadata.check block = .ok ())
    (hhash : ctx.HashInjective (metadata.rowKeys block))
    (hequal : ctx.Truthful (metadata.executePartitionByExpression block)) :
    (ctx.Exceeded (distinct (metadata.rowKeys block)).length ∧
        ∃ error, splitBlockIntoParts ctx metadata block = .error error) ∨
      (¬ctx.Exceeded (distinct (metadata.rowKeys block)).length ∧
        splitBlockIntoParts ctx metadata block = .ok ((distinct (metadata.rowKeys block)).map (groupOf metadata block))) := by
  have hstart := not_isEmpty_of_rows hrows
  -- one key is never too many
  have hone : ∀ {key}, (∀ key' ∈ metadata.rowKeys block, key' = key) → key ∈ metadata.rowKeys block →
      ¬ctx.Exceeded (distinct (metadata.rowKeys block)).length ∧
        withPartitionId metadata.partitionKeySample block.columns key >>= (fun item => .ok [item]) =
          Except.ok ((distinct (metadata.rowKeys block)).map (groupOf metadata block)) := by
    intro key hkey hmem
    have hgroups := @map_groupOf_of_const _ _ metadata _ _ _ _ hrows hkey
    constructor
    · have hlength := congrArg List.length hgroups
      rw [List.length_map, List.length_singleton] at hlength
      rintro ⟨hmax, -, hlt⟩
      omega
    · rw [withPartitionId_of_mem _ hmem, hgroups]
      rfl
  have hmem : getPartition (metadata.executePartitionByExpression block) 0 ∈ metadata.rowKeys block :=
    List.mem_of_getElem? (getElem?_rowKeys hrows)
  rw [splitBlockIntoParts, if_neg hstart, hcheck]
  by_cases hsample : metadata.partitionKeySample.isEmpty = true
  · refine Or.inr ?_
    have hcolumns : metadata.executePartitionByExpression block = [] := by
      have hlength := metadata.length_eq block
      rw [List.isEmpty_iff.1 hsample] at hlength
      exact List.length_eq_zero_iff.1 hlength
    have hkey : ∀ key' ∈ metadata.rowKeys block, key' = [] := by
      intro key' hkey'
      obtain ⟨row, -, rfl⟩ := List.mem_map.1 hkey'
      rw [hcolumns]
      rfl
    have hnil : [] ∈ metadata.rowKeys block := by
      rw [hcolumns] at hmem
      exact hmem
    obtain ⟨hlimit, hresult⟩ := hone hkey hnil
    refine ⟨hlimit, ?_⟩
    change (if metadata.partitionKeySample.isEmpty = true then _ else _) = _
    rw [if_pos hsample]
    exact hresult
  · by_cases hall : (metadata.executePartitionByExpression block).all (fun column => ctx.hasEqualValues column.values) = true
    · refine Or.inr ?_
      obtain ⟨hlimit, hresult⟩ := hone (rowKeys_of_equal hrows hequal hall) hmem
      refine ⟨hlimit, ?_⟩
      change (if metadata.partitionKeySample.isEmpty = true then _ else if _ then _ else _) = _
      rw [if_neg hsample, if_pos hall]
      exact hresult
    · have hcount := one_lt_distinct hequal hall
      have hrun : splitBlockIntoParts ctx metadata block =
          (buildScatterSelector ctx (metadata.rowKeys block) >>=
            scatterBlock block (metadata.executePartitionByExpression block) metadata.partitionKeySample) := by
        rw [splitBlockIntoParts, if_neg hstart, hcheck]
        change (if metadata.partitionKeySample.isEmpty = true then _ else if _ then _ else _) = _
        rw [if_neg hsample, if_neg hall]
        rfl
      rw [splitBlockIntoParts, if_neg hstart, hcheck] at hrun
      rw [hrun]
      rcases buildScatterSelector_spec hhash with ⟨hlimit, error, herror⟩ | ⟨hlimit, s, hs, hscattered⟩
      · exact Or.inl ⟨hlimit, error, by rw [herror]; rfl⟩
      · refine Or.inr ⟨hlimit, ?_⟩
        rw [hs]
        exact scatterBlock_spec hscattered (by rw [hscattered.count_eq]; exact hcount)

/-! ## What is returned -/

/-- A returned block has the cells of `rows`, in their order, and all of these rows have its key. -/
structure HoldsRows (metadata : PartitionMetadata α) (block : Block α) (item : BlockWithPartition α)
    (rows : List ℕ) : Prop where
  nonempty : rows ≠ []
  in_order : rows.Pairwise (· < ·)
  columns_eq : item.columns = block.columns.map fun column => gather column rows
  key_eq : ∀ row ∈ rows, getPartition (metadata.executePartitionByExpression block) row = item.partition
  partitionId_eq : getID item.partition metadata.partitionKeySample = .ok item.partitionId

/-- The returned blocks split the rows of a block: every row is in exactly one of them, different
blocks have different keys, and they are ordered by the first rows of their keys. -/
def SplitsRows (metadata : PartitionMetadata α) (block : Block α) (result : List (BlockWithPartition α)) : Prop :=
  ∃ groups : List (List ℕ), List.Forall₂ (HoldsRows metadata block) result groups ∧
    groups.flatten.Perm (List.range block.rows) ∧
    result.Pairwise (fun item item' => item.partition ≠ item'.partition) ∧
    groups.Pairwise fun rows rows' => ∀ j ∈ rows', ∃ i ∈ rows, i < j

theorem holdsRows_groupOf (h : key ∈ metadata.rowKeys block) :
    HoldsRows metadata block (groupOf metadata block key) (positions (metadata.rowKeys block) key) where
  nonempty := positions_ne_nil h
  in_order := pairwise_lt_positions _ _
  columns_eq := rfl
  key_eq row hrow := by
    have hkey := mem_positions.1 hrow
    have hlt : row < block.rows := @length_rowKeys _ metadata _ ▸ (List.getElem?_eq_some_iff.1 hkey).1
    rw [getElem?_rowKeys hlt] at hkey
    exact Option.some.inj hkey
  partitionId_eq := getID_of_mem_rowKeys h

theorem splitsRows_groups (metadata : PartitionMetadata α) (block : Block α) :
    SplitsRows metadata block ((distinct (metadata.rowKeys block)).map (groupOf metadata block)) := by
  refine ⟨(distinct (metadata.rowKeys block)).map (positions (metadata.rowKeys block)), ?_, ?_, ?_, pairwise_positions _⟩
  · rw [List.forall₂_map_left_iff, List.forall₂_map_right_iff, List.forall₂_same]
    exact fun key hkey => holdsRows_groupOf (mem_distinct.1 hkey)
  · rw [← @length_rowKeys _ metadata]
    exact flatten_positions_perm _
  · exact List.pairwise_map.2 ((nodup_distinct _).imp fun hne => hne)

/-- **A block is split into its partitions.** What is returned splits the rows by their keys, and
with a limit it throws exactly when the block has more keys than the limit. -/
theorem splitBlockIntoParts_splits (ctx : SplitContext) (metadata : PartitionMetadata α) (block : Block α)
    (hrows : 0 < block.rows) (hhash : ctx.HashInjective (metadata.rowKeys block))
    (hequal : ctx.Truthful (metadata.executePartitionByExpression block)) :
    (∀ result, splitBlockIntoParts ctx metadata block = .ok result → SplitsRows metadata block result) ∧
      (ctx.throwOnLimit = true → 0 < ctx.maxParts → metadata.check block = .ok () →
        ((∃ error, splitBlockIntoParts ctx metadata block = .error error) ↔
          ctx.maxParts < (metadata.rowKeys block).dedup.length ∧ 2 ≤ (metadata.rowKeys block).dedup.length)) := by
  constructor
  · intro result hresult
    have hcheck : metadata.check block = .ok () := by
      rw [splitBlockIntoParts, if_neg (not_isEmpty_of_rows hrows)] at hresult
      cases hc : metadata.check block with
      | ok u => rfl
      | error error =>
        rw [hc] at hresult
        cases hresult
    rcases splitBlockIntoParts_eq hrows hcheck hhash hequal with ⟨-, error, herror⟩ | ⟨-, hgroups⟩
    · rw [herror] at hresult
      cases hresult
    · rw [hgroups] at hresult
      obtain rfl := Except.ok.inj hresult
      exact splitsRows_groups metadata block
  · intro hthrow hmax hcheck
    have hexceeded : ctx.Exceeded (distinct (metadata.rowKeys block)).length ↔
        ctx.maxParts < (metadata.rowKeys block).dedup.length ∧ 2 ≤ (metadata.rowKeys block).dedup.length := by
      rw [SplitContext.Exceeded, length_distinct]
      constructor
      · rintro ⟨-, -, hlt⟩
        exact ⟨hlt, by omega⟩
      · rintro ⟨hlt, -⟩
        exact ⟨Nat.ne_of_gt hmax, hthrow, hlt⟩
    rw [← hexceeded]
    rcases splitBlockIntoParts_eq hrows hcheck hhash hequal with ⟨hlimit, herror⟩ | ⟨hlimit, hgroups⟩
    · exact iff_of_true herror hlimit
    · refine iff_of_false ?_ hlimit
      rintro ⟨error, herror⟩
      rw [hgroups] at herror
      cases herror

end Ids

section Decimal

attribute [local instance] NumberText.decimal DateLUT.gregorian FieldText.plain

/-- The first column of a block of numbers is its partition key. -/
def PartitionMetadata.firstColumn : PartitionMetadata ℕ where
  check _ := .ok ()
  partitionKeySample := [.uint 8]
  executePartitionByExpression block :=
    [{ values := (block.columns.head?.getD []).map .uint64 }]
  length_eq _ := rfl
  hasField _ x hx _ _ := by
    have htype : x.1 = .uint 8 := List.mem_singleton.1 (List.of_mem_zip hx).1
    rw [htype]
    trivial
  rows_eq block column hcolumn := by
    obtain rfl := List.mem_singleton.1 hcolumn
    rw [Block.rows, List.length_map]
    cases block.columns <;> rfl

/-- Settings with a limit of partitions; numbers are their own hashes. -/
def SplitContext.limited (maxParts : ℕ) : SplitContext where
  maxParts := maxParts
  throwOnLimit := true
  hash128 row := match row with
    | [.uint64 n] => BitVec.ofNat 128 n
    | _ => 0
  hasEqualValues values := values.all fun field => values.head? = some field
  uninitialized := 7

/-- Three rows with two keys. -/
def Block.twoKeys : Block ℕ where
  columns := [[5, 6, 5], [10, 20, 30]]
  sameRows := by decide

/-- Two keys are split into two blocks, and are too many for a limit of one. -/
theorem splitBlockIntoParts_twoKeys :
    (∀ result, splitBlockIntoParts (.limited 100) .firstColumn .twoKeys = .ok result →
      SplitsRows .firstColumn .twoKeys result) ∧
    ∃ error, splitBlockIntoParts (.limited 1) .firstColumn .twoKeys = .error error := by
  have hequal : ∀ n, (SplitContext.limited n).Truthful
      (PartitionMetadata.firstColumn.executePartitionByExpression .twoKeys) := by
    intro n column hcolumn
    obtain rfl := List.mem_singleton.1 hcolumn
    change ([Field.uint64 5, .uint64 6, .uint64 5].all fun field => some (Field.uint64 5) = some field) = true ↔
      ∀ field ∈ [Field.uint64 5, .uint64 6, .uint64 5], ∀ field' ∈ [Field.uint64 5, .uint64 6, .uint64 5], field = field'
    decide
  have hhash : ∀ n, (SplitContext.limited n).HashInjective (PartitionMetadata.firstColumn.rowKeys .twoKeys) := by
    intro n
    change ∀ key ∈ [[Field.uint64 5], [.uint64 6], [.uint64 5]], ∀ key' ∈ [[Field.uint64 5], [.uint64 6], [.uint64 5]],
      (SplitContext.limited 0).hash128 key = (SplitContext.limited 0).hash128 key' → key = key'
    decide
  constructor
  · exact (splitBlockIntoParts_splits (.limited 100) .firstColumn .twoKeys (by decide) (hhash 100) (hequal 100)).1
  · exact ((splitBlockIntoParts_splits (.limited 1) .firstColumn .twoKeys (by decide) (hhash 1) (hequal 1)).2 rfl
      (by decide) rfl).2 (by decide)

end Decimal

end MergeTree
