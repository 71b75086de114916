import MergeTree.Lib.Loops
import MergeTree.Spec.ApplyPatches

/-!
# The last writer wins

Merging the patches of a group keeps, of the patch rows aimed at a row, one with the
greatest version, so the merged patch writes what all of them write
(`buildCombinedPatch_spec`). Hence both ways to apply a group write the same to every cell
(`applyPatchesToBlockRaw_eq_combined`), and all groups together leave the last write
(`applyPatches_lastWriter`).
-/

namespace MergeTree

open LastWriter

/-! ## Merging rows -/

section Reduce

variable {V : Type} {version : Picked → ℕ}

/-- The entries aimed at a row, as writes. -/
def pickedWrites (cellOf : Picked → Cell V ℕ) (row : ℕ) (out : List Picked) : List (Cell V ℕ) :=
  (out.filter fun picked => picked.dstRowIndex = row).map cellOf

theorem pickedWrites_append (cellOf : Picked → Cell V ℕ) (row : ℕ) (a b : List Picked) :
    pickedWrites cellOf row (a ++ b) = pickedWrites cellOf row a ++ pickedWrites cellOf row b := by
  unfold pickedWrites
  rw [List.filter_append, List.map_append]

theorem pickedWrites_singleton (cellOf : Picked → Cell V ℕ) (row : ℕ) (picked : Picked) :
    pickedWrites cellOf row [picked] = if picked.dstRowIndex = row then [cellOf picked] else [] := by
  unfold pickedWrites
  by_cases h : picked.dstRowIndex = row
  · rw [if_pos h, List.filter_cons_of_pos (by simpa using h)]
    rfl
  · rw [if_neg h, List.filter_cons_of_neg (by simpa using h)]
    rfl

theorem pickedWrites_eq_nil {cellOf : Picked → Cell V ℕ} {row : ℕ} {out : List Picked}
    (h : ∀ picked ∈ out, picked.dstRowIndex ≠ row) : pickedWrites cellOf row out = [] := by
  unfold pickedWrites
  rw [List.filter_eq_nil_iff.2 fun picked hmem => by simpa using h picked hmem]
  rfl

/-- What the merge has put out, for the rows it has seen. -/
structure Reduced (version : Picked → ℕ) (done out : List Picked) : Prop where
  writes : ∀ (V : Type) (cellOf : Picked → Cell V ℕ), (∀ picked, (cellOf picked).version = version picked) →
    ∀ row c, writeAll c (pickedWrites cellOf row out) = writeAll c (pickedWrites cellOf row done)
  sorted : out.Pairwise fun p q => p.dstRowIndex < q.dstRowIndex
  subset : out ⊆ done
  last : ∀ picked ∈ done, ∃ last, out.getLast? = some last ∧ picked.dstRowIndex ≤ last.dstRowIndex

theorem Reduced.nil : Reduced version [] [] := ⟨fun _ _ _ _ _ => rfl, .nil, List.Subset.refl _, nofun⟩

theorem Reduced.addRow {done out : List Picked} (h : Reduced version done out) {current : Picked}
    (hge : ∀ picked ∈ done, picked.dstRowIndex ≤ current.dstRowIndex) :
    Reduced version (done ++ [current]) (MergeTree.addRow version out current) := by
  have hlast : ∀ out' : List Picked, out'.getLast? = some current → ∀ picked ∈ done ++ [current],
      ∃ last, out'.getLast? = some last ∧ picked.dstRowIndex ≤ last.dstRowIndex := by
    intro out' hout' picked hmem
    refine ⟨current, hout', ?_⟩
    rcases List.mem_append.1 hmem with hmem | hmem
    · exact hge picked hmem
    · rw [List.mem_singleton.1 hmem]
  have hpush : (∀ picked ∈ out, picked.dstRowIndex < current.dstRowIndex) →
      Reduced version (done ++ [current]) (out ++ [current]) := by
    intro hlt
    refine ⟨fun V cellOf hcell row c => ?_, ?_, ?_, hlast _ List.getLast?_concat⟩
    · rw [pickedWrites_append, pickedWrites_append, writeAll_append, writeAll_append, h.writes V cellOf hcell]
    · refine List.pairwise_append.2 ⟨h.sorted, List.pairwise_singleton _ _, fun p hp q hq => ?_⟩
      rw [List.mem_singleton.1 hq]
      exact hlt p hp
    · exact List.append_subset.2 ⟨fun p hp => List.mem_append_left _ (h.subset hp), fun p hp => List.mem_append_right _ hp⟩
  unfold MergeTree.addRow
  rcases List.eq_nil_or_concat out with rfl | ⟨init, last, rfl⟩
  · exact hpush nofun
  · rw [List.concat_eq_append] at h hpush ⊢
    have hmem : last ∈ done := h.subset List.mem_concat_self
    obtain ⟨hinit, -, hbefore⟩ := List.pairwise_append.1 h.sorted
    have hbefore : ∀ p ∈ init, p.dstRowIndex < last.dstRowIndex := fun p hp => hbefore p hp last List.mem_cons_self
    rw [List.getLast?_concat]
    dsimp only
    split
    · rename_i hne
      have hlt : last.dstRowIndex < current.dstRowIndex := lt_of_le_of_ne (hge last hmem) (Ne.symm hne)
      refine hpush fun picked hpicked => ?_
      rcases List.mem_append.1 hpicked with hpicked | hpicked
      · exact (hbefore picked hpicked).trans hlt
      · rw [List.mem_singleton.1 hpicked]
        exact hlt
    · rename_i heq
      rw [not_not] at heq
      have hatRow : ∀ (V : Type) (cellOf : Picked → Cell V ℕ), pickedWrites cellOf current.dstRowIndex init = [] :=
        fun V cellOf => pickedWrites_eq_nil fun p hp => heq ▸ (hbefore p hp).ne
      split
      · -- the last entry is replaced
        rename_i hgreater
        rw [List.dropLast_concat]
        refine ⟨fun V cellOf hcell row c => ?_, ?_, ?_, hlast _ List.getLast?_concat⟩
        · rw [pickedWrites_append, pickedWrites_append, writeAll_append, writeAll_append, ← h.writes V cellOf hcell,
            pickedWrites_append, writeAll_append, pickedWrites_singleton, pickedWrites_singleton, ← heq]
          by_cases hrow : current.dstRowIndex = row
          · have hwrite : write (cellOf last) (cellOf current) = cellOf current :=
              if_pos (by rw [hcell, hcell]; exact hgreater)
            subst hrow
            simp only [if_true, hatRow, writeAll_nil, writeAll_cons, write_assoc, hwrite]
          · simp only [hrow, if_false, writeAll_nil]
        · refine List.pairwise_append.2 ⟨hinit, List.pairwise_singleton _ _, fun p hp q hq => ?_⟩
          rw [List.mem_singleton.1 hq, heq]
          exact hbefore p hp
        · refine List.append_subset.2 ⟨fun p hp => List.mem_append_left _ (h.subset (List.mem_append_left _ hp)), fun p hp =>
            List.mem_append_right _ hp⟩
      · -- the row is skipped
        rename_i hnot
        refine ⟨fun V cellOf hcell row c => ?_, h.sorted, fun p hp => List.mem_append_left _ (h.subset hp), ?_⟩
        · rw [pickedWrites_append _ _ done, writeAll_append, ← h.writes V cellOf hcell, pickedWrites_append, writeAll_append,
            pickedWrites_singleton, pickedWrites_singleton, ← heq]
          by_cases hrow : current.dstRowIndex = row
          · have hwrite : write (cellOf last) (cellOf current) = cellOf last :=
              if_neg (by rw [hcell, hcell]; exact hnot)
            subst hrow
            simp only [if_true, hatRow, writeAll_nil, writeAll_cons, write_assoc, hwrite]
          · simp only [hrow, if_false, writeAll_nil]
        · intro picked hpicked
          refine ⟨last, List.getLast?_concat, ?_⟩
          rw [← heq]
          rcases List.mem_append.1 hpicked with hpicked | hpicked
          · exact hge picked hpicked
          · rw [List.mem_singleton.1 hpicked]

end Reduce

theorem flatMap_perm_cons {α : Type} {l : List ℕ} (hnodup : l.Nodup) {i : ℕ} (hi : i ∈ l) {f g : ℕ → List α} {e : α}
    (hfirst : f i = e :: g i) (hother : ∀ j ∈ l, j ≠ i → f j = g j) : (l.flatMap f).Perm (e :: l.flatMap g) := by
  induction l with
  | nil => cases hi
  | cons a l ih =>
    obtain ⟨ha, hnodup⟩ := List.nodup_cons.1 hnodup
    rw [List.flatMap_cons, List.flatMap_cons]
    by_cases hai : a = i
    · subst hai
      have hrest : l.flatMap f = l.flatMap g := by
        refine List.flatMap_congr fun j hj => hother j (List.mem_cons_of_mem _ hj) fun heq => ha (heq ▸ hj)
      rw [hfirst, hrest]
      exact List.Perm.refl _
    · rw [hother a List.mem_cons_self hai]
      have hil : i ∈ l := (List.mem_cons.1 hi).resolve_left (Ne.symm hai)
      exact ((ih hnodup hil fun j hj => hother j (List.mem_cons_of_mem _ hj)).append_left (g a)).trans List.perm_middle

section Merge

variable {S V : Type} {patches : List (PatchToApply S V)} {builder : CombinedPatchBuilder} {done : List Picked}

/-- The entries of the rows of a patch. -/
def rowsOf (patches : List (PatchToApply S V)) (patchIdx : ℕ) : List Picked :=
  (List.range (patches.getD patchIdx {}).getNumRows).map (pickedRow patches patchIdx)

/-- The rows that are still to come. -/
def rowsLeft (patches : List (PatchToApply S V)) (cursors : ℕ → ℕ) : List Picked :=
  (List.range patches.length).flatMap fun i => (rowsOf patches i).drop (cursors i)

/-- The merge after the rows `done`. -/
structure Merging (patches : List (PatchToApply S V)) (builder : CombinedPatchBuilder) (done : List Picked) : Prop where
  perm : (done ++ rowsLeft patches builder.cursors).Perm (rowsLeft patches fun _ => 0)
  below : ∀ picked ∈ done, ∀ next ∈ rowsLeft patches builder.cursors, picked.dstRowIndex ≤ next.dstRowIndex
  nodup : builder.heap.Nodup
  heap : ∀ i, i ∈ builder.heap ↔ i < patches.length ∧ builder.cursors i < (patches.getD i {}).getNumRows
  reduced : Reduced (pickedVersion patches) done builder.out

theorem length_rowsOf (i : ℕ) : (rowsOf patches i).length = (patches.getD i {}).getNumRows := by
  unfold rowsOf
  rw [List.length_map, List.length_range]

theorem drop_rowsOf {i c : ℕ} (h : c < (patches.getD i {}).getNumRows) :
    (rowsOf patches i).drop c = pickedRow patches i c :: (rowsOf patches i).drop (c + 1) := by
  unfold rowsOf
  rw [← List.map_drop, ← List.map_drop, List.drop_eq_getElem_cons (by rwa [List.length_range]), List.map_cons,
    List.getElem_range]

theorem rowsLeft_perm {cursors : ℕ → ℕ} {i : ℕ} (hi : i < patches.length)
    (hc : cursors i < (patches.getD i {}).getNumRows) :
    (rowsLeft patches cursors).Perm
      (pickedRow patches i (cursors i) :: rowsLeft patches (Function.update cursors i (cursors i + 1))) := by
  refine flatMap_perm_cons List.nodup_range (List.mem_range.2 hi) ?_ fun j _ hj => ?_
  · rw [drop_rowsOf hc, Function.update_self]
  · rw [Function.update_of_ne hj]

variable {env : PatchEnvironment S V}

theorem Merging.round (henv : env.Lawful) (hsorted : ∀ i, (rowsOf patches i).Pairwise fun p q => p.dstRowIndex ≤ q.dstRowIndex)
    (h : Merging patches builder done) (hheap : builder.heap ≠ []) :
    ∃ picked, Merging patches (mergeRound env patches builder) (done ++ [picked]) := by
  obtain ⟨i, rest, hpop, hperm, hleast⟩ := henv.popHeap
    (fun patchIdx => (pickedRow patches patchIdx (builder.cursors patchIdx)).dstRowIndex) builder.heap hheap
  obtain ⟨hi, hc⟩ := (h.heap i).1 (hperm.subset List.mem_cons_self)
  obtain ⟨hnotin, hrest⟩ := List.nodup_cons.1 (hperm.nodup_iff.2 h.nodup)
  have hleft := rowsLeft_perm hi hc
  -- the heads of the other patches are not less, and their rows are in order
  have hnext : ∀ next ∈ rowsLeft patches builder.cursors,
      (pickedRow patches i (builder.cursors i)).dstRowIndex ≤ next.dstRowIndex := by
    intro next hnext
    obtain ⟨j, hj, hmem⟩ := List.mem_flatMap.1 hnext
    by_cases hcj : builder.cursors j < (patches.getD j {}).getNumRows
    · have hhead := hleast j ((h.heap j).2 ⟨List.mem_range.1 hj, hcj⟩)
      have hrows := (hsorted j).sublist (List.drop_sublist (builder.cursors j) (rowsOf patches j))
      rw [drop_rowsOf hcj] at hmem hrows
      rcases List.mem_cons.1 hmem with rfl | hmem
      · exact hhead
      · exact hhead.trans ((List.pairwise_cons.1 hrows).1 next hmem)
    · rw [List.drop_eq_nil_of_le (by rw [length_rowsOf]; exact not_lt.1 hcj)] at hmem
      cases hmem
  have hsubset : ∀ next ∈ rowsLeft patches (Function.update builder.cursors i (builder.cursors i + 1)),
      next ∈ rowsLeft patches builder.cursors := fun next hmem => hleft.symm.subset (List.mem_cons_of_mem _ hmem)
  have hcurrent : pickedRow patches i (builder.cursors i) ∈ rowsLeft patches builder.cursors :=
    hleft.symm.subset List.mem_cons_self
  have hout := h.reduced.addRow fun picked hpicked => h.below picked hpicked _ hcurrent
  have hdone : (done ++ [pickedRow patches i (builder.cursors i)] ++
      rowsLeft patches (Function.update builder.cursors i (builder.cursors i + 1))).Perm (rowsLeft patches fun _ => 0) := by
    rw [List.append_assoc]
    exact (hleft.symm.append_left done).trans h.perm
  have hbelow : ∀ picked ∈ done ++ [pickedRow patches i (builder.cursors i)],
      ∀ next ∈ rowsLeft patches (Function.update builder.cursors i (builder.cursors i + 1)),
        picked.dstRowIndex ≤ next.dstRowIndex := by
    intro picked hpicked next hmem
    rcases List.mem_append.1 hpicked with hpicked | hpicked
    · exact h.below picked hpicked next (hsubset next hmem)
    · rw [List.mem_singleton.1 hpicked]
      exact hnext next (hsubset next hmem)
  have hother : ∀ j ≠ i, (j ∈ rest ↔ j < patches.length ∧
      Function.update builder.cursors i (builder.cursors i + 1) j < (patches.getD j {}).getNumRows) := by
    intro j hj
    rw [Function.update_of_ne hj, ← h.heap j, ← hperm.mem_iff, List.mem_cons]
    exact (or_iff_right hj).symm
  refine ⟨pickedRow patches i (builder.cursors i), ?_⟩
  unfold mergeRound
  rw [hpop]
  dsimp only
  split
  · rename_i hmore
    refine ⟨hdone, hbelow, List.nodup_cons.2 ⟨hnotin, hrest⟩, fun j => ?_, hout⟩
    by_cases hj : j = i
    · subst hj
      simp only [List.mem_cons, true_or, Function.update_self, true_iff]
      exact ⟨hi, hmore⟩
    · rw [List.mem_cons, or_iff_right hj]
      exact hother j hj
  · rename_i hlast
    refine ⟨hdone, hbelow, hrest, fun j => ?_, hout⟩
    by_cases hj : j = i
    · subst hj
      simp only [hnotin, Function.update_self, false_iff, not_and]
      exact fun _ => hlast
    · exact hother j hj

theorem Merging.rounds (henv : env.Lawful) (hsorted : ∀ i, (rowsOf patches i).Pairwise fun p q => p.dstRowIndex ≤ q.dstRowIndex) :
    ∀ {n : ℕ} {builder : CombinedPatchBuilder} {done : List Picked}, Merging patches builder done →
      (rowsLeft patches builder.cursors).length ≤ n →
        ∃ done', Merging patches (mergeRounds env patches n builder) done' ∧ (mergeRounds env patches n builder).heap = [] := by
  have hempty : ∀ {builder : CombinedPatchBuilder} {done : List Picked}, Merging patches builder done →
      (rowsLeft patches builder.cursors).length = 0 → builder.heap = [] := by
    intro builder done h hzero
    rw [List.eq_nil_iff_forall_not_mem]
    intro i hi
    obtain ⟨hlt, hc⟩ := (h.heap i).1 hi
    have hperm := (rowsLeft_perm hlt hc).length_eq
    rw [List.length_cons] at hperm
    omega
  intro n
  induction n with
  | zero =>
    intro builder done h hle
    exact ⟨done, h, hempty h (Nat.le_zero.1 hle)⟩
  | succ n ih =>
    intro builder done h hle
    unfold mergeRounds
    split
    · rename_i hnil
      exact ⟨done, h, List.isEmpty_iff.1 hnil⟩
    · rename_i hcons
      obtain ⟨picked, h'⟩ := h.round henv hsorted fun hnil => hcons (List.isEmpty_iff.2 hnil)
      refine ih h' ?_
      have hlength := h.perm.length_eq.trans h'.perm.length_eq.symm
      simp only [List.length_append, List.length_singleton] at hlength
      omega

/-- **The merged patch** has the rows of all patches: the heap is empty, and what is put out writes to any
row what some order of all rows writes. -/
theorem buildCombinedPatch_spec (henv : env.Lawful)
    (hsorted : ∀ i, (rowsOf patches i).Pairwise fun p q => p.dstRowIndex ≤ q.dstRowIndex) :
    (buildCombinedPatch env patches).heap = [] ∧ ∃ done, done.Perm (rowsLeft patches fun _ => 0) ∧
      Reduced (pickedVersion patches) done (buildCombinedPatch env patches).out := by
  have hstart : Merging patches
      ⟨(List.range patches.length).filter fun i => 0 < (patches.getD i {}).getNumRows, fun _ => 0, []⟩ [] := by
    refine ⟨List.Perm.refl _, nofun, List.nodup_range.filter _, fun i => ?_, Reduced.nil⟩
    rw [List.mem_filter, List.mem_range, decide_eq_true_iff]
  have hlength : (rowsLeft patches fun _ => 0).length ≤ totalRows patches := by
    unfold rowsLeft totalRows
    rw [List.length_flatMap]
    refine le_of_eq (congrArg List.sum (List.ext_getElem (by simp) fun i hi hi' => ?_))
    rw [List.getElem_map, List.getElem_map, List.getElem_range, List.drop_zero, length_rowsOf,
      List.getD_eq_getElem _ _ (by simpa using hi)]
  obtain ⟨done, hdone, hheap⟩ := hstart.rounds henv hsorted hlength
  have hdone : Merging patches (buildCombinedPatch env patches) done := hdone
  refine ⟨hheap, done, ?_, hdone.reduced⟩
  have hleft : rowsLeft patches (buildCombinedPatch env patches).cursors = [] := by
    rw [List.eq_nil_iff_forall_not_mem]
    intro picked hpicked
    obtain ⟨i, hi, hmem⟩ := List.mem_flatMap.1 hpicked
    have hnot : i ∉ (buildCombinedPatch env patches).heap := by
      rw [show (buildCombinedPatch env patches).heap = [] from hheap]
      exact List.not_mem_nil
    have hc : ¬ (buildCombinedPatch env patches).cursors i < (patches.getD i {}).getNumRows :=
      fun hc => hnot ((hdone.heap i).2 ⟨List.mem_range.1 hi, hc⟩)
    rw [List.drop_eq_nil_of_le (by rw [length_rowsOf]; exact not_lt.1 hc)] at hmem
    cases hmem
  have hperm := hdone.perm
  rw [hleft, List.append_nil] at hperm
  exact hperm

end Merge

/-! ## The writes of a patch -/

theorem map_range_getD {α : Type} (l : List α) (d : α) : (List.range l.length).map (fun i => l.getD i d) = l := by
  refine List.ext_getElem (by simp) fun i hi hi' => ?_
  rw [List.getElem_map, List.getElem_range, List.getD_eq_getElem _ _ hi']

theorem filterMap_range_getD {α β : Type} (l : List α) (d : α) (f : α → Option β) :
    ((List.range l.length).filterMap fun i => f (l.getD i d)) = l.filterMap f := by
  conv_rhs => rw [← map_range_getD l d, List.filterMap_map]
  rfl

theorem getD_map_range {α β : Type} (l : List α) (f : α → β) (i : ℕ) (d : α) : (l.map f).getD i (f d) = f (l.getD i d) := by
  rw [List.getD_eq_getElem?_getD, List.getD_eq_getElem?_getD, List.getElem?_map]
  cases l[i]? <;> rfl

theorem getElem?_allPatchBlocks {S V : Type} {patches : List (PatchToApply S V)} {i k : ℕ} (hi : i < patches.length)
    (hk : k < (patches.getD i {}).getNumSources) :
    (allPatchBlocks patches)[flattenedBlockIndex patches i k]? = (patches.getD i {}).patchBlocks[k]? := by
  have hlength : ((patches.take i).flatMap PatchToApply.patchBlocks).length =
      ((patches.take i).map PatchToApply.getNumSources).sum := by
    rw [List.length_flatMap]
    rfl
  have hsplit : allPatchBlocks patches = (patches.take i).flatMap PatchToApply.patchBlocks ++
      ((patches.getD i {}).patchBlocks ++ (patches.drop (i + 1)).flatMap PatchToApply.patchBlocks) := by
    unfold allPatchBlocks
    conv_lhs => rw [← List.take_append_drop i patches, List.drop_eq_getElem_cons hi]
    rw [List.flatMap_append, List.flatMap_cons, List.getD_eq_getElem _ _ hi]
  unfold flattenedBlockIndex
  rw [hsplit, List.getElem?_append_right (by omega), hlength, Nat.add_sub_cancel_left, List.getElem?_append_left hk]

section Writes

variable {S V : Type} [DecidableEq S] {env : PatchEnvironment S V} {patches : List (PatchToApply S V)} {rows : ℕ}
  {updatedColumns : List String} {resultColumn : ResultColumn S V}

/-- What a block has for a column: its values and their versions. -/
def blockSource (env : PatchEnvironment S V) (resultColumn : ResultColumn S V) (patchBlock : PatchBlock S V) :
    UpdateSource V :=
  match patchBlock.find resultColumn.name with
  | none => ⟨[], patchBlock.dataVersions⟩
  | some patchColumn =>
    match patchColumn.column with
    | none => ⟨[], patchBlock.dataVersions⟩
    | some values => ⟨sourceValues env resultColumn patchColumn values, patchBlock.dataVersions⟩

/-- A row of a source. -/
def UpdateSource.cell (source : UpdateSource V) (row : ℕ) : Option (Cell V ℕ) :=
  match source.column[row]?, source.versions[row]? with
  | some value, some version => some ⟨value, version⟩
  | _, _ => none

theorem length_sourceValues (resultColumn : ResultColumn S V) (patchColumn : PatchColumn S V) (values : List V) :
    (sourceValues env resultColumn patchColumn values).length = values.length := by
  unfold sourceValues
  split
  · rfl
  · exact List.length_map _

theorem PatchToApply.WellFormed.source {patch : PatchToApply S V} (h : patch.WellFormed env rows updatedColumns)
    (hname : resultColumn.name ∈ updatedColumns) {patchBlock : PatchBlock S V} (hblock : patchBlock ∈ patch.patchBlocks) :
    createSource env resultColumn patchBlock = .ok (blockSource env resultColumn patchBlock) ∧
      (blockSource env resultColumn patchBlock).column.length = patchBlock.dataVersions.length ∧
      (blockSource env resultColumn patchBlock).versions = patchBlock.dataVersions := by
  obtain ⟨patchColumn, values, hfind, hcolumn, hlength⟩ := h.column_exists patchBlock hblock _ hname
  unfold createSource blockSource
  rw [hfind]
  dsimp only
  rw [hcolumn]
  exact ⟨rfl, (length_sourceValues _ _ _).trans hlength, rfl⟩

theorem PatchToApply.cell_eq {patch : PatchToApply S V} {rowIdx : ℕ} {patchBlock : PatchBlock S V}
    (hblock : patch.patchBlocks[patch.getPatchBlockIndex rowIdx]? = some patchBlock) :
    patch.cell env resultColumn rowIdx = (blockSource env resultColumn patchBlock).cell (patch.getPatchRowIndex rowIdx) := by
  unfold cell blockSource UpdateSource.cell
  rw [hblock]
  dsimp only
  cases hfind : patchBlock.find resultColumn.name with
  | none => rfl
  | some patchColumn =>
    dsimp only
    cases hcolumn : patchColumn.column with
    | none => rfl
    | some values => rfl

theorem UpdateSource.exists_cell {source : UpdateSource V} {row : ℕ} (hlength : source.versions.length = source.column.length)
    (hrow : row < source.column.length) : ∃ c, source.cell row = some c := by
  unfold cell
  rw [List.getElem?_eq_getElem hrow, List.getElem?_eq_getElem (hlength ▸ hrow)]
  exact ⟨_, rfl⟩

/-- An entry of the merged patch as a write; its value is there if its row is. -/
def pickedCell (env : PatchEnvironment S V) (patches : List (PatchToApply S V)) (resultColumn : ResultColumn S V)
    (picked : Picked) : Cell (Option V) ℕ :=
  ⟨(allPatchBlocks patches)[picked.srcBlockIndex]?.bind fun patchBlock =>
      (blockSource env resultColumn patchBlock).column[picked.srcRowIndex]?, pickedVersion patches picked⟩

theorem exists_pickedSource (hpatches : ∀ patch ∈ patches, patch.WellFormed env rows updatedColumns)
    (hname : resultColumn.name ∈ updatedColumns) {i j : ℕ} (hi : i < patches.length)
    (hj : j < (patches.getD i {}).getNumRows) :
    ∃ patchBlock c, (allPatchBlocks patches)[(pickedRow patches i j).srcBlockIndex]? = some patchBlock ∧
      (pickedRow patches i j).srcRowIndex < (blockSource env resultColumn patchBlock).column.length ∧
      (blockSource env resultColumn patchBlock).versions.length = (blockSource env resultColumn patchBlock).column.length ∧
      (blockSource env resultColumn patchBlock).cell (pickedRow patches i j).srcRowIndex = some c ∧
      (patches.getD i {}).cell env resultColumn j = some c ∧
      pickedCell env patches resultColumn (pickedRow patches i j) = c.map some := by
  have hmem : patches.getD i {} ∈ patches := by
    rw [List.getD_eq_getElem _ _ hi]
    exact List.getElem_mem hi
  have hwell := hpatches _ hmem
  obtain ⟨patchBlock, hblock, hrow⟩ := hwell.patchBlock_exists j hj
  obtain ⟨-, hlength, hversions⟩ := hwell.source hname (List.mem_of_getElem? hblock)
  have hk : (patches.getD i {}).getPatchBlockIndex j < (patches.getD i {}).getNumSources :=
    (List.getElem?_eq_some_iff.1 hblock).1
  have hall : (allPatchBlocks patches)[(pickedRow patches i j).srcBlockIndex]? = some patchBlock :=
    (getElem?_allPatchBlocks hi hk).trans hblock
  have hvlength : (blockSource env resultColumn patchBlock).versions.length =
      (blockSource env resultColumn patchBlock).column.length := by rw [hversions, hlength]
  have hlt : (pickedRow patches i j).srcRowIndex < (blockSource env resultColumn patchBlock).column.length := by
    rw [hlength]
    exact hrow
  obtain ⟨c, hc⟩ := UpdateSource.exists_cell hvlength hlt
  refine ⟨patchBlock, c, hall, hlt, hvlength, hc, (PatchToApply.cell_eq hblock).trans hc, ?_⟩
  unfold UpdateSource.cell at hc
  have hlt' : (pickedRow patches i j).srcRowIndex < patchBlock.dataVersions.length := hrow
  rw [hversions, List.getElem?_eq_getElem hlt, List.getElem?_eq_getElem hlt', Option.some.injEq] at hc
  have hversion : pickedVersion patches (pickedRow patches i j) = patchBlock.dataVersions[(pickedRow patches i j).srcRowIndex] := by
    have hgetD : (allPatchBlocks patches).getD (pickedRow patches i j).srcBlockIndex {} = patchBlock := by
      rw [List.getD_eq_getElem?_getD, hall]
      rfl
    unfold pickedVersion
    rw [hgetD, List.getD_eq_getElem _ _ hlt']
  unfold pickedCell
  rw [hall, Option.bind_some, List.getElem?_eq_getElem hlt, hversion, ← hc]
  rfl

theorem pickedWrites_rowsLeft (hpatches : ∀ patch ∈ patches, patch.WellFormed env rows updatedColumns)
    (hname : resultColumn.name ∈ updatedColumns) (row : ℕ) :
    pickedWrites (pickedCell env patches resultColumn) row (rowsLeft patches fun _ => 0) =
      (patches.flatMap fun patch => patch.writesAt env resultColumn row).map (Cell.map some) := by
  have hrows : ∀ i < patches.length, pickedWrites (pickedCell env patches resultColumn) row (rowsOf patches i) =
      ((patches.getD i {}).writesAt env resultColumn row).map (Cell.map some) := by
    intro i hi
    unfold pickedWrites rowsOf PatchToApply.writesAt
    rw [List.filter_map, List.map_map, List.map_filterMap, ← List.filterMap_eq_map, List.filterMap_filter]
    refine List.filterMap_congr fun j hj => ?_
    obtain ⟨-, c, -, -, -, -, hcell, hpicked⟩ := exists_pickedSource hpatches hname hi (List.mem_range.1 hj)
    by_cases hrow : (patches.getD i {}).getResultRowIndex j = row
    · rw [if_pos (by simpa [pickedRow] using hrow), if_pos hrow, hcell]
      simp only [Function.comp_apply, hpicked, Option.map_some]
    · rw [if_neg (by simpa [pickedRow] using hrow), if_neg hrow]
      rfl
  have hflat : ∀ l : List ℕ, (∀ i ∈ l, i < patches.length) →
      pickedWrites (pickedCell env patches resultColumn) row (l.flatMap fun i => (rowsOf patches i).drop 0) =
        (l.flatMap fun i => (patches.getD i {}).writesAt env resultColumn row).map (Cell.map some) := by
    intro l
    induction l with
    | nil => exact fun _ => rfl
    | cons i l ih =>
      intro hl
      rw [List.flatMap_cons, List.flatMap_cons, pickedWrites_append, List.map_append, List.drop_zero,
        hrows i (hl i List.mem_cons_self), ih fun j hj => hl j (List.mem_cons_of_mem _ hj)]
  have hall := hflat (List.range patches.length) fun i hi => List.mem_range.1 hi
  rw [show rowsLeft patches (fun _ => 0) = (List.range patches.length).flatMap fun i => (rowsOf patches i).drop 0 from rfl, hall]
  congr 1
  conv_rhs => rw [← map_range_getD patches {}, List.flatMap_map]

/-! ## Updating a column -/

/-- A column in which every row took these writes. -/
structure Written (writes : ℕ → List (Cell V ℕ)) (column column' : VersionedColumn V) : Prop where
  values_length : column'.1.length = column.1.length
  versions_length : column'.2.length = column.2.length
  cells : ∀ row c, column.cellAt row = some c → column'.cellAt row = some (writeAll c (writes row))

theorem Written.refl (column : VersionedColumn V) : Written (fun _ => []) column column :=
  ⟨rfl, rfl, fun _ _ h => h⟩

theorem Written.trans {writes writes' : ℕ → List (Cell V ℕ)} {column column' column'' : VersionedColumn V}
    (h : Written writes column column') (h' : Written writes' column' column'') :
    Written (fun row => writes row ++ writes' row) column column'' := by
  refine ⟨h'.values_length.trans h.values_length, h'.versions_length.trans h.versions_length, fun row c hc => ?_⟩
  rw [writeAll_append]
  exact h'.cells row _ (h.cells row c hc)

theorem Written.congr {writes writes' : ℕ → List (Cell V ℕ)} {column column' : VersionedColumn V}
    (h : Written writes column column') (heq : ∀ row c, writeAll c (writes row) = writeAll c (writes' row)) :
    Written writes' column column' := by
  refine ⟨h.values_length, h.versions_length, fun row c hc => ?_⟩
  rw [← heq]
  exact h.cells row c hc

omit [DecidableEq S] in
theorem updateColumn_written (henv : env.Lawful) {type : S} {patch : UpdatePatch V} {column : VersionedColumn V}
    (hvalid : patch.Valid column) : Written patch.writesAt column (updateColumn env type patch column) := by
  have hwrites : patch.Writes column (updateColumn env type patch column) := by
    unfold updateColumn
    split
    · exact henv.updateInplaceFrom patch column hvalid
    · exact henv.updateFrom patch column hvalid
  refine ⟨hwrites.values_length, hwrites.versions_length, fun row c hc => ?_⟩
  rw [hwrites.cells row, hc]
  rfl

theorem UpdatePatch.writesAt_eq {patch : UpdatePatch V} {row : ℕ} {cellOf : ℕ → Option (Cell V ℕ)}
    (h : ∀ i < patch.dstRowIndices.length, ∃ source,
      patch.sources[(patch.srcColIndices.map fun indices => indices.getD i 0).getD 0]? = some source ∧
        source.cell (patch.srcRowIndices.getD i 0) = cellOf i) :
    patch.writesAt row = (List.range patch.dstRowIndices.length).filterMap fun i =>
      if patch.dstRowIndices.getD i 0 = row then cellOf i else none := by
  unfold writesAt
  refine List.filterMap_congr fun i hi => ?_
  obtain ⟨source, hsource, hcell⟩ := h i (List.mem_range.1 hi)
  rw [hsource, ← hcell]
  rfl

theorem applyPatchRaw_written (henv : env.Lawful) {patch : PatchToApply S V}
    (h : patch.WellFormed env rows updatedColumns) (hname : resultColumn.name ∈ updatedColumns)
    (hsingle : patch.getNumSources = 1) {column : VersionedColumn V} (hlength : column.1.length = rows)
    (hversions : column.2.length = column.1.length) :
    Written (patch.writesAt env resultColumn) column (applyPatchRaw env resultColumn column patch) := by
  obtain ⟨patchBlock, hblocks⟩ := List.length_eq_one_iff.1 hsingle
  have hindex : ∀ rowIdx, patch.patchBlocks[patch.getPatchBlockIndex rowIdx]? = some patchBlock := by
    intro rowIdx
    unfold PatchToApply.getPatchBlockIndex
    rw [if_pos hsingle, hblocks]
    rfl
  obtain ⟨hsource, hcolumn, hdata⟩ := h.source hname (hblocks ▸ List.mem_singleton_self patchBlock)
  let update : UpdatePatch V :=
    { sources := [blockSource env resultColumn patchBlock]
      srcColIndices := none
      srcRowIndices := patch.patchRowIndices
      dstRowIndices := patch.resultRowIndices }
  have hraw : applyPatchRaw env resultColumn column patch = updateColumn env resultColumn.type update column := by
    obtain ⟨patchColumn, values, hfind, hsome, -⟩ :=
      h.column_exists patchBlock (hblocks ▸ List.mem_singleton_self patchBlock) _ hname
    have hblockSource : blockSource env resultColumn patchBlock =
        ⟨sourceValues env resultColumn patchColumn values, patchBlock.dataVersions⟩ := by
      unfold blockSource
      rw [hfind]
      dsimp only
      rw [hsome]
    unfold applyPatchRaw
    rw [hblocks]
    dsimp only
    rw [hfind]
    dsimp only
    rw [hsome]
    dsimp only [update]
    rw [hblockSource]
  have hvalid : update.Valid column := by
    refine ⟨h.sorted, fun row hrow => hlength ▸ h.resultRow_lt row hrow, hversions, h.patchRows_length, fun i hi => ?_⟩
    obtain ⟨block, hblock, hrow⟩ := h.patchBlock_exists i hi
    rw [hindex] at hblock
    rw [← Option.some.inj hblock] at hrow
    exact ⟨_, rfl, hcolumn ▸ hrow, by rw [hdata, hcolumn]⟩
  have hwrites : ∀ row, update.writesAt row = patch.writesAt env resultColumn row := by
    intro row
    exact UpdatePatch.writesAt_eq fun i _ => ⟨_, rfl, (PatchToApply.cell_eq (hindex i)).symm⟩
  rw [hraw, ← funext hwrites]
  exact updateColumn_written henv hvalid

/-- **Patch after patch**: the rows of all patches are written in order. -/
theorem foldl_applyPatchRaw_written (henv : env.Lawful) (hname : resultColumn.name ∈ updatedColumns) :
    ∀ {patches : List (PatchToApply S V)}, (∀ patch ∈ patches, patch.WellFormed env rows updatedColumns) →
      (∀ patch ∈ patches, patch.getNumSources = 1) → ∀ {column : VersionedColumn V}, column.1.length = rows →
        column.2.length = column.1.length →
          Written (fun row => patches.flatMap fun patch => patch.writesAt env resultColumn row) column
            (patches.foldl (applyPatchRaw env resultColumn) column) := by
  intro patches
  induction patches with
  | nil => exact fun _ _ column _ _ => Written.refl column
  | cons patch patches ih =>
    intro hpatches hsingle column hlength hversions
    have hfirst := applyPatchRaw_written henv (hpatches patch List.mem_cons_self) hname (hsingle patch List.mem_cons_self)
      hlength hversions
    exact hfirst.trans (ih (fun patch' hmem => hpatches patch' (List.mem_cons_of_mem _ hmem))
      (fun patch' hmem => hsingle patch' (List.mem_cons_of_mem _ hmem)) (hfirst.values_length.trans hlength)
      (by rw [hfirst.versions_length, hfirst.values_length, hversions]))

omit [DecidableEq S] in
theorem exists_pickedRow {picked : Picked} (h : picked ∈ rowsLeft patches fun _ => 0) :
    ∃ i j, i < patches.length ∧ j < (patches.getD i {}).getNumRows ∧ picked = pickedRow patches i j := by
  obtain ⟨i, hi, hmem⟩ := List.mem_flatMap.1 h
  obtain ⟨j, hj, rfl⟩ := List.mem_map.1 (List.mem_of_mem_drop hmem)
  exact ⟨i, j, List.mem_range.1 hi, List.mem_range.1 hj, rfl⟩

omit [DecidableEq S] in
theorem pairwise_rowsOf (hpatches : ∀ patch ∈ patches, patch.WellFormed env rows updatedColumns) (i : ℕ) :
    (rowsOf patches i).Pairwise fun p q => p.dstRowIndex ≤ q.dstRowIndex := by
  have hdst : (rowsOf patches i).map Picked.dstRowIndex = (patches.getD i {}).resultRowIndices := by
    unfold rowsOf
    rw [List.map_map]
    exact map_range_getD _ 0
  rw [← List.pairwise_map (R := (· ≤ ·)), hdst]
  by_cases hi : i < patches.length
  · rw [List.getD_eq_getElem _ _ hi]
    exact (hpatches _ (List.getElem_mem hi)).sorted
  · rw [List.getD_eq_default _ _ (not_lt.1 hi)]
    exact .nil

/-- **The merged patch** writes, on any column, what the rows of all patches write in order. -/
theorem createPatchForColumn_written (henv : env.Lawful)
    (hpatches : ∀ patch ∈ patches, patch.WellFormed env rows updatedColumns) (hname : resultColumn.name ∈ updatedColumns)
    (hagree : ∀ row, Agree (patches.flatMap fun patch => patch.writesAt env resultColumn row)) {column : VersionedColumn V}
    (hlength : column.1.length = rows) (hversions : column.2.length = column.1.length) :
    ∃ update, createPatchForColumn env patches resultColumn = .ok update ∧
      Written (fun row => patches.flatMap fun patch => patch.writesAt env resultColumn row) column
        (updateColumn env resultColumn.type update column) := by
  obtain ⟨-, done, hperm, hreduced⟩ := buildCombinedPatch_spec henv (pairwise_rowsOf hpatches)
  have hout : ∀ picked ∈ (buildCombinedPatch env patches).out,
      ∃ i j, i < patches.length ∧ j < (patches.getD i {}).getNumRows ∧ picked = pickedRow patches i j :=
    fun picked hmem => exists_pickedRow (hperm.subset (hreduced.subset hmem))
  set out := (buildCombinedPatch env patches).out with hdef
  let sources := (allPatchBlocks patches).map (blockSource env resultColumn)
  let update : UpdatePatch V :=
    { sources
      srcColIndices := some (out.map Picked.srcBlockIndex)
      srcRowIndices := out.map Picked.srcRowIndex
      dstRowIndices := out.map Picked.dstRowIndex }
  have hok : createPatchForColumn env patches resultColumn = .ok update := by
    have hsources : (allPatchBlocks patches).mapM (createSource env resultColumn) = .ok sources := by
      refine Loop.mapM_eq_ok fun patchBlock hmem => ?_
      obtain ⟨patch, hpatch, hblock⟩ := List.mem_flatMap.1 hmem
      exact ((hpatches patch hpatch).source hname hblock).1
    unfold createPatchForColumn
    rw [hsources]
    rfl
  have hdst : ∀ i, update.dstRowIndices.getD i 0 = (out.getD i ⟨0, 0, 0⟩).dstRowIndex :=
    fun i => getD_map_range out Picked.dstRowIndex i ⟨0, 0, 0⟩
  have hsrc : ∀ i, update.srcRowIndices.getD i 0 = (out.getD i ⟨0, 0, 0⟩).srcRowIndex :=
    fun i => getD_map_range out Picked.srcRowIndex i ⟨0, 0, 0⟩
  have hcol : ∀ i, (update.srcColIndices.map fun indices => indices.getD i 0).getD 0 = (out.getD i ⟨0, 0, 0⟩).srcBlockIndex :=
    fun i => getD_map_range out Picked.srcBlockIndex i ⟨0, 0, 0⟩
  have hlen : update.dstRowIndices.length = out.length := List.length_map _
  -- every entry has its source, and its cell there
  have hentry : ∀ i < out.length, ∃ source c, sources[(out.getD i ⟨0, 0, 0⟩).srcBlockIndex]? = some source ∧
      (out.getD i ⟨0, 0, 0⟩).srcRowIndex < source.column.length ∧ source.versions.length = source.column.length ∧
        source.cell (out.getD i ⟨0, 0, 0⟩).srcRowIndex = some c ∧
          pickedCell env patches resultColumn (out.getD i ⟨0, 0, 0⟩) = c.map some := by
    intro i hi
    obtain ⟨p, j, hp, hj, heq⟩ := hout (out.getD i ⟨0, 0, 0⟩) (by
      rw [List.getD_eq_getElem _ _ hi]
      exact List.getElem_mem hi)
    obtain ⟨patchBlock, c, hall, hlt, hvlength, hcell, -, hpicked⟩ := exists_pickedSource hpatches hname hp hj
    rw [heq]
    refine ⟨_, c, ?_, hlt, hvlength, hcell, hpicked⟩
    rw [List.getElem?_map, hall]
    rfl
  have hvalid : update.Valid column := by
    refine ⟨?_, fun row hrow => ?_, hversions, by rw [List.length_map, List.length_map], fun i hi => ?_⟩
    · exact List.pairwise_map.2 (hreduced.sorted.imp le_of_lt)
    · obtain ⟨picked, hmem, rfl⟩ := List.mem_map.1 hrow
      obtain ⟨p, j, hp, hj, rfl⟩ := hout picked hmem
      rw [hlength]
      refine (hpatches (patches.getD p {}) ?_).resultRow_lt _ ?_
      · rw [List.getD_eq_getElem _ _ hp]
        exact List.getElem_mem hp
      · change (patches.getD p {}).resultRowIndices.getD j 0 ∈ _
        rw [List.getD_eq_getElem _ _ hj]
        exact List.getElem_mem hj
    · rw [hlen] at hi
      obtain ⟨source, c, hsource, hlt, hvlength, -, -⟩ := hentry i hi
      rw [hcol, hsrc]
      exact ⟨source, hsource, hlt, hvlength⟩
  have hwrites : ∀ row, (update.writesAt row).map (Cell.map some) =
      pickedWrites (pickedCell env patches resultColumn) row out := by
    intro row
    rw [UpdatePatch.writesAt_eq fun i hi => by
      obtain ⟨source, c, hsource, -, -, -, -⟩ := hentry i (hlen ▸ hi)
      rw [hcol, hsrc]
      exact ⟨source, hsource, show _ = (sources[(out.getD i ⟨0, 0, 0⟩).srcBlockIndex]?.bind fun source =>
        source.cell (out.getD i ⟨0, 0, 0⟩).srcRowIndex) by rw [hsource]; rfl⟩]
    rw [hlen, List.map_filterMap]
    unfold pickedWrites
    rw [← List.filterMap_eq_map, List.filterMap_filter, ← filterMap_range_getD out ⟨0, 0, 0⟩]
    refine List.filterMap_congr fun i hi => ?_
    obtain ⟨source, c, hsource, -, -, hcell, hpicked⟩ := hentry i (List.mem_range.1 hi)
    rw [hdst, hsource, Option.bind_some, hcell]
    by_cases hrow : (out.getD i ⟨0, 0, 0⟩).dstRowIndex = row
    · simp only [hrow, if_true, Option.map_some, decide_true, Function.comp_apply, hpicked]
    · simp only [hrow, if_false, Option.map_none, decide_false, Bool.false_eq_true]
  refine ⟨update, hok, (updateColumn_written henv hvalid).congr fun row c => ?_⟩
  -- with the values marked as present, both are writes of the entries
  have hmarked : (writeAll c (update.writesAt row)).map some =
      (writeAll c (patches.flatMap fun patch => patch.writesAt env resultColumn row)).map some := by
    rw [← writeAll_map, ← writeAll_map, hwrites,
      hreduced.writes _ (pickedCell env patches resultColumn) (fun _ => rfl), ← pickedWrites_rowsLeft hpatches hname]
    refine (writeAll_perm ?_ ((hperm.symm.filter _).map _)).symm
    rw [show (List.map (pickedCell env patches resultColumn)
      (List.filter (fun picked => decide (picked.dstRowIndex = row)) (rowsLeft patches fun _ => 0))) =
        pickedWrites (pickedCell env patches resultColumn) row (rowsLeft patches fun _ => 0) from rfl,
      pickedWrites_rowsLeft hpatches hname]
    exact (hagree row).map some
  exact Cell.map_injective (Option.some_injective V) hmarked

end Writes

/-! ## The versions of the columns -/

/-- The versions of a column; those of the source, as long as nothing updated it. -/
def VersionsBlock.versionsOf (block : VersionsBlock) (rows sourceDataVersion : ℕ) (columnName : String) : List ℕ :=
  (block.lookup (dataVersionName columnName)).getD (List.replicate rows sourceDataVersion)

section Versions

variable {block : VersionsBlock} {rows sourceDataVersion : ℕ} {name : String}

theorem dataVersionName_injective : Function.Injective dataVersionName := by
  intro a b h
  have hlist : ∀ name, (dataVersionName name).toList = ("_part_data_version" ++ "_").toList ++ name.toList :=
    fun name => String.toList_append
  have hdata := congrArg String.toList h
  rw [hlist, hlist, List.append_cancel_left_eq] at hdata
  exact String.toList_injective hdata

theorem snd_addDataVersionForColumn :
    (addDataVersionForColumn block name rows sourceDataVersion).2 = block.versionsOf rows sourceDataVersion name := by
  unfold addDataVersionForColumn VersionsBlock.versionsOf
  cases block.lookup (dataVersionName name) <;> rfl

theorem lookup_addDataVersionForColumn_self :
    ((addDataVersionForColumn block name rows sourceDataVersion).1.lookup (dataVersionName name)).isSome := by
  unfold addDataVersionForColumn
  cases h : block.lookup (dataVersionName name) with
  | some versions => simp [h]
  | none => simp [h, List.lookup_append]

theorem versionsOf_addDataVersionForColumn (other : String) :
    (addDataVersionForColumn block name rows sourceDataVersion).1.versionsOf rows sourceDataVersion other =
      block.versionsOf rows sourceDataVersion other := by
  unfold addDataVersionForColumn VersionsBlock.versionsOf
  cases h : block.lookup (dataVersionName name) with
  | some versions => rfl
  | none =>
    dsimp only
    by_cases hother : other = name
    · subst hother
      simp [h, List.lookup_append]
    · have hne : ¬ dataVersionName other = dataVersionName name := fun heq => hother (dataVersionName_injective heq)
      simp [List.lookup_append, List.lookup_cons, beq_eq_false_iff_ne.2 hne]

theorem versionsOf_setVersions {versions : List ℕ} (hsome : (block.lookup (dataVersionName name)).isSome) (other : String) :
    (block.setVersions name versions).versionsOf rows sourceDataVersion other =
      if other = name then versions else block.versionsOf rows sourceDataVersion other := by
  have hlookup : ∀ block : VersionsBlock, (block.setVersions name versions).lookup (dataVersionName other) =
      if other = name then (block.lookup (dataVersionName name)).map fun _ => versions
      else block.lookup (dataVersionName other) := by
    intro block
    induction block with
    | nil => split <;> rfl
    | cons entry block ih =>
      obtain ⟨key, old⟩ := entry
      unfold VersionsBlock.setVersions at ih ⊢
      rw [List.map_cons]
      by_cases hother : other = name
      · subst hother
        rw [if_pos rfl] at ih ⊢
        by_cases hkey : key = dataVersionName other
        · subst hkey
          rw [if_pos rfl, List.lookup_cons_self, List.lookup_cons_self]
          rfl
        · have hbeq : (dataVersionName other == key) = false := beq_eq_false_iff_ne.2 (Ne.symm hkey)
          simp only [hkey, if_false, List.lookup_cons, hbeq, ih]
      · rw [if_neg hother] at ih ⊢
        by_cases hkey : key = dataVersionName name
        · have hbeq : (dataVersionName other == key) = false :=
            beq_eq_false_iff_ne.2 fun heq => hother (dataVersionName_injective (heq.trans hkey))
          rw [if_pos hkey, List.lookup_cons, hbeq, List.lookup_cons, hbeq]
          exact ih
        · rw [if_neg hkey, List.lookup_cons, List.lookup_cons, ih]
  unfold VersionsBlock.versionsOf
  rw [hlookup]
  split
  · obtain ⟨old, hold⟩ := Option.isSome_iff_exists.1 hsome
    rw [hold]
    rfl
  · rfl

end Versions

section Columns

variable {S V : Type} {updatedHeader : List String} {rows sourceDataVersion : ℕ}
  {update : ResultColumn S V → VersionedColumn V → Except String (VersionedColumn V)}

/-- A column with its versions. -/
def versioned (versionsBlock : VersionsBlock) (rows sourceDataVersion : ℕ) (column : ResultColumn S V) : VersionedColumn V :=
  (column.values, versionsBlock.versionsOf rows sourceDataVersion column.name)

theorem versionsOf_step {versionsBlock : VersionsBlock} {name : String} (updated : List ℕ) (other : String) :
    ((addDataVersionForColumn versionsBlock name rows sourceDataVersion).1.setVersions name updated).versionsOf rows
      sourceDataVersion other = if other = name then updated else versionsBlock.versionsOf rows sourceDataVersion other := by
  rw [versionsOf_setVersions lookup_addDataVersionForColumn_self, versionsOf_addDataVersionForColumn]

/-- The loop updates every column of the header once, with its versions before the loop. -/
theorem exists_forColumns {f : ResultColumn S V → VersionedColumn V → VersionedColumn V} :
    ∀ {columns : List (ResultColumn S V)} (versionsBlock : VersionsBlock), (columns.map ResultColumn.name).Nodup →
      (∀ column ∈ columns, column.name ∈ updatedHeader →
        update column (versioned versionsBlock rows sourceDataVersion column) =
          .ok (f column (versioned versionsBlock rows sourceDataVersion column))) →
      ∃ versionsBlock', forColumns updatedHeader rows sourceDataVersion update columns versionsBlock =
          .ok (columns.map fun column => if column.name ∈ updatedHeader then
            { column with values := (f column (versioned versionsBlock rows sourceDataVersion column)).1 } else column,
            versionsBlock') ∧
        (∀ column ∈ columns, versionsBlock'.versionsOf rows sourceDataVersion column.name =
          if column.name ∈ updatedHeader then (f column (versioned versionsBlock rows sourceDataVersion column)).2
          else versionsBlock.versionsOf rows sourceDataVersion column.name) ∧
        ∀ name ∉ columns.map ResultColumn.name,
          versionsBlock'.versionsOf rows sourceDataVersion name = versionsBlock.versionsOf rows sourceDataVersion name := by
  intro columns
  induction columns with
  | nil => exact fun versionsBlock _ _ => ⟨versionsBlock, rfl, nofun, fun _ _ => rfl⟩
  | cons column columns ih =>
    intro versionsBlock hnodup hupdate
    rw [List.map_cons, List.nodup_cons] at hnodup
    obtain ⟨hname, hnodup⟩ := hnodup
    have hne : ∀ other ∈ columns, other.name ≠ column.name := fun other hmem heq =>
      hname (heq ▸ List.mem_map_of_mem hmem)
    unfold forColumns
    by_cases hin : column.name ∈ updatedHeader
    · rw [if_pos hin]
      have hfirst := hupdate column List.mem_cons_self hin
      set updated := f column (versioned versionsBlock rows sourceDataVersion column) with hupdated
      let next := (addDataVersionForColumn versionsBlock column.name rows sourceDataVersion).1.setVersions column.name updated.2
      have hnext : ∀ other, next.versionsOf rows sourceDataVersion other =
          if other = column.name then updated.2 else versionsBlock.versionsOf rows sourceDataVersion other :=
        versionsOf_step updated.2
      have hsame : ∀ other ∈ columns, versioned next rows sourceDataVersion other =
          versioned versionsBlock rows sourceDataVersion other := by
        intro other hmem
        unfold versioned
        rw [hnext, if_neg (hne other hmem)]
      obtain ⟨versionsBlock', hrun, hversions, hother⟩ := ih next hnodup fun other hmem hin => by
        rw [hsame other hmem]
        exact hupdate other (List.mem_cons_of_mem _ hmem) hin
      refine ⟨versionsBlock', ?_, ?_, ?_⟩
      · unfold versioned at hfirst
        simp only [snd_addDataVersionForColumn, hfirst, bind, Except.bind, pure, Except.pure]
        rw [show forColumns updatedHeader rows sourceDataVersion update columns
          ((addDataVersionForColumn versionsBlock column.name rows sourceDataVersion).1.setVersions column.name updated.2) = _ from hrun]
        simp only [List.map_cons, hin, if_true]
        congr 3
        refine List.map_congr_left fun other hmem => ?_
        rw [hsame other hmem]
      · intro other hmem
        rcases List.mem_cons.1 hmem with rfl | hmem
        · rw [if_pos hin, hother _ hname, hnext, if_pos rfl]
        · rw [hversions other hmem, hsame other hmem, hnext, if_neg (hne other hmem)]
      · intro name hnot
        rw [List.map_cons, List.mem_cons, not_or] at hnot
        rw [hother name hnot.2, hnext, if_neg hnot.1]
    · rw [if_neg hin]
      obtain ⟨versionsBlock', hrun, hversions, hother⟩ := ih versionsBlock hnodup fun other hmem hin =>
        hupdate other (List.mem_cons_of_mem _ hmem) hin
      refine ⟨versionsBlock', ?_, ?_, ?_⟩
      · simp only [hrun, bind, Except.bind, pure, Except.pure, List.map_cons, hin, if_false]
      · intro other hmem
        rcases List.mem_cons.1 hmem with rfl | hmem
        · rw [if_neg hin, hother _ hname]
        · exact hversions other hmem
      · intro name hnot
        rw [List.map_cons, List.mem_cons, not_or] at hnot
        exact hother name hnot.2

end Columns

/-! ## A group -/

section Group

variable {S V : Type} [DecidableEq S] {env : PatchEnvironment S V} {rows sourceDataVersion : ℕ}
  {patches : List (PatchToApply S V)} {updatedColumns : List String}

/-- The values of a column and their versions after these writes. -/
def writtenColumn (sourceDataVersion : ℕ) (writes : ℕ → List (Cell V ℕ)) (values : List V) : VersionedColumn V :=
  (values.mapIdx fun row value => (writeAll ⟨value, sourceDataVersion⟩ (writes row)).value,
    values.mapIdx fun row value => (writeAll ⟨value, sourceDataVersion⟩ (writes row)).version)

theorem writtenColumn_nil (values : List V) :
    writtenColumn sourceDataVersion (fun _ => []) values = (values, List.replicate values.length sourceDataVersion) := by
  unfold writtenColumn
  simp only [writeAll_nil]
  refine Prod.ext ?_ ?_
  · exact List.ext_getElem? fun row => by simp
  · refine List.ext_getElem (by simp) fun row h h' => by simp

theorem cellAt_writtenColumn (writes : ℕ → List (Cell V ℕ)) (values : List V) (row : ℕ) :
    (writtenColumn sourceDataVersion writes values).cellAt row =
      values[row]?.map fun value => writeAll ⟨value, sourceDataVersion⟩ (writes row) := by
  unfold writtenColumn VersionedColumn.cellAt
  simp only [List.getElem?_mapIdx]
  cases values[row]? <;> rfl

theorem VersionedColumn.ext_cellAt {column column' : VersionedColumn V} (hlength : column'.1.length = column.1.length)
    (hversions : column.2.length = column.1.length) (hversions' : column'.2.length = column.1.length)
    (hcells : ∀ row c, column.cellAt row = some c → column'.cellAt row = some c) : column = column' := by
  have hcell : ∀ row < column.1.length, column.1[row]? = column'.1[row]? ∧ column.2[row]? = column'.2[row]? := by
    intro row h
    have hvalue : column.1[row]? = some column.1[row] := List.getElem?_eq_getElem h
    have hversion : column.2[row]? = some column.2[row] := List.getElem?_eq_getElem (by omega)
    have hvalue' : column'.1[row]? = some column'.1[row] := List.getElem?_eq_getElem (by omega)
    have hversion' : column'.2[row]? = some column'.2[row] := List.getElem?_eq_getElem (by omega)
    have hcell := hcells row ⟨column.1[row], column.2[row]⟩ (by unfold cellAt; rw [hvalue, hversion])
    unfold cellAt at hcell
    rw [hvalue', hversion', Option.some.injEq, Cell.mk.injEq] at hcell
    rw [hvalue, hversion, hvalue', hversion', hcell.1, hcell.2]
    exact ⟨rfl, rfl⟩
  refine Prod.ext ?_ ?_ <;> refine List.ext_getElem? fun row => ?_
  · by_cases h : row < column.1.length
    · exact (hcell row h).1
    · rw [List.getElem?_eq_none (not_lt.1 h), List.getElem?_eq_none (hlength.symm ▸ not_lt.1 h)]
  · by_cases h : row < column.1.length
    · exact (hcell row h).2
    · rw [List.getElem?_eq_none (hversions.symm ▸ not_lt.1 h), List.getElem?_eq_none (hversions'.symm ▸ not_lt.1 h)]

theorem Written.unique {writes : ℕ → List (Cell V ℕ)} {column column₁ column₂ : VersionedColumn V}
    (h₁ : Written writes column column₁) (h₂ : Written writes column column₂)
    (hversions : column.2.length = column.1.length) : column₁ = column₂ := by
  refine VersionedColumn.ext_cellAt (h₂.values_length.trans h₁.values_length.symm)
    ((h₁.versions_length.trans hversions).trans h₁.values_length.symm)
    ((h₂.versions_length.trans hversions).trans h₁.values_length.symm) fun row c hc => ?_
  cases hold : column.cellAt row with
  | some old =>
    rw [h₁.cells row old hold] at hc
    rw [h₂.cells row old hold]
    exact hc
  | none =>
    -- no cell there, so none in the updated column either
    exfalso
    unfold VersionedColumn.cellAt at hold hc
    by_cases hrow : row < column.1.length
    · rw [List.getElem?_eq_getElem hrow, List.getElem?_eq_getElem (hversions.symm ▸ hrow)] at hold
      cases hold
    · rw [List.getElem?_eq_none (h₁.values_length.symm ▸ not_lt.1 hrow)] at hc
      cases hc

theorem Written.eq_writtenColumn {writes writes' : ℕ → List (Cell V ℕ)} {values : List V} {column' : VersionedColumn V}
    (h : Written writes' (writtenColumn sourceDataVersion writes values) column') :
    column' = writtenColumn sourceDataVersion (fun row => writes row ++ writes' row) values := by
  have hlength : (writtenColumn sourceDataVersion writes values).2.length =
      (writtenColumn sourceDataVersion writes values).1.length := by simp [writtenColumn]
  refine h.unique ⟨by simp [writtenColumn], by simp [writtenColumn], fun row c hc => ?_⟩ hlength
  rw [cellAt_writtenColumn] at hc ⊢
  obtain ⟨value, hvalue, rfl⟩ := Option.map_eq_some_iff.1 hc
  rw [hvalue, ← writeAll_append]
  rfl

/-- The names of the header of a patch. -/
def headerNames (updatedColumns : List String) (patch : PatchToApply S V) : List String :=
  match patch.patchBlocks with
  | [] => []
  | first :: _ =>
    (first.columns.filter fun column => column.name ∈ updatedColumns ∧ column.column.isSome).map PatchColumn.name

omit [DecidableEq S] in
theorem exists_getUpdatedHeader (hne : patches ≠ [])
    (hpatches : ∀ patch ∈ patches, patch.WellFormed env rows updatedColumns) (hempty : ∀ patch ∈ patches, patch.empty = false) :
    ∃ updatedHeader, getUpdatedHeader env patches updatedColumns = .ok updatedHeader ∧
      ∀ name, name ∈ updatedHeader ↔ name ∈ updatedColumns := by
  obtain ⟨patch, rest, rfl⟩ := List.exists_cons_of_ne_nil hne
  have hfilter : ((patch :: rest).filter fun patch => !patch.patchBlocks.isEmpty) = patch :: rest := by
    refine List.filter_eq_self.2 fun patch' hmem => ?_
    have hempty' := hempty patch' hmem
    unfold PatchToApply.empty at hempty'
    rw [hempty']
    rfl
  refine ⟨headerNames updatedColumns patch, ?_, fun name => ?_⟩
  · unfold getUpdatedHeader
    rw [hfilter, Loop.mapM_eq_ok (g := headerNames updatedColumns)]
    · rfl
    · intro patch' hmem
      unfold headerNames
      cases hblocks : patch'.patchBlocks with
      | nil => rfl
      | cons first blocks =>
        have hall : (blocks.all fun block => env.isCompatibleHeader block first) = true :=
          List.all_eq_true.2 fun block hblock => (hpatches patch' hmem).compatible first blocks hblocks block hblock
        dsimp only
        rw [if_pos hall]
  · have hempty' := hempty patch List.mem_cons_self
    unfold headerNames
    cases hblocks : patch.patchBlocks with
    | nil =>
      unfold PatchToApply.empty at hempty'
      rw [hblocks] at hempty'
      cases hempty'
    | cons first blocks =>
      simp only [List.mem_map, List.mem_filter, decide_eq_true_eq]
      constructor
      · rintro ⟨column, ⟨-, hin, -⟩, rfl⟩
        exact hin
      · intro hin
        obtain ⟨patchColumn, values, hfind, hcolumn, -⟩ := (hpatches patch List.mem_cons_self).column_exists first
          (hblocks ▸ List.mem_cons_self) name hin
        have hpatchName : patchColumn.name = name := by simpa using List.find?_some hfind
        refine ⟨patchColumn, ⟨List.mem_of_find?_eq_some hfind, hpatchName ▸ hin, by rw [hcolumn]; rfl⟩, hpatchName⟩

/-- The block and the versions after these writes. -/
structure Applied (rows sourceDataVersion : ℕ) (original : List (ResultColumn S V))
    (writes : ResultColumn S V → ℕ → List (Cell V ℕ)) (state : List (ResultColumn S V) × VersionsBlock) : Prop where
  block : state.1 = original.map fun column =>
    { column with values := (writtenColumn sourceDataVersion (writes column) column.values).1 }
  versions : ∀ column ∈ original, state.2.versionsOf rows sourceDataVersion column.name =
    (writtenColumn sourceDataVersion (writes column) column.values).2

omit [DecidableEq S] in
theorem Applied.start {original : List (ResultColumn S V)} (h : BlockOf rows original) :
    Applied rows sourceDataVersion original (fun _ _ => []) (original, []) := by
  refine ⟨?_, fun column hcolumn => ?_⟩
  · simp only [writtenColumn_nil, List.map_id']
  · rw [writtenColumn_nil, h.length_eq column hcolumn]
    rfl

/-- The rows of a group aimed at a row, for a column that the group updates. -/
def groupWrites (env : PatchEnvironment S V) (updatedColumns : List String) (patches : List (PatchToApply S V))
    (resultColumn : ResultColumn S V) (row : ℕ) : List (Cell V ℕ) :=
  if resultColumn.name ∈ updatedColumns then patches.flatMap fun patch => patch.writesAt env resultColumn row else []

/-- The loop over the columns, if every column of the header takes the rows of the group. -/
theorem Applied.forColumns {original : List (ResultColumn S V)} {writes : ResultColumn S V → ℕ → List (Cell V ℕ)}
    {state : List (ResultColumn S V) × VersionsBlock} (h : Applied rows sourceDataVersion original writes state)
    (horiginal : BlockOf rows original) {updatedHeader : List String}
    (hheader : ∀ name, name ∈ updatedHeader ↔ name ∈ updatedColumns)
    (update : ResultColumn S V → VersionedColumn V → Except String (VersionedColumn V))
    (f : ResultColumn S V → VersionedColumn V → VersionedColumn V)
    (hupdate : ∀ resultColumn column, resultColumn.name ∈ updatedColumns → column.1.length = rows →
      column.2.length = column.1.length → (∃ original' ∈ original, original'.name = resultColumn.name ∧
        original'.type = resultColumn.type) → update resultColumn column = .ok (f resultColumn column) ∧
        Written (fun row => patches.flatMap fun patch => patch.writesAt env resultColumn row) column (f resultColumn column)) :
    ∃ state', MergeTree.forColumns updatedHeader rows sourceDataVersion update state.1 state.2 = .ok state' ∧
      Applied rows sourceDataVersion original
        (fun column row => writes column row ++ groupWrites env updatedColumns patches column row) state' := by
  have hversioned : ∀ column ∈ original,
      versioned state.2 rows sourceDataVersion
        { column with values := (writtenColumn sourceDataVersion (writes column) column.values).1 } =
        writtenColumn sourceDataVersion (writes column) column.values := by
    intro column hcolumn
    exact Prod.ext rfl (h.versions column hcolumn)
  have hlength : ∀ column ∈ original, (writtenColumn sourceDataVersion (writes column) column.values).1.length = rows ∧
      (writtenColumn sourceDataVersion (writes column) column.values).2.length =
        (writtenColumn sourceDataVersion (writes column) column.values).1.length := by
    intro column hcolumn
    have hrows := horiginal.length_eq column hcolumn
    simp [writtenColumn, hrows]
  have hone : ∀ column ∈ original, column.name ∈ updatedColumns →
      update { column with values := (writtenColumn sourceDataVersion (writes column) column.values).1 }
          (writtenColumn sourceDataVersion (writes column) column.values) =
        .ok (f { column with values := (writtenColumn sourceDataVersion (writes column) column.values).1 }
          (writtenColumn sourceDataVersion (writes column) column.values)) ∧
      f { column with values := (writtenColumn sourceDataVersion (writes column) column.values).1 }
          (writtenColumn sourceDataVersion (writes column) column.values) =
        writtenColumn sourceDataVersion
          (fun row => writes column row ++ groupWrites env updatedColumns patches column row) column.values := by
    intro column hcolumn hin
    obtain ⟨hok, hwritten⟩ := hupdate
      { column with values := (writtenColumn sourceDataVersion (writes column) column.values).1 } _ hin
      (hlength column hcolumn).1 (hlength column hcolumn).2 ⟨column, hcolumn, rfl, rfl⟩
    refine ⟨hok, hwritten.eq_writtenColumn.trans ?_⟩
    unfold groupWrites
    simp only [hin, if_true]
    rfl
  have hnames : (state.1.map ResultColumn.name).Nodup := by
    rw [h.block, List.map_map]
    exact horiginal.names
  have hupdates : ∀ column ∈ state.1, column.name ∈ updatedHeader →
      update column (versioned state.2 rows sourceDataVersion column) =
        .ok (f column (versioned state.2 rows sourceDataVersion column)) := by
    rw [h.block]
    intro column hcolumn hin
    obtain ⟨original', horiginal', rfl⟩ := List.mem_map.1 hcolumn
    rw [hversioned original' horiginal']
    exact (hone original' horiginal' ((hheader _).1 hin)).1
  obtain ⟨versionsBlock', hrun, hversions, -⟩ := exists_forColumns state.2 hnames hupdates
  refine ⟨_, hrun, ?_, fun column hcolumn => ?_⟩
  · dsimp only
    rw [h.block, List.map_map]
    refine List.map_congr_left fun column hcolumn => ?_
    dsimp only [Function.comp_apply]
    rw [hversioned column hcolumn]
    by_cases hin : column.name ∈ updatedColumns
    · rw [if_pos ((hheader _).2 hin), (hone column hcolumn hin).2]
    · rw [if_neg fun hmem => hin ((hheader _).1 hmem)]
      unfold groupWrites
      simp only [hin, if_false, List.append_nil]
  · have hmem : { column with values := (writtenColumn sourceDataVersion (writes column) column.values).1 } ∈ state.1 := by
      rw [h.block]
      exact List.mem_map.2 ⟨column, hcolumn, rfl⟩
    have hcolumnVersions := hversions _ hmem
    rw [hversioned column hcolumn] at hcolumnVersions
    refine hcolumnVersions.trans ?_
    by_cases hin : column.name ∈ updatedColumns
    · rw [if_pos ((hheader _).2 hin), (hone column hcolumn hin).2]
    · rw [if_neg fun hmem => hin ((hheader _).1 hmem), h.versions column hcolumn]
      unfold groupWrites
      simp only [hin, if_false, List.append_nil]

/-- A group that can be applied to a block. -/
structure GroupOf (env : PatchEnvironment S V) (rows : ℕ) (updatedColumns : List String) (original : List (ResultColumn S V))
    (patches : List (PatchToApply S V)) : Prop where
  wellFormed : ∀ patch ∈ patches, patch.WellFormed env rows updatedColumns
  nonempty : ∀ patch ∈ patches, patch.empty = false
  agree : ∀ column ∈ original, column.name ∈ updatedColumns → ∀ row,
    Agree (patches.flatMap fun patch => patch.writesAt env column row)

theorem writesAt_congr {column column' : ResultColumn S V} (hname : column.name = column'.name) (htype : column.type = column'.type)
    (patch : PatchToApply S V) (row : ℕ) : patch.writesAt env column row = patch.writesAt env column' row := by
  cases column
  cases column'
  dsimp only at hname htype
  subst hname htype
  rfl

variable {original : List (ResultColumn S V)} {writes : ResultColumn S V → ℕ → List (Cell V ℕ)}
  {state : List (ResultColumn S V) × VersionsBlock} {updatedHeader : List String}

theorem GroupOf.raw (hgroup : GroupOf env rows updatedColumns original patches) (henv : env.Lawful)
    (hraw : canApplyPatchesRaw env patches = true) (hne : patches ≠ []) (horiginal : BlockOf rows original)
    (hheader : ∀ name, name ∈ updatedHeader ↔ name ∈ updatedColumns)
    (h : Applied rows sourceDataVersion original writes state) (hrows : blockRows state.1 = rows) :
    ∃ state', applyPatchesToBlockRaw env state.1 state.2 patches updatedHeader sourceDataVersion = .ok state' ∧
      Applied rows sourceDataVersion original
        (fun column row => writes column row ++ groupWrites env updatedColumns patches column row) state' := by
  have hsingle : ∀ patch ∈ patches, patch.getNumSources = 1 := by
    intro patch hmem
    exact (of_decide_eq_true (List.all_eq_true.1 hraw patch hmem)).1
  unfold applyPatchesToBlockRaw
  rw [if_neg (by rwa [List.isEmpty_iff]), hrows]
  refine h.forColumns horiginal hheader _ (fun resultColumn column => patches.foldl (applyPatchRaw env resultColumn) column)
    fun resultColumn column hin hlength hversions _ => ⟨rfl, ?_⟩
  exact foldl_applyPatchRaw_written henv hin hgroup.wellFormed hsingle hlength hversions

theorem GroupOf.combined (hgroup : GroupOf env rows updatedColumns original patches) (henv : env.Lawful)
    (hne : patches ≠ []) (horiginal : BlockOf rows original) (hheader : ∀ name, name ∈ updatedHeader ↔ name ∈ updatedColumns)
    (h : Applied rows sourceDataVersion original writes state) (hrows : blockRows state.1 = rows) :
    ∃ state', applyPatchesToBlockCombined env state.1 state.2 patches updatedHeader sourceDataVersion = .ok state' ∧
      Applied rows sourceDataVersion original
        (fun column row => writes column row ++ groupWrites env updatedColumns patches column row) state' := by
  let update : ResultColumn S V → VersionedColumn V → Except String (VersionedColumn V) := fun resultColumn column => do
    let patch ← createPatchForColumn env patches resultColumn
    return updateColumn env resultColumn.type patch column
  unfold applyPatchesToBlockCombined
  rw [if_neg (by rwa [List.isEmpty_iff]), hrows]
  refine h.forColumns horiginal hheader update
    (fun resultColumn column => ((update resultColumn column).toOption.getD column)) ?_
  rintro resultColumn column hin hlength hversions ⟨original', horiginal', hname, htype⟩
  have hagree : ∀ row, Agree (patches.flatMap fun patch => patch.writesAt env resultColumn row) := by
    intro row
    rw [← List.flatMap_congr fun patch _ => writesAt_congr hname htype patch row]
    exact hgroup.agree original' horiginal' (hname ▸ hin) row
  obtain ⟨patch, hpatch, hwritten⟩ := createPatchForColumn_written henv hgroup.wellFormed hin hagree hlength hversions
  have hok : update resultColumn column = .ok (updateColumn env resultColumn.type patch column) := by
    simp only [update, hpatch, bind, Except.bind, pure, Except.pure]
  rw [hok]
  exact ⟨rfl, hwritten⟩

end Group

/-! ## Both ways to apply a group -/

section Ways

variable {S V : Type} [DecidableEq S] {env : PatchEnvironment S V} {rows sourceDataVersion : ℕ}
  {patches : List (PatchToApply S V)} {updatedColumns updatedHeader : List String}

/-- Every column in the versions has so many rows. -/
def VersionsBlock.Sized (rows : ℕ) (block : VersionsBlock) : Prop := ∀ entry ∈ block, entry.2.length = rows

theorem VersionsBlock.Sized.add {block : VersionsBlock} (h : block.Sized rows) (name : String) (sourceDataVersion : ℕ) :
    VersionsBlock.Sized rows (addDataVersionForColumn block name rows sourceDataVersion).1 ∧
      (addDataVersionForColumn block name rows sourceDataVersion).2.length = rows := by
  unfold addDataVersionForColumn
  cases hlookup : block.lookup (dataVersionName name) with
  | some versions =>
    obtain ⟨before, after, rfl, -⟩ := List.lookup_eq_some_iff.1 hlookup
    exact ⟨h, h _ (List.mem_append_right _ List.mem_cons_self)⟩
  | none =>
    refine ⟨fun entry hentry => ?_, List.length_replicate⟩
    rcases List.mem_append.1 hentry with hentry | hentry
    · exact h entry hentry
    · rw [List.mem_singleton.1 hentry]
      exact List.length_replicate

theorem VersionsBlock.Sized.set {block : VersionsBlock} (h : block.Sized rows) {name : String} {versions : List ℕ}
    (hversions : versions.length = rows) : VersionsBlock.Sized rows (block.setVersions name versions) := by
  intro entry hentry
  obtain ⟨old, hold, rfl⟩ := List.mem_map.1 hentry
  split
  · exact hversions
  · exact h old hold

omit [DecidableEq S] in
theorem forColumns_congr {update update' : ResultColumn S V → VersionedColumn V → Except String (VersionedColumn V)} :
    ∀ {columns : List (ResultColumn S V)} {versionsBlock : VersionsBlock}, versionsBlock.Sized rows →
      (∀ column ∈ columns, column.name ∈ updatedHeader → ∀ versions : List ℕ, versions.length = rows →
        ∃ updated, update column (column.values, versions) = .ok updated ∧
          update' column (column.values, versions) = .ok updated ∧ updated.2.length = rows) →
      forColumns updatedHeader rows sourceDataVersion update columns versionsBlock =
        forColumns updatedHeader rows sourceDataVersion update' columns versionsBlock := by
  intro columns
  induction columns with
  | nil => exact fun _ _ => rfl
  | cons column columns ih =>
    intro versionsBlock hsized hupdate
    have hrest := fun other (hmem : other ∈ columns) => hupdate other (List.mem_cons_of_mem _ hmem)
    unfold forColumns
    split
    · rename_i hin
      obtain ⟨hadded, hlength⟩ := hsized.add column.name sourceDataVersion
      obtain ⟨updated, hone, hother, hversions⟩ := hupdate column List.mem_cons_self hin _ hlength
      simp only [hone, hother, bind, Except.bind]
      rw [ih (hadded.set hversions) hrest]
    · rw [ih hsized hrest]

/-- **Raw and combined application agree.** -/
theorem applyPatchesToBlockRaw_eq_combined (henv : env.Lawful) {block : List (ResultColumn S V)} (hblock : BlockOf rows block)
    (hgroup : GroupOf env rows updatedColumns block patches) (hraw : canApplyPatchesRaw env patches = true)
    (hheader : getUpdatedHeader env patches updatedColumns = .ok updatedHeader) {versionsBlock : VersionsBlock}
    (hsized : versionsBlock.Sized rows) :
    applyPatchesToBlockRaw env block versionsBlock patches updatedHeader sourceDataVersion =
      applyPatchesToBlockCombined env block versionsBlock patches updatedHeader sourceDataVersion := by
  unfold applyPatchesToBlockRaw applyPatchesToBlockCombined
  by_cases hne : patches = []
  · subst hne
    rfl
  · rw [if_neg (by rwa [List.isEmpty_iff]), if_neg (by rwa [List.isEmpty_iff])]
    rcases eq_or_ne block [] with rfl | hcons
    · rfl
    have hrows : blockRows block = rows := by
      obtain ⟨column, columns, rfl⟩ := List.exists_cons_of_ne_nil hcons
      exact hblock.length_eq column List.mem_cons_self
    obtain ⟨header, hok, hnames⟩ := exists_getUpdatedHeader hne hgroup.wellFormed hgroup.nonempty
    obtain rfl : header = updatedHeader := Except.ok.inj (hok.symm.trans hheader)
    have hsingle : ∀ patch ∈ patches, patch.getNumSources = 1 :=
      fun patch hmem => (of_decide_eq_true (List.all_eq_true.1 hraw patch hmem)).1
    rw [hrows]
    refine forColumns_congr hsized fun column hcolumn hin versions hversions => ?_
    have hlength := hblock.length_eq column hcolumn
    have hname := (hnames _).1 hin
    let versionedColumn : VersionedColumn V := (column.values, versions)
    have hvalues : versionedColumn.1.length = rows := hlength
    have hversioned : versionedColumn.2.length = versionedColumn.1.length := hversions.trans hlength.symm
    obtain ⟨patch, hpatch, hwritten⟩ := createPatchForColumn_written henv hgroup.wellFormed hname
      (hgroup.agree column hcolumn hname) hvalues hversioned
    have hfold := foldl_applyPatchRaw_written henv hname hgroup.wellFormed hsingle hvalues hversioned
    refine ⟨_, rfl, ?_, hfold.versions_length.trans hversions⟩
    rw [hpatch, hfold.unique hwritten hversioned]
    rfl

/-- **One group**: whichever way is taken, its rows are written. -/
theorem Applied.applyPatchesToBlock {original : List (ResultColumn S V)} {writes : ResultColumn S V → ℕ → List (Cell V ℕ)}
    {state : List (ResultColumn S V) × VersionsBlock} (h : Applied rows sourceDataVersion original writes state)
    (henv : env.Lawful) (horiginal : BlockOf rows original) (hcons : original ≠ [])
    (hgroup : GroupOf env rows updatedColumns original patches) :
    ∃ state', MergeTree.applyPatchesToBlock env state.1 state.2 patches updatedColumns sourceDataVersion = .ok state' ∧
      Applied rows sourceDataVersion original
        (fun column row => writes column row ++ groupWrites env updatedColumns patches column row) state' := by
  unfold MergeTree.applyPatchesToBlock
  rcases eq_or_ne patches [] with rfl | hne
  · refine ⟨state, rfl, ?_⟩
    have hnil : ∀ column row, groupWrites env updatedColumns [] column row = [] := fun column row => ite_self _
    simpa only [hnil, List.append_nil] using h
  · rw [if_neg (by rwa [List.isEmpty_iff])]
    obtain ⟨header, hok, hnames⟩ := exists_getUpdatedHeader hne hgroup.wellFormed hgroup.nonempty
    have hrows : blockRows state.1 = rows := by
      obtain ⟨column, columns, rfl⟩ := List.exists_cons_of_ne_nil hcons
      rw [h.block]
      change (writtenColumn _ _ _).1.length = rows
      unfold writtenColumn
      rw [List.length_mapIdx]
      exact horiginal.length_eq column List.mem_cons_self
    simp only [hok, bind, Except.bind]
    split
    · rename_i hraw
      exact hgroup.raw henv hraw hne horiginal hnames h hrows
    · exact hgroup.combined henv hne horiginal hnames h hrows

end Ways

/-! ## The groups of all readers -/

section Groups

variable {S V : Type} [DecidableEq S] {env : PatchEnvironment S V} {minVersion maxVersion : Option ℕ}
  {sourceDataVersion rows : ℕ}

/-- The patches of the groups, with the columns they update. -/
def groupEntries (groups : PatchGroups S V) : List (List String × PatchToApply S V) :=
  groups.flatMap fun group => group.2.map fun patch => (group.1, patch)

omit [DecidableEq S] in
theorem groupEntries_push (groups : PatchGroups S V) (updatedColumns : List String) (patch : PatchToApply S V) :
    (groupEntries (groups.push updatedColumns patch)).Perm (groupEntries groups ++ [(updatedColumns, patch)]) := by
  induction groups with
  | nil => exact List.Perm.refl _
  | cons group groups ih =>
    unfold PatchGroups.push
    split
    · rename_i heq
      unfold groupEntries
      simp only [List.flatMap_cons, List.map_append, List.map_cons, List.map_nil, List.append_assoc, heq]
      exact List.perm_append_comm.append_left _
    · unfold groupEntries at ih ⊢
      simp only [List.flatMap_cons, List.append_assoc]
      exact ih.append_left _

/-- The accepted patches of a reader, with sorted names. -/
def sortedEntries (minVersion maxVersion : Option ℕ) (reader : ReaderPatches S V) : List (List String × PatchToApply S V) :=
  (reader.accepted minVersion maxVersion).map fun entry => (sortNames entry.1, entry.2)

omit [DecidableEq S] in
theorem groupEntries_foldl_push (updatedColumns : List String) (patches : List (PatchToApply S V)) (groups : PatchGroups S V) :
    (groupEntries (patches.foldl (fun groups patch => groups.push updatedColumns patch) groups)).Perm
      (groupEntries groups ++ patches.map fun patch => (updatedColumns, patch)) := by
  induction patches generalizing groups with
  | nil => simp
  | cons patch patches ih =>
    rw [List.foldl_cons, List.map_cons]
    refine (ih _).trans (((groupEntries_push groups updatedColumns patch).append_right _).trans ?_)
    rw [List.append_assoc]
    exact List.Perm.refl _

omit [DecidableEq S] in
theorem exists_groupReader {reader : ReaderPatches S V} (h : reader.WellFormed env minVersion maxVersion sourceDataVersion rows)
    (groups : PatchGroups S V) : ∃ groups', groupReader minVersion maxVersion sourceDataVersion groups reader = .ok groups' ∧
      (groupEntries groups').Perm (groupEntries groups ++ sortedEntries minVersion maxVersion reader) := by
  obtain ⟨inVersions, hversions⟩ := h.versions
  have hsource : ¬ reader.sourceDataVersion ≠ sourceDataVersion := not_not.2 h.source_eq
  unfold groupReader sortedEntries ReaderPatches.accepted
  simp only [hversions, hsource, if_false, bind, Except.bind, pure, Except.pure]
  cases inVersions with
  | false => exact ⟨groups, rfl, by simp⟩
  | true =>
    cases hcolumns : reader.columns.isEmpty with
    | true => exact ⟨groups, rfl, by simp⟩
    | false =>
      refine ⟨_, rfl, ?_⟩
      simp only [Bool.false_eq_true, if_false, List.map_map]
      exact groupEntries_foldl_push _ _ _

omit [DecidableEq S] in
theorem exists_groupPatches {readers : List (ReaderPatches S V)}
    (hreaders : ∀ reader ∈ readers, reader.WellFormed env minVersion maxVersion sourceDataVersion rows) :
    ∃ groups, groupPatches minVersion maxVersion sourceDataVersion readers = .ok groups ∧
      (groupEntries groups).Perm (readers.flatMap (sortedEntries minVersion maxVersion)) := by
  obtain ⟨groups, hrun, -, hperm⟩ := Loop.exists_foldlM (f := groupReader minVersion maxVersion sourceDataVersion)
    (l := readers) (s := ([] : PatchGroups S V))
    (I := fun rest groups => (∀ reader ∈ rest, reader.WellFormed env minVersion maxVersion sourceDataVersion rows) ∧
      (groupEntries groups ++ rest.flatMap (sortedEntries minVersion maxVersion)).Perm
        (readers.flatMap (sortedEntries minVersion maxVersion)))
    (fun reader rest groups hI => by
      obtain ⟨groups', hstep, hgroups'⟩ := exists_groupReader (hI.1 reader List.mem_cons_self) groups
      refine ⟨groups', hstep, fun other hmem => hI.1 other (List.mem_cons_of_mem _ hmem), ?_⟩
      refine (hgroups'.append_right _).trans ?_
      rw [List.append_assoc, ← List.flatMap_cons]
      exact hI.2)
    ⟨hreaders, List.Perm.refl _⟩
  refine ⟨groups, hrun, ?_⟩
  rwa [List.flatMap_nil, List.append_nil] at hperm

theorem cellWrites_append (a b : List (List String × PatchToApply S V)) (column : ResultColumn S V) (row : ℕ) :
    cellWrites env (a ++ b) column row = cellWrites env a column row ++ cellWrites env b column row := List.flatMap_append

theorem cellWrites_perm {a b : List (List String × PatchToApply S V)} (h : a.Perm b) (column : ResultColumn S V) (row : ℕ) :
    (cellWrites env a column row).Perm (cellWrites env b column row) := h.flatMap_right _

theorem cellWrites_sortNames (a : List (List String × PatchToApply S V)) (column : ResultColumn S V) (row : ℕ) :
    cellWrites env (a.map fun entry => (sortNames entry.1, entry.2)) column row = cellWrites env a column row := by
  unfold cellWrites sortNames
  rw [List.flatMap_map]
  refine List.flatMap_congr fun entry _ => ?_
  simp only [List.mem_mergeSort]

theorem cellWrites_group (updatedColumns : List String) (patches : List (PatchToApply S V)) (column : ResultColumn S V) (row : ℕ) :
    cellWrites env (patches.map fun patch => (updatedColumns, patch)) column row =
      groupWrites env updatedColumns patches column row := by
  unfold cellWrites groupWrites
  rw [List.flatMap_map]
  by_cases hin : column.name ∈ updatedColumns
  · simp only [hin, if_true]
  · simp only [hin, if_false]
    exact List.flatMap_eq_nil_iff.2 fun _ _ => rfl

omit [DecidableEq S] in
theorem PatchToApply.WellFormed.of_mem {patch : PatchToApply S V} {names names' : List String}
    (h : patch.WellFormed env rows names) (hnames : ∀ name ∈ names', name ∈ names) : patch.WellFormed env rows names' :=
  { h with column_exists := fun patchBlock hblock name hname => h.column_exists patchBlock hblock name (hnames name hname) }

/-- **All groups**, in the order in which the map has them. -/
theorem exists_applyGroups (henv : env.Lawful) {block : List (ResultColumn S V)} (hblock : BlockOf rows block)
    (hcons : block ≠ []) (version : ℕ) {groups : PatchGroups S V}
    (hwell : ∀ entry ∈ groupEntries groups, entry.2.WellFormed env rows entry.1 ∧ entry.2.empty = false)
    (hagree : ∀ column ∈ block, ∀ row, Agree (cellWrites env (groupEntries groups) column row)) :
    ∃ state, applyGroups env version block [] groups = .ok state ∧
      Applied rows version block (cellWrites env (groupEntries groups)) state := by
  have hgroup : ∀ group ∈ groups, GroupOf env rows group.1 block group.2 := by
    intro group hmem
    have hentry : ∀ patch ∈ group.2, (group.1, patch) ∈ groupEntries groups := fun patch hpatch =>
      List.mem_flatMap.2 ⟨group, hmem, List.mem_map.2 ⟨patch, hpatch, rfl⟩⟩
    refine ⟨fun patch hpatch => (hwell _ (hentry patch hpatch)).1, fun patch hpatch => (hwell _ (hentry patch hpatch)).2,
      fun column hcolumn hin row => ?_⟩
    have hsubset : ∀ w ∈ group.2.flatMap fun patch => patch.writesAt env column row,
        w ∈ cellWrites env (groupEntries groups) column row := by
      intro w hw
      obtain ⟨patch, hpatch, hw⟩ := List.mem_flatMap.1 hw
      refine List.mem_flatMap.2 ⟨_, hentry patch hpatch, ?_⟩
      rwa [if_pos hin]
    exact fun w hw w' hw' => hagree column hcolumn row w (hsubset w hw) w' (hsubset w' hw')
  obtain ⟨state, hrun, done, hdone, happlied⟩ := Loop.exists_foldlM (l := groups) (s := (block, ([] : VersionsBlock)))
    (f := fun state group => MergeTree.applyPatchesToBlock env state.1 state.2 group.2 group.1 version)
    (I := fun rest state => ∃ done, done ++ rest = groups ∧
      Applied rows version block (cellWrites env (groupEntries done)) state)
    (fun group rest state hI => by
      obtain ⟨done, hdone, happlied⟩ := hI
      obtain ⟨state', hstep, happlied'⟩ := happlied.applyPatchesToBlock henv hblock hcons
        (hgroup group (hdone ▸ List.mem_append_right _ List.mem_cons_self))
      refine ⟨state', hstep, done ++ [group], by rw [List.append_assoc]; exact hdone, ?_⟩
      have hwrites : cellWrites env (groupEntries (done ++ [group])) =
          fun column row => cellWrites env (groupEntries done) column row ++ groupWrites env group.1 group.2 column row := by
        funext column row
        rw [← cellWrites_group, ← cellWrites_append]
        congr 1
        unfold groupEntries
        rw [List.flatMap_append, List.flatMap_singleton]
      rw [hwrites]
      exact happlied')
    ⟨[], rfl, Applied.start hblock⟩
  rw [List.append_nil] at hdone
  exact ⟨state, hrun, hdone ▸ happlied⟩

theorem exists_applyPatches (henv : env.Lawful) {block : List (ResultColumn S V)} (hblock : BlockOf rows block)
    {order : PatchGroups S V → PatchGroups S V} (horder : ∀ groups, (order groups).Perm groups)
    {accepted : List (List String × PatchToApply S V)}
    (hagree : ∀ column ∈ block, ∀ row, Agree (cellWrites env accepted column row)) {readers : List (ReaderPatches S V)}
    (hreaders : ∀ reader ∈ readers, reader.WellFormed env minVersion maxVersion sourceDataVersion rows)
    (hperm : (readers.flatMap (ReaderPatches.accepted minVersion maxVersion)).Perm accepted) :
    ∃ versionsBlock, applyPatches env order minVersion maxVersion block [] readers =
      .ok (lastWritten env accepted (effectiveSourceVersion minVersion sourceDataVersion) block, versionsBlock) := by
  cases readers with
  | nil =>
    refine ⟨[], ?_⟩
    rw [List.flatMap_nil] at hperm
    obtain rfl := hperm.nil_eq
    have hnone : lastWritten env [] (effectiveSourceVersion minVersion sourceDataVersion) block = block := by
      unfold lastWritten cellWrites
      have hid : ∀ column : ResultColumn S V, ({ column with values := column.values.mapIdx fun row value =>
          (writeAll (⟨value, effectiveSourceVersion minVersion sourceDataVersion⟩ : Cell V ℕ)
            (List.flatMap (fun entry : List String × PatchToApply S V =>
              if column.name ∈ entry.1 then entry.2.writesAt env column row else []) [])).value } : ResultColumn S V) = column := by
        intro column
        have hvalues : (column.values.mapIdx fun _ value => value) = column.values :=
          List.ext_getElem? fun row => by simp
        simp only [List.flatMap_nil, writeAll_nil, hvalues]
      simp only [hid, List.map_id']
    rw [hnone]
    rfl
  | cons first rest =>
    rcases eq_or_ne block [] with rfl | hcons
    · exact ⟨[], rfl⟩
    have hfirst : first.sourceDataVersion = sourceDataVersion := (hreaders first List.mem_cons_self).source_eq
    obtain ⟨groups, hgroups, hentries⟩ := exists_groupPatches hreaders
    have hsorted : ∀ readers : List (ReaderPatches S V), readers.flatMap (sortedEntries minVersion maxVersion) =
        (readers.flatMap (ReaderPatches.accepted minVersion maxVersion)).map fun entry => (sortNames entry.1, entry.2) := by
      intro readers
      rw [List.map_flatMap]
      rfl
    have hall : (groupEntries (order groups)).Perm (accepted.map fun entry => (sortNames entry.1, entry.2)) := by
      refine ((horder groups).flatMap_right _).trans (hentries.trans ?_)
      rw [hsorted]
      exact hperm.map _
    have hwrites : ∀ column row, (cellWrites env (groupEntries (order groups)) column row).Perm
        (cellWrites env accepted column row) := by
      intro column row
      rw [← cellWrites_sortNames accepted]
      exact cellWrites_perm hall column row
    have hagree' : ∀ column ∈ block, ∀ row, Agree (cellWrites env (groupEntries (order groups)) column row) :=
      fun column hcolumn row w hw w' hw' => hagree column hcolumn row w ((hwrites column row).subset hw) w'
        ((hwrites column row).subset hw')
    have hwell : ∀ entry ∈ groupEntries (order groups), entry.2.WellFormed env rows entry.1 ∧ entry.2.empty = false := by
      intro entry hentry
      obtain ⟨entry', hentry', rfl⟩ := List.mem_map.1 (hall.subset hentry)
      obtain ⟨reader, hreader, hmem⟩ := List.mem_flatMap.1 (hperm.symm.subset hentry')
      have hwell := (hreaders reader hreader).patches
      unfold ReaderPatches.accepted at hmem
      split at hmem
      · split at hmem
        · cases hmem
        · obtain ⟨patch, hpatch, rfl⟩ := List.mem_map.1 hmem
          obtain ⟨hpatch, hempty⟩ := List.mem_filter.1 hpatch
          refine ⟨(hwell patch hpatch).of_mem fun name hname => ?_, by simpa using hempty⟩
          exact List.mem_mergeSort.1 hname
      · cases hmem
    obtain ⟨⟨block', versionsBlock⟩, hrun, happlied⟩ := exists_applyGroups henv hblock hcons
      (effectiveSourceVersion minVersion sourceDataVersion) hwell hagree'
    refine ⟨versionsBlock, ?_⟩
    unfold applyPatches
    dsimp only
    rw [hfirst, if_neg (by rwa [List.isEmpty_iff]), hgroups]
    refine (show _ = applyGroups env (effectiveSourceVersion minVersion sourceDataVersion) block [] (order groups) from rfl).trans
      (hrun.trans ?_)
    have hblock' : block' = lastWritten env accepted (effectiveSourceVersion minVersion sourceDataVersion) block := by
      refine happlied.block.trans (List.map_congr_left fun column hcolumn => ?_)
      congr 1
      refine List.mapIdx_eq_mapIdx_iff.2 fun row hrow => ?_
      rw [writeAll_perm (hagree' column hcolumn row) (hwrites column row)]
    rw [hblock']

end Groups

/-! ## An environment -/

section Plain

variable {S V : Type}

/-- Every row takes the writes aimed at it. -/
def plainUpdate (patch : UpdatePatch V) (column : VersionedColumn V) : VersionedColumn V :=
  let cells := (column.1.zip column.2).mapIdx fun row c => writeAll (⟨c.1, c.2⟩ : Cell V ℕ) (patch.writesAt row)
  (cells.map Cell.value, cells.map Cell.version)

theorem plainUpdate_writes {patch : UpdatePatch V} {column : VersionedColumn V} (h : patch.Valid column) :
    patch.Writes column (plainUpdate patch column) := by
  have hlength := h.versions_length
  refine ⟨by simp [plainUpdate, hlength], by simp [plainUpdate, hlength], fun row => ?_⟩
  unfold plainUpdate VersionedColumn.cellAt
  simp only [List.getElem?_map, List.getElem?_mapIdx, List.zip, List.getElem?_zipWith]
  cases column.1[row]? with
  | none => rfl
  | some value => cases column.2[row]? <;> rfl

/-- The first element with the least key. -/
def popLeast (key : ℕ → ℕ) : List ℕ → Option (ℕ × List ℕ)
  | [] => none
  | x :: xs =>
    match popLeast key xs with
    | none => some (x, [])
    | some (y, rest) => if key x ≤ key y then some (x, y :: rest) else some (y, x :: rest)

theorem popLeast_spec (key : ℕ → ℕ) : ∀ heap : List ℕ, heap ≠ [] →
    ∃ x rest, popLeast key heap = some (x, rest) ∧ (x :: rest).Perm heap ∧ ∀ y ∈ heap, key x ≤ key y := by
  intro heap
  induction heap with
  | nil => exact fun h => absurd rfl h
  | cons x xs ih =>
    intro _
    rcases eq_or_ne xs [] with rfl | hne
    · exact ⟨x, [], rfl, List.Perm.refl _, by simp⟩
    · obtain ⟨y, rest, hpop, hperm, hleast⟩ := ih hne
      by_cases hle : key x ≤ key y
      · refine ⟨x, y :: rest, by simp [popLeast, hpop, hle], hperm.cons x, fun z hz => ?_⟩
        rcases List.mem_cons.1 hz with rfl | hz
        · exact le_rfl
        · exact hle.trans (hleast z hz)
      · refine ⟨y, x :: rest, by simp [popLeast, hpop, hle], (List.Perm.swap x y rest).trans (hperm.cons x), fun z hz => ?_⟩
        rcases List.mem_cons.1 hz with rfl | hz
        · exact (not_le.1 hle).le
        · exact hleast z hz

/-- Columns of one structure, updated row by row. -/
def plainEnvironment (S V : Type) : PatchEnvironment S V where
  updateFrom := plainUpdate
  updateInplaceFrom := plainUpdate
  canApplyPatchInplace _ := true
  castColumn _ _ value := value
  isCompatibleHeader _ _ := true
  popHeap := popLeast

theorem plainEnvironment_lawful : (plainEnvironment S V).Lawful :=
  ⟨fun _ _ h => plainUpdate_writes h, fun _ _ h => plainUpdate_writes h, popLeast_spec⟩

end Plain

/-- **Last writer wins.** For all readers with these accepted patches, in any order, and any order of the
groups, a cell has the value with the greatest version aimed at it, if that is greater than the version of
the source, and is unchanged otherwise; and a group that can be applied raw gives the same combined. -/
theorem applyPatches_lastWriter {S V : Type} [DecidableEq S] {env : PatchEnvironment S V} (henv : env.Lawful) {rows : ℕ}
    {block : List (ResultColumn S V)} (hblock : BlockOf rows block) {minVersion maxVersion : Option ℕ} {sourceDataVersion : ℕ}
    {accepted : List (List String × PatchToApply S V)}
    (hagree : ∀ column ∈ block, ∀ row, Agree (cellWrites env accepted column row)) :
    (∀ order : PatchGroups S V → PatchGroups S V, (∀ groups, (order groups).Perm groups) →
      ∀ readers : List (ReaderPatches S V),
        (∀ reader ∈ readers, reader.WellFormed env minVersion maxVersion sourceDataVersion rows) →
        (readers.flatMap (ReaderPatches.accepted minVersion maxVersion)).Perm accepted →
        ∃ versionsBlock, applyPatches env order minVersion maxVersion block [] readers =
          .ok (lastWritten env accepted (effectiveSourceVersion minVersion sourceDataVersion) block, versionsBlock)) ∧
    (∀ (i : ℕ) (column : ResultColumn S V), block[i]? = some column → ∀ (row : ℕ) (value : V), column.values[row]? = some value →
      ∃ column' value',
        (lastWritten env accepted (effectiveSourceVersion minVersion sourceDataVersion) block)[i]? = some column' ∧
        column'.name = column.name ∧ column'.values[row]? = some value' ∧
        ((value' = value ∧ ∀ w ∈ cellWrites env accepted column row,
            w.version ≤ effectiveSourceVersion minVersion sourceDataVersion) ∨
          ∃ w ∈ cellWrites env accepted column row, value' = w.value ∧
            effectiveSourceVersion minVersion sourceDataVersion < w.version ∧
            ∀ w' ∈ cellWrites env accepted column row, w'.version ≤ w.version)) ∧
    ∀ (patches : List (PatchToApply S V)) (updatedColumns updatedHeader : List String) (versionsBlock : VersionsBlock),
      GroupOf env rows updatedColumns block patches → canApplyPatchesRaw env patches = true →
      getUpdatedHeader env patches updatedColumns = .ok updatedHeader → versionsBlock.Sized rows →
      applyPatchesToBlockRaw env block versionsBlock patches updatedHeader sourceDataVersion =
        applyPatchesToBlockCombined env block versionsBlock patches updatedHeader sourceDataVersion := by
  refine ⟨fun order horder readers hreaders hperm => exists_applyPatches henv hblock horder hagree hreaders hperm,
    fun i column hcolumn row value hvalue => ?_, fun patches updatedColumns updatedHeader versionsBlock hgroup hraw hheader hsized =>
      applyPatchesToBlockRaw_eq_combined henv hblock hgroup hraw hheader hsized⟩
  refine ⟨{ column with values := column.values.mapIdx fun row value =>
      (writeAll ⟨value, effectiveSourceVersion minVersion sourceDataVersion⟩ (cellWrites env accepted column row)).value },
    (writeAll ⟨value, effectiveSourceVersion minVersion sourceDataVersion⟩ (cellWrites env accepted column row)).value,
    ?_, rfl, ?_, ?_⟩
  · unfold lastWritten
    rw [List.getElem?_map, hcolumn]
    rfl
  · dsimp only
    rw [List.getElem?_mapIdx, hvalue]
    rfl
  · rcases writeAll_spec ⟨value, effectiveSourceVersion minVersion sourceDataVersion⟩ (cellWrites env accepted column row) with ⟨heq, hle⟩ | ⟨hmem, hlt, hle⟩
    · exact Or.inl ⟨by rw [heq], hle⟩
    · exact Or.inr ⟨_, hmem, rfl, hlt, hle⟩

/-- A patch of the rows 1 and 2 of a column. -/
def firstReader : ReaderPatches Unit ℕ :=
  ⟨"first", 3, 3, 2, ["a"], [⟨[⟨[⟨"a", (), some [21, 31]⟩], [3, 3]⟩], [1, 2], [], [0, 1]⟩]⟩

/-- A later patch of row 1. -/
def secondReader : ReaderPatches Unit ℕ :=
  ⟨"second", 4, 4, 2, ["a"], [⟨[⟨[⟨"a", (), some [22]⟩], [4]⟩], [1], [], [0]⟩]⟩

theorem firstReader_wellFormed : firstReader.WellFormed (plainEnvironment Unit ℕ) none none 2 3 := by
  refine ⟨rfl, ⟨true, rfl⟩, fun patch hpatch => ?_⟩
  obtain rfl := List.mem_singleton.1 hpatch
  refine ⟨by decide, by decide, rfl, fun rowIdx hrow => ⟨_, rfl, ?_⟩, fun patchBlock hblock name hname => ?_,
    fun first rest hblocks patchBlock hmem => rfl⟩
  · change rowIdx < 2 at hrow
    interval_cases rowIdx <;> decide
  · obtain rfl := List.mem_singleton.1 hblock
    obtain rfl := List.mem_singleton.1 hname
    exact ⟨_, _, rfl, rfl, rfl⟩

theorem secondReader_wellFormed : secondReader.WellFormed (plainEnvironment Unit ℕ) none none 2 3 := by
  refine ⟨rfl, ⟨true, rfl⟩, fun patch hpatch => ?_⟩
  obtain rfl := List.mem_singleton.1 hpatch
  refine ⟨by decide, by decide, rfl, fun rowIdx hrow => ⟨_, rfl, ?_⟩, fun patchBlock hblock name hname => ?_,
    fun first rest hblocks patchBlock hmem => rfl⟩
  · change rowIdx < 1 at hrow
    interval_cases rowIdx
    decide
  · obtain rfl := List.mem_singleton.1 hblock
    obtain rfl := List.mem_singleton.1 hname
    exact ⟨_, _, rfl, rfl, rfl⟩

theorem applyPatches_lastWriter_twoReaders : ∃ versionsBlock,
    applyPatches (plainEnvironment Unit ℕ) id none none [⟨"a", (), [10, 20, 30]⟩] [] [firstReader, secondReader] =
      .ok ([⟨"a", (), [10, 22, 31]⟩], versionsBlock) := by
  let accepted := [firstReader, secondReader].flatMap (ReaderPatches.accepted none none)
  have hagree : ∀ column ∈ [(⟨"a", (), [10, 20, 30]⟩ : ResultColumn Unit ℕ)], ∀ row,
      Agree (cellWrites (plainEnvironment Unit ℕ) accepted column row) := by
    intro column hcolumn row
    obtain rfl := List.mem_singleton.1 hcolumn
    rcases row with _ | _ | _ | row
    · exact show Agree [] from nofun
    · exact show Agree [(⟨21, 3⟩ : Cell ℕ ℕ), ⟨22, 4⟩] by unfold Agree; decide
    · exact show Agree [(⟨31, 3⟩ : Cell ℕ ℕ)] by unfold Agree; decide
    · exact show Agree [] from nofun
  have hreaders : ∀ reader ∈ [firstReader, secondReader],
      reader.WellFormed (plainEnvironment Unit ℕ) none none 2 3 := by
    intro reader hreader
    rcases List.mem_pair.1 hreader with rfl | rfl
    · exact firstReader_wellFormed
    · exact secondReader_wellFormed
  exact (applyPatches_lastWriter plainEnvironment_lawful ⟨by decide, by decide⟩ hagree).1 id (fun _ => List.Perm.refl _)
    [firstReader, secondReader] hreaders (List.Perm.refl _)

end MergeTree
