import MergeTree.Spec.WhereOptimizer
import Mathlib.Data.List.Sort
import Mathlib.Data.List.TakeWhile

/-!
# Conditions that move from WHERE to PREWHERE

The loop of `optimizeImpl` divides the conditions (`moveConditions_divided`): a step moves the best
one and all over the same columns, so what remains and what is moved are a permutation of all of
them, in their original order unless they may be reordered. Only viable conditions are moved, and
without a node `ARRAY_JOIN` a viable condition is movable (`movable_of_viable`).

Nothing keeps a condition with such a node from being moved when the node is below a constant
(`not_movable_constantArrayJoin`).
-/

namespace MergeTree

namespace ConditionNode

@[elab_as_elim]
theorem induct {P : ConditionNode → Prop} (leaf : ∀ info, P (.leaf info)) (arrayJoin : ∀ argument, P argument → P (.arrayJoin argument))
    (function : ∀ functionName arguments info functionBase, (∀ argument ∈ arguments, P argument) →
      P (.function functionName arguments info functionBase)) (node : ConditionNode) : P node :=
  @ConditionNode.rec P (fun arguments => ∀ argument ∈ arguments, P argument) leaf arrayJoin
    (fun functionName arguments info functionBase ih => function functionName arguments info functionBase ih)
    (fun _ h => absurd h List.not_mem_nil)
    (fun _ _ hhead htail argument h => (List.mem_cons.1 h).elim (fun heq => heq ▸ hhead) (htail argument)) node

end ConditionNode

namespace WhereOptimizer

variable {o : WhereOptimizer} {ctx : WhereOptimizerContext} {node : ConditionNode}

/-! ## Conditions -/

/-- The columns of the table among some names are found, and whether there is another name. -/
structure Collects (o : WhereOptimizer) (names : List String) (found found' : CollectedColumns) : Prop where
  mem_resultSet : ∀ name, name ∈ found'.resultSet ↔ name ∈ found.resultSet ∨ name ∈ names ∧ name ∈ o.tableColumns
  hasInvalidColumn : found'.hasInvalidColumn = true ↔ found.hasInvalidColumn = true ∨ ∃ name ∈ names, name ∉ o.tableColumns

variable {names names' : List String} {found found' found'' : CollectedColumns}

theorem collects_nil (hset : found'.resultSet = found.resultSet) (hinvalid : found'.hasInvalidColumn = found.hasInvalidColumn) :
    Collects o [] found found' := ⟨by simp [hset], by simp [hinvalid]⟩

theorem Collects.append (h : Collects o names found found') (h' : Collects o names' found' found'') :
    Collects o (names ++ names') found found'' := by
  constructor
  · intro name
    rw [h'.mem_resultSet, h.mem_resultSet, List.mem_append, or_and_right, or_assoc]
  · rw [h'.hasInvalidColumn, h.hasInvalidColumn, or_assoc]
    simp only [List.mem_append, or_and_right, exists_or]

theorem collects_collectColumn (name : String) (found : CollectedColumns) : Collects o [name] found (o.collectColumn name found) := by
  unfold collectColumn
  split
  · rename_i hmem
    refine ⟨fun other => ?_, by simp [hmem]⟩
    rw [Finset.mem_insert, List.mem_singleton, or_comm]
    exact or_congr_right ⟨fun h => ⟨h, h ▸ hmem⟩, fun h => h.1⟩
  · rename_i hmem
    refine ⟨fun other => ?_, by simp [hmem]⟩
    rw [List.mem_singleton]
    exact ⟨Or.inl, fun h => h.resolve_right fun hother => hmem (hother.1 ▸ hother.2)⟩

theorem collects_collectColumns (node : ConditionNode) : ∀ (isRoot : Bool) (found : CollectedColumns), node.hasArrayJoinNode = false →
    Collects o node.reads found (o.collectColumns isRoot node found) := by
  induction node using ConditionNode.induct with
  | leaf info =>
    intro isRoot found _
    rw [collectColumns, ConditionNode.reads]
    split
    · exact collects_nil rfl rfl
    · exact collects_collectColumn info.columnName found
  | arrayJoin argument ih => exact fun _ _ h => absurd h (by simp [ConditionNode.hasArrayJoinNode])
  | function functionName arguments info functionBase ih =>
    intro isRoot found hno
    rw [collectColumns, ConditionNode.reads]
    split
    · exact collects_nil rfl rfl
    split
    · exact collects_nil rfl rfl
    rename_i hread hhint
    clear hread hhint
    rw [ConditionNode.hasArrayJoinNode] at hno
    have hargs : ∀ found, Collects o (ConditionNode.reads.readsOf arguments) found (collectColumns.collectColumnsOf o arguments found) := by
      induction arguments with
      | nil => exact fun found => collects_nil rfl rfl
      | cons argument arguments ihargs =>
        intro found
        rw [ConditionNode.hasArrayJoinNode.hasArrayJoinNodeOf, Bool.or_eq_false_iff] at hno
        rw [collectColumns.collectColumnsOf, ConditionNode.reads.readsOf]
        exact (ih argument List.mem_cons_self false found hno.1).append
          (ihargs (fun a ha => ih a (List.mem_cons_of_mem _ ha)) hno.2 _)
    -- the index does not matter for the columns
    have hfound := hargs { found with mayUsePrimaryIndex :=
      found.mayUsePrimaryIndex && o.functionUsesPrimaryIndex isRoot functionName arguments.length functionBase }
    exact ⟨hfound.mem_resultSet, hfound.hasInvalidColumn⟩

/-- Under `FINAL` a column of the table that is read is one of the sorting key, and no leaf is the result of `ARRAY JOIN`. -/
theorem columnNames_of_movable (node : ConditionNode) : node.hasArrayJoinNode = false → o.cannotBeMoved ctx node = false →
    node.hasArrayJoinFunction = false ∧ (∀ name ∈ node.columnNames, o.columnCannotBeMoved ctx name = false) := by
  induction node using ConditionNode.induct with
  | leaf info =>
    intro _ hmove
    rw [cannotBeMoved] at hmove
    exact ⟨rfl, fun name hname => List.mem_singleton.1 hname ▸ hmove⟩
  | arrayJoin argument ih => exact fun h => absurd h (by simp [ConditionNode.hasArrayJoinNode])
  | function functionName arguments info functionBase ih =>
    intro hno hmove
    rw [ConditionNode.hasArrayJoinNode] at hno
    rw [cannotBeMoved, Bool.or_eq_false_iff] at hmove
    rw [ConditionNode.hasArrayJoinFunction, ConditionNode.columnNames, hmove.1, Bool.false_or]
    replace hmove := hmove.2
    induction arguments with
    | nil => exact ⟨rfl, fun name hname => absurd hname List.not_mem_nil⟩
    | cons argument arguments ihargs =>
      rw [ConditionNode.hasArrayJoinNode.hasArrayJoinNodeOf, Bool.or_eq_false_iff] at hno
      rw [cannotBeMoved.anyCannotBeMoved, Bool.or_eq_false_iff] at hmove
      obtain ⟨hfunction, hnames⟩ := ih argument List.mem_cons_self hno.1 hmove.1
      obtain ⟨hfunctions, hnamesOf⟩ := ihargs (fun a ha => ih a (List.mem_cons_of_mem _ ha)) hno.2 hmove.2
      rw [ConditionNode.hasArrayJoinFunction.hasArrayJoinFunctionOf, ConditionNode.columnNames.columnNamesOf, hfunction, hfunctions]
      exact ⟨rfl, fun name hname => (List.mem_append.1 hname).elim (hnames name) (hnamesOf name)⟩

theorem mem_columnNames_of_mem_reads (node : ConditionNode) : ∀ name ∈ node.reads, name ∈ node.columnNames := by
  induction node using ConditionNode.induct with
  | leaf info =>
    intro name hname
    rw [ConditionNode.reads] at hname
    split at hname
    · exact absurd hname List.not_mem_nil
    · exact hname
  | arrayJoin argument ih =>
    rw [ConditionNode.reads, ConditionNode.columnNames]
    exact ih
  | function functionName arguments info functionBase ih =>
    intro name hname
    rw [ConditionNode.reads] at hname
    split at hname
    · exact absurd hname List.not_mem_nil
    split at hname
    · exact absurd hname List.not_mem_nil
    rename_i hread hhint
    clear hread hhint
    rw [ConditionNode.columnNames]
    induction arguments with
    | nil => exact absurd hname List.not_mem_nil
    | cons argument arguments ihargs =>
      rw [ConditionNode.reads.readsOf] at hname
      rw [ConditionNode.columnNames.columnNamesOf]
      rcases List.mem_append.1 hname with hname | hname
      · exact List.mem_append_left _ (ih argument List.mem_cons_self name hname)
      · exact List.mem_append_right _ (ihargs (fun a ha => ih a (List.mem_cons_of_mem _ ha)) hname)

/-- **A viable condition is movable**, if it has no node `ARRAY_JOIN`. -/
theorem movable_of_viable (hno : node.hasArrayJoinNode = false) (hviable : (o.analyzeCondition ctx node).viable = true) :
    o.Movable ctx node := by
  have hcollects := collects_collectColumns (o := o) node true {} hno
  simp only [analyzeCondition, Bool.and_eq_true, Bool.not_eq_true', decide_eq_true_eq] at hviable
  obtain ⟨⟨⟨⟨⟨hinvalid, hsome⟩, hmove⟩, -⟩, -⟩, -⟩ := hviable
  obtain ⟨hfunction, hleaves⟩ := columnNames_of_movable node hno hmove
  have htable : ∀ name ∈ node.reads, name ∈ o.tableColumns := by
    intro name hname
    by_contra hout
    have hfound := hcollects.hasInvalidColumn.2 (Or.inr ⟨name, hname, hout⟩)
    rw [hinvalid] at hfound
    exact absurd hfound (by decide)
  refine ⟨htable, ?_, ⟨hfunction, hno⟩, fun name hname => ?_, fun hfinal name hname => ?_⟩
  · intro hnone
    refine hsome (Finset.eq_empty_of_forall_notMem fun name hname => ?_)
    rw [hcollects.mem_resultSet, hnone] at hname
    exact hname.elim (by simp) fun h => absurd h.1 List.not_mem_nil
  · have hleaf := hleaves name hname
    simp only [columnCannotBeMoved, Bool.or_eq_false_iff, decide_eq_false_iff_not] at hleaf
    exact hleaf.1
  · have hleaf := hleaves name (mem_columnNames_of_mem_reads node name hname)
    simp only [columnCannotBeMoved, hfinal, htable name hname, Bool.or_eq_false_iff, decide_true, Bool.and_self, Bool.true_and,
      Bool.not_eq_false', decide_eq_true_eq] at hleaf
    exact hleaf.2

/-! ## The list of conditions -/

theorem analyzeImpl_eq (node : ConditionNode) : o.analyzeImpl ctx node = node.conjuncts.map (o.analyzeCondition ctx) := by
  induction node using ConditionNode.induct with
  | leaf info => rfl
  | arrayJoin argument ih => rfl
  | function functionName arguments info functionBase ih =>
    rw [analyzeImpl, ConditionNode.conjuncts]
    split
    · induction arguments with
      | nil => rfl
      | cons argument arguments ihargs =>
        rw [analyzeImpl.analyzeArguments, ConditionNode.conjuncts.conjunctsOf, List.map_append, ih argument List.mem_cons_self,
          ihargs fun a ha => ih a (List.mem_cons_of_mem _ ha)]
    · rfl

/-- The condition is what is known of its node, but for its position in the primary key. -/
def IsAnalyzed (o : WhereOptimizer) (ctx : WhereOptimizerContext) (condition : Condition) : Prop :=
  condition.viable = (o.analyzeCondition ctx condition.node).viable ∧ condition.columnsSize = o.getColumnsSize condition.tableColumns

theorem isAnalyzed_analyzeCondition (node : ConditionNode) : IsAnalyzed o ctx (o.analyzeCondition ctx node) := ⟨rfl, rfl⟩

theorem analyze_spec (node : ConditionNode) :
    (o.analyze ctx node).map Condition.node = node.conjuncts ∧ ∀ condition ∈ o.analyze ctx node, IsAnalyzed o ctx condition := by
  have hnode : (fun node => (o.analyzeCondition ctx node).node) = id := rfl
  unfold analyze
  rw [analyzeImpl_eq]
  split
  · constructor
    · rw [List.map_map, List.map_map]
      refine (List.map_congr_left fun leaf _ => ?_).trans (List.map_id _)
      simp only [Function.comp_apply]
      split
      · rfl
      · rfl
    · intro condition hcondition
      obtain ⟨analyzed, hanalyzed, rfl⟩ := List.mem_map.1 hcondition
      obtain ⟨leaf, -, rfl⟩ := List.mem_map.1 hanalyzed
      split
      · exact isAnalyzed_analyzeCondition leaf
      · exact isAnalyzed_analyzeCondition leaf
  · refine ⟨by rw [List.map_map]; exact List.map_id _, fun condition hcondition => ?_⟩
    obtain ⟨leaf, -, rfl⟩ := List.mem_map.1 hcondition
    exact isAnalyzed_analyzeCondition leaf

/-! ## Moving conditions -/

/-- What the conditions are in the loop: the remaining ones and the moved ones. -/
structure Divided (ctx : WhereOptimizerContext) (all whereConditions prewhereConditions : List PlacedCondition) : Prop where
  perm : (whereConditions ++ prewhereConditions).Perm all
  sorted : whereConditions.Pairwise fun cond jt => cond.position < jt.position
  moved_sorted : ctx.allowReorderPrewhereConditions = false → prewhereConditions.Pairwise fun cond jt => cond.position < jt.position
  viable : ∀ cond ∈ prewhereConditions, cond.condition.viable = true
  together : ∀ cond ∈ whereConditions, cond.condition.viable = true →
    ∀ moved ∈ prewhereConditions, cond.condition.tableColumns ≠ moved.condition.tableColumns

variable {all rest whereConditions prewhereConditions conds : List PlacedCondition} {cond : PlacedCondition}

theorem moveToPrewhereConditions_perm : (moveToPrewhereConditions ctx prewhereConditions cond).Perm (cond :: prewhereConditions) := by
  unfold moveToPrewhereConditions
  split
  · exact List.perm_append_singleton cond prewhereConditions
  · refine List.perm_middle.trans (List.Perm.cons cond ?_)
    rw [List.takeWhile_append_dropWhile]

theorem foldl_moveToPrewhereConditions_perm : ∀ {prewhereConditions : List PlacedCondition},
    (conds.foldl (moveToPrewhereConditions ctx) prewhereConditions).Perm (conds ++ prewhereConditions) := by
  induction conds with
  | nil => exact List.Perm.refl _
  | cons cond conds ih =>
    intro prewhereConditions
    rw [List.foldl_cons]
    exact ih.trans ((moveToPrewhereConditions_perm.append_left conds).trans List.perm_middle)

theorem moveToPrewhereConditions_sorted (horder : ctx.allowReorderPrewhereConditions = false)
    (hsorted : prewhereConditions.Pairwise fun cond jt => cond.position < jt.position)
    (hnew : ∀ jt ∈ prewhereConditions, jt.position ≠ cond.position) :
    (moveToPrewhereConditions ctx prewhereConditions cond).Pairwise fun cond jt => cond.position < jt.position := by
  unfold moveToPrewhereConditions
  rw [if_neg (by rw [horder]; decide)]
  have hsplit := List.takeWhile_append_dropWhile (p := fun other : PlacedCondition => decide (other.position < cond.position))
    (l := prewhereConditions)
  have hparts := List.pairwise_append.1 (hsplit ▸ hsorted)
  have hafter : ∀ jt ∈ prewhereConditions.dropWhile (fun other => decide (other.position < cond.position)), cond.position < jt.position := by
    intro jt hjt
    cases hdrop : prewhereConditions.dropWhile (fun other => decide (other.position < cond.position)) with
    | nil =>
      rw [hdrop] at hjt
      exact absurd hjt List.not_mem_nil
    | cons first others =>
      have hfirst : ¬first.position < cond.position := by
        simpa [hdrop] using List.head_dropWhile_not (fun other : PlacedCondition => decide (other.position < cond.position))
          (l := prewhereConditions) (by rw [hdrop]; exact List.cons_ne_nil _ _)
      have hne := hnew first ((List.dropWhile_sublist _).subset (hdrop ▸ List.mem_cons_self))
      rw [hdrop] at hjt hparts
      rcases List.mem_cons.1 hjt with rfl | hjt
      · omega
      · have hlt := (List.pairwise_cons.1 hparts.2.1).1 jt hjt
        omega
  refine List.pairwise_append.2 ⟨hparts.1, List.pairwise_cons.2 ⟨hafter, hparts.2.1⟩, fun jt hjt other hother => ?_⟩
  have hbefore : jt.position < cond.position := by simpa using List.mem_takeWhile_imp hjt
  rcases List.mem_cons.1 hother with rfl | hother
  · exact hbefore
  · exact hbefore.trans (hafter other hother)

theorem foldl_moveToPrewhereConditions_sorted (horder : ctx.allowReorderPrewhereConditions = false) :
    ∀ {prewhereConditions : List PlacedCondition}, prewhereConditions.Pairwise (fun cond jt => cond.position < jt.position) →
    ((conds ++ prewhereConditions).map PlacedCondition.position).Nodup →
    (conds.foldl (moveToPrewhereConditions ctx) prewhereConditions).Pairwise fun cond jt => cond.position < jt.position := by
  induction conds with
  | nil => exact fun hsorted _ => hsorted
  | cons cond conds ih =>
    intro prewhereConditions hsorted hnodup
    rw [List.foldl_cons]
    have hperm : (cond :: conds ++ prewhereConditions).Perm (conds ++ moveToPrewhereConditions ctx prewhereConditions cond) :=
      ((moveToPrewhereConditions_perm.append_left conds).trans List.perm_middle).symm
    refine ih (moveToPrewhereConditions_sorted horder hsorted fun jt hjt heq => ?_) ((hperm.map _).nodup_iff.1 hnodup)
    rw [List.cons_append, List.map_cons, List.nodup_cons] at hnodup
    exact hnodup.1 (heq ▸ List.mem_map_of_mem (List.mem_append_right _ hjt))

theorem eraseP_perm (hsorted : whereConditions.Pairwise fun cond jt => cond.position < jt.position) (hcond : cond ∈ whereConditions) :
    whereConditions.Perm (cond :: whereConditions.eraseP fun jt => jt.position = cond.position) := by
  obtain ⟨found, before, after, -, hfound, heq, herase⟩ :=
    List.exists_of_eraseP (p := fun jt => jt.position = cond.position) hcond (decide_eq_true rfl)
  have hinj : (whereConditions.map PlacedCondition.position).Nodup := List.pairwise_map.2 (hsorted.imp fun hlt => hlt.ne)
  obtain rfl : found = cond := by
    refine List.inj_on_of_nodup_map hinj ?_ hcond (of_decide_eq_true hfound)
    rw [heq]
    exact List.mem_append_right _ List.mem_cons_self
  rw [herase, heq]
  exact List.perm_middle

/-- **What a move keeps**: with the best condition all over the same columns are moved. -/
theorem Divided.moveCondition (h : Divided ctx all whereConditions prewhereConditions) (hall : (all.map PlacedCondition.position).Nodup)
    (hanalyzed : ∀ cond ∈ all, IsAnalyzed o ctx cond.condition) (hcond : cond ∈ whereConditions) (hviable : cond.condition.viable = true) :
    Divided ctx all (WhereOptimizer.moveCondition ctx whereConditions prewhereConditions cond).1
      (WhereOptimizer.moveCondition ctx whereConditions prewhereConditions cond).2 := by
  unfold WhereOptimizer.moveCondition
  set rest := whereConditions.eraseP fun jt => jt.position = cond.position with hrest
  have hperm : whereConditions.Perm (cond :: rest) := eraseP_perm h.sorted hcond
  have hsub : rest.Sublist whereConditions := List.eraseP_sublist
  have hmoved : ((rest.filter (sameColumns cond)).foldl (moveToPrewhereConditions ctx) (moveToPrewhereConditions ctx prewhereConditions cond)).Perm
      (cond :: (rest.filter (sameColumns cond) ++ prewhereConditions)) :=
    foldl_moveToPrewhereConditions_perm.trans ((moveToPrewhereConditions_perm.append_left _).trans List.perm_middle)
  have hmem : ∀ jt ∈ whereConditions ++ prewhereConditions, jt ∈ all := fun jt hjt => h.perm.subset hjt
  refine ⟨?_, (h.sorted.sublist hsub).filter _, fun horder => ?_, fun jt hjt => ?_, fun jt hjt hjtviable moved hmovedmem hsame => ?_⟩
  · -- the rest is divided by the filter
    have hfilter : (rest.filter (fun jt => !sameColumns cond jt) ++ rest.filter (sameColumns cond)).Perm rest :=
      List.perm_append_comm.trans (List.filter_append_perm _ _)
    refine (hmoved.append_left _).trans (List.perm_middle.trans ?_)
    rw [← List.append_assoc]
    exact ((hfilter.append_right prewhereConditions).cons cond).trans ((hperm.append_right prewhereConditions).symm.trans h.perm)
  · have hnodup : ((rest.filter (sameColumns cond) ++ moveToPrewhereConditions ctx prewhereConditions cond).map
        PlacedCondition.position).Nodup := by
      have hbefore : ((cond :: rest ++ prewhereConditions).map PlacedCondition.position).Nodup :=
        (((hperm.append_right prewhereConditions).symm.trans h.perm).map _).nodup_iff.2 hall
      have hafter := ((@moveToPrewhereConditions_perm ctx prewhereConditions cond).append_left
        (rest.filter (sameColumns cond))).trans List.perm_middle
      refine (hafter.map _).nodup_iff.2 (hbefore.sublist ?_)
      exact (((List.filter_sublist (l := rest)).append_right prewhereConditions).cons_cons cond).map _
    refine foldl_moveToPrewhereConditions_sorted horder (moveToPrewhereConditions_sorted horder (h.moved_sorted horder) fun jt hjt heq => ?_) hnodup
    have hdistinct := ((h.perm.map _).nodup_iff.2 hall)
    rw [List.map_append, List.nodup_append'] at hdistinct
    exact hdistinct.2.2 (List.mem_map_of_mem hcond) (heq ▸ List.mem_map_of_mem hjt)
  · rcases List.mem_cons.1 (hmoved.subset hjt) with rfl | hjt
    · exact hviable
    rcases List.mem_append.1 hjt with hjt | hjt
    · have hsame := (List.mem_filter.1 hjt).2
      simp only [sameColumns, Bool.and_eq_true] at hsame
      exact hsame.1.1
    · exact h.viable jt hjt
  · obtain ⟨hjt, hother⟩ := List.mem_filter.1 hjt
    have hdifferent : jt.condition.tableColumns ≠ cond.condition.tableColumns := by
      intro heq
      have hsize : jt.condition.columnsSize = cond.condition.columnsSize := by
        rw [(hanalyzed jt (hmem jt (List.mem_append_left _ (hsub.subset hjt)))).2,
          (hanalyzed cond (hmem cond (List.mem_append_left _ hcond))).2, heq]
      simp [sameColumns, hjtviable, hsize, heq] at hother
    rcases List.mem_cons.1 (hmoved.subset hmovedmem) with rfl | hmovedmem
    · exact hdifferent hsame
    rcases List.mem_append.1 hmovedmem with hmovedmem | hmovedmem
    · have hcolumns := (List.mem_filter.1 hmovedmem).2
      simp only [sameColumns, Bool.and_eq_true, decide_eq_true_eq] at hcolumns
      exact hdifferent (hsame.trans hcolumns.2)
    · exact h.together jt (hsub.subset hjt) hjtviable moved hmovedmem hsame

/-- **The loop divides the conditions.** When all conditions are to be moved, no viable one remains. -/
theorem moveConditions_divided (hall : (all.map PlacedCondition.position).Nodup) (hanalyzed : ∀ cond ∈ all, IsAnalyzed o ctx cond.condition)
    (whereConditions prewhereConditions : List PlacedCondition) (size columns : ℕ) (h : Divided ctx all whereConditions prewhereConditions) :
    Divided ctx all (o.moveConditions ctx whereConditions prewhereConditions size columns).1
        (o.moveConditions ctx whereConditions prewhereConditions size columns).2 ∧
      (ctx.moveAllConditionsToPrewhere = true →
        ∀ cond ∈ (o.moveConditions ctx whereConditions prewhereConditions size columns).1, cond.condition.viable = false) := by
  fun_induction moveConditions o ctx whereConditions prewhereConditions size columns with
  | case1 whereConditions prewhereConditions size columns hbest =>
    refine ⟨h, fun _ cond hcond => ?_⟩
    rw [List.argmin_eq_none.1 hbest] at hcond
    exact absurd hcond List.not_mem_nil
  | case2 whereConditions prewhereConditions size columns best hbest hnot =>
    refine ⟨h, fun _ cond hcond => ?_⟩
    -- the best condition is not viable, and so no condition is
    have hle := List.le_of_mem_argmin hcond hbest
    rw [Bool.not_eq_true'] at hnot
    by_contra hviable
    rw [Bool.not_eq_false] at hviable
    rcases Prod.Lex.le_iff.1 hle with hlt | ⟨heq, -⟩
    · have hless : true < false := by simpa [Condition.tuple, hnot, hviable] using hlt
      exact absurd hless (by decide)
    · simp [Condition.tuple, hnot, hviable] at heq
  | case3 whereConditions prewhereConditions size columns best hbest hviable henough =>
    refine ⟨h, fun hmoveAll => ?_⟩
    rw [hmoveAll] at henough
    exact absurd henough (by simp)
  | case4 whereConditions prewhereConditions size columns best hbest hviable hmore moved ih =>
    exact ih (h.moveCondition hall hanalyzed (List.argmin_mem hbest) (by simpa using hviable))

/-- Conditions in the order of their positions, which are positions of a list, are a part of the list. -/
theorem sublist_of_sorted (hconds : conds.Subperm all) (hsorted : conds.Pairwise fun cond jt => cond.position < jt.position)
    (hall : all.Pairwise fun cond jt => cond.position < jt.position) : conds.Sublist all := by
  have : Std.Antisymm fun cond jt : PlacedCondition => cond.position < jt.position :=
    ⟨fun _ _ hlt hgt => absurd (hlt.trans hgt) (lt_irrefl _)⟩
  exact List.sublist_of_subperm_of_pairwise hconds hsorted hall

section Optimize

variable (o ctx node)

/-- The conditions at their places. -/
def placedConditions : List PlacedCondition := (o.analyze ctx node).zipIdx.map fun entry => ⟨entry.2, entry.1⟩

theorem placedConditions_position : (placedConditions o ctx node).map PlacedCondition.position = List.range (o.analyze ctx node).length := by
  unfold placedConditions
  rw [List.map_map, List.range_eq_range']
  exact List.zipIdx_map_snd 0 (o.analyze ctx node)

theorem placedConditions_condition : (placedConditions o ctx node).map PlacedCondition.condition = o.analyze ctx node := by
  unfold placedConditions
  rw [List.map_map]
  exact List.zipIdx_map_fst 0 (o.analyze ctx node)

theorem placedConditions_node : (placedConditions o ctx node).map (fun cond => cond.condition.node) = node.conjuncts := by
  rw [← (@analyze_spec o ctx node).1, ← placedConditions_condition, List.map_map]
  rfl

theorem placedConditions_sorted : (placedConditions o ctx node).Pairwise fun cond jt => cond.position < jt.position :=
  List.pairwise_map.1 (placedConditions_position o ctx node ▸ List.pairwise_lt_range)

theorem isAnalyzed_of_placed {cond : PlacedCondition} (h : cond ∈ placedConditions o ctx node) : IsAnalyzed o ctx cond.condition :=
  (analyze_spec node).2 _ (placedConditions_condition o ctx node ▸ List.mem_map_of_mem h)

theorem divided_placedConditions : Divided ctx (placedConditions o ctx node) (o.moveConditions ctx (placedConditions o ctx node) [] 0 0).1
      (o.moveConditions ctx (placedConditions o ctx node) [] 0 0).2 ∧
    (ctx.moveAllConditionsToPrewhere = true →
      ∀ cond ∈ (o.moveConditions ctx (placedConditions o ctx node) [] 0 0).1, cond.condition.viable = false) := by
  have hsorted := placedConditions_sorted o ctx node
  refine moveConditions_divided (List.pairwise_map.2 (hsorted.imp fun hlt => hlt.ne)) (fun _ h => isAnalyzed_of_placed o ctx node h) _ _ 0 0 ?_
  exact ⟨by rw [List.append_nil], hsorted, fun _ => List.Pairwise.nil, fun _ h => absurd h List.not_mem_nil,
    fun _ _ _ _ h => absurd h List.not_mem_nil⟩

end Optimize

end WhereOptimizer

open WhereOptimizer

/-- **Moving conditions preserves the query.** The conditions are divided: none is lost or doubled, the order is kept unless conditions may be
reordered, and viable ones over the same columns move together. What is moved can be checked first, provided that no condition with a node
`ARRAY_JOIN` is viable; when all conditions are to be moved, only then. -/
theorem optimizeImpl_preserves (o : WhereOptimizer) (ctx : WhereOptimizerContext) (node : ConditionNode) :
    (∀ result, o.optimizeImpl ctx node = some result → Divides ctx node result.1 result.2) ∧
      ((∀ leaf ∈ node.conjuncts, leaf.hasArrayJoinNode = true → (o.analyzeCondition ctx leaf).viable = false) →
        ∀ result, o.optimizeImpl ctx node = some result → ∀ moved ∈ result.2, o.Movable ctx moved.condition.node) ∧
      (ctx.moveAllConditionsToPrewhere = true →
        (∀ result, o.optimizeImpl ctx node = some result → ∀ moved ∈ result.2, o.Movable ctx moved.condition.node) →
        ∀ leaf ∈ node.conjuncts, leaf.hasArrayJoinNode = true → (o.analyzeCondition ctx leaf).viable = false) := by
  obtain ⟨hdivided, hmoveAll⟩ := divided_placedConditions o ctx node
  have hresult : ∀ result, o.optimizeImpl ctx node = some result → result = o.moveConditions ctx (placedConditions o ctx node) [] 0 0 := by
    intro result h
    unfold optimizeImpl at h
    dsimp only at h
    split at h
    · exact absurd h (by simp)
    · exact (Option.some.inj h).symm
  set divided := o.moveConditions ctx (placedConditions o ctx node) [] 0 0 with hdef
  have hnode := placedConditions_node o ctx node
  have hsorted := placedConditions_sorted o ctx node
  refine ⟨fun result h => ?_, fun hno result h moved hmoved => ?_, fun hall hmovable leaf hleaf hjoin => ?_⟩
  · obtain rfl := hresult result h
    refine ⟨hnode ▸ hdivided.perm.map _, fun horder => ⟨?_, ?_⟩, hdivided.together⟩
    · have hsub : divided.1.Subperm (placedConditions o ctx node) := (List.sublist_append_left _ _).subperm.trans hdivided.perm.subperm
      exact hnode ▸ (sublist_of_sorted hsub hdivided.sorted hsorted).map _
    · have hsub : divided.2.Subperm (placedConditions o ctx node) := (List.sublist_append_right _ _).subperm.trans hdivided.perm.subperm
      exact hnode ▸ (sublist_of_sorted hsub (hdivided.moved_sorted horder) hsorted).map _
  · obtain rfl := hresult result h
    have hplaced : moved ∈ placedConditions o ctx node := hdivided.perm.subset (List.mem_append_right _ hmoved)
    have hviable := hdivided.viable moved hmoved
    rw [(isAnalyzed_of_placed o ctx node hplaced).1] at hviable
    refine movable_of_viable ?_ hviable
    by_contra hjoin
    rw [hno _ (hnode ▸ List.mem_map_of_mem hplaced) (by simpa using hjoin)] at hviable
    exact absurd hviable (by decide)
  · rw [← hnode] at hleaf
    obtain ⟨cond, hcond, rfl⟩ := List.mem_map.1 hleaf
    by_contra hviable
    rw [← (isAnalyzed_of_placed o ctx node hcond).1, Bool.not_eq_false] at hviable
    rcases List.mem_append.1 (hdivided.perm.symm.subset hcond) with hwhere | hprewhere
    · rw [hmoveAll hall cond hwhere] at hviable
      exact absurd hviable (by decide)
    · have hsome : o.optimizeImpl ctx node = some divided := by
        unfold optimizeImpl
        dsimp only
        rw [if_neg]
        · rfl
        · rw [List.isEmpty_iff]
          exact List.ne_nil_of_mem hprewhere
      have harray := (hmovable divided hsome cond hprewhere).no_arrayJoin.2
      rw [hjoin] at harray
      exact absurd harray (by decide)

/-- A table with the columns `a`, `b` and `arr`, of which `a` is the key. -/
def arrayTable : WhereOptimizer where
  tableColumns := {"a", "b", "arr"}
  queriedColumns := ["a", "b", "arr"]
  supportedColumns := none
  sortingKeyNames := {"a"}
  primaryKeyColumnNames := ["a"]
  columnSizes := fun _ => none
  atomMap := {"equals"}
  estimateRows := fun _ => 0
  extractTableName := id

/-- `a = 5 AND (b = 5 AND a = 5)`: under `FINAL` only the conditions on the key are moved. -/
theorem optimizeImpl_preserves_final :
    let a : ConditionNode := .leaf { columnName := "a" }
    let b : ConditionNode := .leaf { columnName := "b" }
    let five : ConditionNode := .leaf { columnName := "5", isConstant := true, constant := some (.uint64 5) }
    let equals (lhs : ConditionNode) : ConditionNode := .function "equals" [lhs, five] { columnName := "equals" } none
    let node : ConditionNode := .function "and" [equals a, .function "and" [equals b, equals a] { columnName := "and" } none]
      { columnName := "and" } none
    ∃ result, arrayTable.optimizeImpl { isFinal := true } node = some result ∧
      result.1.map PlacedCondition.position = [1] ∧ result.2.map PlacedCondition.position = [0, 2] ∧
      Divides { isFinal := true } node result.1 result.2 ∧
      ∀ moved ∈ result.2, arrayTable.Movable { isFinal := true } moved.condition.node := by
  intro a b five equals node
  have hsome : ((arrayTable.optimizeImpl { isFinal := true } node).map fun result =>
      (result.1.map PlacedCondition.position, result.2.map PlacedCondition.position)) = some ([1], [0, 2]) := by decide +kernel
  obtain ⟨result, hresult, hpositions⟩ := Option.map_eq_some_iff.1 hsome
  obtain ⟨hwhere, hprewhere⟩ := Prod.mk.inj hpositions
  obtain ⟨hdivides, hmovable, -⟩ := optimizeImpl_preserves arrayTable { isFinal := true } node
  exact ⟨result, hresult, hwhere, hprewhere, hdivides result hresult, hmovable (by decide +kernel) result hresult⟩

/-- `a = toTypeName(arrayJoin(arr))` in a DAG: the function is constant, and the node below it is not seen. -/
theorem not_movable_constantArrayJoin : ¬∀ (o : WhereOptimizer) (ctx : WhereOptimizerContext) (node : ConditionNode)
    (result : List PlacedCondition × List PlacedCondition), o.optimizeImpl ctx node = some result →
    ∀ moved ∈ result.2, o.Movable ctx moved.condition.node := by
  intro hall
  let typeName : ConditionNode := .function "toTypeName" [.arrayJoin (.leaf { columnName := "arr" })]
    { columnName := "toTypeName(arrayJoin(arr))", isConstant := true, constant := some .other } none
  let node : ConditionNode := .function "equals" [.leaf { columnName := "a" }, typeName]
    { columnName := "equals(a, toTypeName(arrayJoin(arr)))" } none
  have hsome : ((arrayTable.optimizeImpl {} node).map fun result =>
      result.2.map fun moved => moved.condition.node.hasArrayJoinNode) = some [true] := by decide +kernel
  obtain ⟨result, hresult, hnodes⟩ := Option.map_eq_some_iff.1 hsome
  obtain ⟨moved, rest, hprewhere, hmoved, -⟩ := List.map_eq_cons_iff.1 hnodes
  have hmem : moved ∈ result.2 := hprewhere ▸ List.mem_cons_self
  have hno := (hall arrayTable {} node result hresult moved hmem).no_arrayJoin.2
  rw [hmoved] at hno
  exact absurd hno (by decide)

end MergeTree
