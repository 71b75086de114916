import MergeTree.Spec.MutationSlice

/-!
# The slice of the mutations

Walking back over the commands, `filterMutationCommands` keeps what the requested columns need. A
kept command does on the needed columns what the command does, with one exception: an `UPDATE`
that removes rows and sets columns that are read becomes an `UPDATE` and a `DELETE` behind it, so
that the predicate of the `DELETE` sees the columns already set.

* `filterMutationCommands_eq`: the loop computes the slice.
* `sliceCommand_cases`: a command and its slice on rows that agree on the needed columns.
* `filterMutationCommands_slices_iff`: the slice is right exactly when no row escapes a `DELETE`.
-/

namespace MergeTree

open Set

variable {V : Type} {isTrue : V → Bool} {requested needed : Set String} {row row' : String → V}

/-! ## The slice -/

open Classical in
/-- The assignments to the needed columns. -/
noncomputable def keptAssignments (needed : Set String) (assignments : Assignments V) : Assignments V :=
  assignments.filter fun assignment => !isLightweightDeleteCommand assignment && decide (assignment.1 ∈ needed)

theorem mem_keptAssignments {assignments : Assignments V} {assignment : String × ColumnExpression V} :
    assignment ∈ keptAssignments needed assignments ↔
      assignment ∈ assignments ∧ isLightweightDeleteCommand assignment = false ∧ assignment.1 ∈ needed := by
  simp only [keptAssignments, List.mem_filter, Bool.and_eq_true, Bool.not_eq_true', decide_eq_true_eq]

/-- The columns that the slice of a command reads. -/
def sourcesOf (needed : Set String) : MutationCommand V → Set String
  | .delete predicate => {column | column ∈ predicate.identifiers}
  | .update predicate assignments =>
    {column | ∃ assignment ∈ keptAssignments needed assignments, column ∈ assignment.2.identifiers} ∪
      {column | (assignments.any isLightweightDeleteCommand = true ∨ keptAssignments needed assignments ≠ []) ∧
        column ∈ predicate.identifiers}

/-- The columns that are needed before the commands. -/
def neededBefore (requested : Set String) : List (MutationCommand V) → Set String
  | [] => requested
  | command :: commands => neededBefore requested commands ∪ sourcesOf (neededBefore requested commands) command

open Classical in
/-- What is kept of a command, in order. -/
noncomputable def sliceCommand (needed : Set String) : MutationCommand V → List (MutationCommand V)
  | .delete predicate => [.delete predicate]
  | .update predicate assignments =>
    (if keptAssignments needed assignments = [] then [] else [.update predicate (keptAssignments needed assignments)]) ++
      if assignments.any isLightweightDeleteCommand then [.delete predicate] else []

/-- What is kept of the commands. -/
noncomputable def slice (requested : Set String) : List (MutationCommand V) → List (MutationCommand V)
  | [] => []
  | command :: commands => sliceCommand (neededBefore requested commands) command ++ slice requested commands

/-! ## The loop -/

theorem newUpdatedColumns_eq {readColumnsSet : List String} (h : ∀ column, column ∈ readColumnsSet ↔ column ∈ needed)
    (assignments : Assignments V) : newUpdatedColumns readColumnsSet assignments = keptAssignments needed assignments := by
  unfold newUpdatedColumns keptAssignments
  refine List.filter_congr fun assignment _ => ?_
  rw [decide_eq_decide.2 (h assignment.1)]

/-- The set and the list of the loop have the needed columns. -/
structure Filtering.Has (filtering : Filtering V) (needed : Set String) : Prop where
  set : ∀ column, column ∈ filtering.readColumnsSet ↔ column ∈ needed
  list : ∀ column, column ∈ filtering.readColumns ↔ column ∈ needed

theorem Filtering.Has.addColumn {filtering : Filtering V} (h : filtering.Has needed) (column : String) :
    (filtering.addColumn column).Has (insert column needed) ∧
      (filtering.addColumn column).filteredCommands = filtering.filteredCommands := by
  unfold Filtering.addColumn
  by_cases hin : column ∈ filtering.readColumnsSet
  · rw [if_pos hin, Set.insert_eq_of_mem ((h.set column).1 hin)]
    exact ⟨h, rfl⟩
  · rw [if_neg hin]
    refine ⟨⟨fun c => ?_, fun c => ?_⟩, rfl⟩
    · rw [List.mem_cons, Set.mem_insert_iff, h.set]
    · rw [List.mem_append, List.mem_singleton, Set.mem_insert_iff, h.list, or_comm]

theorem Filtering.Has.addColumns : ∀ {columns : List String} {filtering : Filtering V} {needed : Set String},
    filtering.Has needed → (columns.foldl Filtering.addColumn filtering).Has (needed ∪ {column | column ∈ columns}) ∧
      (columns.foldl Filtering.addColumn filtering).filteredCommands = filtering.filteredCommands := by
  intro columns
  induction columns with
  | nil =>
    intro filtering needed h
    have hempty : {column : String | column ∈ ([] : List String)} = ∅ := Set.eq_empty_iff_forall_notMem.2 fun _ => List.not_mem_nil
    rw [hempty, Set.union_empty]
    exact ⟨h, rfl⟩
  | cons column columns ih =>
    intro filtering needed h
    obtain ⟨hadd, hkeep⟩ := h.addColumn column
    obtain ⟨hrest, hkeep'⟩ := ih hadd
    refine ⟨?_, hkeep'.trans hkeep⟩
    have hset : insert column needed ∪ {c | c ∈ columns} = needed ∪ {c | c ∈ column :: columns} := by
      ext c
      simp only [Set.mem_union, Set.mem_insert_iff, Set.mem_ofPred_eq, List.mem_cons]
      tauto
    rwa [hset] at hrest

/-- The pushed commands are the slice from its end, and the source columns are those of the slice. -/
theorem filterCommand_eq {readColumnsSet : List String} (h : ∀ column, column ∈ readColumnsSet ↔ column ∈ needed)
    (command : MutationCommand V) : (filterCommand readColumnsSet command).1.reverse = sliceCommand needed command ∧
      ∀ column, column ∈ (filterCommand readColumnsSet command).2 ↔ column ∈ sourcesOf needed command := by
  cases command with
  | delete predicate => exact ⟨rfl, fun column => Iff.rfl⟩
  | update predicate assignments =>
    unfold filterCommand sliceCommand sourcesOf
    dsimp only
    rw [newUpdatedColumns_eq h]
    generalize keptAssignments needed assignments = kept
    refine ⟨?_, fun column => ?_⟩
    · rw [List.reverse_append]
      cases kept with
      | nil => cases assignments.any isLightweightDeleteCommand with
        | true => rfl
        | false => rfl
      | cons assignment kept => cases assignments.any isLightweightDeleteCommand with
        | true => rfl
        | false => rfl
    · rw [List.mem_append, List.mem_flatMap, Set.mem_union]
      refine or_congr Iff.rfl ?_
      have hempty : ¬kept.isEmpty = true ↔ kept ≠ [] := not_congr List.isEmpty_iff
      by_cases hor : assignments.any isLightweightDeleteCommand = true ∨ ¬kept.isEmpty = true
      · rw [if_pos hor]
        exact (and_iff_right (hor.imp id hempty.1)).symm
      · rw [if_neg hor]
        exact iff_of_false List.not_mem_nil fun hand => hor (hand.1.imp id hempty.2)

/-- One turn of the loop, from the last command on. -/
def pushCommand (command : MutationCommand V) (filtering : Filtering V) : Filtering V := filtering.push command

/-- **The loop computes the slice**, and leaves the needed columns in `read_columns`. -/
theorem filterMutationCommands_eq (commands : List (MutationCommand V)) (readColumns : List String) :
    (filterMutationCommands commands readColumns).1 = slice {column | column ∈ readColumns} commands ∧
      ∀ column, column ∈ (filterMutationCommands commands readColumns).2 ↔
        column ∈ neededBefore {column | column ∈ readColumns} commands := by
  have hloop : ∀ commands : List (MutationCommand V),
      (commands.foldr pushCommand ⟨[], readColumns, readColumns⟩).Has (neededBefore {column | column ∈ readColumns} commands) ∧
        (commands.foldr pushCommand ⟨[], readColumns, readColumns⟩).filteredCommands.reverse =
          slice {column | column ∈ readColumns} commands := by
    intro commands
    induction commands with
    | nil => exact ⟨⟨fun _ => Iff.rfl, fun _ => Iff.rfl⟩, rfl⟩
    | cons command commands ih =>
      obtain ⟨hhas, hslice⟩ := ih
      rw [List.foldr_cons]
      generalize commands.foldr pushCommand ⟨[], readColumns, readColumns⟩ = filtering at hhas hslice ⊢
      obtain ⟨hcommands, hsources⟩ := filterCommand_eq hhas.set command
      have hpushed : Filtering.Has
          { filtering with filteredCommands := filtering.filteredCommands ++ (filterCommand filtering.readColumnsSet command).1 }
          (neededBefore {column | column ∈ readColumns} commands) := ⟨hhas.set, hhas.list⟩
      obtain ⟨hadded, hkeep⟩ := @Filtering.Has.addColumns _
        ((filterCommand filtering.readColumnsSet command).2.mergeSort fun a b => a ≤ b) _ _ hpushed
      refine ⟨?_, ?_⟩
      · have hset : {column | column ∈ (filterCommand filtering.readColumnsSet command).2.mergeSort fun a b => a ≤ b} =
            sourcesOf (neededBefore {column | column ∈ readColumns} commands) command := by
          ext column
          rw [Set.mem_ofPred_eq, List.mem_mergeSort]
          exact hsources column
        rw [hset] at hadded
        exact hadded
      · refine (congrArg List.reverse hkeep).trans ?_
        rw [List.reverse_append, hcommands, hslice]
        rfl
  unfold filterMutationCommands
  rw [List.foldl_reverse]
  exact ⟨(hloop commands).2, (hloop commands).1.list⟩

/-! ## A command and its slice -/

theorem applyCommands_append (commands commands' : List (MutationCommand V)) (row : String → V) :
    applyCommands isTrue (commands ++ commands') row =
      (applyCommands isTrue commands row).bind (applyCommands isTrue commands') := by
  induction commands generalizing row with
  | nil => rfl
  | cons command commands ih =>
    rw [List.cons_append, applyCommands, applyCommands, Option.bind_assoc]
    exact congrArg _ (funext ih)

theorem ColumnExpression.eval_eq (expression : ColumnExpression V) (h : Set.EqOn row row' needed)
    (hsub : ∀ column ∈ expression.identifiers, column ∈ needed) : expression.eval row = expression.eval row' :=
  expression.congr row row' fun column hcolumn => h (hsub column hcolumn)

theorem eqOn_assignColumns {assignments : Assignments V} (h : Set.EqOn row row' needed)
    (hsub : ∀ assignment ∈ assignments, ∀ column ∈ assignment.2.identifiers, column ∈ needed) :
    Set.EqOn (assignColumns assignments row) (assignColumns assignments row') needed := by
  intro column hcolumn
  unfold assignColumns
  cases hlookup : assignments.lookup column with
  | none => exact h hcolumn
  | some expression =>
    obtain ⟨l₁, l₂, hsplit, -⟩ := List.lookup_eq_some_iff.1 hlookup
    have hmem : (column, expression) ∈ assignments := by
      rw [hsplit]
      exact List.mem_append_right l₁ List.mem_cons_self
    exact expression.eval_eq h (hsub _ hmem)

/-- On the needed columns the kept assignments are all, when none of them removes the row. -/
theorem lookup_keptAssignments {assignments : Assignments V} (hnone : ¬assignments.any isLightweightDeleteCommand = true)
    {column : String} (hcolumn : column ∈ needed) :
    (keptAssignments needed assignments).lookup column = assignments.lookup column := by
  have hnone' : ∀ assignment ∈ assignments, isLightweightDeleteCommand assignment = false := by
    intro assignment hin
    by_contra htrue
    exact hnone (List.any_eq_true.2 ⟨assignment, hin, by simpa using htrue⟩)
  unfold keptAssignments
  clear hnone
  induction assignments with
  | nil => rfl
  | cons assignment assignments ih =>
    have ih := ih fun other hother => hnone' other (List.mem_cons_of_mem _ hother)
    obtain ⟨name, expression⟩ := assignment
    have hfirst := hnone' (name, expression) List.mem_cons_self
    by_cases hname : name ∈ needed
    · rw [List.filter_cons_of_pos (by simp [hfirst, hname]), List.lookup_cons, List.lookup_cons, ih]
    · have hne : (column == name) = false := beq_false_of_ne fun heq => hname (heq ▸ hcolumn)
      rw [List.filter_cons_of_neg (by simp [hfirst, hname]), List.lookup_cons, hne, ih]

/-- The slice keeps an `UPDATE` that removes rows as an `UPDATE` and a `DELETE`; a row that the predicate no longer
matches when the kept columns are set is not removed. -/
def Missed (isTrue : V → Bool) (needed : Set String) (command : MutationCommand V) (row row₁ : String → V) : Prop :=
  ∃ predicate assignments, command = .update predicate assignments ∧ assignments.any isLightweightDeleteCommand = true ∧
    isTrue (predicate.eval row) = true ∧ row₁ = assignColumns (keptAssignments needed assignments) row ∧
      isTrue (predicate.eval row₁) = false

theorem Missed.apply_eq_none {command : MutationCommand V} {row₁ : String → V} (h : Missed isTrue needed command row row₁) :
    command.apply isTrue row = none := by
  obtain ⟨predicate, assignments, rfl, hdeletes, htrue, -, -⟩ := h
  rw [MutationCommand.apply, if_pos htrue, if_pos hdeletes]

/-- **A command and its slice** on rows that agree on what is needed before: they keep rows that agree on what is needed
behind them, or remove both, unless the row is missed. -/
theorem sliceCommand_cases (command : MutationCommand V) (h : Set.EqOn row row' (needed ∪ sourcesOf needed command)) :
    (∃ row₁ row₁', command.apply isTrue row = some row₁ ∧ applyCommands isTrue (sliceCommand needed command) row' = some row₁' ∧
        Set.EqOn row₁ row₁' needed) ∨
      (command.apply isTrue row = none ∧ applyCommands isTrue (sliceCommand needed command) row' = none ∧
        ∀ row₁, ¬Missed isTrue needed command row row₁) ∨
      (∃ row₁ row₁', Missed isTrue needed command row row₁ ∧
        applyCommands isTrue (sliceCommand needed command) row' = some row₁' ∧ Set.EqOn row₁ row₁' needed) := by
  have hneeded : Set.EqOn row row' needed := h.mono Set.subset_union_left
  cases command with
  | delete predicate =>
    have hsame : predicate.eval row = predicate.eval row' := predicate.eval_eq h fun column hcolumn => Or.inr hcolumn
    have hrun : applyCommands isTrue (sliceCommand needed (.delete predicate)) row' =
        if isTrue (predicate.eval row) then none else some row' := by
      rw [hsame, sliceCommand, applyCommands, MutationCommand.apply]
      split
      · rfl
      · rfl
    rw [hrun, MutationCommand.apply]
    split
    · refine Or.inr (Or.inl ⟨rfl, rfl, ?_⟩)
      rintro row₁ ⟨_, _, hno, -⟩
      cases hno
    · exact Or.inl ⟨row, row', rfl, rfl, hneeded⟩
  | update predicate assignments =>
    have hsub : ∀ assignment ∈ keptAssignments needed assignments, ∀ column ∈ assignment.2.identifiers,
        column ∈ needed ∪ sourcesOf needed (.update predicate assignments) :=
      fun assignment hin column hcolumn => Or.inr (Or.inl ⟨assignment, hin, hcolumn⟩)
    have hkept := eqOn_assignColumns h hsub
    by_cases hreads : assignments.any isLightweightDeleteCommand = true ∨ keptAssignments needed assignments ≠ []
    · have hpredicate : ∀ column ∈ predicate.identifiers, column ∈ needed ∪ sourcesOf needed (.update predicate assignments) :=
        fun column hcolumn => Or.inr (Or.inr ⟨hreads, hcolumn⟩)
      have hsame : isTrue (predicate.eval row) = isTrue (predicate.eval row') := congrArg isTrue (predicate.eval_eq h hpredicate)
      -- the kept `UPDATE`, also when nothing is kept
      have hupdate : applyCommands isTrue (if keptAssignments needed assignments = [] then []
          else [MutationCommand.update predicate (keptAssignments needed assignments)]) row' =
            some (if isTrue (predicate.eval row) then assignColumns (keptAssignments needed assignments) row' else row') := by
        have hany : (keptAssignments needed assignments).any isLightweightDeleteCommand = false := by
          rw [List.any_eq_false]
          intro assignment hin
          rw [(mem_keptAssignments.1 hin).2.1]
          exact Bool.false_ne_true
        by_cases hempty : keptAssignments needed assignments = []
        · rw [if_pos hempty, hempty]
          have hnothing : assignColumns ([] : Assignments V) row' = row' := rfl
          rw [hnothing, ite_self]
          rfl
        · rw [if_neg hempty, applyCommands, MutationCommand.apply, hany, ← hsame]
          split
          · rfl
          · rfl
      rw [sliceCommand, applyCommands_append, hupdate, MutationCommand.apply]
      cases htrue : isTrue (predicate.eval row) with
      | false =>
        rw [if_neg Bool.false_ne_true, if_neg Bool.false_ne_true, Option.bind_some]
        refine Or.inl ⟨row, row', rfl, ?_, hneeded⟩
        split
        · rw [applyCommands, MutationCommand.apply, ← hsame, htrue, if_neg Bool.false_ne_true]
          rfl
        · rfl
      | true =>
        rw [if_pos rfl, if_pos rfl, Option.bind_some]
        cases hdeletes : assignments.any isLightweightDeleteCommand with
        | false =>
          rw [if_neg Bool.false_ne_true, if_neg Bool.false_ne_true]
          refine Or.inl ⟨_, _, rfl, rfl, fun column hcolumn => ?_⟩
          rw [← hkept (Or.inl hcolumn)]
          unfold assignColumns
          rw [lookup_keptAssignments (by rw [hdeletes]; exact Bool.false_ne_true) hcolumn]
        | true =>
          rw [if_pos rfl, if_pos rfl, applyCommands, MutationCommand.apply, ← predicate.eval_eq hkept hpredicate]
          cases hstill : isTrue (predicate.eval (assignColumns (keptAssignments needed assignments) row)) with
          | true =>
            refine Or.inr (Or.inl ⟨rfl, rfl, ?_⟩)
            rintro row₁ ⟨_, _, heq, -, -, rfl, hfalse⟩
            obtain ⟨rfl, rfl⟩ := MutationCommand.update.inj heq
            rw [hstill] at hfalse
            cases hfalse
          | false =>
            exact Or.inr (Or.inr ⟨_, _, ⟨predicate, assignments, rfl, hdeletes, htrue, rfl, hstill⟩, rfl,
              hkept.mono Set.subset_union_left⟩)
    · -- nothing is kept, and nothing that is needed is set
      rw [not_or, not_not] at hreads
      obtain ⟨hdeletes, hempty⟩ := hreads
      refine Or.inl ⟨if isTrue (predicate.eval row) then assignColumns assignments row else row, row', ?_, ?_, ?_⟩
      · rw [MutationCommand.apply, if_neg hdeletes]
        split
        · rfl
        · rfl
      · rw [sliceCommand, if_pos hempty, if_neg hdeletes]
        rfl
      · intro column hcolumn
        rw [← hneeded hcolumn]
        split
        · have hlookup := lookup_keptAssignments hdeletes hcolumn
          rw [hempty] at hlookup
          unfold assignColumns
          rw [← hlookup]
          rfl
        · rfl

/-! ## The slice of the commands -/

/-- **A row escapes**: it comes to an `UPDATE` that removes it and is missed, and what follows does not remove it. -/
def Escapes (isTrue : V → Bool) (requested : Set String) : List (MutationCommand V) → (String → V) → Prop
  | [], _ => False
  | command :: commands, row =>
    (∃ row₁, command.apply isTrue row = some row₁ ∧ Escapes isTrue requested commands row₁) ∨
      ∃ row₁, Missed isTrue (neededBefore requested commands) command row row₁ ∧
        ((applyCommands isTrue commands row₁).isSome = true ∨ Escapes isTrue requested commands row₁)

theorem Escapes.eq_none : ∀ {commands : List (MutationCommand V)} {row : String → V}, Escapes isTrue requested commands row →
    applyCommands isTrue commands row = none := by
  intro commands
  induction commands with
  | nil => exact fun h => h.elim
  | cons command commands ih =>
    rintro row (⟨row₁, hrow₁, h⟩ | ⟨row₁, hmissed, -⟩)
    · rw [applyCommands, hrow₁, Option.bind_some, ih h]
    · rw [applyCommands, hmissed.apply_eq_none, Option.bind_none]

/-- Both remove the row, or the rows they leave agree on the requested columns. -/
def SameOn (requested : Set String) : Option (String → V) → Option (String → V) → Prop :=
  Option.Rel fun row row' => Set.EqOn row row' requested

theorem slice_run : ∀ {commands : List (MutationCommand V)} {row row' : String → V},
    Set.EqOn row row' (neededBefore requested commands) →
      (∀ row₁, applyCommands isTrue commands row = some row₁ →
        SameOn requested (some row₁) (applyCommands isTrue (slice requested commands) row')) ∧
      (applyCommands isTrue commands row = none →
        ((applyCommands isTrue (slice requested commands) row').isSome = true ↔ Escapes isTrue requested commands row)) := by
  intro commands
  induction commands with
  | nil =>
    intro row row' h
    refine ⟨fun row₁ hrow₁ => ?_, fun hnone => ?_⟩
    · obtain rfl := Option.some.inj hrow₁
      exact Option.Rel.some h
    · cases hnone
  | cons command commands ih =>
    intro row row' h
    rw [slice, applyCommands_append, applyCommands]
    rcases @sliceCommand_cases _ isTrue _ _ _ command h with
      ⟨row₁, row₁', hrow₁, hrow₁', hagree⟩ | ⟨hnone, hnone', hmissed⟩ | ⟨row₁, row₁', hmissed, hrow₁', hagree⟩
    · obtain ⟨hsome, hescapes⟩ := ih hagree
      rw [hrow₁, hrow₁', Option.bind_some, Option.bind_some]
      refine ⟨hsome, fun hgone => (hescapes hgone).trans ⟨fun hesc => Or.inl ⟨row₁, hrow₁, hesc⟩, ?_⟩⟩
      rintro (⟨row₂, hrow₂, hesc⟩ | ⟨row₂, hmissed, -⟩)
      · obtain rfl := Option.some.inj (hrow₁.symm.trans hrow₂)
        exact hesc
      · rw [hmissed.apply_eq_none] at hrow₁
        cases hrow₁
    · rw [hnone, hnone', Option.bind_none, Option.bind_none]
      refine ⟨fun row₁ hrow₁ => ?_, fun _ => iff_of_false Bool.false_ne_true ?_⟩
      · cases hrow₁
      · rintro (⟨row₂, hrow₂, -⟩ | ⟨row₂, hmissed', -⟩)
        · rw [hnone] at hrow₂
          cases hrow₂
        · exact hmissed row₂ hmissed'
    · obtain ⟨hsome, hescapes⟩ := ih hagree
      rw [hmissed.apply_eq_none, hrow₁', Option.bind_none, Option.bind_some]
      refine ⟨fun row₂ hrow₂ => ?_, fun _ => ?_⟩
      · cases hrow₂
      have hsurvives : (applyCommands isTrue (slice requested commands) row₁').isSome = true ↔
          (applyCommands isTrue commands row₁).isSome = true ∨ Escapes isTrue requested commands row₁ := by
        cases hrun : applyCommands isTrue commands row₁ with
        | none => exact (hescapes hrun).trans (or_iff_right Bool.false_ne_true).symm
        | some row₂ =>
          have hsame := hsome row₂ hrun
          refine iff_of_true ?_ (Or.inl rfl)
          cases hrun' : applyCommands isTrue (slice requested commands) row₁' with
          | none =>
            rw [hrun'] at hsame
            cases hsame
          | some row₂' => rfl
      rw [hsurvives]
      constructor
      · exact fun hor => Or.inr ⟨row₁, hmissed, hor⟩
      · rintro (⟨row₂, hrow₂, -⟩ | ⟨row₂, hmissed₂, hor⟩)
        · rw [hmissed.apply_eq_none] at hrow₂
          cases hrow₂
        · obtain ⟨_, _, hcommand, -, -, rfl, -⟩ := hmissed
          obtain ⟨_, _, hcommand₂, -, -, rfl, -⟩ := hmissed₂
          obtain ⟨-, rfl⟩ := MutationCommand.update.inj (hcommand.symm.trans hcommand₂)
          exact hor

theorem sameOn_slice_iff (commands : List (MutationCommand V)) (row : String → V) :
    SameOn requested (applyCommands isTrue commands row) (applyCommands isTrue (slice requested commands) row) ↔
      ¬Escapes isTrue requested commands row := by
  obtain ⟨hsome, hnone⟩ := @slice_run V isTrue requested commands row row (Set.eqOn_refl _ _)
  cases hrun : applyCommands isTrue commands row with
  | some row₁ =>
    refine iff_of_true (hsome row₁ hrun) fun hesc => ?_
    rw [hesc.eq_none] at hrun
    cases hrun
  | none =>
    rw [← hnone hrun]
    cases hslice : applyCommands isTrue (slice requested commands) row with
    | none => exact iff_of_true Option.Rel.none Bool.false_ne_true
    | some row₁ =>
      refine iff_of_false (fun hsame => ?_) (not_not.2 rfl)
      cases hsame

/-- The columns that a command mentions. -/
def MutationCommand.mentions : MutationCommand V → List String
  | delete predicate => predicate.identifiers
  | update predicate assignments =>
    predicate.identifiers ++ assignments.flatMap fun assignment => assignment.1 :: assignment.2.identifiers

theorem mentions_sliceCommand (command : MutationCommand V) : ∀ kept ∈ sliceCommand needed command, ∀ column ∈ kept.mentions,
    column ∈ needed ∪ sourcesOf needed command := by
  intro kept hkept column hcolumn
  cases command with
  | delete predicate =>
    obtain rfl := List.mem_singleton.1 hkept
    exact Or.inr hcolumn
  | update predicate assignments =>
    rw [sliceCommand, List.mem_append] at hkept
    rcases hkept with hkept | hkept
    · split at hkept
      · exact absurd hkept List.not_mem_nil
      · rename_i hne
        obtain rfl := List.mem_singleton.1 hkept
        rcases List.mem_append.1 hcolumn with hcolumn | hcolumn
        · exact Or.inr (Or.inr ⟨Or.inr hne, hcolumn⟩)
        · obtain ⟨assignment, hin, hcolumn⟩ := List.mem_flatMap.1 hcolumn
          rcases List.mem_cons.1 hcolumn with rfl | hcolumn
          · exact Or.inl (mem_keptAssignments.1 hin).2.2
          · exact Or.inr (Or.inl ⟨assignment, hin, hcolumn⟩)
    · split at hkept
      · rename_i hdeletes
        obtain rfl := List.mem_singleton.1 hkept
        exact Or.inr (Or.inr ⟨Or.inl hdeletes, hcolumn⟩)
      · exact absurd hkept List.not_mem_nil

theorem mentions_slice : ∀ {commands : List (MutationCommand V)}, ∀ kept ∈ slice requested commands, ∀ column ∈ kept.mentions,
    column ∈ neededBefore requested commands := by
  intro commands
  induction commands with
  | nil => exact fun kept hkept => absurd hkept List.not_mem_nil
  | cons command commands ih =>
    intro kept hkept column hcolumn
    rcases List.mem_append.1 hkept with hkept | hkept
    · exact mentions_sliceCommand command kept hkept column hcolumn
    · exact Or.inl (ih kept hkept column hcolumn)

/-- **What the slice is to preserve**: the surviving rows of a table, with the values of the requested columns; and
what the returned commands mention is read. -/
structure SlicesRight (isTrue : V → Bool) (commands : List (MutationCommand V)) (requested : List String)
    (table : List (String → V)) : Prop where
  rows : ∀ row ∈ table, SameOn {column | column ∈ requested} (applyCommands isTrue commands row)
    (applyCommands isTrue (filterMutationCommands commands requested).1 row)
  reads : ∀ command ∈ (filterMutationCommands commands requested).1, ∀ column ∈ command.mentions,
    column ∈ (filterMutationCommands commands requested).2

/-- **The slice of the mutations is right exactly when no row of the table escapes.** -/
theorem filterMutationCommands_slices_iff (isTrue : V → Bool) (commands : List (MutationCommand V)) (requested : List String)
    (table : List (String → V)) : SlicesRight isTrue commands requested table ↔
      ∀ row ∈ table, ¬Escapes isTrue {column | column ∈ requested} commands row := by
  obtain ⟨hcommands, hcolumns⟩ := filterMutationCommands_eq commands requested
  have hrows : ∀ row, SameOn {column | column ∈ requested} (applyCommands isTrue commands row)
      (applyCommands isTrue (filterMutationCommands commands requested).1 row) ↔
        ¬Escapes isTrue {column | column ∈ requested} commands row := fun row => by
    rw [hcommands]
    exact sameOn_slice_iff commands row
  constructor
  · intro h row hrow
    exact (hrows row).1 (h.rows row hrow)
  · intro h
    refine ⟨fun row hrow => (hrows row).2 (h row hrow), fun command hcommand column hcolumn => ?_⟩
    rw [hcommands] at hcommand
    exact (hcolumns column).2 (mentions_slice command hcommand column hcolumn)

/-- `a = 0`. -/
def isZeroA : ColumnExpression ℕ where
  identifiers := ["a"]
  eval row := if row "a" = 0 then 1 else 0
  congr row row' h := by rw [h "a" (List.mem_singleton_self _)]

/-- `UPDATE a = 1, _row_exists = 0 WHERE a = 0`. -/
def updateAndDelete : MutationCommand ℕ :=
  .update isZeroA
    [("a", { identifiers := [], eval := fun _ => 1, congr := fun _ _ _ => rfl }),
      ("_row_exists", { identifiers := [], eval := fun _ => 0, congr := fun _ _ _ => rfl, isZero := true })]

/-- The row is removed by the command, but not by its slice. -/
theorem not_slicesRight_updateAndDelete : ¬SlicesRight (fun value => value ≠ 0) [updateAndDelete] ["a"] [fun _ => 0] := by
  intro h
  have hrow := h.rows _ (List.mem_singleton_self _)
  have hgone : applyCommands (fun value => value ≠ 0) [updateAndDelete] (fun _ => 0) = none := rfl
  have hstays : (applyCommands (fun value => value ≠ 0) (filterMutationCommands [updateAndDelete] ["a"]).1 fun _ => 0).isSome = true := by
    decide +kernel
  rw [hgone] at hrow
  cases hrun : applyCommands (fun value => value ≠ 0) (filterMutationCommands [updateAndDelete] ["a"]).1 fun _ => 0 with
  | none =>
    rw [hrun] at hstays
    cases hstays
  | some row =>
    rw [hrun] at hrow
    cases hrow

end MergeTree
