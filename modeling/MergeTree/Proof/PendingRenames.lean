import MergeTree.Spec.RequiredColumns

/-!
# Pending renames and drops

What a reader makes of a column is compared with the history of the table: which column of the part
it traces back to. Renames are composed by name and drops are a set of names, so a name that is
used again can be resolved to the wrong data.

* `nameInPart_rename`: where a rename leads, and what an older entry of the same name hides.
* `resolves_step_iff`: a step keeps the names right exactly when it meets `StepOk`.
* `resolves_run_iff`: so does a whole history.
-/

namespace MergeTree

/-! ## The history -/

/-- An `ALTER` of a column. `ADD COLUMN` is unknown to `AlterConversions`. -/
inductive AlterStep
  | renameColumn (columnName renameTo : String)
  | dropColumn (columnName : String)
  | addColumn (columnName : String)
deriving DecidableEq, Repr

/-- The columns of a table: for each the column of the time when the part was written, or nothing for an added one. -/
abbrev TableColumns : Type := String → Option (Option String)

/-- The table and the conversions for the part. -/
structure History where
  table : TableColumns
  conversions : AlterConversions := {}

namespace AlterStep

/-- The column exists, or does not exist. -/
def Valid (table : TableColumns) : AlterStep → Prop
  | renameColumn columnName renameTo => table columnName ≠ none ∧ table renameTo = none
  | dropColumn columnName => table columnName ≠ none
  | addColumn columnName => table columnName = none

instance (table : TableColumns) : (s : AlterStep) → Decidable (s.Valid table)
  | renameColumn _ _ => inferInstanceAs (Decidable (_ ∧ _))
  | dropColumn _ => inferInstanceAs (Decidable (_ ≠ _))
  | addColumn _ => inferInstanceAs (Decidable (_ = _))

/-- The step in the history of the table. -/
def replay (table : TableColumns) : AlterStep → TableColumns
  | renameColumn columnName renameTo => Function.update (Function.update table columnName none) renameTo (table columnName)
  | dropColumn columnName => Function.update table columnName none
  | addColumn columnName => Function.update table columnName (some none)

/-- The mutation command of the step. -/
def command? : AlterStep → Option MetadataCommand
  | renameColumn columnName renameTo => some (.renameColumn columnName renameTo)
  | dropColumn columnName => some (.dropColumn columnName)
  | addColumn _ => none

/-- The names of the step. -/
def names : AlterStep → List String
  | renameColumn columnName renameTo => [columnName, renameTo]
  | dropColumn columnName => [columnName]
  | addColumn columnName => [columnName]

end AlterStep

/-- A column of its own: neither Nested nor a virtual column. -/
structure Ordinary (part : PartInfoForReader) (name : String) : Prop where
  not_nested : ∀ p ∈ part.columns, '.' ∈ p.toList → AlterConversions.nestedPrefix p ≠ name
  not_virtual : isTextIndexVirtualColumn name = false

instance (part : PartInfoForReader) (name : String) : Decidable (Ordinary part name) :=
  decidable_of_iff ((∀ p ∈ part.columns, '.' ∈ p.toList → AlterConversions.nestedPrefix p ≠ name) ∧
    isTextIndexVirtualColumn name = false) ⟨fun h => ⟨h.1, h.2⟩, fun h => ⟨h.1, h.2⟩⟩

namespace History

/-- The history when the part was written. -/
def start (columns : List String) : History where
  table name := if name ∈ columns then some (some name) else none

/-- One step. -/
def step (history : History) (s : AlterStep) : History where
  table := s.replay history.table
  conversions := s.command?.elim history.conversions history.conversions.addMutationCommand

/-- Steps in order. -/
def run (history : History) (steps : List AlterStep) : History := steps.foldl step history

theorem table_add (history : History) (columnName name : String) : (history.step (.addColumn columnName)).table name =
    if name = columnName then some none else history.table name := Function.update_apply _ _ _ _

theorem table_drop (history : History) (columnName name : String) : (history.step (.dropColumn columnName)).table name =
    if name = columnName then none else history.table name := Function.update_apply _ _ _ _

theorem table_rename (history : History) (columnName renameTo name : String) :
    (history.step (.renameColumn columnName renameTo)).table name =
      if name = renameTo then history.table columnName else if name = columnName then none else history.table name := by
  refine (Function.update_apply _ _ _ _).trans ?_
  rw [Function.update_apply]

theorem conversions_rename (history : History) (columnName renameTo : String) :
    (history.step (.renameColumn columnName renameTo)).conversions =
      history.conversions.addMutationCommand (.renameColumn columnName renameTo) := rfl

theorem conversions_drop (history : History) (columnName : String) : (history.step (.dropColumn columnName)).conversions =
    history.conversions.addMutationCommand (.dropColumn columnName) := rfl

theorem conversions_add (history : History) (columnName : String) :
    (history.step (.addColumn columnName)).conversions = history.conversions := rfl

/-- Every step is valid where it is done, on columns of their own. -/
def ValidRun (part : PartInfoForReader) : List AlterStep → History → Prop
  | [], _ => True
  | s :: steps, history => s.Valid history.table ∧ (∀ name ∈ s.names, Ordinary part name) ∧ ValidRun part steps (history.step s)

instance decidableValidRun (part : PartInfoForReader) :
    (steps : List AlterStep) → (history : History) → Decidable (ValidRun part steps history)
  | [], _ => inferInstanceAs (Decidable True)
  | s :: steps, history =>
    have := decidableValidRun part steps (history.step s)
    inferInstanceAs (Decidable (_ ∧ _ ∧ _))

end History

/-! ## Names -/

namespace AlterConversions

/-- `rename_map` after a rename. -/
def addRename (columnName renameTo : String) (renameMap : List RenamePair) : List RenamePair :=
  (chainRename columnName renameTo renameMap).getD (renameMap ++ [⟨renameTo, columnName⟩])

theorem addMutationCommand_rename (conversions : AlterConversions) (columnName renameTo : String) :
    conversions.addMutationCommand (.renameColumn columnName renameTo) =
      { conversions with renameMap := addRename columnName renameTo conversions.renameMap } := by
  unfold addMutationCommand addRename
  cases hchain : chainRename columnName renameTo conversions.renameMap with
  | none => simp only [hchain, Option.getD_none]
  | some renameMap => simp only [hchain, Option.getD_some]

theorem addRename_cons (columnName renameTo : String) (entry : RenamePair) (renameMap : List RenamePair) :
    addRename columnName renameTo (entry :: renameMap) =
      if entry.renameTo = columnName then { entry with renameTo } :: renameMap
      else entry :: addRename columnName renameTo renameMap := by
  unfold addRename
  rw [chainRename]
  split
  · rfl
  · cases chainRename columnName renameTo renameMap with
    | none => rfl
    | some renameMap' => rfl

/-- The first entry that leads to a name. -/
def entryTo (name : String) (renameMap : List RenamePair) : Option RenamePair :=
  renameMap.find? fun entry => entry.renameTo = name

theorem entryTo_cons (name : String) (entry : RenamePair) (renameMap : List RenamePair) :
    entryTo name (entry :: renameMap) = if entry.renameTo = name then some entry else entryTo name renameMap := by
  unfold entryTo
  rw [List.find?_cons]
  by_cases h : entry.renameTo = name
  · rw [decide_eq_true h, if_pos h]
  · rw [decide_eq_false h, if_neg h]

theorem nameInPart_eq (conversions : AlterConversions) (name : String) :
    conversions.nameInPart name = ((entryTo name conversions.renameMap).map RenamePair.renameFrom).getD name := rfl

/-- An older entry of the new name, in front of the entry of the column. -/
def hides (columnName renameTo : String) (renameMap : List RenamePair) : Option RenamePair :=
  entryTo renameTo (renameMap.takeWhile fun entry => entry.renameTo ≠ columnName)

variable {columnName renameTo name : String}

theorem entryTo_addRename_of_ne (hne : name ≠ columnName) (hne' : name ≠ renameTo) : ∀ renameMap : List RenamePair,
    entryTo name (addRename columnName renameTo renameMap) = entryTo name renameMap := by
  intro renameMap
  induction renameMap with
  | nil => exact (entryTo_cons _ _ _).trans (if_neg hne'.symm)
  | cons entry renameMap ih =>
    rw [addRename_cons, entryTo_cons]
    by_cases hentry : entry.renameTo = columnName
    · rw [if_pos hentry, entryTo_cons, if_neg hne'.symm, if_neg (by rw [hentry]; exact hne.symm)]
    · rw [if_neg hentry, entryTo_cons, ih]

theorem renameFrom_addRename (columnName renameTo : String) : ∀ renameMap : List RenamePair,
    (entryTo renameTo (addRename columnName renameTo renameMap)).map RenamePair.renameFrom =
      some (((hides columnName renameTo renameMap).map RenamePair.renameFrom).getD
        (((entryTo columnName renameMap).map RenamePair.renameFrom).getD columnName)) := by
  intro renameMap
  induction renameMap with
  | nil => exact congrArg (Option.map RenamePair.renameFrom) ((entryTo_cons _ _ _).trans (if_pos rfl))
  | cons entry renameMap ih =>
    rw [addRename_cons, entryTo_cons, hides, List.takeWhile_cons]
    by_cases hentry : entry.renameTo = columnName
    · -- the entry of the column leads to the new name now
      rw [if_pos hentry, if_pos hentry, entryTo_cons, if_pos rfl, if_neg (by simpa using hentry)]
      rfl
    · rw [if_neg hentry, if_neg hentry, if_pos (by simpa using hentry), entryTo_cons, entryTo_cons]
      by_cases hto : entry.renameTo = renameTo
      · rw [if_pos hto, if_pos hto]
        rfl
      · rw [if_neg hto, if_neg hto]
        exact ih

/-- **Where a rename leads**: to the source of the column, unless an older entry of the new name hides it. -/
theorem nameInPart_rename (conversions : AlterConversions) (columnName renameTo : String) :
    (conversions.addMutationCommand (.renameColumn columnName renameTo)).nameInPart renameTo =
      ((hides columnName renameTo conversions.renameMap).map RenamePair.renameFrom).getD (conversions.nameInPart columnName) := by
  rw [addMutationCommand_rename, nameInPart_eq, renameFrom_addRename]
  rfl

theorem nameInPart_rename_of_ne (conversions : AlterConversions) (hne : name ≠ columnName) (hne' : name ≠ renameTo) :
    (conversions.addMutationCommand (.renameColumn columnName renameTo)).nameInPart name = conversions.nameInPart name := by
  rw [addMutationCommand_rename, nameInPart_eq, entryTo_addRename_of_ne hne hne']
  rfl

theorem nameInPart_drop (conversions : AlterConversions) (columnName name : String) :
    (conversions.addMutationCommand (.dropColumn columnName)).nameInPart name = conversions.nameInPart name := rfl

end AlterConversions

/-! ## What the reader makes of a column -/

/-- The part has data under a name that no pending drop has given up. -/
def Holds (part : PartInfoForReader) (conversions : AlterConversions) (name : String) : Prop :=
  name ∈ part.columns ∧ ¬conversions.isColumnDropped name = true

instance (part : PartInfoForReader) (conversions : AlterConversions) (name : String) : Decidable (Holds part conversions name) :=
  inferInstanceAs (Decidable (_ ∧ _))

/-- What is read under a name of the part. -/
def source (part : PartInfoForReader) (conversions : AlterConversions) (name : String) : Option String :=
  if Holds part conversions name then some name else none

variable {part : PartInfoForReader} {conversions : AlterConversions} {history : History} {name : String} {s : AlterStep}

theorem source_eq_iff {name' : String} : source part conversions name = source part conversions name' ↔
    name = name' ∨ (¬Holds part conversions name ∧ ¬Holds part conversions name') := by
  unfold source
  split
  · rename_i h
    split
    · rw [Option.some_inj]
      exact ⟨Or.inl, fun hor => hor.resolve_right fun hno => hno.1 h⟩
    · rename_i h'
      refine iff_of_false (Option.some_ne_none _) ?_
      rintro (rfl | hno)
      · exact h' h
      · exact hno.1 h
  · rename_i h
    split
    · rename_i h'
      refine iff_of_false (Option.some_ne_none _).symm ?_
      rintro (rfl | hno)
      · exact h h'
      · exact hno.2 h'
    · rename_i h'
      exact iff_of_true rfl (Or.inr ⟨h, h'⟩)

/-- The part with the conversions of the history. -/
def PartInfoForReader.at (part : PartInfoForReader) (history : History) : PartInfoForReader :=
  { part with alterConversions := history.conversions }

theorem readsFrom_at (hpart : part.isProjectionPart = false) (history : History) (name : String) :
    (part.at history).readsFrom { nameInStorage := name } = source part history.conversions (history.conversions.nameInPart name) := by
  unfold PartInfoForReader.readsFrom PartInfoForReader.isColumnDroppedByPendingMutation PartInfoForReader.hasColumn source Holds
  simp only [PartInfoForReader.at, PartInfoForReader.getColumnInPart, hpart, Option.all_none, Bool.not_false, Bool.true_and,
    and_true, decide_eq_true_eq]
  exact if_congr Iff.rfl rfl rfl

/-- What the history says: the column of the part it traces back to. -/
def expected (part : PartInfoForReader) (origin : Option String) : Option String := origin.filter fun p => p ∈ part.columns

/-- **Every column of the table is read from the column it traces back to**, or is missing. -/
def Resolves (part : PartInfoForReader) (history : History) : Prop :=
  ∀ name origin, history.table name = some origin →
    source part history.conversions (history.conversions.nameInPart name) = expected part origin

/-- **The condition of a step**: an added column finds no data under its name, no other column traces back to the
column of the part that a drop names, and no older entry of the new name stands in front of the entry of a renamed
column, unless both lead to the same column or nowhere. -/
def StepOk (part : PartInfoForReader) (history : History) : AlterStep → Prop
  | .addColumn columnName => ¬Holds part history.conversions (history.conversions.nameInPart columnName)
  | .dropColumn columnName =>
    columnName ∈ part.columns → ∀ name, name ≠ columnName → history.table name ≠ some (some columnName)
  | .renameColumn columnName renameTo =>
    ∀ entry, AlterConversions.hides columnName renameTo history.conversions.renameMap = some entry →
      entry.renameFrom = history.conversions.nameInPart columnName ∨
        (¬Holds part history.conversions entry.renameFrom ∧
          ¬Holds part history.conversions (history.conversions.nameInPart columnName))

/-- Names of columns of their own. -/
structure Named (part : PartInfoForReader) (history : History) : Prop where
  table : ∀ name, history.table name ≠ none → Ordinary part name
  renameFrom : ∀ entry ∈ history.conversions.renameMap, Ordinary part entry.renameFrom
  dropped : ∀ name ∈ history.conversions.droppedColumns, Ordinary part name

theorem isColumnDropped_iff (hdropped : ∀ name ∈ conversions.droppedColumns, Ordinary part name) {p : String}
    (hp : p ∈ part.columns) : conversions.isColumnDropped p = true ↔ p ∈ conversions.droppedColumns := by
  unfold AlterConversions.isColumnDropped
  rw [decide_eq_true_eq]
  refine or_iff_left fun hnested => ?_
  exact (hdropped _ hnested.2).not_nested p hp hnested.1 rfl

theorem mem_addRename {columnName renameTo : String} {entry : RenamePair} : ∀ {renameMap : List RenamePair},
    entry ∈ AlterConversions.addRename columnName renameTo renameMap →
      entry.renameFrom = columnName ∨ ∃ old ∈ renameMap, old.renameFrom = entry.renameFrom := by
  intro renameMap
  induction renameMap with
  | nil =>
    intro h
    obtain rfl := List.mem_singleton.1 h
    exact Or.inl rfl
  | cons first renameMap ih =>
    intro h
    rw [AlterConversions.addRename_cons] at h
    split at h
    · rcases List.mem_cons.1 h with rfl | h
      · exact Or.inr ⟨first, List.mem_cons_self, rfl⟩
      · exact Or.inr ⟨entry, List.mem_cons_of_mem _ h, rfl⟩
    · rcases List.mem_cons.1 h with rfl | h
      · exact Or.inr ⟨entry, List.mem_cons_self, rfl⟩
      · refine (ih h).imp id ?_
        rintro ⟨old, hold, heq⟩
        exact ⟨old, List.mem_cons_of_mem _ hold, heq⟩

theorem Named.step (h : Named part history) (hnames : ∀ name ∈ s.names, Ordinary part name) : Named part (history.step s) := by
  cases s with
  | renameColumn columnName renameTo =>
    refine ⟨fun name hname => ?_, fun entry hentry => ?_, fun name hname => ?_⟩
    · by_cases hto : name = renameTo
      · rw [hto]
        exact hnames renameTo (by simp [AlterStep.names])
      · refine h.table name fun hnone => hname ?_
        rw [History.table_rename, if_neg hto, hnone, ite_self]
    · rw [History.conversions_rename, AlterConversions.addMutationCommand_rename] at hentry
      rcases mem_addRename hentry with heq | ⟨old, hold, heq⟩
      · rw [heq]
        exact hnames columnName (by simp [AlterStep.names])
      · rw [← heq]
        exact h.renameFrom old hold
    · rw [History.conversions_rename, AlterConversions.addMutationCommand_rename] at hname
      exact h.dropped name hname
  | dropColumn columnName =>
    refine ⟨fun name hname => h.table name fun hnone => hname ?_, h.renameFrom, fun name hname => ?_⟩
    · rw [History.table_drop, hnone, ite_self]
    · rcases List.mem_cons.1 hname with rfl | hname
      · exact hnames name (by simp [AlterStep.names])
      · exact h.dropped name hname
  | addColumn columnName =>
    refine ⟨fun name hname => ?_, h.renameFrom, h.dropped⟩
    by_cases hadded : name = columnName
    · rw [hadded]
      exact hnames columnName (by simp [AlterStep.names])
    · refine h.table name fun hnone => hname ?_
      rw [History.table_add, if_neg hadded, hnone]

/-! ## Steps -/

theorem resolves_add_iff {columnName : String} (h : Resolves part history) :
    Resolves part (history.step (.addColumn columnName)) ↔ StepOk part history (.addColumn columnName) := by
  constructor
  · intro hstep
    have hadded : source part history.conversions (history.conversions.nameInPart columnName) = none :=
      hstep columnName none (by rw [History.table_add, if_pos rfl])
    intro hholds
    rw [source, if_pos hholds] at hadded
    cases hadded
  · intro hok name origin hname
    rw [History.table_add] at hname
    rw [History.conversions_add]
    by_cases hadded : name = columnName
    · rw [if_pos hadded] at hname
      obtain rfl := Option.some.inj hname
      rw [hadded]
      exact if_neg hok
    · rw [if_neg hadded] at hname
      exact h name origin hname

theorem source_rename {columnName renameTo : String} (name : String) :
    source part (conversions.addMutationCommand (.renameColumn columnName renameTo)) name = source part conversions name := by
  rw [AlterConversions.addMutationCommand_rename]
  rfl

theorem resolves_rename_iff {columnName renameTo : String} (h : Resolves part history)
    (hvalid : (AlterStep.renameColumn columnName renameTo).Valid history.table) :
    Resolves part (history.step (.renameColumn columnName renameTo)) ↔ StepOk part history (.renameColumn columnName renameTo) := by
  obtain ⟨hexists, hfree⟩ := hvalid
  obtain ⟨origin, horigin⟩ := Option.ne_none_iff_exists'.1 hexists
  have hread := h columnName origin horigin
  have hleads := AlterConversions.nameInPart_rename history.conversions columnName renameTo
  have hrenamed : (history.step (.renameColumn columnName renameTo)).table renameTo = some origin :=
    by rw [History.table_rename, if_pos rfl, horigin]
  constructor
  · intro hstep entry hentry
    have hnow := hstep renameTo origin hrenamed
    rw [History.conversions_rename, hleads, hentry, source_rename, ← hread] at hnow
    exact source_eq_iff.1 hnow
  · intro hok name origin' hname
    rw [History.conversions_rename, source_rename]
    by_cases hto : name = renameTo
    · rw [hto] at hname ⊢
      obtain rfl := Option.some.inj (hrenamed.symm.trans hname)
      rw [hleads, ← hread]
      cases hentry : AlterConversions.hides columnName renameTo history.conversions.renameMap with
      | none => rfl
      | some entry => exact source_eq_iff.2 (hok entry hentry)
    · rw [History.table_rename, if_neg hto] at hname
      have hfrom : name ≠ columnName := fun hfrom => by
        rw [if_pos hfrom] at hname
        cases hname
      rw [if_neg hfrom] at hname
      rw [AlterConversions.nameInPart_rename_of_ne _ hfrom hto]
      exact h name origin' hname

theorem resolves_drop_iff {columnName : String} (h : Resolves part history) (hnamed : Named part history)
    (hordinary : Ordinary part columnName) :
    Resolves part (history.step (.dropColumn columnName)) ↔ StepOk part history (.dropColumn columnName) := by
  -- a drop changes what is read under its name only
  have hdropped : ∀ name ∈ columnName :: history.conversions.droppedColumns, Ordinary part name :=
    List.forall_mem_cons.2 ⟨hordinary, hnamed.dropped⟩
  have hsource : ∀ p, source part (history.conversions.addMutationCommand (.dropColumn columnName)) p =
      if p = columnName then none else source part history.conversions p := by
    intro p
    have hiff : Holds part (history.conversions.addMutationCommand (.dropColumn columnName)) p ↔
        p ≠ columnName ∧ Holds part history.conversions p := by
      unfold Holds
      by_cases hp : p ∈ part.columns
      · rw [isColumnDropped_iff hdropped hp, isColumnDropped_iff hnamed.dropped hp]
        change _ ∧ p ∉ columnName :: _ ↔ _
        rw [List.mem_cons, not_or]
        tauto
      · exact iff_of_false (fun hholds => hp hholds.1) fun hholds => hp hholds.2.1
    unfold source
    by_cases hp : p = columnName
    · rw [if_pos hp, if_neg fun hholds => (hiff.1 hholds).1 hp]
    · rw [if_neg hp]
      exact if_congr (hiff.trans (and_iff_right hp)) rfl rfl
  have htable : ∀ {name origin}, (history.step (.dropColumn columnName)).table name = some origin ↔
      name ≠ columnName ∧ history.table name = some origin := by
    intro name origin
    rw [History.table_drop]
    by_cases hname : name = columnName
    · rw [if_pos hname]
      exact iff_of_false (Option.some_ne_none _).symm fun hne => hne.1 hname
    · rw [if_neg hname, and_iff_right hname]
  constructor
  · intro hstep hin name hne htraces
    have hnow := hstep name (some columnName) (htable.2 ⟨hne, htraces⟩)
    have hbefore := h name (some columnName) htraces
    have hexpected : expected part (some columnName) = some columnName := by
      rw [expected, Option.filter_some, if_pos (decide_eq_true hin)]
    rw [History.conversions_drop, hsource, AlterConversions.nameInPart_drop] at hnow
    rw [hexpected] at hnow hbefore
    have hsame : history.conversions.nameInPart name = columnName := by
      unfold source at hbefore
      split at hbefore
      · exact Option.some.inj hbefore
      · cases hbefore
    rw [if_pos hsame] at hnow
    cases hnow
  · intro hok name origin hname
    obtain ⟨hne, htraces⟩ := htable.1 hname
    have hbefore := h name origin htraces
    rw [History.conversions_drop, hsource, AlterConversions.nameInPart_drop]
    by_cases hsame : history.conversions.nameInPart name = columnName
    · rw [if_pos hsame]
      -- otherwise the column would trace back to the dropped one
      by_cases hholds : Holds part history.conversions columnName
      · rw [hsame, source, if_pos hholds] at hbefore
        obtain ⟨p, rfl, hp⟩ : ∃ p, origin = some p ∧ p = columnName := by
          cases origin with
          | none => cases hbefore
          | some p =>
            rw [expected, Option.filter_some] at hbefore
            split at hbefore
            · exact ⟨p, rfl, (Option.some.inj hbefore).symm⟩
            · cases hbefore
        rw [hp] at htraces
        exact absurd htraces (hok hholds.1 name hne)
      · rw [hsame, source, if_neg hholds] at hbefore
        exact hbefore
    · rw [if_neg hsame]
      exact hbefore

/-- **A step keeps the names right exactly when it meets its condition.** -/
theorem resolves_step_iff (h : Resolves part history) (hnamed : Named part history) (hvalid : s.Valid history.table)
    (hnames : ∀ name ∈ s.names, Ordinary part name) : Resolves part (history.step s) ↔ StepOk part history s := by
  cases s with
  | renameColumn columnName renameTo => exact resolves_rename_iff h hvalid
  | dropColumn columnName => exact resolves_drop_iff h hnamed (hnames columnName (List.mem_singleton_self _))
  | addColumn columnName => exact resolves_add_iff h

/-! ## Histories -/

/-- Every step meets its condition where it is done. -/
def RunOk (part : PartInfoForReader) : List AlterStep → History → Prop
  | [], _ => True
  | s :: steps, history => StepOk part history s ∧ RunOk part steps (history.step s)

theorem resolves_run_iff : ∀ {steps : List AlterStep} {history : History}, Resolves part history → Named part history →
    History.ValidRun part steps history →
      ((∀ n ≤ steps.length, Resolves part (history.run (steps.take n))) ↔ RunOk part steps history) := by
  intro steps
  induction steps with
  | nil => exact fun h _ _ => iff_of_true (fun n _ => by rwa [List.take_nil]) trivial
  | cons s steps ih =>
    intro history h hnamed hvalid
    obtain ⟨hvalid, hnames, hrest⟩ := hvalid
    have hstep := resolves_step_iff h hnamed hvalid hnames
    constructor
    · intro hall
      have hfirst : Resolves part (history.step s) := hall 1 (Nat.succ_le_succ (Nat.zero_le _))
      refine ⟨hstep.1 hfirst, (ih hfirst (hnamed.step hnames) hrest).1 fun n hn => ?_⟩
      exact hall (n + 1) (Nat.succ_le_succ hn)
    · rintro ⟨hok, hoks⟩ n hn
      have hfirst := hstep.2 hok
      cases n with
      | zero => exact h
      | succ n => exact (ih hfirst (hnamed.step hnames) hrest).2 hoks n (Nat.le_of_succ_le_succ hn)

theorem resolves_start (part : PartInfoForReader) (columns : List String) : Resolves part (.start columns) := by
  intro name origin hname
  have horigin : origin = some name := by
    change (if name ∈ columns then some (some name) else none) = _ at hname
    split at hname
    · exact (Option.some.inj hname).symm
    · cases hname
  change source part {} name = _
  rw [horigin, expected, Option.filter_some, source]
  refine if_congr ?_ rfl rfl
  rw [decide_eq_true_eq]
  refine and_iff_left ?_
  unfold AlterConversions.isColumnDropped
  simp

theorem named_start {columns : List String} (hordinary : ∀ name ∈ columns, Ordinary part name) : Named part (.start columns) := by
  refine ⟨fun name hname => ?_, fun entry hentry => absurd hentry List.not_mem_nil, fun name hname => absurd hname List.not_mem_nil⟩
  by_contra hno
  exact hname (if_neg fun hin => hno (hordinary name hin))

theorem Named.run : ∀ {steps : List AlterStep} {history : History}, Named part history → History.ValidRun part steps history →
    ∀ n, Named part (history.run (steps.take n)) := by
  intro steps
  induction steps with
  | nil => exact fun h _ n => by rwa [List.take_nil]
  | cons s steps ih =>
    intro history h hvalid n
    obtain ⟨-, hnames, hrest⟩ := hvalid
    cases n with
    | zero => exact h
    | succ n => exact ih (h.step hnames) hrest n

/-! ## The reader and the injected columns -/

theorem Named.nameInPart (h : Named part history) {origin : Option String} (hname : history.table name = some origin) :
    isTextIndexVirtualColumn (history.conversions.nameInPart name) = false := by
  rw [AlterConversions.nameInPart_eq]
  cases hentry : AlterConversions.entryTo name history.conversions.renameMap with
  | none => exact (h.table name (by rw [hname]; exact Option.some_ne_none _)).not_virtual
  | some entry => exact (h.renameFrom entry (List.mem_of_find?_eq_some hentry)).not_virtual

/-- `injectRequiredColumnsRecursively` for a column without default decides as the reader. -/
theorem injectRequiredColumnsRecursively_eq (hpart : part.isProjectionPart = false) (hnamed : Named part history)
    {origin : Option String} (hname : history.table name = some origin) {snapshot : StorageSnapshot}
    (hcolumn : snapshot.tryGetColumn name = some { nameInStorage := name }) (hdefault : snapshot.getDefault name = none)
    (stack : ℕ) (injection : Injection) :
    (part.at history).injectRequiredColumnsRecursively snapshot (stack + 1) name injection =
      .ok (if (source part history.conversions (history.conversions.nameInPart name)).isSome then (injection.addColumn name, true)
        else (injection, false)) := by
  have hreadable : (part.at history).isReadable snapshot name =
      (source part history.conversions (history.conversions.nameInPart name)).isSome := by
    have hvirtual := hnamed.nameInPart hname
    unfold PartInfoForReader.isReadable
    rw [hcolumn]
    by_cases hholds : Holds part history.conversions (history.conversions.nameInPart name)
    · rw [source, if_pos hholds]
      obtain ⟨hin, hdropped⟩ := hholds
      simp [PartInfoForReader.conversionsForInjection, PartInfoForReader.at, hpart, hin, hdropped]
    · rw [source, if_neg hholds]
      unfold Holds at hholds
      simpa [PartInfoForReader.conversionsForInjection, PartInfoForReader.at, hpart, hvirtual] using hholds
  rw [PartInfoForReader.injectRequiredColumnsRecursively, hreadable, hdefault]
  split
  · rfl
  · rfl

/-- **What is read of the columns of the table**: each from the column of the part it traces back to, or missing;
and `injectRequiredColumnsRecursively` agrees. -/
def ReadsRight (part : PartInfoForReader) (history : History) : Prop :=
  ∀ name origin, history.table name = some origin →
    (part.at history).readsFrom { nameInStorage := name } = expected part origin ∧
      ∀ snapshot : StorageSnapshot, snapshot.tryGetColumn name = some { nameInStorage := name } → snapshot.getDefault name = none →
        ∀ stack injection, (part.at history).injectRequiredColumnsRecursively snapshot (stack + 1) name injection =
          .ok (if (expected part origin).isSome then (injection.addColumn name, true) else (injection, false))

theorem readsRight_iff (hpart : part.isProjectionPart = false) (hnamed : Named part history) :
    ReadsRight part history ↔ Resolves part history := by
  constructor
  · intro h name origin hname
    rw [← readsFrom_at hpart]
    exact (h name origin hname).1
  · intro h name origin hname
    have hread := h name origin hname
    refine ⟨(readsFrom_at hpart history name).trans hread, fun snapshot hcolumn hdefault stack injection => ?_⟩
    rw [injectRequiredColumnsRecursively_eq hpart hnamed hname hcolumn hdefault, hread]

/-- **Pending renames and drops resolve to the right data**, after every step of a history, exactly when every
step meets its condition. -/
theorem readsRight_run_iff (part : PartInfoForReader) (columns : List String) (steps : List AlterStep)
    (hpart : part.isProjectionPart = false) (hordinary : ∀ name ∈ columns, Ordinary part name)
    (hvalid : History.ValidRun part steps (.start columns)) :
    (∀ n ≤ steps.length, ReadsRight part ((History.start columns).run (steps.take n))) ↔ RunOk part steps (.start columns) := by
  have hnamed := named_start hordinary
  rw [← resolves_run_iff (resolves_start part columns) hnamed hvalid]
  refine forall_congr' fun n => forall_congr' fun _ => ?_
  exact readsRight_iff hpart (hnamed.run hvalid n)

/-- A part with two columns. -/
def renamedPart : PartInfoForReader := { columns := ["a", "d"] }

/-- A column is renamed twice, another one is dropped and added again. -/
def renames : List AlterStep := [.renameColumn "a" "b", .renameColumn "b" "c", .dropColumn "d", .addColumn "d"]

theorem readsRight_renames : renames ≠ [] ∧
    ∀ n ≤ renames.length, ReadsRight renamedPart ((History.start ["a", "d"]).run (renames.take n)) := by
  refine ⟨by decide, ?_⟩
  refine (readsRight_run_iff renamedPart ["a", "d"] renames rfl (by decide +kernel) (by decide +kernel)).2
    ⟨fun entry hentry => ?_, fun entry hentry => ?_, fun _ name hne htraces => ?_,
      (by change ¬Holds _ _ _; decide +kernel), trivial⟩
  · have hnone : AlterConversions.hides "a" "b" (History.start ["a", "d"]).conversions.renameMap = none := by decide +kernel
    rw [hnone] at hentry
    cases hentry
  · have hnone : AlterConversions.hides "b" "c" ((History.start ["a", "d"]).step (.renameColumn "a" "b")).conversions.renameMap =
        none := by decide +kernel
    rw [hnone] at hentry
    cases hentry
  · -- no other column traces back to the dropped one
    rw [History.table_rename, History.table_rename, History.table_rename] at htraces
    have hb : (if "b" = "b" then (History.start ["a", "d"]).table "a" else
        if "b" = "a" then none else (History.start ["a", "d"]).table "b") = some (some "a") := by decide +kernel
    rw [hb] at htraces
    have hd : ∀ name, (History.start ["a", "d"]).table name = some (some "d") → name = "d" := by
      intro name hname
      change (if name ∈ ["a", "d"] then some (some name) else none) = _ at hname
      split at hname
      · exact Option.some.inj (Option.some.inj hname)
      · cases hname
    split at htraces
    · exact absurd htraces (by decide +kernel)
    · split at htraces
      · cases htraces
      · split at htraces
        · cases htraces
        · exact hne (hd name htraces)

/-- A column is renamed, and its old name is used again. -/
theorem not_readsRight_reused : History.ValidRun renamedPart [.renameColumn "a" "b", .addColumn "a"] (.start ["a", "d"]) ∧
    ¬ReadsRight renamedPart ((History.start ["a", "d"]).run [.renameColumn "a" "b", .addColumn "a"]) := by
  refine ⟨by decide +kernel, fun h => ?_⟩
  have hread := (h "a" none (by rfl)).1
  have hstale : (renamedPart.at ((History.start ["a", "d"]).run [.renameColumn "a" "b", .addColumn "a"])).readsFrom
      { nameInStorage := "a" } = some "a" := by decide +kernel
  rw [hstale] at hread
  cases hread

end MergeTree
