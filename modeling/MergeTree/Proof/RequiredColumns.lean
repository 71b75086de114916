import MergeTree.Spec.RequiredColumns

/-!
# The injected columns

`injectRequiredColumns` adds the readable columns that the requested ones reach through default
expressions of missing columns. When there is none, a column of minimum size is taken by its
name in the part, which need not be readable under this name, or may be requested already.

* `injectRequiredColumnsRecursively_spec`: the recursion adds what is found from a column.
* `injectLoop_spec`: the loop adds what is found from the requested columns.
* `getColumnNameWithMinimumCompressedSize_eq_ok`: the first column of minimum size.
* `injectRequiredColumns_complete_iff`: the result is right exactly when the column of minimum
  size, where it is needed, is a new column that the reader reads.
-/

namespace MergeTree

open Relation

/-- A property of each element of a list that holds from some number on holds of all of them from some number on. -/
theorem exists_bound_of_forall_mem {A : Type} {P : A → ℕ → Prop} : ∀ {l : List A}, (∀ a ∈ l, ∃ n, ∀ k ≥ n, P a k) →
    ∃ n, ∀ a ∈ l, ∀ k ≥ n, P a k := by
  intro l
  induction l with
  | nil => exact fun _ => ⟨0, fun a ha => absurd ha List.not_mem_nil⟩
  | cons a l ih =>
    intro h
    obtain ⟨n, hn⟩ := h a List.mem_cons_self
    obtain ⟨n', hn'⟩ := ih fun b hb => h b (List.mem_cons_of_mem a hb)
    refine ⟨max n n', List.forall_mem_cons.2 ⟨fun k hk => hn k (le_of_max_le_left hk), fun b hb k hk => ?_⟩⟩
    exact hn' b hb k (le_of_max_le_right hk)

namespace PartInfoForReader

variable {part : PartInfoForReader} {snapshot : StorageSnapshot}

/-! ## What is found -/

/-- A missing column depends on the identifiers of its default expression. -/
def DependsOn (part : PartInfoForReader) (snapshot : StorageSnapshot) (column identifier : String) : Prop :=
  part.isReadable snapshot column = false ∧ ∃ identifiers, snapshot.getDefault column = some identifiers ∧ identifier ∈ identifiers

/-- The readable columns that a column reaches through default expressions of missing columns. -/
def foundFrom (part : PartInfoForReader) (snapshot : StorageSnapshot) (column : String) : Set String :=
  {found | ReflTransGen (part.DependsOn snapshot) column found ∧ part.isReadable snapshot found = true}

/-- The readable columns that some of the columns reach. -/
def found (part : PartInfoForReader) (snapshot : StorageSnapshot) (columns : List String) : Set String :=
  {found | ∃ column ∈ columns, found ∈ part.foundFrom snapshot column}

/-- Default expressions are acyclic. -/
def AcyclicDefaults (snapshot : StorageSnapshot) : Prop :=
  WellFounded fun identifier column => ∃ identifiers, snapshot.getDefault column = some identifiers ∧ identifier ∈ identifiers

theorem foundFrom_of_readable {column : String} (h : part.isReadable snapshot column = true) :
    part.foundFrom snapshot column = {column} := by
  ext other
  constructor
  · rintro ⟨hreach, -⟩
    rcases hreach.cases_head with rfl | ⟨_, ⟨hmissing, -⟩, -⟩
    · rfl
    · rw [h] at hmissing
      cases hmissing
  · rintro rfl
    exact ⟨ReflTransGen.refl, h⟩

theorem foundFrom_of_missing {column : String} (h : part.isReadable snapshot column = false) :
    part.foundFrom snapshot column = part.found snapshot ((snapshot.getDefault column).getD []) := by
  ext other
  constructor
  · rintro ⟨hreach, hreadable⟩
    rcases hreach.cases_head with rfl | ⟨identifier, ⟨-, identifiers, hdefault, hin⟩, hreach⟩
    · rw [h] at hreadable
      cases hreadable
    · rw [hdefault]
      exact ⟨identifier, hin, hreach, hreadable⟩
  · rintro ⟨identifier, hin, hreach, hreadable⟩
    cases hdefault : snapshot.getDefault column with
    | none =>
      rw [hdefault] at hin
      exact absurd hin List.not_mem_nil
    | some identifiers =>
      rw [hdefault] at hin
      exact ⟨ReflTransGen.head ⟨h, identifiers, hdefault, hin⟩ hreach, hreadable⟩

theorem found_cons (column : String) (columns : List String) :
    part.found snapshot (column :: columns) = part.foundFrom snapshot column ∪ part.found snapshot columns := by
  ext other
  constructor
  · rintro ⟨c, hc, h⟩
    rcases List.mem_cons.1 hc with rfl | hc
    · exact Or.inl h
    · exact Or.inr ⟨c, hc, h⟩
  · rintro (h | ⟨c, hc, h⟩)
    · exact ⟨column, List.mem_cons_self, h⟩
    · exact ⟨c, List.mem_cons_of_mem _ hc, h⟩

/-! ## The recursion -/

/-- The set has the columns of the list, which has none twice. -/
structure Consistent (injection : Injection) : Prop where
  required : ∀ column, column ∈ injection.requiredColumns ↔ column ∈ injection.columns
  nodup : injection.columns.Nodup

/-- Columns were added at the end, and now the columns of a set are there. -/
structure Grows (injection : Injection) (added : Set String) (injection' : Injection) : Prop where
  isPrefix : injection.columns <+: injection'.columns
  consistent : Consistent injection'
  mem : ∀ column, column ∈ injection'.columns ↔ column ∈ injection.columns ∨ column ∈ added

variable {injection injection' : Injection}

theorem Grows.trans {injection'' : Injection} {added added' : Set String} (h : Grows injection added injection')
    (h' : Grows injection' added' injection'') : Grows injection (added ∪ added') injection'' :=
  ⟨h.isPrefix.trans h'.isPrefix, h'.consistent, fun column => by rw [h'.mem, h.mem, or_assoc, Set.mem_union]⟩

theorem Consistent.grows_empty (h : Consistent injection) : Grows injection ∅ injection :=
  ⟨List.prefix_rfl, h, fun column => (or_iff_left (Set.notMem_empty column)).symm⟩

theorem Consistent.addColumn (h : Consistent injection) (column : String) : Grows injection {column} (injection.addColumn column) := by
  unfold Injection.addColumn
  split
  · rename_i hin
    refine ⟨List.prefix_rfl, h, fun other => (or_iff_left_of_imp ?_).symm⟩
    rintro rfl
    exact (h.required other).1 hin
  · rename_i hnew
    have hnew' : column ∉ injection.columns := fun hin => hnew ((h.required column).2 hin)
    refine ⟨List.prefix_append _ _, ⟨fun other => ?_, ?_⟩, fun other => ?_⟩
    · rw [List.mem_cons, List.mem_append, List.mem_singleton, h.required, or_comm]
    · exact List.nodup_append.2 ⟨h.nodup, List.nodup_singleton _, fun a ha b hb => by
        rw [List.mem_singleton.1 hb]
        rintro rfl
        exact hnew' ha⟩
    · rw [List.mem_append, List.mem_singleton]
      rfl

/-- What a call of the recursion does: the columns of a set are added, and the answer is whether there are any. -/
def Adds (added : Set String) (injection : Injection) (call : Except ReadColumnsError (Injection × Bool)) : Prop :=
  ∃ injection' answer, call = .ok (injection', answer) ∧ Grows injection added injection' ∧ (answer = true ↔ added.Nonempty)

theorem adds_foldlM {stack : ℕ} : ∀ {identifiers : List String} {injection : Injection} {answer : Bool} {added : Set String},
    (∀ identifier ∈ identifiers, ∀ injection, Consistent injection →
      Adds (part.foundFrom snapshot identifier) injection (part.injectRequiredColumnsRecursively snapshot stack identifier injection)) →
    Consistent injection → (answer = true ↔ added.Nonempty) →
      ∃ injection' answer', identifiers.foldlM (fun result identifier => do
          let (injection, found) ← part.injectRequiredColumnsRecursively snapshot stack identifier result.1
          return (injection, result.2 || found)) (injection, answer) = Except.ok (injection', answer') ∧
        Grows injection (part.found snapshot identifiers) injection' ∧
          (answer' = true ↔ (added ∪ part.found snapshot identifiers).Nonempty) := by
  intro identifiers
  induction identifiers with
  | nil =>
    intro injection answer added _ hconsistent hanswer
    have hempty : part.found snapshot [] = ∅ :=
      Set.eq_empty_iff_forall_notMem.2 fun column ⟨_, hin, _⟩ => absurd hin List.not_mem_nil
    rw [hempty, Set.union_empty]
    exact ⟨injection, answer, rfl, hconsistent.grows_empty, hanswer⟩
  | cons identifier identifiers ih =>
    intro injection answer added hspec hconsistent hanswer
    obtain ⟨injection₁, answer₁, hcall, hgrows, hanswer₁⟩ := hspec identifier List.mem_cons_self injection hconsistent
    have hboth : (answer || answer₁) = true ↔ (added ∪ part.foundFrom snapshot identifier).Nonempty := by
      rw [Bool.or_eq_true, hanswer, hanswer₁, Set.union_nonempty]
    obtain ⟨injection₂, answer₂, hrest, hgrows₂, hanswer₂⟩ :=
      ih (fun other hother => hspec other (List.mem_cons_of_mem _ hother)) hgrows.consistent hboth
    refine ⟨injection₂, answer₂, ?_, ?_, ?_⟩
    · rw [List.foldlM_cons, hcall]
      exact hrest
    · rw [found_cons]
      exact hgrows.trans hgrows₂
    · rw [found_cons, ← Set.union_assoc]
      exact hanswer₂

/-- **The recursion adds what is found from a column**, on a stack that is deep enough. -/
theorem injectRequiredColumnsRecursively_spec (hacyclic : AcyclicDefaults snapshot) (column : String) :
    ∃ n, ∀ stack ≥ n, ∀ injection, Consistent injection →
      Adds (part.foundFrom snapshot column) injection (part.injectRequiredColumnsRecursively snapshot stack column injection) := by
  induction column using hacyclic.induction with
  | _ column ih =>
    cases hreadable : part.isReadable snapshot column with
    | true =>
      refine ⟨1, fun stack hstack injection hconsistent => ?_⟩
      obtain ⟨stack, rfl⟩ := Nat.exists_eq_add_of_le' hstack
      rw [foundFrom_of_readable hreadable, injectRequiredColumnsRecursively, if_pos hreadable]
      exact ⟨_, true, rfl, hconsistent.addColumn column, iff_of_true rfl (Set.singleton_nonempty column)⟩
    | false =>
      have hfrom := foundFrom_of_missing hreadable
      cases hdefault : snapshot.getDefault column with
      | none =>
        refine ⟨1, fun stack hstack injection hconsistent => ?_⟩
        obtain ⟨stack, rfl⟩ := Nat.exists_eq_add_of_le' hstack
        have hempty : part.foundFrom snapshot column = ∅ := by
          rw [hfrom, hdefault]
          exact Set.eq_empty_iff_forall_notMem.2 fun column ⟨_, hin, _⟩ => absurd hin List.not_mem_nil
        rw [hempty, injectRequiredColumnsRecursively, hreadable, if_neg Bool.false_ne_true, hdefault]
        exact ⟨injection, false, rfl, hconsistent.grows_empty, iff_of_false Bool.false_ne_true Set.not_nonempty_empty⟩
      | some identifiers =>
        -- deep enough for each of the identifiers
        obtain ⟨n, hn⟩ := exists_bound_of_forall_mem fun identifier hin => ih identifier ⟨identifiers, hdefault, hin⟩
        refine ⟨n + 1, fun stack hstack injection hconsistent => ?_⟩
        obtain ⟨stack, rfl⟩ := Nat.exists_eq_add_of_le' (Nat.le_of_add_left_le hstack)
        rw [hfrom, injectRequiredColumnsRecursively, hreadable, if_neg Bool.false_ne_true, hdefault]
        have hstack' : stack ≥ n := by omega
        obtain ⟨injection', answer, hrun, hgrows, hanswer⟩ := @adds_foldlM part snapshot stack identifiers injection false ∅
          (fun identifier hin => hn identifier hin stack hstack') hconsistent
          (iff_of_false Bool.false_ne_true Set.not_nonempty_empty)
        rw [Set.empty_union] at hanswer
        exact ⟨injection', answer, hrun, hgrows, hanswer⟩

/-! ## The loop -/

theorem isReadable_isSome {column : String} (h : part.isReadable snapshot column = true) :
    ¬(snapshot.tryGetColumn column).isNone = true := by
  intro hnone
  rw [isReadable, Option.isNone_iff_eq_none.1 hnone] at h
  cases h

theorem injectLoop_step {stack steps i : ℕ} {answer : Bool} {column : String} (hcolumn : injection.columns[i]? = some column)
    (hexists : ¬(snapshot.tryGetColumn column).isNone = true) :
    part.injectLoop snapshot stack (steps + 1) i injection answer =
      (part.injectRequiredColumnsRecursively snapshot stack column injection).bind fun result =>
        part.injectLoop snapshot stack steps (i + 1) result.1 (answer || result.2) := by
  rw [injectLoop, hcolumn]
  dsimp only
  rw [if_neg hexists]
  rfl

theorem injectLoop_readable {stack : ℕ} (hconsistent : Consistent injection) : ∀ {steps i : ℕ} {answer : Bool},
    (∀ column ∈ injection.columns.drop i, part.isReadable snapshot column = true) → injection.columns.length - i < steps →
      ∃ answer', part.injectLoop snapshot (stack + 1) steps i injection answer = .ok (injection, answer') ∧
        (answer' = true ↔ answer = true ∨ injection.columns.drop i ≠ []) := by
  intro steps
  induction steps with
  | zero => exact fun _ hlt => absurd hlt (Nat.not_lt_zero _)
  | succ steps ih =>
    intro i answer hreadable hlt
    cases hcolumn : injection.columns[i]? with
    | none =>
      have hdrop : injection.columns.drop i = [] := List.drop_eq_nil_of_le (List.getElem?_eq_none_iff.1 hcolumn)
      refine ⟨answer, ?_, ?_⟩
      · rw [injectLoop, hcolumn]
      · rw [hdrop]
        exact (or_iff_left (not_not.2 rfl)).symm
    | some column =>
      obtain ⟨hi, hget⟩ := List.getElem?_eq_some_iff.1 hcolumn
      have hdrop : injection.columns.drop i = column :: injection.columns.drop (i + 1) := by
        rw [← hget, List.getElem_cons_drop]
      rw [hdrop] at hreadable ⊢
      have hfirst := hreadable column List.mem_cons_self
      have hin : column ∈ injection.requiredColumns := (hconsistent.required column).2 (hget ▸ List.getElem_mem hi)
      obtain ⟨answer', hrun, hanswer⟩ := @ih (i + 1) (answer || true) (fun c hc => hreadable c (List.mem_cons_of_mem _ hc)) (by omega)
      refine ⟨answer', ?_, ?_⟩
      · rw [injectLoop_step hcolumn (isReadable_isSome hfirst), injectRequiredColumnsRecursively, if_pos hfirst,
          Injection.addColumn, if_pos hin]
        exact hrun
      · rw [hanswer, Bool.or_true]
        exact iff_of_true (Or.inl rfl) (Or.inr (List.cons_ne_nil _ _))

theorem injectLoop_requested {stack : ℕ} : ∀ {rest : List String} {injection : Injection} {i : ℕ} {answer : Bool}
    {added : Set String},
    (∀ column ∈ rest, ¬(snapshot.tryGetColumn column).isNone = true) →
    (∀ column ∈ rest, ∀ injection, Consistent injection →
      Adds (part.foundFrom snapshot column) injection (part.injectRequiredColumnsRecursively snapshot stack column injection)) →
    Consistent injection → rest <+: injection.columns.drop i → (answer = true ↔ added.Nonempty) →
      ∃ injection' answer', (∀ steps, part.injectLoop snapshot stack (steps + rest.length) i injection answer =
          part.injectLoop snapshot stack steps (i + rest.length) injection' answer') ∧
        Grows injection (part.found snapshot rest) injection' ∧
          (answer' = true ↔ (added ∪ part.found snapshot rest).Nonempty) := by
  intro rest
  induction rest with
  | nil =>
    intro injection i answer added _ _ hconsistent _ hanswer
    have hempty : part.found snapshot [] = ∅ :=
      Set.eq_empty_iff_forall_notMem.2 fun column ⟨_, hin, _⟩ => absurd hin List.not_mem_nil
    rw [hempty, Set.union_empty]
    exact ⟨injection, answer, fun _ => rfl, hconsistent.grows_empty, hanswer⟩
  | cons column rest ih =>
    intro injection i answer added hexists hspec hconsistent hrest hanswer
    obtain ⟨injection₁, answer₁, hcall, hgrows, hanswer₁⟩ := hspec column List.mem_cons_self injection hconsistent
    have hcolumn : injection.columns[i]? = some column := by
      obtain ⟨more, hmore⟩ := hrest
      rw [← List.head?_drop, ← hmore]
      rfl
    have hrest₁ : rest <+: injection₁.columns.drop (i + 1) := by
      have hi := (List.getElem?_eq_some_iff.1 hcolumn).1
      have htail : rest <+: injection.columns.drop (i + 1) := by
        obtain ⟨more, hmore⟩ := hrest
        rw [← List.drop_drop, ← hmore]
        exact List.prefix_append rest more
      obtain ⟨more, hmore⟩ := hgrows.isPrefix
      rw [← hmore, List.drop_append_of_le_length (by omega)]
      exact htail.trans (List.prefix_append _ more)
    have hboth : (answer || answer₁) = true ↔ (added ∪ part.foundFrom snapshot column).Nonempty := by
      rw [Bool.or_eq_true, hanswer, hanswer₁, Set.union_nonempty]
    obtain ⟨injection₂, answer₂, hrun, hgrows₂, hanswer₂⟩ := @ih injection₁ (i + 1) (answer || answer₁) _
      (fun c hc => hexists c (List.mem_cons_of_mem _ hc)) (fun c hc => hspec c (List.mem_cons_of_mem _ hc))
      hgrows.consistent hrest₁ hboth
    refine ⟨injection₂, answer₂, fun steps => ?_, ?_, ?_⟩
    · rw [List.length_cons, ← Nat.add_assoc, injectLoop_step hcolumn (hexists column List.mem_cons_self), hcall]
      refine (hrun steps).trans ?_
      rw [Nat.add_assoc, Nat.add_comm 1]
    · rw [found_cons]
      exact hgrows.trans hgrows₂
    · rw [found_cons, ← Set.union_assoc]
      exact hanswer₂

/-- **The loop adds what is found from the requested columns.** -/
theorem injectLoop_spec (hacyclic : AcyclicDefaults snapshot) {columns : List String} (hnodup : columns.Nodup)
    (hexists : ∀ column ∈ columns, ¬(snapshot.tryGetColumn column).isNone = true) :
    ∃ n, ∀ stack ≥ n, ∃ m, ∀ steps ≥ m, ∃ injection answer,
      part.injectLoop snapshot stack steps 0 { columns, requiredColumns := columns } false = .ok (injection, answer) ∧
        Grows { columns, requiredColumns := columns } (part.found snapshot columns) injection ∧
          (answer = true ↔ (part.found snapshot columns).Nonempty) := by
  obtain ⟨n, hn⟩ := exists_bound_of_forall_mem fun column (_ : column ∈ columns) =>
    @injectRequiredColumnsRecursively_spec part snapshot hacyclic column
  refine ⟨n + 1, fun stack hstack => ?_⟩
  obtain ⟨stack, rfl⟩ := Nat.exists_eq_add_of_le' (Nat.le_of_add_left_le hstack)
  have hconsistent : Consistent { columns, requiredColumns := columns } := ⟨fun _ => Iff.rfl, hnodup⟩
  have hspec : ∀ column ∈ columns, ∀ injection, Consistent injection →
      Adds (part.foundFrom snapshot column) injection (part.injectRequiredColumnsRecursively snapshot (stack + 1) column injection) :=
    fun column hcolumn => hn column hcolumn (stack + 1) (by omega)
  obtain ⟨injection, answer, hrun, hgrows, hanswer⟩ := @injectLoop_requested part snapshot (stack + 1) columns
    { columns, requiredColumns := columns } 0 false ∅ hexists hspec hconsistent List.prefix_rfl
    (iff_of_false Bool.false_ne_true Set.not_nonempty_empty)
  rw [Set.empty_union] at hanswer
  rw [Nat.zero_add] at hrun
  -- what stands behind the requested columns was found, so it is readable
  have hbehind : ∀ column ∈ injection.columns.drop columns.length, column ∈ part.found snapshot columns := by
    intro column hcolumn
    obtain ⟨more, hmore⟩ := hgrows.isPrefix
    have hnodup' := hgrows.consistent.nodup
    rw [← hmore] at hcolumn hnodup'
    rw [List.drop_left' rfl] at hcolumn
    have hmem := (hgrows.mem column).1 (hmore ▸ List.mem_append_right columns hcolumn)
    exact hmem.resolve_left fun hin => (List.nodup_append.1 hnodup').2.2 column hin column hcolumn rfl
  have hreadable : ∀ column ∈ injection.columns.drop columns.length, part.isReadable snapshot column = true := by
    intro column hcolumn
    obtain ⟨_, -, -, h⟩ := hbehind column hcolumn
    exact h
  refine ⟨injection.columns.length + 1 + columns.length, fun steps hsteps => ?_⟩
  obtain ⟨steps, rfl⟩ := Nat.exists_eq_add_of_le' (Nat.le_of_add_left_le hsteps)
  have hsteps' : injection.columns.length - columns.length < steps := by omega
  obtain ⟨answer', hrun', hanswer'⟩ :=
    @injectLoop_readable part snapshot injection stack hgrows.consistent steps columns.length answer hreadable hsteps'
  refine ⟨injection, answer', (hrun steps).trans hrun', hgrows, hanswer'.trans ?_⟩
  rw [hanswer]
  refine or_iff_left_of_imp fun hne => ?_
  obtain ⟨column, hcolumn⟩ := List.exists_mem_of_ne_nil _ hne
  exact ⟨column, hbehind column hcolumn⟩

/-! ## The column of minimum size -/

/-- The first of the smallest columns with files, smaller than a bound. -/
def IsMinimum (part : PartInfoForReader) (columns : List String) (bound : BitVec 64) (column : String) : Prop :=
  ∃ before behind, columns = before ++ column :: behind ∧ part.hasColumnFiles column = true ∧ part.columnSize column < bound ∧
    (∀ other ∈ before, part.hasColumnFiles other = true → part.columnSize column < part.columnSize other) ∧
      ∀ other ∈ behind, part.hasColumnFiles other = true → part.columnSize column ≤ part.columnSize other

theorem isMinimum_cons_self {column : String} {columns : List String} {bound : BitVec 64}
    (hfiles : part.hasColumnFiles column = true) (hlt : part.columnSize column < bound)
    (hle : ∀ other ∈ columns, part.hasColumnFiles other = true → part.columnSize column ≤ part.columnSize other) :
    part.IsMinimum (column :: columns) bound column :=
  ⟨[], columns, rfl, hfiles, hlt, fun _ hother => absurd hother List.not_mem_nil, hle⟩

theorem IsMinimum.cons {column other : String} {columns : List String} {bound : BitVec 64} (h : part.IsMinimum columns bound column)
    {bound' : BitVec 64} (hbound : part.columnSize column < bound')
    (hother : part.hasColumnFiles other = true → part.columnSize column < part.columnSize other) :
    part.IsMinimum (other :: columns) bound' column := by
  obtain ⟨before, behind, rfl, hfiles, -, hbefore, hbehind⟩ := h
  exact ⟨other :: before, behind, rfl, hfiles, hbound, List.forall_mem_cons.2 ⟨hother, hbefore⟩, hbehind⟩

theorem exists_isMinimum : ∀ {columns : List String} {bound : BitVec 64},
    (∃ column ∈ columns, part.hasColumnFiles column = true ∧ part.columnSize column < bound) →
      ∃ column, part.IsMinimum columns bound column := by
  intro columns
  induction columns with
  | nil =>
    rintro bound ⟨column, hin, -⟩
    exact absurd hin List.not_mem_nil
  | cons first columns ih =>
    rintro bound ⟨column, hin, hfiles, hlt⟩
    by_cases hfirst : part.hasColumnFiles first = true ∧ part.columnSize first < bound
    · by_cases hsmaller : ∃ other ∈ columns, part.hasColumnFiles other = true ∧ part.columnSize other < part.columnSize first
      · obtain ⟨least, hleast⟩ := ih hsmaller
        have hleast_lt : part.columnSize least < part.columnSize first := hleast.choose_spec.choose_spec.2.2.1
        exact ⟨least, hleast.cons (by bv_omega) fun _ => hleast_lt⟩
      · refine ⟨first, isMinimum_cons_self hfirst.1 hfirst.2 fun other hother hother' => ?_⟩
        exact BitVec.not_lt.1 fun hlt => hsmaller ⟨other, hother, hother', hlt⟩
    · have hrest : column ∈ columns := by
        rcases List.mem_cons.1 hin with rfl | hin
        · exact absurd ⟨hfiles, hlt⟩ hfirst
        · exact hin
      obtain ⟨least, hleast⟩ := ih ⟨column, hrest, hfiles, hlt⟩
      have hleast_lt : part.columnSize least < bound := hleast.choose_spec.choose_spec.2.2.1
      refine ⟨least, hleast.cons hleast_lt fun hfiles' => ?_⟩
      have hge : ¬part.columnSize first < bound := fun hlt' => hfirst ⟨hfiles', hlt'⟩
      bv_omega

theorem minimumSizeLoop_of_le : ∀ {columns : List String} {best : Option String} {bound : BitVec 64},
    (∀ column ∈ columns, part.hasColumnFiles column = true → bound ≤ part.columnSize column) →
      part.minimumSizeLoop columns best bound = best := by
  intro columns
  induction columns with
  | nil => exact fun _ => rfl
  | cons first columns ih =>
    intro best bound h
    have hrest := @ih best bound fun column hcolumn => h column (List.mem_cons_of_mem _ hcolumn)
    rw [minimumSizeLoop]
    cases hfiles : part.hasColumnFiles first with
    | false => exact hrest
    | true =>
      have hle := h first List.mem_cons_self hfiles
      rw [Bool.not_true, if_neg Bool.false_ne_true, if_neg (BitVec.not_lt.2 hle), hrest]

theorem minimumSizeLoop_of_isMinimum : ∀ {columns : List String} {best : Option String} {bound : BitVec 64} {column : String},
    part.IsMinimum columns bound column → part.minimumSizeLoop columns best bound = some column := by
  intro columns
  induction columns with
  | nil =>
    rintro best bound column ⟨before, behind, hsplit, -⟩
    exact absurd hsplit.symm (List.append_ne_nil_of_right_ne_nil _ (List.cons_ne_nil _ _))
  | cons first columns ih =>
    rintro best bound column ⟨before, behind, hsplit, hfiles, hlt, hbefore, hbehind⟩
    rw [minimumSizeLoop]
    cases before with
    | nil =>
      obtain ⟨rfl, rfl⟩ := List.cons.inj hsplit
      rw [hfiles, Bool.not_true, if_neg Bool.false_ne_true, if_pos hlt, minimumSizeLoop_of_le hbehind]
    | cons other before =>
      obtain ⟨rfl, rfl⟩ := List.cons.inj hsplit
      obtain ⟨hfirst, hbefore⟩ := List.forall_mem_cons.1 hbefore
      cases hfiles' : part.hasColumnFiles first with
      | false => exact ih ⟨before, behind, rfl, hfiles, hlt, hbefore, hbehind⟩
      | true =>
        rw [Bool.not_true, if_neg Bool.false_ne_true]
        split
        · exact ih ⟨before, behind, rfl, hfiles, hfirst hfiles', hbefore, hbehind⟩
        · exact ih ⟨before, behind, rfl, hfiles, hlt, hbefore, hbehind⟩

/-- `getColumnNameWithMinimumCompressedSize` returns the first of the smallest columns. -/
theorem getColumnNameWithMinimumCompressedSize_eq_ok {columns : List String} {column : String} :
    part.getColumnNameWithMinimumCompressedSize columns = .ok column ↔ part.IsMinimum columns (BitVec.allOnes 64) column := by
  unfold getColumnNameWithMinimumCompressedSize
  constructor
  · intro h
    by_cases hexists : ∃ column ∈ columns, part.hasColumnFiles column = true ∧ part.columnSize column < BitVec.allOnes 64
    · obtain ⟨least, hleast⟩ := exists_isMinimum hexists
      rw [minimumSizeLoop_of_isMinimum hleast] at h
      rwa [← Except.ok.inj h]
    · have hle : ∀ column ∈ columns, part.hasColumnFiles column = true → BitVec.allOnes 64 ≤ part.columnSize column :=
        fun column hin hfiles => BitVec.not_lt.1 fun hlt => hexists ⟨column, hin, hfiles, hlt⟩
      rw [minimumSizeLoop_of_le hle] at h
      cases h
  · intro h
    rw [minimumSizeLoop_of_isMinimum h]

/-! ## The result -/

/-- The reader reads the column from the part, or the reader of a text index reads its virtual column. -/
def readsColumn (part : PartInfoForReader) (column : RequestedColumn) : Bool :=
  (part.readsFrom column).isSome ||
    (!(decide ((part.getColumnInPart column).nameInStorage ∈ part.columns) && !part.isColumnDroppedByPendingMutation column) &&
      isTextIndexVirtualColumn (part.getColumnInPart column).nameInStorage &&
        part.hasMaterializedTextIndex (part.getColumnInPart column).nameInStorage)

/-- A column of the table that the reader really reads from the part. -/
def ReallyReads (part : PartInfoForReader) (snapshot : StorageSnapshot) (name : String) : Prop :=
  ∃ column, snapshot.tryGetColumn name = some column ∧ part.readsColumn column = true

/-- Of a part that is no projection the reader reads what is readable for `injectRequiredColumns`. -/
theorem reallyReads_iff (hpart : part.isProjectionPart = false) (name : String) :
    part.ReallyReads snapshot name ↔ part.isReadable snapshot name = true := by
  unfold ReallyReads isReadable
  cases hcolumn : snapshot.tryGetColumn name with
  | none =>
    refine iff_of_false ?_ Bool.false_ne_true
    rintro ⟨column, hsome, -⟩
    cases hsome
  | some column =>
    have hexists : (∃ other, some column = some other ∧ part.readsColumn other = true) ↔ part.readsColumn column = true :=
      ⟨fun ⟨other, hsome, h⟩ => Option.some.inj hsome ▸ h, fun h => ⟨column, rfl, h⟩⟩
    rw [hexists]
    unfold readsColumn readsFrom hasColumn isColumnDroppedByPendingMutation conversionsForInjection getColumnInPart
    rw [hpart, if_neg Bool.false_ne_true]
    dsimp only
    generalize part.alterConversions.nameInPart column.nameInStorage = name
    by_cases hin : name ∈ part.columns
    · cases hdropped : part.alterConversions.isColumnDropped name with
      | true => simp [hin]
      | false => simp [hin]
    · simp [hin]

/-- A projection part has the column, by this name. -/
def holds (part : PartInfoForReader) (column : RequestedColumn) : Bool :=
  part.hasColumn column || (decide (column.nameInStorage ∉ part.columns) && isTextIndexVirtualColumn column.nameInStorage &&
    part.hasMaterializedTextIndex column.nameInStorage)

theorem isReadable_projection (hpart : part.isProjectionPart = true) {name : String} :
    part.isReadable snapshot name = true ↔ ∃ column, snapshot.tryGetColumn name = some column ∧ part.holds column = true := by
  unfold isReadable
  cases hcolumn : snapshot.tryGetColumn name with
  | none => simp
  | some column =>
    have hdropped : ∀ name, AlterConversions.isColumnDropped {} name = false := fun name => by simp [AlterConversions.isColumnDropped]
    have hname : ∀ name, AlterConversions.nameInPart {} name = name := fun _ => rfl
    by_cases hin : column.nameInStorage ∈ part.columns
    · simp [conversionsForInjection, hpart, hdropped, hname, holds, hasColumn, hin]
    · simp [conversionsForInjection, hpart, hname, holds, hasColumn, hin]

theorem reallyReads_projection (hpart : part.isProjectionPart = true) {name : String} :
    part.ReallyReads snapshot name ↔ ∃ column, snapshot.tryGetColumn name = some column ∧ part.holds (part.getColumnInPart column) = true := by
  refine exists_congr fun column => and_congr_right fun _ => ?_
  by_cases hin : (part.getColumnInPart column).nameInStorage ∈ part.columns
  · simp [readsColumn, readsFrom, isColumnDroppedByPendingMutation, hpart, holds, hasColumn, hin]
  · simp [readsColumn, readsFrom, isColumnDroppedByPendingMutation, hpart, holds, hasColumn, hin]

/-- A pending rename takes the column to a name that the part does not have it by. -/
def RenamedAway (part : PartInfoForReader) (snapshot : StorageSnapshot) (name : String) : Prop :=
  ∃ column oldName, snapshot.tryGetColumn name = some column ∧
    part.alterConversions.getColumnOldName? column.nameInStorage = some oldName ∧
      part.holds { column with nameInStorage := oldName } = false

/-- The part has the column only by the name that a pending rename takes it to. -/
def RenamedInto (part : PartInfoForReader) (snapshot : StorageSnapshot) (name : String) : Prop :=
  part.isReadable snapshot name = false ∧ ∃ column oldName, snapshot.tryGetColumn name = some column ∧
    part.alterConversions.getColumnOldName? column.nameInStorage = some oldName ∧
      part.holds { column with nameInStorage := oldName } = true

/-- **What the reader of a projection part reads** of the requested and found columns: the found ones, but for those that are
renamed away, and requested ones that are found by a rename only. -/
theorem exists_reallyReads_projection (hpart : part.isProjectionPart = true) {requested : List String} :
    (∃ column, (column ∈ requested ∨ column ∈ part.found snapshot requested) ∧ part.ReallyReads snapshot column) ↔
      (∃ column ∈ part.found snapshot requested, ¬part.RenamedAway snapshot column) ∨
        ∃ column ∈ requested, part.RenamedInto snapshot column := by
  constructor
  · rintro ⟨name, hname, hread⟩
    obtain ⟨column, hcolumn, hholds⟩ := (reallyReads_projection hpart).1 hread
    -- a readable column is found: no pending rename may take its name in the part away
    cases hreadable : part.isReadable snapshot name with
    | true =>
      refine Or.inl ⟨name, hname.elim (fun hin => ⟨name, hin, ReflTransGen.refl, hreadable⟩) id, ?_⟩
      rintro ⟨column', oldName, hcolumn', hold, hnot⟩
      obtain rfl := Option.some.inj (hcolumn.symm.trans hcolumn')
      rw [getColumnInPart, AlterConversions.nameInPart, hold, Option.getD_some, hnot] at hholds
      cases hholds
    | false =>
      -- found columns are readable, so this one was requested and its old name is in the part
      have hin : name ∈ requested := by
        refine hname.resolve_right ?_
        rintro ⟨_, _, _, hfound⟩
        rw [hreadable] at hfound
        cases hfound
      refine Or.inr ⟨name, hin, hreadable, column, ?_⟩
      cases hold : part.alterConversions.getColumnOldName? column.nameInStorage with
      | none =>
        rw [getColumnInPart, AlterConversions.nameInPart, hold, Option.getD_none] at hholds
        rw [(isReadable_projection hpart).2 ⟨column, hcolumn, hholds⟩] at hreadable
        cases hreadable
      | some oldName =>
        rw [getColumnInPart, AlterConversions.nameInPart, hold, Option.getD_some] at hholds
        exact ⟨oldName, hcolumn, rfl, hholds⟩
  · rintro (⟨name, hfound, haway⟩ | ⟨name, hin, -, column, oldName, hcolumn, hold, hholds⟩)
    · obtain ⟨-, -, -, hreadable⟩ := id hfound
      obtain ⟨column, hcolumn, hholds⟩ := (isReadable_projection hpart).1 hreadable
      refine ⟨name, Or.inr hfound, (reallyReads_projection hpart).2 ⟨column, hcolumn, ?_⟩⟩
      rw [getColumnInPart, AlterConversions.nameInPart]
      cases hold : part.alterConversions.getColumnOldName? column.nameInStorage with
      | none => exact hholds
      | some oldName =>
        by_contra hnot
        exact haway ⟨column, oldName, hcolumn, hold, Bool.eq_false_iff.2 hnot⟩
    · refine ⟨name, Or.inl hin, (reallyReads_projection hpart).2 ⟨column, hcolumn, ?_⟩⟩
      rw [getColumnInPart, AlterConversions.nameInPart, hold]
      exact hholds

/-- **What the injected columns are to be.** -/
structure Injected (part : PartInfoForReader) (snapshot : StorageSnapshot) (requested columns : List String) : Prop where
  isPrefix : requested <+: columns
  nodup : columns.Nodup
  found : ∀ column ∈ part.found snapshot requested, column ∈ columns
  only : ∀ column ∈ columns, column ∈ requested ∨ column ∈ part.found snapshot requested ∨
    part.IsMinimum (part.availableColumns snapshot) (BitVec.allOnes 64) column
  reads : (∃ column, part.ReallyReads snapshot column) → ∃ column ∈ columns, part.ReallyReads snapshot column

/-- **`injectRequiredColumns` ends with the right columns**, on a stack that is deep enough. -/
def InjectsRight (part : PartInfoForReader) (snapshot : StorageSnapshot) (requested : List String) : Prop :=
  ∃ n, ∀ stack ≥ n, ∃ m, ∀ steps ≥ m, ∃ columns injected,
    part.injectRequiredColumns snapshot stack steps requested = .ok (columns, injected) ∧ part.Injected snapshot requested columns

/-- **The condition on the column of minimum size**: when no readable column is found, it exists, it was not
requested, and it is really read unless another one is or none could be. -/
structure FallbackOk (part : PartInfoForReader) (snapshot : StorageSnapshot) (requested : List String) : Prop where
  minimum : ¬(part.found snapshot requested).Nonempty →
    ∃ column, part.IsMinimum (part.availableColumns snapshot) (BitVec.allOnes 64) column ∧ column ∉ requested ∧
      ((∃ other, part.ReallyReads snapshot other) →
        part.ReallyReads snapshot column ∨ ∃ other ∈ requested, part.ReallyReads snapshot other)
  /-- The reader of a projection part follows renames, which `injectRequiredColumns` does not. -/
  projection : part.isProjectionPart = true → (part.found snapshot requested).Nonempty →
    (∃ other, part.ReallyReads snapshot other) →
      (∃ column ∈ part.found snapshot requested, ¬part.RenamedAway snapshot column) ∨
        ∃ column ∈ requested, part.RenamedInto snapshot column

open Classical in
theorem injectRequiredColumns_run (hacyclic : AcyclicDefaults snapshot) {requested : List String} (hnodup : requested.Nodup)
    (hexists : ∀ column ∈ requested, ¬(snapshot.tryGetColumn column).isNone = true) :
    ∃ n, ∀ stack ≥ n, ∃ m, ∀ steps ≥ m, ∃ injection,
      Grows { columns := requested, requiredColumns := requested } (part.found snapshot requested) injection ∧
        part.injectRequiredColumns snapshot stack steps requested =
          if (part.found snapshot requested).Nonempty then .ok (injection.columns, injection.injectedColumns)
          else (part.getColumnNameWithMinimumCompressedSize (part.availableColumns snapshot)).map fun column =>
            (injection.columns ++ [column], column :: injection.injectedColumns) := by
  obtain ⟨n, hn⟩ := @injectLoop_spec part snapshot hacyclic requested hnodup hexists
  refine ⟨n, fun stack hstack => ?_⟩
  obtain ⟨m, hm⟩ := hn stack hstack
  refine ⟨m, fun steps hsteps => ?_⟩
  obtain ⟨injection, answer, hrun, hgrows, hanswer⟩ := hm steps hsteps
  refine ⟨injection, hgrows, ?_⟩
  unfold injectRequiredColumns
  rw [hrun]
  cases answer with
  | true =>
    rw [if_pos (hanswer.1 rfl)]
    rfl
  | false =>
    rw [if_neg fun hne => Bool.false_ne_true (hanswer.2 hne)]
    cases part.getColumnNameWithMinimumCompressedSize (part.availableColumns snapshot) with
    | error e => rfl
    | ok column => rfl

theorem not_nonempty_mem {requested : List String} (hnone : ¬(part.found snapshot requested).Nonempty)
    (hgrows : Grows { columns := requested, requiredColumns := requested } (part.found snapshot requested) injection) (column : String) :
    column ∈ injection.columns ↔ column ∈ requested :=
  (hgrows.mem column).trans (or_iff_left fun hin => hnone ⟨column, hin⟩)

/-- **The injected columns are complete and not repeated exactly when the column of minimum size, where one is
needed, is a new column that is really read.** -/
theorem injectRequiredColumns_complete_iff (part : PartInfoForReader) (snapshot : StorageSnapshot) (requested : List String)
    (hacyclic : AcyclicDefaults snapshot) (hnodup : requested.Nodup)
    (hexists : ∀ column ∈ requested, ¬(snapshot.tryGetColumn column).isNone = true) :
    part.InjectsRight snapshot requested ↔ part.FallbackOk snapshot requested := by
  obtain ⟨n, hn⟩ := @injectRequiredColumns_run part snapshot hacyclic requested hnodup hexists
  constructor
  · rintro ⟨n', hn'⟩
    obtain ⟨m, hm⟩ := hn (max n n') (le_max_left _ _)
    obtain ⟨m', hm'⟩ := hn' (max n n') (le_max_right _ _)
    obtain ⟨injection, hgrows, hrun⟩ := hm (max m m') (le_max_left _ _)
    obtain ⟨columns, injected, hok, hinjected⟩ := hm' (max m m') (le_max_right _ _)
    rw [hrun] at hok
    refine ⟨fun hnone => ?_, fun hpart hsome hreads => ?_⟩
    · rw [if_neg hnone] at hok
      cases hminimum : part.getColumnNameWithMinimumCompressedSize (part.availableColumns snapshot) with
      | error e =>
        rw [hminimum] at hok
        cases hok
      | ok column =>
        rw [hminimum] at hok
        obtain ⟨rfl, -⟩ := Prod.mk.inj (Except.ok.inj hok)
        refine ⟨column, getColumnNameWithMinimumCompressedSize_eq_ok.1 hminimum, fun hin => ?_, fun hreads => ?_⟩
        · -- it would be in the list twice
          have hmem := (not_nonempty_mem hnone hgrows column).2 hin
          exact (List.nodup_append.1 hinjected.nodup).2.2 column hmem column (List.mem_singleton_self _) rfl
        · obtain ⟨other, hother, hread⟩ := hinjected.reads hreads
          rcases List.mem_append.1 hother with hother | hother
          · exact Or.inr ⟨other, (not_nonempty_mem hnone hgrows other).1 hother, hread⟩
          · rw [List.mem_singleton.1 hother] at hread
            exact Or.inl hread
    · rw [if_pos hsome] at hok
      obtain ⟨rfl, -⟩ := Prod.mk.inj (Except.ok.inj hok)
      obtain ⟨column, hcolumn, hread⟩ := hinjected.reads hreads
      exact (exists_reallyReads_projection hpart).1 ⟨column, (hgrows.mem column).1 hcolumn, hread⟩
  · intro hfallback
    refine ⟨n, fun stack hstack => ?_⟩
    obtain ⟨m, hm⟩ := hn stack hstack
    refine ⟨m, fun steps hsteps => ?_⟩
    obtain ⟨injection, hgrows, hrun⟩ := hm steps hsteps
    by_cases hsome : (part.found snapshot requested).Nonempty
    · rw [if_pos hsome] at hrun
      refine ⟨_, _, hrun, hgrows.isPrefix, hgrows.consistent.nodup, fun column hin => (hgrows.mem column).2 (Or.inr hin),
        fun column hin => ((hgrows.mem column).1 hin).imp id Or.inl, fun hreads => ?_⟩
      cases hpart : part.isProjectionPart with
      | true =>
        obtain ⟨column, hcolumn, hread⟩ := (exists_reallyReads_projection hpart).2 (hfallback.projection hpart hsome hreads)
        exact ⟨column, (hgrows.mem column).2 hcolumn, hread⟩
      | false =>
        obtain ⟨column, hcolumn⟩ := hsome
        obtain ⟨-, -, -, hreadable⟩ := id hcolumn
        exact ⟨column, (hgrows.mem column).2 (Or.inr hcolumn), (reallyReads_iff hpart column).2 hreadable⟩
    · obtain ⟨column, hminimum, hnew, hread⟩ := hfallback.minimum hsome
      rw [if_neg hsome, getColumnNameWithMinimumCompressedSize_eq_ok.2 hminimum] at hrun
      have hmem := not_nonempty_mem hsome hgrows
      refine ⟨_, _, hrun, hgrows.isPrefix.trans (List.prefix_append _ _), ?_, fun other hin => absurd ⟨other, hin⟩ hsome,
        fun other hin => ?_, fun hreads => ?_⟩
      · refine List.nodup_append.2 ⟨hgrows.consistent.nodup, List.nodup_singleton _, fun a ha b hb => ?_⟩
        rw [List.mem_singleton.1 hb]
        rintro rfl
        exact hnew ((hmem a).1 ha)
      · rcases List.mem_append.1 hin with hin | hin
        · exact Or.inl ((hmem other).1 hin)
        · rw [List.mem_singleton.1 hin]
          exact Or.inr (Or.inr hminimum)
      · rcases hread hreads with hread | ⟨other, hother, hread⟩
        · exact ⟨column, List.mem_append_right _ (List.mem_singleton_self _), hread⟩
        · exact ⟨other, List.mem_append_left _ ((hmem other).2 hother), hread⟩

/-- A table of whole columns without defaults. -/
def plainSnapshot (columns : List String) : StorageSnapshot where
  tryGetColumn name := if name ∈ columns then some { nameInStorage := name } else none
  getDefault _ := none

/-- A table whose column `b` has a default of `c` and `d`. -/
def defaultSnapshot : StorageSnapshot where
  tryGetColumn name := if name ∈ ["a", "b", "c", "d"] then some { nameInStorage := name } else none
  getDefault name := if name = "b" then some ["c", "d"] else none

theorem acyclicDefaults_defaultSnapshot : AcyclicDefaults defaultSnapshot := by
  have hleaf : ∀ column ≠ "b", Acc (fun identifier column => ∃ identifiers, defaultSnapshot.getDefault column = some identifiers ∧
      identifier ∈ identifiers) column := by
    refine fun column hne => Acc.intro column ?_
    rintro identifier ⟨identifiers, hdefault, -⟩
    cases (if_neg hne).symm.trans hdefault
  refine ⟨fun column => Acc.intro column ?_⟩
  rintro identifier ⟨identifiers, hdefault, hin⟩
  refine hleaf identifier ?_
  rintro rfl
  by_cases hb : column = "b"
  · cases (if_pos hb).symm.trans hdefault
    exact absurd hin (by decide)
  · cases (if_neg hb).symm.trans hdefault

/-- A part in which the column `c` still has its old name. -/
def renamedPart (isProjectionPart : Bool) : PartInfoForReader :=
  { columns := ["a", "old"], isProjectionPart, alterConversions := { renameMap := [⟨"c", "old"⟩] } }

/-- Of `b` the part has the column `c`, by its old name; of `d` it has nothing, so `a` is read. A projection part has `a`. -/
theorem injectsRight_renamed : (renamedPart false).InjectsRight defaultSnapshot ["b", "d"] ∧
    (renamedPart false).InjectsRight defaultSnapshot ["d"] ∧ (renamedPart true).InjectsRight defaultSnapshot ["a", "d"] := by
  have hacyclic := acyclicDefaults_defaultSnapshot
  have ha : ∀ isProjectionPart, (renamedPart isProjectionPart).ReallyReads defaultSnapshot "a" := fun _ =>
    ⟨{ nameInStorage := "a" }, rfl, by decide +revert⟩
  refine ⟨(injectRequiredColumns_complete_iff _ _ _ hacyclic (by decide) (by decide)).2 ⟨fun hnone => ?_, fun hpart => ?_⟩,
    (injectRequiredColumns_complete_iff _ _ _ hacyclic (by decide) (by decide)).2 ⟨fun _ => ?_, fun hpart => ?_⟩,
    (injectRequiredColumns_complete_iff _ _ _ hacyclic (by decide) (by decide)).2 ⟨fun hnone => ?_, fun _ _ _ => Or.inl ?_⟩⟩
  · exact absurd ⟨"c", "b", List.mem_cons_self, .single ⟨by decide +kernel, ["c", "d"], rfl, List.mem_cons_self⟩, by decide +kernel⟩ hnone
  · cases hpart
  · exact ⟨"a", getColumnNameWithMinimumCompressedSize_eq_ok.1 (by decide +kernel), by decide, fun _ => Or.inl (ha false)⟩
  · cases hpart
  · exact absurd ⟨"a", "a", List.mem_cons_self, .refl, by decide +kernel⟩ hnone
  · refine ⟨"a", ⟨"a", List.mem_cons_self, .refl, by decide +kernel⟩, ?_⟩
    rintro ⟨column, oldName, hcolumn, hold, -⟩
    cases hcolumn
    exact absurd hold (by simp [renamedPart, AlterConversions.getColumnOldName?])

/-- The requested column was dropped and added again; the part has its name. -/
theorem not_injectsRight_dropped :
    ¬PartInfoForReader.InjectsRight { columns := ["a"], alterConversions := { droppedColumns := ["a"] } } (plainSnapshot ["a"]) ["a"] := by
  rintro ⟨n, hn⟩
  obtain ⟨m, hm⟩ := hn (n + 1) (Nat.le_succ n)
  obtain ⟨columns, injected, hrun, hinjected⟩ := hm (m + 2) (by omega)
  have htwice : PartInfoForReader.injectRequiredColumns { columns := ["a"], alterConversions := { droppedColumns := ["a"] } }
      (plainSnapshot ["a"]) (n + 1) (m + 2) ["a"] = .ok (["a", "a"], ["a"]) := by rfl
  obtain ⟨rfl, -⟩ := Prod.mk.inj (Except.ok.inj (htwice.symm.trans hrun))
  exact absurd hinjected.nodup (by decide)

end PartInfoForReader

end MergeTree
