import MergeTree.Spec.InversionPushDown

/-!
# Pushing NOT down

A clone has the value of its node, or the negation of it (`eval_clone`), in a condition its
truth, as long as the pushed inversion changes nothing on the row (`KeepsValue`). The postfix
expression of any filter has the filter's truth (`eval_traverseTree`). An inverted order for a
NaN and two negations dropped of an argument change the filter (`not_isTrue_clone_doubleNegation`).
-/

namespace MergeTree

open FilterNode

variable {A : Type} {m : Meaning A} {row : String → FilterValue A}

/-! ## Values -/

@[simp] theorem FilterValue.truth_ofTruth (t : Option Bool) : (FilterValue.ofTruth t : FilterValue A).truth = t := by
  rcases t with _ | _ | _ <;> rfl

@[simp] theorem FilterValue.truth_negate (v : FilterValue A) : v.negate.truth = Kleene.not v.truth := truth_ofTruth _

theorem FilterValue.negate_negate {v : FilterValue A} (h : v.IsBoolean) : v.negate.negate = v := by
  unfold FilterValue.negate
  rw [truth_ofTruth, Kleene.not_not]
  exact h

theorem LogicalOperator.not_eval (op : LogicalOperator) (a b : Option Bool) :
    Kleene.not (op.eval a b) = op.inverse.eval (Kleene.not a) (Kleene.not b) := by
  cases op with
  | and => exact Kleene.not_and a b
  | or => exact Kleene.not_or a b

/-- The value that a clone should have. -/
def invertValue (needInversion : Bool) (v : FilterValue A) : FilterValue A := if needInversion then v.negate else v

/-- Equal values, or values that are equal as conditions. -/
def SameValue (isCondition : Bool) (v w : FilterValue A) : Prop := if isCondition then v.truth = w.truth else v = w

theorem sameValue_of_eq {isCondition : Bool} {v w : FilterValue A} (h : v = w) : SameValue isCondition v w := by
  unfold SameValue
  split
  · rw [h]
  · exact h

theorem eval_invertIf (needInversion : Bool) (node : FilterNode A) : (invertIf needInversion node).eval m row = invertValue needInversion (node.eval m row) := by
  cases needInversion with
  | true => rfl
  | false => rfl

@[elab_as_elim]
theorem FilterNode.induct {P : FilterNode A → Prop} (input : ∀ name, P (.input name)) (column : ∀ value, P (.column value))
    (aliased : ∀ child, P child → P (.aliased child)) (not : ∀ child, P child → P (.not child))
    (materialize : ∀ child, P child → P (.materialize child)) (trivialCast : ∀ child, P child → P (.trivialCast child))
    (logical : ∀ op first rest, P first → (∀ child ∈ rest, P child) → P (.logical op first rest))
    (function : ∀ name children, (∀ child ∈ children, P child) → P (.function name children)) (node : FilterNode A) : P node :=
  @FilterNode.rec A P (fun children => ∀ child ∈ children, P child) input column aliased not materialize trivialCast
    (fun op first rest hfirst hrest => logical op first rest hfirst hrest) (fun name children ih => function name children ih)
    (fun _ h => absurd h List.not_mem_nil)
    (fun _ _ hhead htail child h => (List.mem_cons.1 h).elim (fun heq => heq ▸ hhead) (htail child)) node

/-! ## The clone -/

theorem evalAll_eq_map (children : List (FilterNode A)) : eval.evalAll m row children = children.map (eval m row) := by
  induction children with
  | nil => rfl
  | cons child children ih => rw [eval.evalAll, ih, List.map_cons]

theorem cloneAll_eq_map (needInversion : Bool) (children : List (FilterNode A)) :
    cloneDAGWithInversionPushDown.cloneAll needInversion children = children.map (cloneDAGWithInversionPushDown needInversion) := by
  induction children with
  | nil => rfl
  | cons child children ih => rw [cloneDAGWithInversionPushDown.cloneAll, ih, List.map_cons]

theorem keepAll_iff {isCondition needInversion : Bool} (children : List (FilterNode A)) :
    KeepsValue.KeepAll m row isCondition needInversion children ↔ ∀ child ∈ children, child.KeepsValue m row isCondition needInversion := by
  induction children with
  | nil => simp [KeepsValue.KeepAll]
  | cons child children ih => rw [KeepsValue.KeepAll, ih, List.forall_mem_cons]

theorem SameValue.trans {isCondition : Bool} {u v w : FilterValue A} (h : SameValue isCondition u v) (h' : SameValue isCondition v w) :
    SameValue isCondition u w := by
  unfold SameValue at *
  split at h
  · rename_i hcondition
    rw [if_pos hcondition] at h' ⊢
    exact h.trans h'
  · rename_i hcondition
    rw [if_neg hcondition] at h' ⊢
    exact h.trans h'

theorem truth_invertValue (needInversion : Bool) (v : FilterValue A) :
    (invertValue needInversion v).truth = if needInversion then Kleene.not v.truth else v.truth := by
  cases needInversion with
  | true => exact FilterValue.truth_negate v
  | false => rfl

theorem sameValue_negate {isCondition needInversion : Bool} {v : FilterValue A}
    (h : isCondition = false → needInversion = true → v.IsBoolean) :
    SameValue isCondition (invertValue (!needInversion) v) (invertValue needInversion v.negate) := by
  cases needInversion with
  | false => exact sameValue_of_eq rfl
  | true =>
    cases isCondition with
    | true =>
      change v.truth = v.negate.negate.truth
      rw [FilterValue.truth_negate, FilterValue.truth_negate, Kleene.not_not]
    | false => exact (FilterValue.negate_negate (h rfl rfl)).symm

/-- **The clone has the value of the node**, negated when an inversion is pushed into it. -/
theorem eval_clone (hm : m.Standard) (node : FilterNode A) : ∀ isCondition needInversion, node.KeepsValue m row isCondition needInversion →
    SameValue isCondition ((node.cloneDAGWithInversionPushDown needInversion).eval m row) (invertValue needInversion (node.eval m row)) := by
  induction node using FilterNode.induct with
  | input name => exact fun _ needInversion _ => sameValue_of_eq (eval_invertIf needInversion _)
  | column value => exact fun _ needInversion _ => sameValue_of_eq (eval_invertIf needInversion _)
  | aliased child ih => exact fun isCondition needInversion h => ih isCondition needInversion h
  | not child ih =>
    intro isCondition needInversion h
    exact (ih isCondition (!needInversion) h.2).trans (sameValue_negate h.1)
  | materialize child ih => exact fun isCondition needInversion h => ih isCondition needInversion h
  | trivialCast child ih => exact fun isCondition needInversion h => ih isCondition needInversion h
  | logical op first rest ihfirst ihrest =>
    intro isCondition needInversion h
    rw [KeepsValue, keepAll_iff] at h
    -- the arguments are conditions whatever the operator is used for
    have hfirst : ((first.cloneDAGWithInversionPushDown needInversion).eval m row).truth = (invertValue needInversion (first.eval m row)).truth :=
      ihfirst true needInversion h.1
    have hrest : (eval.evalAll m row (cloneDAGWithInversionPushDown.cloneAll needInversion rest)).map FilterValue.truth =
        rest.map fun child => (invertValue needInversion (child.eval m row)).truth := by
      rw [evalAll_eq_map, cloneAll_eq_map, List.map_map, List.map_map]
      exact List.map_congr_left fun child hchild => ihrest child hchild true needInversion (h.2 child hchild)
    apply sameValue_of_eq
    rw [cloneDAGWithInversionPushDown, eval, hrest, hfirst, truth_invertValue]
    simp only [truth_invertValue]
    rw [eval, evalAll_eq_map, List.map_map]
    cases needInversion with
    | false => rfl
    | true =>
      change FilterValue.ofTruth _ = FilterValue.ofTruth _
      rw [FilterValue.truth_ofTruth, Kleene.not_foldl op.not_eval, List.map_map]
      rfl
  | function name children ih =>
    intro isCondition needInversion h
    rw [KeepsValue, keepAll_iff] at h
    have hchildren : eval.evalAll m row (cloneDAGWithInversionPushDown.cloneAll false children) = eval.evalAll m row children := by
      rw [evalAll_eq_map, cloneAll_eq_map, evalAll_eq_map, List.map_map]
      exact List.map_congr_left fun child hchild => ih child hchild false false (h.2 child hchild)
    apply sameValue_of_eq
    rw [cloneDAGWithInversionPushDown]
    split
    · rename_i inverse hinverse
      rw [eval, eval, hchildren]
      cases needInversion with
      | false => rfl
      | true => exact hm.complement name inverse hinverse _ (h.1 rfl)
    · rw [eval_invertIf, eval, eval, hchildren]

/-! ## The postfix expression -/

theorem run_traverseTree (node : FilterNode A) : ∀ stack, (atoms m row).run node.traverseTree stack = some ((node.eval m row).truth :: stack) := by
  induction node using FilterNode.induct with
  | input name => exact fun _ => rfl
  | column value => exact fun _ => rfl
  | aliased child ih => exact ih
  | not child ih =>
    intro stack
    rw [traverseTree, Postfix.Algebra.run_append, ih stack, eval, FilterValue.truth_negate]
    rfl
  | materialize child ih => exact fun _ => rfl
  | trivialCast child ih => exact fun _ => rfl
  | logical op first rest ihfirst ihrest =>
    intro stack
    have hrest : ∀ t, (atoms m row).run (traverseTree.traverseRest op rest) (t :: stack) =
        some ((rest.map fun child => (child.eval m row).truth).foldl op.eval t :: stack) := by
      induction rest with
      | nil => exact fun _ => rfl
      | cons child rest ih =>
        intro t
        rw [traverseTree.traverseRest, Postfix.Algebra.run_append, ihrest child List.mem_cons_self, Option.bind_eq_bind, Option.bind_some,
          Postfix.Algebra.run_cons, List.map_cons, List.foldl_cons]
        exact ih (fun c hc => ihrest c (List.mem_cons_of_mem _ hc)) _
    rw [traverseTree, Postfix.Algebra.run_append, ihfirst stack, Option.bind_eq_bind, Option.bind_some, hrest, eval, FilterValue.truth_ofTruth,
      evalAll_eq_map, List.map_map]
    rfl
  | function name children ih => exact fun _ => rfl

theorem eval_traverseTree (node : FilterNode A) : (atoms m row).eval node.traverseTree = some (node.eval m row).truth :=
  (atoms m row).eval_eq_some.2 (run_traverseTree node [])

theorem wellFormed_traverseTree (node : FilterNode A) : Postfix.WellFormed node.traverseTree := by
  have hrelated : Postfix.Related (fun _ _ => True) (atoms ⟨fun _ _ => .null, fun _ => false⟩ fun _ => .null) Postfix.heights node.traverseTree :=
    ⟨fun _ _ => trivial, fun _ _ _ _ => trivial, fun _ _ _ _ _ _ _ => trivial⟩
  obtain ⟨x, hx, -⟩ := hrelated.eval (eval_traverseTree node)
  exact Option.isSome_iff_exists.2 ⟨x, hx⟩

/-! ## The filter -/

/-- **A pushed inversion preserves the filter** on a row where it changes nothing, and the postfix expression that is made from the clone is well
formed and has the truth of the clone. -/
theorem isTrue_clone (hm : m.Standard) (node : FilterNode A) :
    (node.KeepsValue m row true false → ((node.cloneDAGWithInversionPushDown false).IsTrue m row ↔ node.IsTrue m row)) ∧
      Postfix.WellFormed (node.cloneDAGWithInversionPushDown false).traverseTree ∧
      (atoms m row).eval (node.cloneDAGWithInversionPushDown false).traverseTree =
        some ((node.cloneDAGWithInversionPushDown false).eval m row).truth := by
  refine ⟨fun hkeeps => ?_, wellFormed_traverseTree _, eval_traverseTree _⟩
  have hsame : ((node.cloneDAGWithInversionPushDown false).eval m row).truth = (node.eval m row).truth := eval_clone hm node true false hkeeps
  unfold FilterNode.IsTrue
  rw [hsame]

/-! ## Numbers -/

theorem compareNumbers_complement {compare compare' : ℤ → ℤ → Bool} {otherwise : Bool} (hcompare : ∀ a b, compare' a b = !compare a b)
    {args : List (FilterValue Empty)} (hnan : ¬numberMeaning.ComparesNaN args) :
    compareNumbers compare' (!otherwise) args = (compareNumbers compare otherwise args).negate := by
  unfold compareNumbers
  split
  · rfl
  · rename_i hnull
    have hnone : FilterValue.nan ∉ args := fun h => hnan ⟨⟨_, h, rfl⟩, hnull⟩
    rw [if_neg hnone, if_neg hnone]
    split
    · rename_i a b
      rw [hcompare]
      cases compare a b with
      | true => rfl
      | false => rfl
    · cases otherwise with
      | true => rfl
      | false => rfl

theorem isBoolean_compareNumbers {compare : ℤ → ℤ → Bool} {otherwise : Bool} (args : List (FilterValue Empty)) :
    (compareNumbers compare otherwise args).IsBoolean := by
  have htruth : ∀ b : Bool, (FilterValue.ofTruth (some b) : FilterValue Empty).IsBoolean := fun b => by
    cases b with
    | true => rfl
    | false => rfl
  unfold compareNumbers
  split
  · rfl
  · split
    · rfl
    · split
      · exact htruth _
      · exact htruth _

theorem compareNumbers_nan {compare : ℤ → ℤ → Bool} {otherwise : Bool} {args : List (FilterValue Empty)} (hnan : numberMeaning.ComparesNaN args) :
    compareNumbers compare otherwise args = .int 0 := by
  obtain ⟨⟨v, hv, hvnan⟩, hnull⟩ := hnan
  have hmem : FilterValue.nan ∈ args := by
    cases v with
    | nan => exact hv
    | null => exact absurd hvnan Bool.false_ne_true
    | int n => exact absurd hvnan Bool.false_ne_true
    | other a => exact a.elim
  unfold compareNumbers
  rw [if_neg hnull, if_pos hmem]

theorem numberMeaning_standard : numberMeaning.Standard := by
  constructor
  · intro relation inverse hinverse args hnan
    obtain ⟨before, after, htable, -⟩ := List.lookup_eq_some_iff.1 hinverse
    have hmem : (relation, inverse) ∈ inverseRelations := htable ▸ List.mem_append_right _ List.mem_cons_self
    simp only [inverseRelations, List.mem_cons, Prod.mk.injEq, List.not_mem_nil, or_false] at hmem
    have hle : ∀ a b : ℤ, decide (b ≤ a) = !decide (a < b) := fun a b => by
      rw [← decide_not]
      exact decide_eq_decide.2 not_lt.symm
    have hlt : ∀ a b : ℤ, decide (a < b) = !decide (b ≤ a) := fun a b => by
      rw [← decide_not]
      exact decide_eq_decide.2 not_le.symm
    rcases hmem with ⟨rfl, rfl⟩ | ⟨rfl, rfl⟩ | ⟨rfl, rfl⟩ | ⟨rfl, rfl⟩ | ⟨rfl, rfl⟩ | ⟨rfl, rfl⟩ | hmem
    · rfl
    · exact (FilterValue.negate_negate (isBoolean_compareNumbers args)).symm
    · exact @compareNumbers_complement (fun a b => a < b) (fun a b => b ≤ a) false hle args (hnan (by decide))
    · exact @compareNumbers_complement (fun a b => b ≤ a) (fun a b => a < b) true hlt args (hnan (by decide))
    · exact @compareNumbers_complement (fun a b => b < a) (fun a b => a ≤ b) false (fun a b => hle b a) args (hnan (by decide))
    · exact @compareNumbers_complement (fun a b => a ≤ b) (fun a b => b < a) true (fun a b => hlt b a) args (hnan (by decide))
    -- what is left does not look at its arguments, but for NULL
    · have hnull : ∀ b : Bool, (FilterValue.ofTruth (some !b) : FilterValue Empty) = (FilterValue.ofTruth (some b)).negate := fun b => by
        cases b with
        | true => rfl
        | false => rfl
      rcases hmem with ⟨rfl, rfl⟩ | ⟨rfl, rfl⟩ | ⟨rfl, rfl⟩ | ⟨rfl, rfl⟩ | ⟨rfl, rfl⟩ | ⟨rfl, rfl⟩ | ⟨rfl, rfl⟩ | ⟨rfl, rfl⟩ | hmem
      all_goals try rfl
      rcases hmem with ⟨rfl, rfl⟩ | ⟨rfl, rfl⟩ | hmem
      · refine Eq.trans ?_ (hnull _)
        change FilterValue.ofTruth (some (decide (args ≠ [.null]))) = _
        rw [decide_not]
      · refine Eq.trans ?_ (hnull _)
        change FilterValue.ofTruth (some (decide (args = [.null]))) = _
        rw [decide_not, Bool.not_not]
      · rcases hmem with ⟨rfl, rfl⟩ | ⟨rfl, rfl⟩ | ⟨rfl, rfl⟩ | ⟨rfl, rfl⟩ | ⟨rfl, rfl⟩ | ⟨rfl, rfl⟩
        all_goals rfl
  · intro relation hrelation args hnan
    have hcases : relation = "less" ∨ relation = "lessOrEquals" ∨ relation = "greater" ∨ relation = "greaterOrEquals" := by
      simpa [orderRelations] using hrelation
    rcases hcases with rfl | rfl | rfl | rfl
    all_goals exact compareNumbers_nan hnan

/-- `NOT (x < 3 AND materialize(isNull(y)))` for x = 1 and y = 2: `x >= 3 OR isNotNull(y)`. -/
theorem isTrue_clone_numbers :
    let row : String → FilterValue Empty := fun name => if name = "x" then .int 1 else .int 2
    let node : FilterNode Empty := .not (.logical .and (.function "less" [.input "x", .column (.int 3)])
      [.materialize (.function "isNull" [.input "y"])])
    node.IsTrue numberMeaning row ∧ (node.cloneDAGWithInversionPushDown false).IsTrue numberMeaning row ∧
      Postfix.WellFormed (node.cloneDAGWithInversionPushDown false).traverseTree := by
  intro row node
  have hless : ¬numberMeaning.ComparesNaN [row "x", .int 3] := fun h => by
    obtain ⟨⟨v, hv, hnan⟩, -⟩ := h
    rcases List.mem_cons.1 hv with rfl | hv
    · exact absurd hnan (by decide)
    · rw [List.mem_singleton.1 hv] at hnan
      exact absurd hnan (by decide)
  have hkeeps : node.KeepsValue numberMeaning row true false :=
    ⟨fun h => absurd h (by decide), ⟨fun _ _ => hless, trivial, trivial, trivial⟩, ⟨fun _ h => absurd h (by decide), trivial, trivial⟩, trivial⟩
  obtain ⟨hiff, hwell, -⟩ := @isTrue_clone Empty numberMeaning row numberMeaning_standard node
  have htrue : node.IsTrue numberMeaning row := by decide +kernel
  exact ⟨htrue, (hiff hkeeps).2 htrue, hwell⟩

/-- `equals(not(not(x)), 1)` for x = 5 becomes `equals(x, 1)`. -/
theorem not_isTrue_clone_doubleNegation : ¬∀ (row : String → FilterValue Empty) (node : FilterNode Empty),
    (node.cloneDAGWithInversionPushDown false).IsTrue numberMeaning row ↔ node.IsTrue numberMeaning row := by
  intro hall
  have hfive := hall (fun _ => .int 5) (.function "equals" [.not (.not (.input "x")), .column (.int 1)])
  exact absurd hfive (by decide +kernel)

/-- `NOT (x < 1)` for a NaN becomes `x >= 1`. -/
example : ¬(((FilterNode.not (.function "less" [.input "x", .column (.int 1)])).cloneDAGWithInversionPushDown false).IsTrue numberMeaning
    (fun _ => .nan) ↔ (FilterNode.not (.function "less" [.input "x", .column (.int 1)])).IsTrue numberMeaning fun _ => .nan) := by
  decide +kernel

end MergeTree
