import MergeTree.Proof.KeyCondition
import MergeTree.Spec.PartialResults

/-!
# Which partial results are recorded

The counter is the number of calls, and an element whose branch is left by `continue` makes no
call (`record_run`). So every element is recorded at its own position if and only if no branch
is left early (`partialResults_recorded_iff`): one that is shifts the positions of all elements after it.
-/

namespace MergeTree

variable {F D X : Type} [LinearOrder F] [BoundedOrder F]

section Recording

variable {env : KeyEnvironment F D} {polygons : PolygonEnvironment F D X} {singlePoint : Bool} {dataTypes : ℕ → D}
  {filters : ColumnBloomFilters} {hyperrectangle : Hyperrectangle F} {element : RPNElement F D}
  {rpn : List (RPNElement F D)} {st : RecordingState}

theorem KeyCondition.checkInHyperrectangle_eq_ok {condition : KeyCondition F D} {mask : BoolMask}
    (heval : ∀ element ∈ condition.rpn, element.Evaluates env condition.singlePoint dataTypes filters hyperrectangle)
    (hrun : (elementMasks env condition.singlePoint dataTypes filters hyperrectangle).run
      (condition.rpn.map RPNElement.token) [] = some [mask]) :
    condition.checkInHyperrectangle env dataTypes filters hyperrectangle = .ok mask := by
  unfold checkInHyperrectangle
  rw [foldlM_evalRPNElement heval hrun]
  rfl

/-- The subexpression that ends where a condition ends, with its value on top of the stack. -/
theorem exists_subcondition {mask : BoolMask} {rest : List BoolMask}
    (heval : ∀ element ∈ rpn, element.Evaluates env singlePoint dataTypes filters hyperrectangle)
    (hrun : (elementMasks env singlePoint dataTypes filters hyperrectangle).run (rpn.map RPNElement.token) [] =
      some (mask :: rest)) :
    ∃ start < rpn.length,
      KeyCondition.checkInHyperrectangle env ⟨rpn.drop start, singlePoint⟩ dataTypes filters hyperrectangle = .ok mask := by
  obtain ⟨p₁, p₂, hsplit, -, hp₂⟩ := Postfix.Algebra.exists_subexpression hrun
  obtain ⟨rpn₁, rpn₂, rfl, rfl, rfl⟩ := List.map_eq_append_iff.1 hsplit
  have hne : rpn₂ ≠ [] := by
    rintro rfl
    cases hp₂
  refine ⟨rpn₁.length, ?_, ?_⟩
  · rw [List.length_append]
    exact Nat.lt_add_of_pos_right (List.length_pos_iff.2 hne)
  · rw [List.drop_left]
    exact KeyCondition.checkInHyperrectangle_eq_ok (fun e he => heval e (List.mem_append_right _ he)) hp₂

/-- The state after an element with its mask on top of the stack. -/
def RecordingState.after (st : RecordingState) (element : RPNElement F D) (mask : BoolMask) (rest : List BoolMask) :
    Leaves → RecordingState
  | .byContinue => { st with rpnStack := mask :: rest }
  | .atEnd =>
    { rpnStack := mask :: rest, elementIdx := st.elementIdx + 1,
      calls := st.calls ++ [⟨st.elementIdx, mask.canBeTrue, decide (element.function = .functionUnknown)⟩] }

theorem recordRPNElement_eq_ok {mask : BoolMask} {rest : List BoolMask}
    (heval : element.Evaluates (env.withPolygons polygons) singlePoint dataTypes filters hyperrectangle)
    (hstep : (elementMasks (env.withPolygons polygons) singlePoint dataTypes filters hyperrectangle).step st.rpnStack
      element.token = some (mask :: rest)) :
    recordRPNElement env polygons singlePoint dataTypes filters hyperrectangle st element =
      .ok (st.after element mask rest (element.leaves env polygons singlePoint dataTypes hyperrectangle)) := by
  unfold recordRPNElement
  rw [evalRPNElement_eq_ok heval hstep]
  simp only [bind, Except.bind]
  cases element.leaves env polygons singlePoint dataTypes hyperrectangle <;> rfl

/-- The branch of the element is left at its end. -/
def AtEnd (env : KeyEnvironment F D) (polygons : PolygonEnvironment F D X) (singlePoint : Bool) (dataTypes : ℕ → D)
    (hyperrectangle : Hyperrectangle F) (element : RPNElement F D) : Bool :=
  decide (element.leaves env polygons singlePoint dataTypes hyperrectangle = .atEnd)

/-- What is recorded of a list of elements. -/
structure RecordedRun (env : KeyEnvironment F D) (polygons : PolygonEnvironment F D X) (singlePoint : Bool) (dataTypes : ℕ → D)
    (filters : ColumnBloomFilters) (hyperrectangle : Hyperrectangle F) (rpn : List (RPNElement F D)) (stack : List BoolMask)
    (st : RecordingState) : Prop where
  run_eq : rpn.foldlM (recordRPNElement env polygons singlePoint dataTypes filters hyperrectangle) {} = .ok st
  stack_eq : st.rpnStack = stack
  elementIdx_eq : st.elementIdx = st.calls.length
  length_eq : st.calls.length = rpn.countP (AtEnd env polygons singlePoint dataTypes hyperrectangle)
  recorded : (∀ element ∈ rpn, element.leaves env polygons singlePoint dataTypes hyperrectangle = .atEnd) →
    KeyCondition.Recorded env polygons dataTypes filters hyperrectangle ⟨rpn, singlePoint⟩ st.calls

theorem record_run (heval : ∀ element ∈ rpn,
    element.Evaluates (env.withPolygons polygons) singlePoint dataTypes filters hyperrectangle) :
    ∀ {stack : List BoolMask},
      (elementMasks (env.withPolygons polygons) singlePoint dataTypes filters hyperrectangle).run (rpn.map RPNElement.token) [] =
        some stack →
      ∃ st, RecordedRun env polygons singlePoint dataTypes filters hyperrectangle rpn stack st := by
  induction rpn using List.reverseRecOn with
  | nil =>
    intro stack hrun
    obtain rfl := Option.some.inj hrun
    exact ⟨{}, rfl, rfl, rfl, rfl, fun _ => ⟨rfl, fun i e h => by cases h⟩⟩
  | append_singleton rpn element ih =>
    intro stack hrun
    have hrun' := hrun
    rw [List.map_append, Postfix.Algebra.run_append] at hrun
    obtain ⟨s₁, hbefore, hstep⟩ := Option.bind_eq_some_iff.1 hrun
    rw [List.map_singleton, Postfix.Algebra.run_singleton] at hstep
    obtain ⟨mask, rest, rfl⟩ := Postfix.Algebra.exists_cons_of_step hstep
    obtain ⟨st, hst⟩ := ih (fun e he => heval e (List.mem_append_left _ he)) hbefore
    have helement := heval element (List.mem_append_right _ List.mem_cons_self)
    have hrecord := recordRPNElement_eq_ok helement (hst.stack_eq ▸ hstep)
    have hrun_eq : (rpn ++ [element]).foldlM (recordRPNElement env polygons singlePoint dataTypes filters hyperrectangle) {} =
        .ok (st.after element mask rest (element.leaves env polygons singlePoint dataTypes hyperrectangle)) := by
      rw [List.foldlM_append, hst.run_eq]
      exact (bind_pure _).trans hrecord
    have hcount : (rpn ++ [element]).countP (AtEnd env polygons singlePoint dataTypes hyperrectangle) =
        st.calls.length + if AtEnd env polygons singlePoint dataTypes hyperrectangle element then 1 else 0 := by
      rw [List.countP_append, List.countP_singleton, hst.length_eq]
    refine ⟨st.after element mask rest (element.leaves env polygons singlePoint dataTypes hyperrectangle), ?_⟩
    cases hleaves : element.leaves env polygons singlePoint dataTypes hyperrectangle with
    | byContinue =>
      -- no call, and the counter stays
      rw [hleaves] at hrun_eq
      refine ⟨hrun_eq, rfl, hst.elementIdx_eq, ?_, fun hall => ?_⟩
      · rw [hcount]
        simp [AtEnd, hleaves, RecordingState.after]
      · have hend := hall element (List.mem_append_right _ List.mem_cons_self)
        rw [hleaves] at hend
        cases hend
    | atEnd =>
      have hlength : (st.calls ++ [(⟨st.elementIdx, mask.canBeTrue, decide (element.function = .functionUnknown)⟩ :
          PartialResult)]).length = st.calls.length + 1 := by
        rw [List.length_append, List.length_singleton]
      rw [hleaves] at hrun_eq
      refine ⟨hrun_eq, rfl, ?_, ?_, fun hall => ?_⟩
      · exact (congrArg (· + 1) hst.elementIdx_eq).trans hlength.symm
      · rw [hcount]
        simp [AtEnd, hleaves, RecordingState.after]
      · obtain ⟨hbefore_length, hbefore_get⟩ := hst.recorded fun e he => hall e (List.mem_append_left _ he)
        have hidx : st.elementIdx = rpn.length := hst.elementIdx_eq.trans hbefore_length
        refine ⟨hlength.trans ?_, fun i e hget => ?_⟩
        · rw [hbefore_length, List.length_append, List.length_singleton]
        · rcases lt_or_eq_of_le (Nat.le_of_lt_succ (by simpa using (List.getElem?_eq_some_iff.1 hget).1)) with hlt | heq
          · rw [List.getElem?_append_left hlt] at hget
            obtain ⟨start, hle, m, hcheck, hcall⟩ := hbefore_get i e hget
            refine ⟨start, hle, m, ?_, ?_⟩
            · rw [List.take_append_of_le_length hlt]
              exact hcheck
            · exact (List.getElem?_append_left (hbefore_length.symm ▸ hlt)).trans hcall
          · -- the call for this element
            have hlast : (rpn ++ [element])[rpn.length]? = some element := List.getElem?_concat_length
            obtain ⟨start, hlt, hcheck⟩ := exists_subcondition heval hrun'
            obtain rfl : i = rpn.length := heq
            rw [hlast, Option.some.injEq] at hget
            subst hget
            rw [List.length_append, List.length_singleton] at hlt
            refine ⟨start, Nat.le_of_lt_succ hlt, mask, ?_, ?_⟩
            · rw [List.take_of_length_le (by simp)]
              exact hcheck
            · unfold RecordingState.after
              rw [List.getElem?_append_right (Nat.le_of_eq hbefore_length), show st.calls.length = rpn.length from hbefore_length,
                Nat.sub_self, hidx]
              rfl

/-! ## Which elements keep their positions -/

/-- The bounds of the box are numbers, and it overlaps the bounding box of the polygon. -/
structure PolygonEnvironment.Overlaps (polygons : PolygonEnvironment F D X) (element : RPNElement F D) (rangeX rangeY : Range F) :
    Prop where
  numberX : polygons.isNaN (polygons.convertToFloat64 rangeX.left true) = false ∧
    polygons.isNaN (polygons.convertToFloat64 rangeX.right false) = false
  numberY : polygons.isNaN (polygons.convertToFloat64 rangeY.left true) = false ∧
    polygons.isNaN (polygons.convertToFloat64 rangeY.right false) = false
  overlapX : polygons.less (polygons.convertToFloat64 rangeX.right false) (polygons.bbox element).1.1 = false ∧
    polygons.less (polygons.bbox element).2.1 (polygons.convertToFloat64 rangeX.left true) = false
  overlapY : polygons.less (polygons.convertToFloat64 rangeY.right false) (polygons.bbox element).1.2 = false ∧
    polygons.less (polygons.bbox element).2.2 (polygons.convertToFloat64 rangeY.left true) = false

/-- The chain of a range has an image of the range of its column, and a polygon needs the geometry. -/
def RPNElement.KeepsPosition (env : KeyEnvironment F D) (polygons : PolygonEnvironment F D X) (singlePoint : Bool)
    (dataTypes : ℕ → D) (hyperrectangle : Hyperrectangle F) (element : RPNElement F D) : Prop :=
  element.argumentNumOfSpaceFillingCurve.isSome ∨
    match element.function with
    | .functionInRange | .functionNotInRange =>
      ∀ keyColumn rest keyRange, element.keyColumns = keyColumn :: rest → hyperrectangle[keyColumn]? = some keyRange →
        (applyMonotonicFunctionsChainToRange env.ops singlePoint element.monotonicFunctionsChain (dataTypes keyColumn)
          keyRange).isSome
    | .functionPointInPolygon =>
      ∀ columnX columnY rest rangeX rangeY, element.keyColumns = columnX :: columnY :: rest →
        hyperrectangle[columnX]? = some rangeX → hyperrectangle[columnY]? = some rangeY → polygons.Overlaps element rangeX rangeY
    | _ => True

theorem pointInPolygonMask_leaves (polygons : PolygonEnvironment F D X) {rangeX rangeY : Range F} {columnX columnY : ℕ}
    {rest : List ℕ} (hcolumns : element.keyColumns = columnX :: columnY :: rest) (hX : hyperrectangle[columnX]? = some rangeX)
    (hY : hyperrectangle[columnY]? = some rangeY) :
    ∃ mask leaves, pointInPolygonMask polygons element hyperrectangle = .ok (mask, leaves) ∧
      (leaves = .atEnd ↔ polygons.Overlaps element rangeX rangeY) := by
  unfold pointInPolygonMask
  rw [hcolumns]
  simp only [hX, hY]
  split
  · rename_i hnan
    refine ⟨_, _, rfl, by simp, fun ⟨hX, hY, _, _⟩ => ?_⟩
    rw [hX.1, hX.2, hY.1, hY.2] at hnan
    cases hnan
  · rename_i hnumbers
    split
    · rename_i hdisjoint
      refine ⟨_, _, rfl, by simp, fun ⟨_, _, hX, hY⟩ => ?_⟩
      rw [hX.1, hX.2, hY.1, hY.2] at hdisjoint
      cases hdisjoint
    · rename_i hoverlap
      refine ⟨_, _, rfl, fun _ => ?_, fun _ => rfl⟩
      simp only [Bool.or_eq_true, not_or, Bool.not_eq_true] at hnumbers hoverlap
      obtain ⟨⟨⟨hxMin, hxMax⟩, hyMin⟩, hyMax⟩ := hnumbers
      obtain ⟨⟨⟨hxLeft, hxRight⟩, hyLeft⟩, hyRight⟩ := hoverlap
      exact ⟨⟨hxMin, hxMax⟩, ⟨hyMin, hyMax⟩, ⟨hxLeft, hxRight⟩, ⟨hyLeft, hyRight⟩⟩

theorem inRange_leaves_iff :
    ((match element.keyColumns with
      | keyColumn :: _ =>
        match hyperrectangle[keyColumn]? with
        | some keyRange =>
          if (applyMonotonicFunctionsChainToRange env.ops singlePoint element.monotonicFunctionsChain (dataTypes keyColumn)
            keyRange).isNone then Leaves.byContinue else .atEnd
        | none => .atEnd
      | [] => .atEnd) = .atEnd) ↔
    ∀ keyColumn rest keyRange, element.keyColumns = keyColumn :: rest → hyperrectangle[keyColumn]? = some keyRange →
      (applyMonotonicFunctionsChainToRange env.ops singlePoint element.monotonicFunctionsChain (dataTypes keyColumn)
        keyRange).isSome := by
  cases element.keyColumns with
  | nil => simp
  | cons keyColumn rest =>
    dsimp only
    cases hget : hyperrectangle[keyColumn]? with
    | none =>
      refine iff_of_true rfl fun k rest' keyRange hcons hk => ?_
      rw [← (List.cons.inj hcons).1, hget] at hk
      cases hk
    | some keyRange =>
      cases himage : applyMonotonicFunctionsChainToRange env.ops singlePoint element.monotonicFunctionsChain
          (dataTypes keyColumn) keyRange with
      | none =>
        refine iff_of_false (fun h => ?_) fun h => ?_
        · dsimp only at h
          rw [himage] at h
          cases h
        · have hsome := h keyColumn rest keyRange rfl hget
          rw [himage] at hsome
          cases hsome
      | some image =>
        refine iff_of_true (by dsimp only; rw [himage]; rfl) fun k rest' keyRange' hcons hk => ?_
        obtain ⟨rfl, -⟩ := List.cons.inj hcons
        obtain rfl := Option.some.inj (hget.symm.trans hk)
        rw [himage]
        rfl

theorem leaves_eq_atEnd_iff : element.leaves env polygons singlePoint dataTypes hyperrectangle = .atEnd ↔
    element.KeepsPosition env polygons singlePoint dataTypes hyperrectangle := by
  unfold RPNElement.leaves RPNElement.KeepsPosition
  by_cases hcurve : element.argumentNumOfSpaceFillingCurve.isSome = true
  · exact iff_of_true (if_pos hcurve) (Or.inl hcurve)
  rw [if_neg hcurve, or_iff_right hcurve]
  cases element.function with
  | functionInRange => exact inRange_leaves_iff
  | functionNotInRange => exact inRange_leaves_iff
  | functionPointInPolygon =>
    dsimp only
    constructor
    · intro hend columnX columnY rest rangeX rangeY hcolumns hX hY
      obtain ⟨mask, leaves, hmask, hiff⟩ := pointInPolygonMask_leaves polygons hcolumns hX hY
      rw [hmask] at hend
      exact hiff.1 hend
    · intro hall
      match hcolumns : element.keyColumns with
      | [] | [_] =>
        unfold pointInPolygonMask
        rw [hcolumns]
      | columnX :: columnY :: rest =>
        cases hX : hyperrectangle[columnX]? with
        | none =>
          unfold pointInPolygonMask
          simp only [hcolumns, hX]
        | some rangeX =>
          cases hY : hyperrectangle[columnY]? with
          | none =>
            unfold pointInPolygonMask
            simp only [hcolumns, hX, hY]
          | some rangeY =>
            obtain ⟨mask, leaves, hmask, hiff⟩ := pointInPolygonMask_leaves polygons hcolumns hX hY
            rw [hmask]
            exact hiff.2 (hall columnX columnY rest rangeX rangeY hcolumns hX hY)
  | functionInSet => exact iff_of_true rfl trivial
  | functionNotInSet => exact iff_of_true rfl trivial
  | functionIsNull => exact iff_of_true rfl trivial
  | functionIsNotNull => exact iff_of_true rfl trivial
  | functionArgsInHyperrectangle => exact iff_of_true rfl trivial
  | functionUnknown => exact iff_of_true rfl trivial
  | functionNot => exact iff_of_true rfl trivial
  | functionAnd => exact iff_of_true rfl trivial
  | functionOr => exact iff_of_true rfl trivial
  | alwaysFalse => exact iff_of_true rfl trivial
  | alwaysTrue => exact iff_of_true rfl trivial

theorem evaluates_of_inRange {keyColumn : ℕ} (hfunction : element.function = .functionInRange)
    (hcolumn : element.keyColumns = [keyColumn]) (hlt : keyColumn < hyperrectangle.length) :
    element.Evaluates env singlePoint dataTypes filters hyperrectangle := by
  intro _
  unfold atomMask
  split
  · exact ⟨_, rfl⟩
  · unfold inRangeMask RPNElement.getKeyColumn
    simp only [hfunction, hcolumn, bind, Except.bind, List.getElem?_eq_getElem hlt]
    split <;> exact ⟨_, rfl⟩

/-- **Partial results are recorded at the positions of the elements if and only if every element keeps its
position**: for a well-formed condition and any hyperrectangle on which no element throws, the chain of every range has
an image and every polygon needs the geometry. -/
theorem partialResults_recorded_iff {condition : KeyCondition F D} (hwell : Postfix.WellFormed (condition.rpn.map RPNElement.token))
    (heval : ∀ element ∈ condition.rpn,
      element.Evaluates (env.withPolygons polygons) condition.singlePoint dataTypes filters hyperrectangle) :
    ∃ mask calls,
      condition.checkInHyperrectangleRecording env polygons dataTypes filters hyperrectangle = .ok (mask, calls) ∧
        condition.checkInHyperrectangle (env.withPolygons polygons) dataTypes filters hyperrectangle = .ok mask ∧
        (condition.Recorded env polygons dataTypes filters hyperrectangle calls ↔
          ∀ element ∈ condition.rpn, element.KeepsPosition env polygons condition.singlePoint dataTypes hyperrectangle) := by
  obtain ⟨mask, hmask⟩ := hwell.exists_eval
    (elementMasks (env.withPolygons polygons) condition.singlePoint dataTypes filters hyperrectangle)
  have hrun := (Postfix.Algebra.eval_eq_some _).1 hmask
  obtain ⟨st, hst⟩ := record_run heval hrun
  refine ⟨mask, st.calls, ?_, KeyCondition.checkInHyperrectangle_eq_ok heval hrun, ?_⟩
  · unfold KeyCondition.checkInHyperrectangleRecording
    rw [hst.run_eq]
    simp only [bind, Except.bind, hst.stack_eq]
    rfl
  · simp only [← leaves_eq_atEnd_iff]
    refine ⟨fun ⟨hlength, _⟩ element hmem => ?_, hst.recorded⟩
    -- as many calls as elements: no branch was left early
    have hall := List.countP_eq_length.1 (hst.length_eq.symm.trans hlength) element hmem
    exact of_decide_eq_true hall

end Recording

/-! ## An instance -/

/-- No polygons. -/
def noPolygons : PolygonEnvironment IntField Unit Unit where
  convertToNumber _ := ()
  negativeInfinity := ()
  infinity := ()
  isNaN _ := false
  less _ _ := false
  bbox _ := (((), ()), ((), ()))
  intersects _ _ := false

/-- The sign is dropped; `NULL` stays what it is. -/
def absField : IntField → IntField
  | some (some v) => intField v.natAbs
  | _ => ⊤

/-- Below zero. -/
def isNegativeField : IntField → Bool
  | none => true
  | some none => false
  | some (some v) => decide (v < 0)

/-- `abs`, which is monotonic on either side of zero. -/
def absFunction : FunctionBase IntField Unit where
  getMonotonicityForRange _ left right := ⟨!isNegativeField left || isNegativeField right, !isNegativeField left⟩
  applyFunction _ := absField
  getResultType := ()

/-- `abs(x)` between 0 and 2, or `y` is 5. -/
def absOrEquals : KeyCondition IntField Unit where
  rpn := [
    { function := .functionInRange, range := ⟨intField 0, true, intField 2, true⟩, keyColumns := [0],
      monotonicFunctionsChain := [absFunction] },
    { function := .functionInRange, range := ⟨intField 5, true, intField 5, true⟩, keyColumns := [1] },
    { function := .functionOr, range := ⟨⊥, true, ⊤, true⟩ }]

/-- A box of two columns. -/
def intBox (xMin xMax yMin yMax : ℤ) : Hyperrectangle IntField :=
  [⟨intField xMin, true, intField xMax, true⟩, ⟨intField yMin, true, intField yMax, true⟩]

theorem absOrEquals_wellFormed : Postfix.WellFormed (absOrEquals.rpn.map RPNElement.token) := by decide

theorem absOrEquals_evaluates (xMin xMax yMin yMax : ℤ) : ∀ element ∈ absOrEquals.rpn,
    element.Evaluates (integerKeys.env.withPolygons noPolygons) false (fun _ => ()) (fun _ => none)
      (intBox xMin xMax yMin yMax) := by
  intro element hmem
  rcases List.mem_cons.1 hmem with rfl | hmem
  · exact evaluates_of_inRange rfl rfl Nat.zero_lt_two
  · rcases List.mem_cons.1 hmem with rfl | hmem
    · exact evaluates_of_inRange rfl rfl Nat.one_lt_two
    · obtain rfl := List.mem_singleton.1 hmem
      intro htoken
      cases htoken

/-- On one side of zero all three elements are recorded at their positions. -/
theorem partialResults_recorded_iff_absOrEquals : ∃ mask calls,
    absOrEquals.checkInHyperrectangleRecording integerKeys.env noPolygons (fun _ => ()) (fun _ => none) (intBox 1 4 0 1) =
      .ok (mask, calls) ∧
    absOrEquals.Recorded integerKeys.env noPolygons (fun _ => ()) (fun _ => none) (intBox 1 4 0 1) calls := by
  obtain ⟨mask, calls, hrun, -, hiff⟩ := partialResults_recorded_iff absOrEquals_wellFormed (absOrEquals_evaluates 1 4 0 1)
  refine ⟨mask, calls, hrun, hiff.2 fun element hmem => Or.inr ?_⟩
  rcases List.mem_cons.1 hmem with rfl | hmem
  · rintro _ _ keyRange ⟨⟩ hget
    obtain rfl := Option.some.inj hget
    rfl
  · rcases List.mem_cons.1 hmem with rfl | hmem
    · exact fun _ _ _ _ _ => rfl
    · obtain rfl := List.mem_singleton.1 hmem
      trivial

/-- Across zero `abs(x)` makes no call: `y = 5` is recorded at position 0 and the disjunction at position 1. -/
theorem absOrEquals_not_recorded :
    (Postfix.WellFormed (absOrEquals.rpn.map RPNElement.token) ∧ ∀ element ∈ absOrEquals.rpn,
      element.Evaluates (integerKeys.env.withPolygons noPolygons) false (fun _ => ()) (fun _ => none) (intBox (-3) 4 0 1)) ∧
    absOrEquals.checkInHyperrectangleRecording integerKeys.env noPolygons (fun _ => ()) (fun _ => none) (intBox (-3) 4 0 1) =
      .ok (⟨true, true⟩, [⟨0, false, false⟩, ⟨1, true, false⟩]) ∧
    ¬ absOrEquals.Recorded integerKeys.env noPolygons (fun _ => ()) (fun _ => none) (intBox (-3) 4 0 1)
      [⟨0, false, false⟩, ⟨1, true, false⟩] :=
  ⟨⟨absOrEquals_wellFormed, absOrEquals_evaluates _ _ _ _⟩, rfl, fun ⟨hlength, _⟩ => absurd hlength (by decide)⟩

end MergeTree
