import MergeTree.Spec.KeyCondition

/-!
# Partial results for disjunctions

`checkInHyperrectangle` with a callback, which is called at the end of the loop body with the
value of a counter, the mask on top of the stack and whether the element is unknown. Some
branches leave the loop body early, with `continue`: a chain of functions without an image of
the range, and the two cheap answers about a polygon.

The check of polygons is a part of the model here. The numbers it computes with and the
geometry of boxes and rings are not code of this directory and are parameters.
-/

namespace MergeTree

/-! ## Polygons -/

/-- `Float64` and `boost::geometry`: numbers of fields, the corners of the bounding box of the polygon of an element,
and whether a box intersects its ring. -/
structure PolygonEnvironment (F D X : Type) where
  convertToNumber : F → X
  negativeInfinity : X
  infinity : X
  isNaN : X → Bool
  less : X → X → Bool
  bbox : RPNElement F D → (X × X) × (X × X)
  intersects : RPNElement F D → (X × X) × (X × X) → Bool

/-- Whether a branch of the loop body reaches its end. -/
inductive Leaves
  | atEnd
  | byContinue
deriving DecidableEq, Repr

section Polygon

variable {F D X : Type} [LinearOrder F] [BoundedOrder F] (polygons : PolygonEnvironment F D X)

def PolygonEnvironment.convertToFloat64 (ref : F) (isLeftBound : Bool) : X :=
  if isNullField ref then (if isLeftBound then polygons.negativeInfinity else polygons.infinity)
  else polygons.convertToNumber ref

/-- `FUNCTION_POINT_IN_POLYGON`: the mask, and how the branch is left. -/
def pointInPolygonMask (element : RPNElement F D) (hyperrectangle : Hyperrectangle F) : Except String (BoolMask × Leaves) :=
  match element.keyColumns with
  | columnX :: columnY :: _ =>
    match hyperrectangle[columnX]?, hyperrectangle[columnY]? with
    | some rangeX, some rangeY =>
      let xMin := polygons.convertToFloat64 rangeX.left true
      let xMax := polygons.convertToFloat64 rangeX.right false
      let yMin := polygons.convertToFloat64 rangeY.left true
      let yMax := polygons.convertToFloat64 rangeY.right false
      if polygons.isNaN xMin || polygons.isNaN xMax || polygons.isNaN yMin || polygons.isNaN yMax then
        .ok (⟨true, true⟩, .byContinue)
      else
        let (polyMin, polyMax) := polygons.bbox element
        let disjoint := polygons.less xMax polyMin.1 || polygons.less polyMax.1 xMin || polygons.less yMax polyMin.2 ||
          polygons.less polyMax.2 yMin
        if disjoint then .ok (⟨false, true⟩, .byContinue)
        -- the polygon may have a hole, so it can always be false
        else .ok (⟨polygons.intersects element ((xMin, yMin), (xMax, yMax)), true⟩, .atEnd)
    | _, _ => .error outOfRange
  | _ => .error outOfRange

/-- The environment with this check of polygons. -/
def KeyEnvironment.withPolygons (env : KeyEnvironment F D) : KeyEnvironment F D :=
  { env with pointInPolygon := fun element hyperrectangle => (pointInPolygonMask polygons element hyperrectangle).map Prod.fst }

end Polygon

/-! ## The callback -/

/-- A call of `update_partial_disjunction_result_fn`. -/
structure PartialResult where
  position : ℕ
  result : Bool
  isUnknown : Bool
deriving DecidableEq, Repr

/-- The loop: the stack with its top first, `element_idx`, and the calls there were. -/
structure RecordingState where
  rpnStack : List BoolMask := []
  elementIdx : ℕ := 0
  calls : List PartialResult := []

section Recording

variable {F D X : Type} [LinearOrder F] [BoundedOrder F] (env : KeyEnvironment F D) (polygons : PolygonEnvironment F D X)
  (singlePoint : Bool) (dataTypes : ℕ → D) (filters : ColumnBloomFilters) (hyperrectangle : Hyperrectangle F)

/-- How the branch of an element is left: by `continue` if its chain of functions has no image of the range of
the key column, or in the check of a polygon. -/
def RPNElement.leaves (element : RPNElement F D) : Leaves :=
  if element.argumentNumOfSpaceFillingCurve.isSome then .atEnd
  else
    match element.function with
    | .functionInRange | .functionNotInRange =>
      match element.keyColumns with
      | keyColumn :: _ =>
        match hyperrectangle[keyColumn]? with
        | some keyRange =>
          if (applyMonotonicFunctionsChainToRange env.ops singlePoint element.monotonicFunctionsChain (dataTypes keyColumn)
            keyRange).isNone then .byContinue else .atEnd
        | none => .atEnd
      | [] => .atEnd
    | .functionPointInPolygon =>
      match pointInPolygonMask polygons element hyperrectangle with
      | .ok (_, leaves) => leaves
      | .error _ => .atEnd
    | _ => .atEnd

/-- One element, and the call at the end of the loop body. -/
def recordRPNElement (st : RecordingState) (element : RPNElement F D) : Except String RecordingState := do
  let rpnStack ← evalRPNElement (env.withPolygons polygons) singlePoint dataTypes filters hyperrectangle st.rpnStack element
  match element.leaves env polygons singlePoint dataTypes hyperrectangle with
  | .byContinue => return { st with rpnStack }
  | .atEnd =>
    match rpnStack with
    | [] => throw emptyRPNStack
    | mask :: _ =>
      let call := ⟨st.elementIdx, mask.canBeTrue, decide (element.function = .functionUnknown)⟩
      return { rpnStack, elementIdx := st.elementIdx + 1, calls := st.calls ++ [call] }

/-- `checkInHyperrectangle` with a callback: the mask, and the calls in order. -/
def KeyCondition.checkInHyperrectangleRecording (condition : KeyCondition F D) :
    Except String (BoolMask × List PartialResult) := do
  let st ← condition.rpn.foldlM (recordRPNElement env polygons condition.singlePoint dataTypes filters hyperrectangle) {}
  match st.rpnStack with
  | [mask] => return (mask, st.calls)
  | _ => throw unexpectedRPNStackSize

/-- **Every element is recorded at its position**: one call for each, in order, with the value of the subexpression that
ends at the element. -/
def KeyCondition.Recorded (condition : KeyCondition F D) (calls : List PartialResult) : Prop :=
  calls.length = condition.rpn.length ∧
    ∀ (i : ℕ) (element : RPNElement F D), condition.rpn[i]? = some element →
      ∃ start ≤ i, ∃ mask,
        KeyCondition.checkInHyperrectangle (env.withPolygons polygons)
          ⟨(condition.rpn.take (i + 1)).drop start, condition.singlePoint⟩ dataTypes filters hyperrectangle = .ok mask ∧
        calls[i]? = some ⟨i, mask.canBeTrue, decide (element.function = .functionUnknown)⟩

end Recording

end MergeTree
