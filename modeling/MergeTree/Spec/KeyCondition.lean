import MergeTree.Lib.Postfix

/-!
# Key conditions

`KeyCondition`: a condition in reverse Polish notation, and its analysis on the tuples of a
key between two bounds. `checkInRange` cuts the tuples into hyperrectangles
(`forAnyHyperrectangle`) and evaluates the condition on each (`checkInHyperrectangle`) with
a `BoolMask`, which says whether it can be true and whether it can be false.

A field of a key is an element of a bounded order: `⊥` and `⊤` are the infinities, and
`NULL` is stored as the positive one. `Range`, functions, the sets of `IN` and geometry are
not code of this directory and are parameters.
-/

namespace MergeTree

/-- `KeyCondition::RPNElement::Function`. -/
inductive RPNFunction
  | functionInRange
  | functionNotInRange
  | functionInSet
  | functionNotInSet
  | functionIsNull
  | functionIsNotNull
  | functionArgsInHyperrectangle
  | functionPointInPolygon
  | functionUnknown
  | functionNot
  | functionAnd
  | functionOr
  | alwaysFalse
  | alwaysTrue
deriving DecidableEq, Repr

namespace RPNFunction

/-- The name of the constant in the source. -/
def name : RPNFunction → String
  | functionInRange => "FUNCTION_IN_RANGE"
  | functionNotInRange => "FUNCTION_NOT_IN_RANGE"
  | functionInSet => "FUNCTION_IN_SET"
  | functionNotInSet => "FUNCTION_NOT_IN_SET"
  | functionIsNull => "FUNCTION_IS_NULL"
  | functionIsNotNull => "FUNCTION_IS_NOT_NULL"
  | functionArgsInHyperrectangle => "FUNCTION_ARGS_IN_HYPERRECTANGLE"
  | functionPointInPolygon => "FUNCTION_POINT_IN_POLYGON"
  | functionUnknown => "FUNCTION_UNKNOWN"
  | functionNot => "FUNCTION_NOT"
  | functionAnd => "FUNCTION_AND"
  | functionOr => "FUNCTION_OR"
  | alwaysFalse => "ALWAYS_FALSE"
  | alwaysTrue => "ALWAYS_TRUE"

end RPNFunction

/-- `AND` and `OR`. -/
inductive RPNOperator
  | and
  | or
deriving DecidableEq, Repr

/-! ## Masks -/

/-- `BoolMask`. -/
structure BoolMask where
  canBeTrue : Bool := false
  canBeFalse : Bool := false
deriving DecidableEq, Repr

namespace BoolMask

/-- `operator&`. -/
def and (l r : BoolMask) : BoolMask := ⟨l.canBeTrue && r.canBeTrue, l.canBeFalse || r.canBeFalse⟩

/-- `operator|`. -/
def or (l r : BoolMask) : BoolMask := ⟨l.canBeTrue || r.canBeTrue, l.canBeFalse && r.canBeFalse⟩

/-- `operator!`. -/
def not (m : BoolMask) : BoolMask := ⟨m.canBeFalse, m.canBeTrue⟩

def isComplete (m : BoolMask) : Bool := m.canBeTrue && m.canBeFalse

def combine (l r : BoolMask) : BoolMask := ⟨l.canBeTrue || r.canBeTrue, l.canBeFalse || r.canBeFalse⟩

def considerOnlyCanBeTrue : BoolMask := ⟨false, true⟩

def considerOnlyCanBeFalse : BoolMask := ⟨true, false⟩

end BoolMask

/-! ## Ranges and functions -/

/-- `Range`. -/
structure Range (F : Type) where
  left : F
  leftIncluded : Bool
  right : F
  rightIncluded : Bool

/-- `Hyperrectangle`: a range for each column of the key. -/
abbrev Hyperrectangle (F : Type) : Type := List (Range F)

/-- The operations of `Range`. -/
structure RangeOps (F : Type) where
  point : F → Range F
  between : F → Bool → F → Bool → Range F
  createWholeUniverse : Range F
  createWholeUniverseWithoutNull : Range F
  createLeftBounded : F → Bool → Bool → Range F
  createRightBounded : F → Bool → Bool → Range F
  intersectsRange : Range F → Range F → Bool
  containsRange : Range F → Range F → Bool
  invert : Range F → Range F

/-- `IFunction::Monotonicity`. -/
structure Monotonicity where
  isMonotonic : Bool
  isPositive : Bool := true

/-- A function of a chain: `getMonotonicityForRange` and `applyFunction` take the type of the
argument. -/
structure FunctionBase (F D : Type) where
  getMonotonicityForRange : D → F → F → Monotonicity
  applyFunction : D → F → F
  getResultType : D

/-- `MergeTreeSetIndex`. -/
structure SetIndex (F D : Type) where
  checkInRange : Hyperrectangle F → (ℕ → D) → Bool → BoolMask

/-- `BloomFilterData`: hashes for some of the columns. -/
structure BloomFilterData where
  hashesPerColumn : List (List ℕ)
  keyColumns : List ℕ

/-- `RPNElement`. -/
structure RPNElement (F D : Type) where
  function : RPNFunction
  relaxed : Bool := false
  range : Range F
  keyColumns : List ℕ := []
  argumentNumOfSpaceFillingCurve : Option ℕ := none
  setIndex : Option (SetIndex F D) := none
  monotonicFunctionsChain : List (FunctionBase F D) := []
  bloomFilterData : Option BloomFilterData := none

/-- What is not code of this directory. The masks of elements with space-filling curves and with polygons
are whole parameters. -/
structure KeyEnvironment (F D : Type) where
  ops : RangeOps F
  isNaN : F → Bool
  isNullable : D → Bool
  elementText : RPNElement F D → String
  argsInHyperrectangle : RPNElement F D → Hyperrectangle F → Except String BoolMask
  pointInPolygon : RPNElement F D → Hyperrectangle F → Except String BoolMask

/-- `KeyCondition`. -/
structure KeyCondition (F D : Type) where
  rpn : List (RPNElement F D)
  singlePoint : Bool := false

/-- `ColumnIndexToBloomFilter`: the bloom filters there are, with `findAnyHash`. -/
abbrev ColumnBloomFilters : Type := ℕ → Option (List ℕ → Bool)

/-! ## Errors -/

/-- The exception of `vector::at`. -/
def outOfRange : String := "vector::at"

/-- The exception on an element for a column that is not there. -/
def noSuchColumn (size keyColumn : ℕ) (elementText : String) : String :=
  "Hyperrectangle size is " ++ toString size ++ ", but requested element at position " ++ toString keyColumn ++
    " (" ++ elementText ++ ")"

/-- The exception on a set element without a set. -/
def setNotCreated : String := "Set for IN is not created yet"

/-- `back` of an empty stack, which has no defined behaviour. -/
def emptyRPNStack : String := "back of an empty stack"

/-- The exception on any other function. -/
def unexpectedRPNFunction : String := "Unexpected function type in KeyCondition::RPNElement"

/-- The exception on a condition that does not leave one mask. -/
def unexpectedRPNStackSize : String := "Unexpected stack size in KeyCondition::checkInHyperrectangle"

/-! ## `checkInHyperrectangle` -/

def mayExistOnBloomFilter (data : BloomFilterData) (filters : ColumnBloomFilters) : Bool :=
  (data.hashesPerColumn.zip data.keyColumns).all fun (hashes, keyColumn) =>
    match filters keyColumn with
    | none => true
    | some findAnyHash => findAnyHash hashes

namespace RPNElement

variable {F D : Type}

def getKeyColumn (element : RPNElement F D) : Except String ℕ :=
  match element.keyColumns with
  | keyColumn :: _ => .ok keyColumn
  | [] => .error outOfRange

/-- The bloom filters of the element, which are asked if it can be true. -/
def bloomMask (element : RPNElement F D) (filters : ColumnBloomFilters) (mask : BoolMask) : BoolMask :=
  match element.bloomFilterData with
  | some data => if mask.canBeTrue then { mask with canBeTrue := mayExistOnBloomFilter data filters } else mask
  | none => mask

/-- A relaxed condition can always be false; then the negation. -/
def finishMask (element : RPNElement F D) (negated : Bool) (mask : BoolMask) : BoolMask :=
  let mask := if element.relaxed then { mask with canBeFalse := true } else mask
  if negated then mask.not else mask

end RPNElement

section Hyperrectangle

variable {F D : Type} [LinearOrder F] [BoundedOrder F]

/-- `isNull`: the infinities. -/
def isNullField (x : F) : Bool := decide (x = ⊥ ∨ x = ⊤)

/-- One function of `applyMonotonicFunctionsChainToRange`. -/
def applyMonotonicFunctionToRange (ops : RangeOps F) (func : FunctionBase F D) (currentType : D) (singlePoint : Bool)
    (keyRange : Range F) : Option (Range F) :=
  let monotonicity :=
    if singlePoint then { isMonotonic := true }
    else func.getMonotonicityForRange currentType keyRange.left keyRange.right
  if !monotonicity.isMonotonic then none
  else
    -- the ends become included: an open interval may have an empty image
    let keyRange :=
      if isNullField keyRange.left then keyRange
      else { keyRange with left := func.applyFunction currentType keyRange.left, leftIncluded := true }
    let keyRange :=
      if isNullField keyRange.right then keyRange
      else { keyRange with right := func.applyFunction currentType keyRange.right, rightIncluded := true }
    some (if monotonicity.isPositive then keyRange else ops.invert keyRange)

def applyMonotonicFunctionsChainToRange (ops : RangeOps F) (singlePoint : Bool) :
    List (FunctionBase F D) → D → Range F → Option (Range F)
  | [], _, keyRange => some keyRange
  | func :: functions, currentType, keyRange =>
    match applyMonotonicFunctionToRange ops func currentType singlePoint keyRange with
    | some keyRange => applyMonotonicFunctionsChainToRange ops singlePoint functions func.getResultType keyRange
    | none => none

/-- The mask of a range of the key column against the range of the element. `NaN` is last in the order and
satisfies no comparison. -/
def rangeMask (env : KeyEnvironment F D) (range keyRange : Range F) : BoolMask :=
  if env.isNaN keyRange.left then ⟨false, true⟩
  else if env.isNaN keyRange.right then ⟨env.ops.intersectsRange range keyRange, true⟩
  else ⟨env.ops.intersectsRange range keyRange, !env.ops.containsRange range keyRange⟩

variable (env : KeyEnvironment F D) (singlePoint : Bool) (dataTypes : ℕ → D) (filters : ColumnBloomFilters)
  (hyperrectangle : Hyperrectangle F)

/-- `FUNCTION_IN_RANGE` and `FUNCTION_NOT_IN_RANGE`. -/
def inRangeMask (element : RPNElement F D) (negated : Bool) : Except String BoolMask := do
  let keyColumn ← element.getKeyColumn
  match hyperrectangle[keyColumn]? with
  | none => throw (noSuchColumn hyperrectangle.length keyColumn (env.elementText element))
  | some keyRange =>
    match applyMonotonicFunctionsChainToRange env.ops singlePoint element.monotonicFunctionsChain (dataTypes keyColumn)
      keyRange with
    | none => return ⟨true, true⟩
    | some keyRange =>
      let mask := rangeMask env element.range keyRange
      return element.finishMask negated
        (if element.monotonicFunctionsChain.isEmpty then element.bloomMask filters mask else mask)

/-- `FUNCTION_IS_NULL` and `FUNCTION_IS_NOT_NULL`: the range of the element is the one of `IS_NOT_NULL`. -/
def isNullMask (element : RPNElement F D) (negated : Bool) : Except String BoolMask := do
  let keyColumn ← element.getKeyColumn
  match hyperrectangle[keyColumn]? with
  | none => throw outOfRange
  | some keyRange =>
    return element.finishMask negated
      ⟨env.ops.intersectsRange element.range keyRange, !env.ops.containsRange element.range keyRange⟩

/-- `FUNCTION_IN_SET` and `FUNCTION_NOT_IN_SET`. -/
def inSetMask (element : RPNElement F D) (negated : Bool) : Except String BoolMask :=
  match element.setIndex with
  | none => throw setNotCreated
  | some setIndex =>
    return element.finishMask negated (element.bloomMask filters (setIndex.checkInRange hyperrectangle dataTypes singlePoint))

/-- The mask of an element that is not a logical operator. -/
def atomMask (element : RPNElement F D) : Except String BoolMask :=
  if element.argumentNumOfSpaceFillingCurve.isSome then .ok ⟨true, true⟩
  else
    match element.function with
    | .functionUnknown => .ok ⟨true, true⟩
    | .functionInRange => inRangeMask env singlePoint dataTypes filters hyperrectangle element false
    | .functionNotInRange => inRangeMask env singlePoint dataTypes filters hyperrectangle element true
    | .functionArgsInHyperrectangle => env.argsInHyperrectangle element hyperrectangle
    | .functionPointInPolygon => env.pointInPolygon element hyperrectangle
    | .functionIsNull => isNullMask env hyperrectangle element true
    | .functionIsNotNull => isNullMask env hyperrectangle element false
    | .functionInSet => inSetMask singlePoint dataTypes filters hyperrectangle element false
    | .functionNotInSet => inSetMask singlePoint dataTypes filters hyperrectangle element true
    | .alwaysTrue => .ok ⟨true, false⟩
    | .alwaysFalse => .ok ⟨false, true⟩
    | _ => .error unexpectedRPNFunction

/-- One element, over the stack with its top first. -/
def evalRPNElement (rpnStack : List BoolMask) (element : RPNElement F D) : Except String (List BoolMask) :=
  if element.argumentNumOfSpaceFillingCurve.isSome then .ok (⟨true, true⟩ :: rpnStack)
  else
    match element.function with
    | .functionNot =>
      match rpnStack with
      | mask :: rest => .ok (mask.not :: rest)
      | [] => .error emptyRPNStack
    | .functionAnd =>
      match rpnStack with
      | arg1 :: arg2 :: rest => .ok (arg1.and arg2 :: rest)
      | _ => .error emptyRPNStack
    | .functionOr =>
      match rpnStack with
      | arg1 :: arg2 :: rest => .ok (arg1.or arg2 :: rest)
      | _ => .error emptyRPNStack
    | _ => do return (← atomMask env singlePoint dataTypes filters hyperrectangle element) :: rpnStack

end Hyperrectangle

namespace KeyCondition

variable {F D : Type} [LinearOrder F] [BoundedOrder F] (env : KeyEnvironment F D) (condition : KeyCondition F D)
  (dataTypes : ℕ → D)

def checkInHyperrectangle (filters : ColumnBloomFilters) (hyperrectangle : Hyperrectangle F) : Except String BoolMask := do
  match ← condition.rpn.foldlM (evalRPNElement env condition.singlePoint dataTypes filters hyperrectangle) [] with
  | [mask] => return mask
  | _ => throw unexpectedRPNStackSize

end KeyCondition

/-! ## `forAnyHyperrectangle` -/

section Cut

variable {F D : Type} [LinearOrder F] [BoundedOrder F] (env : KeyEnvironment F D) (keySize : ℕ)
  (leftKeys rightKeys : ℕ → F) (dataTypes : ℕ → D)

/-- The whole range of a column. -/
def columnUniverse (column : ℕ) : Range F :=
  if env.isNullable (dataTypes column) then env.ops.createWholeUniverse else env.ops.createWholeUniverseWithoutNull

/-- The first loop: the columns where both bounds agree become points. -/
def matchPrefix (prefixSize : ℕ) (hyperrectangle : Hyperrectangle F) : ℕ × Hyperrectangle F :=
  if prefixSize < keySize then
    if leftKeys prefixSize = rightKeys prefixSize then
      matchPrefix (prefixSize + 1) (hyperrectangle.set prefixSize (env.ops.point (leftKeys prefixSize)))
    else (prefixSize, hyperrectangle)
  else (prefixSize, hyperrectangle)
termination_by keySize - prefixSize

/-- The range of a column between the bounds there are. -/
def boundedRange (leftBounded rightBounded included : Bool) (column : ℕ) : Option (Range F) :=
  if leftBounded && rightBounded then some (env.ops.between (leftKeys column) included (rightKeys column) included)
  else if leftBounded then
    some (env.ops.createLeftBounded (leftKeys column) included (env.isNullable (dataTypes column)))
  else if rightBounded then
    some (env.ops.createRightBounded (rightKeys column) included (env.isNullable (dataTypes column)))
  else none

/-- A column set to the range between its bounds. -/
def setBounded (leftBounded rightBounded included : Bool) (column : ℕ) (hyperrectangle : Hyperrectangle F) :
    Hyperrectangle F :=
  match boundedRange env leftKeys rightKeys dataTypes leftBounded rightBounded included column with
  | some range => hyperrectangle.set column range
  | none => hyperrectangle

/-- The loop that frees all columns from one on. -/
def freeColumns (column : ℕ) (hyperrectangle : Hyperrectangle F) : Hyperrectangle F :=
  (List.range' column (keySize - column)).foldl (fun h i => h.set i (columnUniverse env dataTypes i)) hyperrectangle

/-- Where the cut begins: the loop runs only if both bounds are there. -/
def skipMatching (leftBounded rightBounded : Bool) (hyperrectangle : Hyperrectangle F) (prefixSize : ℕ) :
    ℕ × Hyperrectangle F :=
  if leftBounded && rightBounded then matchPrefix env keySize leftKeys rightKeys prefixSize hyperrectangle
  else (prefixSize, hyperrectangle)

omit [BoundedOrder F] in
theorem le_matchPrefix (prefixSize : ℕ) (hyperrectangle : Hyperrectangle F) :
    prefixSize ≤ (matchPrefix env keySize leftKeys rightKeys prefixSize hyperrectangle).1 := by
  fun_induction matchPrefix with
  | case1 prefixSize hyperrectangle _ _ ih => omega
  | case2 => exact le_rfl
  | case3 => exact le_rfl

omit [BoundedOrder F] in
theorem le_skipMatching (leftBounded rightBounded : Bool) (hyperrectangle : Hyperrectangle F) (prefixSize : ℕ) :
    prefixSize ≤ (skipMatching env keySize leftKeys rightKeys leftBounded rightBounded hyperrectangle prefixSize).1 := by
  unfold skipMatching
  split
  · exact le_matchPrefix env keySize leftKeys rightKeys prefixSize hyperrectangle
  · exact le_rfl

/-- The result with the part of the cut next to a bound, if that bound is there. -/
def combineSide (bounded : Bool) (side : Hyperrectangle F → Except String (BoolMask × Hyperrectangle F))
    (st : BoolMask × Hyperrectangle F) : Except String (BoolMask × Hyperrectangle F) :=
  if bounded then (side st.2).map fun (mask, hyperrectangle) => (BoolMask.combine st.1 mask, hyperrectangle) else .ok st

variable (callback : Hyperrectangle F → Except String BoolMask) (initialMask : BoolMask)

/-- `forAnyHyperrectangle`: the mask, and the hyperrectangle as it is left. -/
def forAnyHyperrectangle (leftBounded rightBounded : Bool) (hyperrectangle : Hyperrectangle F) (prefixSize : ℕ) :
    Except String (BoolMask × Hyperrectangle F) :=
  if !leftBounded && !rightBounded then (callback hyperrectangle).map fun mask => (mask, hyperrectangle)
  else
    let column := (skipMatching env keySize leftKeys rightKeys leftBounded rightBounded hyperrectangle prefixSize).1
    let matched := (skipMatching env keySize leftKeys rightKeys leftBounded rightBounded hyperrectangle prefixSize).2
    if keySize ≤ column then (callback matched).map fun mask => (mask, matched)
    else if column + 1 = keySize then
      let last := setBounded env leftKeys rightKeys dataTypes leftBounded rightBounded true column matched
      (callback last).map fun mask => (mask, last)
    else do
      -- (x1 .. x2) × (-inf .. +inf)
      let inner := freeColumns env keySize dataTypes (column + 1)
        (setBounded env leftKeys rightKeys dataTypes leftBounded rightBounded false column matched)
      let mask ← callback inner
      let result := BoolMask.combine initialMask mask
      if result.isComplete then return (result, inner)
      else
        -- [x1] × [y1 .. +inf)
        let left ← combineSide leftBounded
          (fun h => forAnyHyperrectangle true false (h.set column (env.ops.point (leftKeys column))) (column + 1))
          (result, inner)
        if leftBounded && left.1.isComplete then return left
        else
          -- [x2] × (-inf .. y2]
          combineSide rightBounded
            (fun h => forAnyHyperrectangle false true (h.set column (env.ops.point (rightKeys column))) (column + 1)) left
termination_by keySize - prefixSize
decreasing_by
  all_goals
    have := le_skipMatching env keySize leftKeys rightKeys leftBounded rightBounded hyperrectangle prefixSize
    omega

end Cut

namespace KeyCondition

variable {F D : Type} [LinearOrder F] [BoundedOrder F] (env : KeyEnvironment F D) (condition : KeyCondition F D)
  (usedKeySize : ℕ) (leftKeys rightKeys : ℕ → F) (dataTypes : ℕ → D)

def checkInRange (initialMask : BoolMask) : Except String BoolMask :=
  (forAnyHyperrectangle env usedKeySize leftKeys rightKeys dataTypes
    (condition.checkInHyperrectangle env dataTypes fun _ => none) initialMask true true
    ((List.range usedKeySize).map (columnUniverse env dataTypes)) 0).map Prod.fst

def mayBeTrueInRange : Except String Bool :=
  (condition.checkInRange env usedKeySize leftKeys rightKeys dataTypes BoolMask.considerOnlyCanBeTrue).map
    BoolMask.canBeTrue

end KeyCondition

/-! ## What the condition stands for -/

section Meaning

variable {F D : Type} [LinearOrder F] [BoundedOrder F]

/-- The field is in the range; `NULL` is where an infinity is included. -/
def Range.Contains (range : Range F) (x : F) : Prop :=
  if x = ⊤ then range.right = ⊤ ∧ range.rightIncluded = true ∨ range.left = ⊥ ∧ range.leftIncluded = true
  else (range.left < x ∨ range.left = x ∧ range.leftIncluded = true) ∧
    (x < range.right ∨ x = range.right ∧ range.rightIncluded = true)

/-- The tuple is in the hyperrectangle. -/
def Hyperrectangle.Contains (hyperrectangle : Hyperrectangle F) (t : ℕ → F) : Prop :=
  ∀ (i : ℕ) (range : Range F), hyperrectangle[i]? = some range → range.Contains (t i)

/-- The operations of `Range` are sound. An image under a decreasing function is inverted: the ends change
places, and an infinite end stays infinite. -/
structure RangeOps.Sound (ops : RangeOps F) : Prop where
  point : ∀ x, ops.point x = ⟨x, true, x, true⟩
  between : ∀ l li r ri x, x ≠ ⊥ → Range.Contains ⟨l, li, r, ri⟩ x → (ops.between l li r ri).Contains x
  wholeUniverse : ∀ x, x ≠ ⊥ → ops.createWholeUniverse.Contains x
  wholeUniverseWithoutNull : ∀ x, x ≠ ⊥ → x ≠ ⊤ → ops.createWholeUniverseWithoutNull.Contains x
  leftBounded : ∀ l included withNull x, x ≠ ⊥ → (x = ⊤ → withNull = true) → (l < x ∨ l = x ∧ included = true) →
    (ops.createLeftBounded l included withNull).Contains x
  rightBounded : ∀ r included withNull x, x ≠ ⊥ → (x = ⊤ → withNull = true) → (x < r ∨ x = r ∧ included = true) →
    (ops.createRightBounded r included withNull).Contains x
  intersects : ∀ r s x, x ≠ ⊥ → x ≠ ⊤ → r.Contains x → s.Contains x → ops.intersectsRange r s = true
  contains : ∀ r s, ops.containsRange r s = true → ∀ x, x ≠ ⊥ → s.Contains x → r.Contains x
  invert : ∀ r x, x ≠ ⊥ → x ≠ ⊤ → (r.right ≠ ⊤ → r.right < x ∨ r.right = x ∧ r.rightIncluded = true) →
    (r.left ≠ ⊥ → x < r.left ∨ x = r.left ∧ r.leftIncluded = true) → (ops.invert r).Contains x
  invert_null : ∀ r, r.Contains ⊤ → (ops.invert r).Contains ⊤

/-- The function is not applied to `NULL`. -/
def FunctionBase.valueAt (func : FunctionBase F D) (currentType : D) (x : F) : F :=
  if isNullField x then x else func.applyFunction currentType x

/-- The value of a chain of functions. -/
def chainValue : List (FunctionBase F D) → D → F → F
  | [], _, x => x
  | func :: functions, currentType, x => chainValue functions func.getResultType (func.valueAt currentType x)

/-- Where the function says that it is monotonic, it maps values to values and keeps or reverses their
order. -/
def FunctionBase.Truthful (func : FunctionBase F D) (currentType : D) : Prop :=
  ∀ left right, (func.getMonotonicityForRange currentType left right).isMonotonic = true →
    ∀ x y, x ≠ ⊥ → y ≠ ⊤ → left ≤ x → x ≤ y → y ≤ right →
      (func.applyFunction currentType x ≠ ⊤ ∧ func.applyFunction currentType y ≠ ⊤) ∧
        if (func.getMonotonicityForRange currentType left right).isPositive then
          func.applyFunction currentType x ≤ func.applyFunction currentType y
        else func.applyFunction currentType y ≤ func.applyFunction currentType x

/-- Every function of the chain is truthful, and no function returns the negative infinity. -/
def TruthfulChain (singlePoint : Bool) : List (FunctionBase F D) → D → Prop
  | [], _ => True
  | func :: functions, currentType =>
    (singlePoint = false → func.Truthful currentType) ∧ (∀ x, func.applyFunction currentType x ≠ ⊥) ∧
      TruthfulChain singlePoint functions func.getResultType

/-- The values an atom may have: a relaxed one holds only where `p` does, any other one exactly there. -/
def atomValues (relaxed : Bool) (p : Prop) : Set Bool := {b | (b = true → p) ∧ (relaxed = false → p → b = true)}

/-- The values of the negation. -/
def negatedValues (s : Set Bool) : Set Bool := {b | (!b) ∈ s}

/-- What the elements of a condition mean: the types of the key columns, and the tuples in a set. -/
structure KeyMeaning (F D : Type) where
  env : KeyEnvironment F D
  dataTypes : ℕ → D
  inSet : SetIndex F D → (ℕ → F) → Prop

/-- The operations of `Range` are sound, and `NaN` is last in the order. -/
structure KeyMeaning.Sound (meaning : KeyMeaning F D) : Prop where
  ops : meaning.env.ops.Sound
  nan_last : ∀ x y, meaning.env.isNaN x = true → x ≤ y → y ≠ ⊤ → meaning.env.isNaN y = true

namespace RPNElement

/-- The key column is in the range of the element, after the functions: it is neither `NULL` nor `NaN`. -/
def InRange (element : RPNElement F D) (meaning : KeyMeaning F D) (t : ℕ → F) : Prop :=
  ∃ keyColumn x, element.keyColumns = [keyColumn] ∧
    x = chainValue element.monotonicFunctionsChain (meaning.dataTypes keyColumn) (t keyColumn) ∧
      x ≠ ⊤ ∧ meaning.env.isNaN x = false ∧ element.range.Contains x

/-- The key column is not `NaN` after the functions. -/
def NotNaN (element : RPNElement F D) (meaning : KeyMeaning F D) (t : ℕ → F) : Prop :=
  ∀ keyColumn, element.keyColumns = [keyColumn] →
    meaning.env.isNaN (chainValue element.monotonicFunctionsChain (meaning.dataTypes keyColumn) (t keyColumn)) = false

/-- The key column is not `NULL`. -/
def IsNotNull (element : RPNElement F D) (t : ℕ → F) : Prop :=
  ∃ keyColumn, element.keyColumns = [keyColumn] ∧ t keyColumn ≠ ⊤

/-- The key is in the set. -/
def InSet (element : RPNElement F D) (meaning : KeyMeaning F D) (t : ℕ → F) : Prop :=
  ∃ setIndex, element.setIndex = some setIndex ∧ meaning.inSet setIndex t

/-- The values an element may have at a tuple of the key. -/
def possibleValues (element : RPNElement F D) (meaning : KeyMeaning F D) (t : ℕ → F) : Set Bool :=
  if element.argumentNumOfSpaceFillingCurve.isSome then Set.univ
  else
    match element.function with
    | .functionInRange => atomValues element.relaxed (element.InRange meaning t)
    | .functionNotInRange => negatedValues (atomValues element.relaxed (element.InRange meaning t))
    | .functionIsNotNull => atomValues element.relaxed (element.IsNotNull t)
    | .functionIsNull => negatedValues (atomValues element.relaxed (element.IsNotNull t))
    | .functionInSet => atomValues element.relaxed (element.InSet meaning t)
    | .functionNotInSet => negatedValues (atomValues element.relaxed (element.InSet meaning t))
    | .alwaysTrue => {true}
    | .alwaysFalse => {false}
    | _ => Set.univ

/-- The element in a postfix program. -/
def token (element : RPNElement F D) : Postfix.Token (RPNElement F D) Unit RPNOperator :=
  if element.argumentNumOfSpaceFillingCurve.isSome then .operand element
  else
    match element.function with
    | .functionNot => .unary ()
    | .functionAnd => .binary .and
    | .functionOr => .binary .or
    | _ => .operand element

end RPNElement

/-- The values a condition may have at a tuple of the key. -/
def possibleMeaning (meaning : KeyMeaning F D) (t : ℕ → F) :
    Postfix.Algebra (RPNElement F D) Unit RPNOperator (Set Bool) where
  operand element := element.possibleValues meaning t
  unary _ := negatedValues
  binary
    | .and, s, s' => {b | ∃ x ∈ s, ∃ y ∈ s', b = (x && y)}
    | .or, s, s' => {b | ∃ x ∈ s, ∃ y ∈ s', b = (x || y)}

/-- The condition may have this value at the tuple. -/
def KeyCondition.MayBe (condition : KeyCondition F D) (meaning : KeyMeaning F D) (t : ℕ → F) (value : Bool) : Prop :=
  ∃ s, (possibleMeaning meaning t).eval (condition.rpn.map RPNElement.token) = some s ∧ value ∈ s

/-- The tuple can be a key: no field is the negative infinity, and `NULL` is only in nullable columns. -/
def KeyMeaning.IsKey (meaning : KeyMeaning F D) (usedKeySize : ℕ) (t : ℕ → F) : Prop :=
  ∀ i < usedKeySize, t i ≠ ⊥ ∧ (t i = ⊤ → meaning.env.isNullable (meaning.dataTypes i) = true)

/-- The check of a set is sound: on a hyperrectangle with the tuple, and if the key range is said to be a
single point, on that point. -/
def SetIndex.Sound (setIndex : SetIndex F D) (meaning : KeyMeaning F D) (usedKeySize : ℕ) (singlePoint : Bool) : Prop :=
  ∀ (hyperrectangle : Hyperrectangle F) (t : ℕ → F), hyperrectangle.length = usedKeySize →
    meaning.IsKey usedKeySize t → hyperrectangle.Contains t →
      (singlePoint = true → ∀ i < usedKeySize, hyperrectangle[i]? = some (meaning.env.ops.point (t i))) →
        (meaning.inSet setIndex t → (setIndex.checkInRange hyperrectangle meaning.dataTypes singlePoint).canBeTrue = true) ∧
          (¬ meaning.inSet setIndex t →
            (setIndex.checkInRange hyperrectangle meaning.dataTypes singlePoint).canBeFalse = true)

/-- An element as the analysis builds it: one key column, a range without `NULL` (the range of all values
for `IS_NULL`), truthful functions, a set that is checked soundly. -/
def RPNElement.WellFormed (element : RPNElement F D) (meaning : KeyMeaning F D) (usedKeySize : ℕ) (singlePoint : Bool) :
    Prop :=
  element.argumentNumOfSpaceFillingCurve.isSome ∨
    match element.function with
    | .functionInRange | .functionNotInRange =>
      ¬ element.range.Contains ⊤ ∧ ∃ keyColumn < usedKeySize, element.keyColumns = [keyColumn] ∧
        TruthfulChain singlePoint element.monotonicFunctionsChain (meaning.dataTypes keyColumn)
    | .functionIsNull | .functionIsNotNull =>
      (∀ x, x ≠ ⊥ → (element.range.Contains x ↔ x ≠ ⊤)) ∧ ∃ keyColumn < usedKeySize, element.keyColumns = [keyColumn]
    | .functionInSet | .functionNotInSet =>
      ∃ setIndex, element.setIndex = some setIndex ∧ setIndex.Sound meaning usedKeySize singlePoint
    | .functionArgsInHyperrectangle | .functionPointInPolygon => False
    | _ => True

/-- A condition whose elements are well formed and leave one value. -/
structure KeyCondition.WellFormed (condition : KeyCondition F D) (meaning : KeyMeaning F D) (usedKeySize : ℕ) : Prop where
  leavesOne : Postfix.WellFormed (condition.rpn.map RPNElement.token)
  elements : ∀ element ∈ condition.rpn, element.WellFormed meaning usedKeySize condition.singlePoint

/-- The lexicographic order on the columns from `k` up to `n`: where all columns before agree, the next one
is not greater. -/
def LexLe (k n : ℕ) (a b : ℕ → F) : Prop :=
  ∀ j, k ≤ j → j < n → (∀ i, k ≤ i → i < j → a i = b i) → a j ≤ b j

end Meaning

end MergeTree
