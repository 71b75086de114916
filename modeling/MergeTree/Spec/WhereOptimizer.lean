import Mathlib

/-!
# Conditions that move from WHERE to PREWHERE

`MergeTreeWhereOptimizer::optimizeImpl`: the conditions of a conjunction, and which of them are
moved (`MergeTreeWhereOptimizer.cpp`).

The optimizer sees a condition as a tree of `RPNBuilderTreeNode`, over an AST or over an
`ActionsDAG`. What a node is called and whether it is a constant or a set are data of the node.
In a DAG `arrayJoin` is a node of its own kind and not a function.
-/

namespace MergeTree

/-- The value of a constant, as far as it is compared with `threshold`. No comparison holds for NaN, which is `other`. -/
inductive ConstantField
  | uint64 (value : ℕ)
  | int64 (value : ℤ)
  | float64 (value : WithBot (WithTop ℚ))
  | other
deriving DecidableEq

/-- What the optimizer asks a node. -/
structure NodeInfo where
  columnName : String
  isConstant : Bool := false
  isSubqueryOrSet : Bool := false
  /-- `tryGetConstant`. -/
  constant : Option ConstantField := none

/-- What is asked of the function of a DAG. -/
structure ConditionFunction where
  isDeterministicInScopeOfQuery : Bool
  hasInformationAboutMonotonicity : Bool

/-- `RPNBuilderTreeNode`, without aliases. -/
inductive ConditionNode
  | leaf (info : NodeInfo)
  /-- A node `ARRAY_JOIN` of a DAG. -/
  | arrayJoin (argument : ConditionNode)
  /-- The arguments of `indexHint` are those of its own actions. -/
  | function (functionName : String) (arguments : List ConditionNode) (info : NodeInfo) (functionBase : Option ConditionFunction)

namespace ConditionNode

def columnName : ConditionNode → String
  | leaf info => info.columnName
  | arrayJoin argument => "arrayJoin(" ++ argument.columnName ++ ")"
  | function _ _ info _ => info.columnName

def info : ConditionNode → NodeInfo
  | leaf info => info
  | arrayJoin argument => { columnName := (arrayJoin argument).columnName }
  | function _ _ info _ => info

/-- Whether `collectColumns` does not look below the node. -/
def isNotRead (node : ConditionNode) : Bool := node.info.isConstant || node.info.isSubqueryOrSet

/-- The leaves of the conjunction of a node. -/
def conjuncts : ConditionNode → List ConditionNode
  | leaf info => [leaf info]
  | arrayJoin argument => [arrayJoin argument]
  | function functionName arguments info functionBase =>
    if functionName = "and" then conjunctsOf arguments else [function functionName arguments info functionBase]
where
  conjunctsOf : List ConditionNode → List ConditionNode
    | [] => []
    | argument :: arguments => argument.conjuncts ++ conjunctsOf arguments

end ConditionNode

/-- The data that the optimizer is built from. -/
structure WhereOptimizer where
  tableColumns : Finset String
  queriedColumns : List String
  supportedColumns : Option (Finset String)
  sortingKeyNames : Finset String
  primaryKeyColumnNames : List String
  columnSizes : String → Option ℕ
  /-- The functions of `KeyCondition::atom_map`. -/
  atomMap : Finset String
  /-- `estimateRelationProfile` of the statistics. -/
  estimateRows : ConditionNode → ℚ
  /-- `Nested::extractTableName`. -/
  extractTableName : String → String

/-- `WhereOptimizerContext`. -/
structure WhereOptimizerContext where
  arrayJoinedNames : Finset String := ∅
  moveAllConditionsToPrewhere : Bool := false
  movePrimaryKeyColumnsToEndOfPrewhere : Bool := false
  allowReorderPrewhereConditions : Bool := false
  isFinal : Bool := false
  useStatistics : Bool := false

/-- `Condition`. -/
structure Condition where
  node : ConditionNode
  columnsSize : ℕ := 0
  tableColumns : Finset String := ∅
  viable : Bool := false
  good : Bool := false
  estimatedRowCount : ℚ := 0
  minPositionInPrimaryKey : ℤ

def Condition.tuple (condition : Condition) : Bool ×ₗ Bool ×ₗ ℤ ×ₗ ℚ ×ₗ ℕ ×ₗ ℕ :=
  toLex (!condition.viable, toLex (!condition.good, toLex (-condition.minPositionInPrimaryKey,
    toLex (condition.estimatedRowCount, toLex (condition.columnsSize, condition.tableColumns.card)))))

/-- What `collectColumns` has found. -/
structure CollectedColumns where
  resultSet : Finset String := ∅
  hasInvalidColumn : Bool := false
  mayUsePrimaryIndex : Bool := true

namespace WhereOptimizer

variable (o : WhereOptimizer) (ctx : WhereOptimizerContext)

/-- The position of a condition that has no column of the primary key. -/
def noPosition : ℤ := 2 ^ 63 - 2

/-- `fillNamesPositions`: the last position of a name. -/
def primaryKeyPosition (column : String) : Option ℤ :=
  ((o.primaryKeyColumnNames.zipIdx.filter fun entry => entry.1 = column).map fun entry => (entry.2 : ℤ)).getLast?

def findMinPosition (columns : Finset String) : ℤ :=
  columns.fold min noPosition fun column => (o.primaryKeyPosition column).getD noPosition

def getColumnsSize (columns : Finset String) : ℕ := (∑ column ∈ columns, (o.columnSizes column).getD 0) % 2 ^ 64

def totalSizeOfQueriedColumns : ℕ := (o.queriedColumns.map fun name => (o.columnSizes name).getD 0).sum % 2 ^ 64

def columnsSupportPrewhere (columns : Finset String) : Bool :=
  match o.supportedColumns with
  | none => true
  | some supported => columns ⊆ supported

/-- The primary index cannot be used over a function that is not monotonic, unless it makes an atom. -/
def functionUsesPrimaryIndex (isRoot : Bool) (functionName : String) (argumentsSize : ℕ) (functionBase : Option ConditionFunction) : Bool :=
  if functionName ∈ o.atomMap then true
  else if isRoot then false
  else !(decide (argumentsSize > 2) || decide (argumentsSize = 0) ||
    functionBase.any fun base => !base.isDeterministicInScopeOfQuery || !base.hasInformationAboutMonotonicity)

/-- A column that is read. -/
def collectColumn (columnName : String) (found : CollectedColumns) : CollectedColumns :=
  if columnName ∈ o.tableColumns then { found with resultSet := insert columnName found.resultSet }
  else { found with hasInvalidColumn := true }

def collectColumns (isRoot : Bool) : ConditionNode → CollectedColumns → CollectedColumns
  | .leaf info, found => if (ConditionNode.leaf info).isNotRead then found else o.collectColumn info.columnName found
  | .arrayJoin argument, found => o.collectColumn (ConditionNode.arrayJoin argument).columnName found
  | .function functionName arguments info functionBase, found =>
    if (ConditionNode.function functionName arguments info functionBase).isNotRead then found
    -- its arguments are not read from the table
    else if functionName = "indexHint" then found
    else collectColumnsOf arguments { found with mayUsePrimaryIndex :=
      found.mayUsePrimaryIndex && o.functionUsesPrimaryIndex isRoot functionName arguments.length functionBase }
where
  collectColumnsOf : List ConditionNode → CollectedColumns → CollectedColumns
    | [], found => found
    | argument :: arguments, found => collectColumnsOf arguments (collectColumns false argument found)

def threshold : ℕ := 2

/-- The value of a constant is above `threshold`. -/
def isAboveThreshold : ConstantField → Bool
  | .uint64 value => threshold < value
  | .int64 value => value < -threshold ∨ threshold < value
  | .float64 value => value < ((-2 : ℚ) : WithTop ℚ) ∨ ((2 : ℚ) : WithTop ℚ) < value
  | .other => false

def isConditionGood : ConditionNode → Bool
  | .function "equals" [lhs, rhs] _ _ =>
    if lhs.columnName ∈ o.tableColumns ∧ rhs.info.isConstant then rhs.info.constant.any isAboveThreshold
    else if lhs.info.isConstant ∧ rhs.columnName ∈ o.tableColumns then lhs.info.constant.any isAboveThreshold
    else false
  | _ => false

def isExpressionOverSortingKey : ConditionNode → Bool
  | .function _ arguments _ _ => argumentsOverSortingKey arguments
  | .leaf info => info.isConstant || decide (info.columnName ∈ o.sortingKeyNames)
  | .arrayJoin argument => decide ((ConditionNode.arrayJoin argument).columnName ∈ o.sortingKeyNames)
where
  argumentsOverSortingKey : List ConditionNode → Bool
    | [] => true
    | argument :: arguments =>
      (argument.info.isConstant || decide (argument.columnName ∈ o.sortingKeyNames) || isExpressionOverSortingKey argument) &&
        argumentsOverSortingKey arguments

/-- A node that is no function is the result of `ARRAY JOIN`, or under `FINAL` a column outside of the sorting key. -/
def columnCannotBeMoved (columnName : String) : Bool :=
  decide (columnName ∈ ctx.arrayJoinedNames) || decide (o.extractTableName columnName ∈ ctx.arrayJoinedNames) ||
    (decide (columnName ∈ o.tableColumns) && ctx.isFinal && !decide (columnName ∈ o.sortingKeyNames))

def cannotBeMoved : ConditionNode → Bool
  | .function functionName arguments _ _ => functionName == "arrayJoin" || anyCannotBeMoved arguments
  | .leaf info => o.columnCannotBeMoved ctx info.columnName
  | .arrayJoin argument => o.columnCannotBeMoved ctx (ConditionNode.arrayJoin argument).columnName
where
  anyCannotBeMoved : List ConditionNode → Bool
    | [] => false
    | argument :: arguments => cannotBeMoved argument || anyCannotBeMoved arguments

/-- What is known of a condition of `analyzeImpl`. -/
def analyzeCondition (node : ConditionNode) : Condition :=
  let found := o.collectColumns true node {}
  let viable := !found.hasInvalidColumn && decide (found.resultSet ≠ ∅) && !o.cannotBeMoved ctx node &&
    (!ctx.isFinal || o.isExpressionOverSortingKey node) && o.columnsSupportPrewhere found.resultSet &&
    decide (found.resultSet.card < o.queriedColumns.length)
  { node := node
    columnsSize := o.getColumnsSize found.resultSet
    tableColumns := found.resultSet
    viable := viable
    good := if ctx.useStatistics ∨ ctx.movePrimaryKeyColumnsToEndOfPrewhere then viable else viable && o.isConditionGood node
    estimatedRowCount := if ctx.useStatistics then o.estimateRows node else 0
    minPositionInPrimaryKey :=
      if ctx.movePrimaryKeyColumnsToEndOfPrewhere ∧ found.mayUsePrimaryIndex then o.findMinPosition found.resultSet else noPosition }

def analyzeImpl : ConditionNode → List Condition
  | .function functionName arguments info functionBase =>
    if functionName = "and" then analyzeArguments arguments
    else [o.analyzeCondition ctx (.function functionName arguments info functionBase)]
  | .leaf info => [o.analyzeCondition ctx (.leaf info)]
  | .arrayJoin argument => [o.analyzeCondition ctx (.arrayJoin argument)]
where
  analyzeArguments : List ConditionNode → List Condition
    | [] => []
    | argument :: arguments => analyzeImpl argument ++ analyzeArguments arguments

/-- `min_valid_pk_pos`: the positions follow each other up to it. -/
def minValidPkPos : List ℤ → ℤ → ℤ
  | [], pos => pos
  | pkPos :: positions, pos => if pkPos ≠ pos + 1 then pos else minValidPkPos positions pkPos

def analyze (node : ConditionNode) : List Condition :=
  let res := o.analyzeImpl ctx node
  if ctx.movePrimaryKeyColumnsToEndOfPrewhere then
    let pkPositions := (res.map Condition.minPositionInPrimaryKey).toFinset.sort (· ≤ ·)
    let pos := minValidPkPos pkPositions (-1)
    res.map fun condition =>
      if pos < condition.minPositionInPrimaryKey then { condition with minPositionInPrimaryKey := noPosition } else condition
  else res

end WhereOptimizer

/-! ## Moving conditions -/

/-- A condition at its place in a list. Its address stays the same when it is moved, and `condition_positions` has its original
position. -/
structure PlacedCondition where
  position : ℕ
  condition : Condition

namespace WhereOptimizer

variable (o : WhereOptimizer) (ctx : WhereOptimizerContext)

def moveToPrewhereConditions (prewhereConditions : List PlacedCondition) (cond : PlacedCondition) : List PlacedCondition :=
  if ctx.allowReorderPrewhereConditions then prewhereConditions ++ [cond]
  else (prewhereConditions.takeWhile fun other => other.position < cond.position) ++
    cond :: prewhereConditions.dropWhile fun other => other.position < cond.position

/-- The condition depends on the same columns. -/
def sameColumns (cond jt : PlacedCondition) : Bool :=
  jt.condition.viable && decide (jt.condition.columnsSize = cond.condition.columnsSize) &&
    decide (jt.condition.tableColumns = cond.condition.tableColumns)

def moveCondition (whereConditions prewhereConditions : List PlacedCondition) (cond : PlacedCondition) :
    List PlacedCondition × List PlacedCondition :=
  let rest := whereConditions.eraseP fun jt => jt.position = cond.position
  (rest.filter fun jt => !sameColumns cond jt,
    (rest.filter (sameColumns cond)).foldl (moveToPrewhereConditions ctx) (moveToPrewhereConditions ctx prewhereConditions cond))

def movedEnough (totalSizeOfMovedConditions totalNumberOfMovedColumns : ℕ) (condition : Condition) : Bool :=
  if o.totalSizeOfQueriedColumns > 0 then
    decide (totalSizeOfMovedConditions > 0) &&
      decide ((totalSizeOfMovedConditions + condition.columnsSize) * 10 % 2 ^ 64 > o.totalSizeOfQueriedColumns)
  else
    decide (totalNumberOfMovedColumns > 0) &&
      decide ((totalNumberOfMovedColumns + condition.tableColumns.card) * 4 % 2 ^ 64 > o.queriedColumns.length)

theorem length_moveCondition_lt {whereConditions prewhereConditions : List PlacedCondition} {cond : PlacedCondition}
    (h : cond ∈ whereConditions) : (moveCondition ctx whereConditions prewhereConditions cond).1.length < whereConditions.length := by
  have herase := List.length_eraseP_of_mem h (p := fun jt => jt.position = cond.position) (decide_eq_true rfl)
  have hpos := List.length_pos_of_mem h
  have hfilter := List.length_filter_le (fun jt => !sameColumns cond jt) (whereConditions.eraseP fun jt => jt.position = cond.position)
  change (List.filter _ _).length < _
  omega

-- the order of the integers that can be computed
local instance (priority := 2000) intPreorder : Preorder ℤ := Int.instLinearOrder.toPreorder

/-- The loop of `optimizeImpl`: the best condition is moved while it is viable and not enough is moved. -/
def moveConditions (whereConditions prewhereConditions : List PlacedCondition) (totalSizeOfMovedConditions totalNumberOfMovedColumns : ℕ) :
    List PlacedCondition × List PlacedCondition :=
  match hbest : whereConditions.argmin fun cond => cond.condition.tuple with
  | none => (whereConditions, prewhereConditions)
  | some cond =>
    if !cond.condition.viable then (whereConditions, prewhereConditions)
    else if !ctx.moveAllConditionsToPrewhere && o.movedEnough totalSizeOfMovedConditions totalNumberOfMovedColumns cond.condition then
      (whereConditions, prewhereConditions)
    else
      let moved := moveCondition ctx whereConditions prewhereConditions cond
      moveConditions moved.1 moved.2 ((totalSizeOfMovedConditions + cond.condition.columnsSize) % 2 ^ 64)
        ((totalNumberOfMovedColumns + cond.condition.tableColumns.card) % 2 ^ 64)
termination_by whereConditions.length
decreasing_by exact length_moveCondition_lt ctx (List.argmin_mem hbest)

/-- `optimizeImpl`: the conditions that remain, and those that are moved. -/
def optimizeImpl (node : ConditionNode) : Option (List PlacedCondition × List PlacedCondition) :=
  let conditions := (o.analyze ctx node).zipIdx.map fun entry => (⟨entry.2, entry.1⟩ : PlacedCondition)
  let result := o.moveConditions ctx conditions [] 0 0
  if result.2.isEmpty then none else some result

end WhereOptimizer

/-! ## What a condition contains -/

namespace ConditionNode

/-- The names of the columns that a condition reads. -/
def reads : ConditionNode → List String
  | leaf info => if (leaf info).isNotRead then [] else [info.columnName]
  | arrayJoin argument => argument.reads
  | function functionName arguments info functionBase =>
    if (function functionName arguments info functionBase).isNotRead then []
    else if functionName = "indexHint" then []
    else readsOf arguments
where
  readsOf : List ConditionNode → List String
    | [] => []
    | argument :: arguments => argument.reads ++ readsOf arguments

/-- The names of the leaves. -/
def columnNames : ConditionNode → List String
  | leaf info => [info.columnName]
  | arrayJoin argument => argument.columnNames
  | function _ arguments _ _ => columnNamesOf arguments
where
  columnNamesOf : List ConditionNode → List String
    | [] => []
    | argument :: arguments => argument.columnNames ++ columnNamesOf arguments

/-- The condition has an `arrayJoin`, as a function. -/
def hasArrayJoinFunction : ConditionNode → Bool
  | leaf _ => false
  | arrayJoin argument => argument.hasArrayJoinFunction
  | function functionName arguments _ _ => functionName == "arrayJoin" || hasArrayJoinFunctionOf arguments
where
  hasArrayJoinFunctionOf : List ConditionNode → Bool
    | [] => false
    | argument :: arguments => argument.hasArrayJoinFunction || hasArrayJoinFunctionOf arguments

/-- The condition has an `arrayJoin`, as a node of a DAG. -/
def hasArrayJoinNode : ConditionNode → Bool
  | leaf _ => false
  | arrayJoin _ => true
  | function _ arguments _ _ => hasArrayJoinNodeOf arguments
where
  hasArrayJoinNodeOf : List ConditionNode → Bool
    | [] => false
    | argument :: arguments => argument.hasArrayJoinNode || hasArrayJoinNodeOf arguments

end ConditionNode

namespace WhereOptimizer

variable (o : WhereOptimizer) (ctx : WhereOptimizerContext)

/-- **A condition that can be checked before the other columns are read.** -/
structure Movable (node : ConditionNode) : Prop where
  reads_table : ∀ name ∈ node.reads, name ∈ o.tableColumns
  reads_some : node.reads ≠ []
  no_arrayJoin : node.hasArrayJoinFunction = false ∧ node.hasArrayJoinNode = false
  not_joined : ∀ name ∈ node.columnNames, name ∉ ctx.arrayJoinedNames ∧ o.extractTableName name ∉ ctx.arrayJoinedNames
  reads_key : ctx.isFinal = true → ∀ name ∈ node.reads, name ∈ o.sortingKeyNames

/-- **Conditions are divided**: none is lost or doubled, conditions stay in order unless they may be reordered, and those over the same
columns are moved together. -/
structure Divides (node : ConditionNode) (whereConditions prewhereConditions : List PlacedCondition) : Prop where
  leaves : ((whereConditions ++ prewhereConditions).map fun cond => cond.condition.node).Perm node.conjuncts
  ordered : ctx.allowReorderPrewhereConditions = false →
    (whereConditions.map fun cond => cond.condition.node).Sublist node.conjuncts ∧
      (prewhereConditions.map fun cond => cond.condition.node).Sublist node.conjuncts
  together : ∀ cond ∈ whereConditions, cond.condition.viable = true →
    ∀ moved ∈ prewhereConditions, cond.condition.tableColumns ≠ moved.condition.tableColumns

end WhereOptimizer

end MergeTree
