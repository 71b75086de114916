import MergeTree.Lib.Kleene
import MergeTree.Lib.Postfix

/-!
# Pushing NOT down

`cloneDAGWithInversionPushDown` clones a filter for the index analysis: `not` is pushed to the
leaves, relations under it are replaced by their complements, and aliases, `materialize` and
trivial casts are dropped (`KeyCondition.cpp`). `RPNBuilder` makes a postfix expression from the
clone (`RPNBuilder.cpp`).

A DAG is read as a tree, a shared node as several equal ones. The nodes are kept apart by what
the source asks of them; `indexHint`, `ARRAY_JOIN` and placeholders are left out.
-/

namespace MergeTree

/-- The value of an expression on a row: a number, or anything else. -/
inductive FilterValue (A : Type)
  | null
  | int (n : ℤ)
  | nan
  | other (a : A)
deriving DecidableEq

variable {A : Type}

namespace FilterValue

/-- A value as a condition: any number but zero counts as true. -/
def truth : FilterValue A → Option Bool
  | null => none
  | int n => some (n ≠ 0)
  | nan => some true
  | other _ => some true

/-- A condition as a value. -/
def ofTruth : Option Bool → FilterValue A
  | none => null
  | some true => int 1
  | some false => int 0

/-- `not`. -/
def negate (v : FilterValue A) : FilterValue A := ofTruth (Kleene.not v.truth)

/-- The value is 0, 1 or NULL. -/
def IsBoolean (v : FilterValue A) : Prop := ofTruth v.truth = v

end FilterValue

/-- `and` and `or`. -/
inductive LogicalOperator
  | and
  | or
deriving DecidableEq, Repr

namespace LogicalOperator

def inverse : LogicalOperator → LogicalOperator
  | and => or
  | or => and

def eval : LogicalOperator → Option Bool → Option Bool → Option Bool
  | and => Kleene.and
  | or => Kleene.or

end LogicalOperator

/-- A node of a filter. -/
inductive FilterNode (A : Type)
  | input (name : String)
  | column (value : FilterValue A)
  | aliased (child : FilterNode A)
  | not (child : FilterNode A)
  | materialize (child : FilterNode A)
  /-- A `CAST` to the type that its argument has. -/
  | trivialCast (child : FilterNode A)
  | logical (op : LogicalOperator) (first : FilterNode A) (rest : List (FilterNode A))
  /-- Any other function. -/
  | function (name : String) (children : List (FilterNode A))

def inverseRelations : List (String × String) :=
  [("equals", "notEquals"), ("notEquals", "equals"), ("less", "greaterOrEquals"), ("greaterOrEquals", "less"),
    ("greater", "lessOrEquals"), ("lessOrEquals", "greater"), ("in", "notIn"), ("notIn", "in"), ("globalIn", "globalNotIn"),
    ("globalNotIn", "globalIn"), ("nullIn", "notNullIn"), ("notNullIn", "nullIn"), ("globalNullIn", "globalNotNullIn"),
    ("globalNullNotIn", "globalNullIn"), ("isNull", "isNotNull"), ("isNotNull", "isNull"), ("like", "notLike"), ("notLike", "like"),
    ("ilike", "notILike"), ("notILike", "ilike"), ("empty", "notEmpty"), ("notEmpty", "empty")]

/-- The comparisons that depend on an order. -/
def orderRelations : List String := ["less", "lessOrEquals", "greater", "greaterOrEquals"]

namespace FilterNode

/-- `not` over a node that has not taken the inversion. -/
def invertIf (needInversion : Bool) (node : FilterNode A) : FilterNode A := if needInversion then .not node else node

def cloneDAGWithInversionPushDown (needInversion : Bool) : FilterNode A → FilterNode A
  | input name => invertIf needInversion (.input name)
  | column value => invertIf needInversion (.column value)
  | aliased child => child.cloneDAGWithInversionPushDown needInversion
  | not child => child.cloneDAGWithInversionPushDown !needInversion
  | materialize child => child.cloneDAGWithInversionPushDown needInversion
  | trivialCast child => child.cloneDAGWithInversionPushDown needInversion
  | logical op first rest =>
    logical (if needInversion then op.inverse else op) (first.cloneDAGWithInversionPushDown needInversion) (cloneAll needInversion rest)
  | function name children =>
    match inverseRelations.lookup name with
    | some inverse => .function (if needInversion then inverse else name) (cloneAll false children)
    | none => invertIf needInversion (.function name (cloneAll false children))
where
  cloneAll (needInversion : Bool) : List (FilterNode A) → List (FilterNode A)
    | [] => []
    | child :: children => child.cloneDAGWithInversionPushDown needInversion :: cloneAll needInversion children

/-- `traverseTree`: the elements of an operator of several arguments stand between them. Aliases are looked through. -/
def traverseTree : FilterNode A → List (Postfix.Token (FilterNode A) Unit LogicalOperator)
  | aliased child => child.traverseTree
  | not child => child.traverseTree ++ [.unary ()]
  | logical op first rest => first.traverseTree ++ traverseRest op rest
  | input name => [.operand (.input name)]
  | column value => [.operand (.column value)]
  | materialize child => [.operand (.materialize child)]
  | trivialCast child => [.operand (.trivialCast child)]
  | function name children => [.operand (.function name children)]
where
  traverseRest (op : LogicalOperator) : List (FilterNode A) → List (Postfix.Token (FilterNode A) Unit LogicalOperator)
    | [] => []
    | child :: children => child.traverseTree ++ .binary op :: traverseRest op children

end FilterNode

/-! ## What a filter means -/

/-- What the functions mean, and which other values have a NaN inside. -/
structure Meaning (A : Type) where
  apply : String → List (FilterValue A) → FilterValue A
  hasNaN : A → Bool

namespace Meaning

variable (m : Meaning A)

/-- The value is NaN, or has one inside. -/
def isNaN : FilterValue A → Bool
  | .nan => true
  | .other a => m.hasNaN a
  | _ => false

/-- Values with a NaN are compared, and no NULL. -/
def ComparesNaN (args : List (FilterValue A)) : Prop := (∃ v ∈ args, m.isNaN v = true) ∧ FilterValue.null ∉ args

/-- **The standard meaning of the relations**: each is the negation of the other one of its pair, but an order does not hold for NaN. -/
structure Standard : Prop where
  complement : ∀ relation inverse, inverseRelations.lookup relation = some inverse → ∀ args,
    (relation ∈ orderRelations → ¬m.ComparesNaN args) → m.apply inverse args = (m.apply relation args).negate
  order_nan : ∀ relation ∈ orderRelations, ∀ args, m.ComparesNaN args → m.apply relation args = .int 0

end Meaning

namespace FilterNode

variable (m : Meaning A) (row : String → FilterValue A)

/-- The value of a node on a row. -/
def eval : FilterNode A → FilterValue A
  | input name => row name
  | column value => value
  | aliased child => child.eval
  | not child => child.eval.negate
  | materialize child => child.eval
  | trivialCast child => child.eval
  | logical op first rest => .ofTruth (((evalAll rest).map FilterValue.truth).foldl op.eval first.eval.truth)
  | function name children => m.apply name (evalAll children)
where
  evalAll : List (FilterNode A) → List (FilterValue A)
    | [] => []
    | child :: children => child.eval :: evalAll children

/-- The filter keeps the row. -/
def IsTrue (node : FilterNode A) : Prop := (node.eval m row).truth = some true

instance (node : FilterNode A) : Decidable (node.IsTrue m row) := inferInstanceAs (Decidable (_ = _))

/-- The elements of the postfix expression, each taken at face value. -/
def atoms : Postfix.Algebra (FilterNode A) Unit LogicalOperator (Option Bool) where
  operand atom := (atom.eval m row).truth
  unary _ := Kleene.not
  binary op right left := op.eval left right

/-- **The pushed inversion changes nothing on the row**: no order is inverted for values with a NaN, and where the value of a node counts and
not only its truth, two negations are dropped of a value 0, 1 or NULL only. -/
def KeepsValue : (isCondition needInversion : Bool) → FilterNode A → Prop
  | _, _, input _ => True
  | _, _, column _ => True
  | isCondition, needInversion, aliased child => child.KeepsValue isCondition needInversion
  | isCondition, needInversion, not child =>
    (isCondition = false → needInversion = true → (child.eval m row).IsBoolean) ∧ child.KeepsValue isCondition !needInversion
  | isCondition, needInversion, materialize child => child.KeepsValue isCondition needInversion
  | isCondition, needInversion, trivialCast child => child.KeepsValue isCondition needInversion
  | _, needInversion, logical _ first rest => first.KeepsValue true needInversion ∧ KeepAll true needInversion rest
  | _, needInversion, function name children =>
    (needInversion = true → name ∈ orderRelations → ¬m.ComparesNaN (eval.evalAll m row children)) ∧ KeepAll false false children
where
  KeepAll : (isCondition needInversion : Bool) → List (FilterNode A) → Prop
    | _, _, [] => True
    | isCondition, needInversion, child :: children => child.KeepsValue isCondition needInversion ∧ KeepAll isCondition needInversion children

end FilterNode

/-! ## Functions of numbers -/

/-- A comparison of two numbers, and what it is for anything else. It is NULL for a NULL, and false for a NaN. -/
def compareNumbers (compare : ℤ → ℤ → Bool) (otherwise : Bool) (args : List (FilterValue Empty)) : FilterValue Empty :=
  if .null ∈ args then .null
  else if .nan ∈ args then .int 0
  else match args with
    | [.int a, .int b] => .ofTruth (some (compare a b))
    | _ => .ofTruth (some otherwise)

/-- Functions over numbers: comparisons, `isNull`, and predicates that hold for no number. -/
def numberMeaning : Meaning Empty where
  apply name args :=
    if name = "less" then compareNumbers (fun a b => a < b) false args
    else if name = "greaterOrEquals" then compareNumbers (fun a b => b ≤ a) true args
    else if name = "greater" then compareNumbers (fun a b => b < a) false args
    else if name = "lessOrEquals" then compareNumbers (fun a b => a ≤ b) true args
    else if name = "equals" then compareNumbers (fun a b => a = b) false args
    else if name = "notEquals" then (compareNumbers (fun a b => a = b) false args).negate
    else if name = "isNull" then .ofTruth (some (args = [.null]))
    else if name = "isNotNull" then .ofTruth (some (args ≠ [.null]))
    else .ofTruth (some (name ∈ ["notIn", "globalNotIn", "notNullIn", "globalNotNullIn", "globalNullNotIn", "notLike", "notILike", "notEmpty"]))
  hasNaN _ := false

end MergeTree
