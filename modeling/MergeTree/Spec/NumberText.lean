import MergeTree.Lib.Text
import MergeTree.Spec.PartName

/-!
# Numbers in text formats

The text formats of the log entries and of the deduplication log write integers of several
types. `NumberText` adds their readers to the interface of the IO library.
-/

namespace MergeTree

/-- The integer types that text formats hold. -/
inductive IntType
  | uint8
  | uint32
  | uint64
  | int32
deriving DecidableEq, Repr

namespace IntType

def min : IntType → ℤ
  | .int32 => -2 ^ 31
  | _ => 0

def max : IntType → ℤ
  | .uint8 => 2 ^ 8 - 1
  | .uint32 => 2 ^ 32 - 1
  | .uint64 => 2 ^ 64 - 1
  | .int32 => 2 ^ 31 - 1

/-- The type has the value `n`. -/
def Holds (τ : IntType) (n : ℤ) : Prop := τ.min ≤ n ∧ n ≤ τ.max

end IntType

/-- The readers of integers of the IO library: `readIntText` for each type. -/
class NumberText extends IntText where
  readIntText : IntType → TextReader ℤ

/-- Reads a decimal number of a type, with its sign. -/
def readDecimalInt (τ : IntType) : TextReader ℤ := fun input =>
  match input with
  | '-' :: input =>
    match readDecimal (-τ.min).toNat input with
    | some r => .ok (-(r.1 : ℤ), r.2)
    | none => .error "Cannot parse number"
  | input =>
    match readDecimal τ.max.toNat input with
    | some r => .ok ((r.1 : ℤ), r.2)
    | none => .error "Cannot parse number"

/-- Plain decimal text: an instance of the interface for concrete inputs. -/
@[reducible] def NumberText.decimal : NumberText where
  toIntText := IntText.decimal
  readIntText := readDecimalInt

end MergeTree
