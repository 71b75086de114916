import MergeTree.Spec.NumberText

/-!
# Partition ids

`getID` writes the values of the partition key as the id that names the parts of a
partition, and `tryParseValueFromID` reads the values back (`MergeTreePartition.cpp`).
Integral keys are written as numbers with `-` between them; any other key is hashed.
The calendar of the server is the class `DateLUT`, the hash and the text of an IPv4 field
are the class `FieldText`.
-/

namespace MergeTree

/-- The values of a partition key. The id looks at the integral types and at IPv4. -/
inductive Field
  | null
  | uint64 (n : ℕ)
  | int64 (n : ℤ)
  | ipv4 (n : ℕ)
  | other (dump : String)
deriving DecidableEq, Repr

/-- A row of values. -/
abbrev Row : Type := List Field

/-- The types of partition key columns. `other` is a type with the given default value. -/
inductive DataType
  | date
  | ipv4
  | uint (bits : ℕ)
  | int (bits : ℕ)
  | nullable (nested : DataType)
  | other (default : Field)
deriving DecidableEq, Repr

namespace DataType

def isNullable : DataType → Bool
  | .nullable _ => true
  | _ => false

/-- The default value of a type. Integers of more than 64 bits have fields of their own. -/
def getDefault : DataType → Field
  | .date => .uint64 0
  | .ipv4 => .ipv4 0
  | .uint bits => if bits ≤ 64 then .uint64 0 else .other "0"
  | .int bits => if bits ≤ 64 then .int64 0 else .other "0"
  | .nullable _ => .null
  | .other default => default

end DataType

/-- The calendar of the server's time zone: `toNumYYYYMMDD` and `YYYYMMDDToDayNum`. -/
class DateLUT where
  toNumYYYYMMDD : ℕ → ℕ
  yyyymmddToDayNum : ℕ → ℕ

namespace DateLUT

/-- The days of the month `i`, counted from January 1970. -/
def monthLength (i : ℕ) : ℕ :=
  match i % 12 with
  | 1 => if (1970 + i / 12) % 4 = 0 ∧ ((1970 + i / 12) % 100 ≠ 0 ∨ (1970 + i / 12) % 400 = 0) then 29 else 28
  | 3 | 5 | 8 | 10 => 30
  | _ => 31

/-- The day number of the first day of a month. -/
def monthStart : ℕ → ℕ
  | 0 => 0
  | i + 1 => monthStart i + monthLength i

/-- The month of the day `d` days after the start of the month `i`, and the day within it. -/
def findMonth : ℕ → ℕ → ℕ → ℕ × ℕ
  | 0, i, d => (i, d)
  | fuel + 1, i, d => if d < monthLength i then (i, d) else findMonth fuel (i + 1) (d - monthLength i)

/-- The Gregorian calendar: an instance of the interface for concrete inputs. -/
@[reducible] def gregorian : DateLUT where
  toNumYYYYMMDD day :=
    let (month, d) := findMonth (day + 1) 0 day
    (1970 + month / 12) * 10000 + (month % 12 + 1) * 100 + (d + 1)
  yyyymmddToDayNum n :=
    monthStart ((n / 10000 - 1970) * 12 + (n / 100 % 100 - 1)) + (n % 100 - 1)

end DateLUT

/-- What writes the fields that are not numbers. -/
class FieldText where
  ipv4ToString : ℕ → String
  sipHash128AsHexString : Row → String

/-- An instance of the interface for keys of numbers, which are not hashed. -/
@[reducible] def FieldText.plain : FieldText where
  ipv4ToString n := toString n
  sipHash128AsHexString value := toString (repr value)

/-- The kinds of keys that are parsed: the local `KeyType`. -/
inductive KeyType
  | date
  | unsigned
  | signed
deriving DecidableEq, Repr

/-- The kind of a key column, or nothing for a column that is not parsed. -/
def keyTypeOf (type : DataType) : Option KeyType :=
  if type.isNullable then none
  else if type = .date then some .date
  else
    match type.getDefault with
    | .uint64 _ => some .unsigned
    | .int64 _ => some .signed
    | _ => none

variable [NumberText] [DateLUT] [FieldText]

open IntText NumberText DateLUT FieldText TextReader

namespace Field

def isIntegral : Field → Bool
  | .uint64 _ => true
  | .int64 _ => true
  | .ipv4 _ => true
  | _ => false

/-- `FieldVisitorToString`, on the fields of integral types. -/
def toText : Field → String
  | .null => "NULL"
  | .uint64 n => writeIntText n
  | .int64 n => writeIntText n
  | .ipv4 n => ipv4ToString n
  | .other dump => dump

/-- `safeGet<UInt64>`, which throws on a field of another type. -/
def safeGetUInt64 : Field → Except String ℕ
  | .uint64 n => .ok n
  | _ => .error "Bad get: requested UInt64"

/-- `safeGet<IPv4>`. -/
def safeGetIPv4 : Field → Except String ℕ
  | .ipv4 n => .ok n
  | _ => .error "Bad get: requested IPv4"

end Field

/-- The text of one value: a day number is written as a date, an IPv4 address as a number. -/
def keyText (type : DataType) (field : Field) : Except String String :=
  match type with
  | .date => do
    let day ← field.safeGetUInt64
    return writeIntText (toNumYYYYMMDD (day % 2 ^ 16))
  | .ipv4 => do
    let address ← field.safeGetIPv4
    return writeIntText address
  | _ => .ok field.toText

/-- The texts of the values, with `-` between them. -/
def joinKeys : List (DataType × Field) → Except String String
  | [] => .ok ""
  | [key] => keyText key.1 key.2
  | key :: key' :: keys => do
    let text ← keyText key.1 key.2
    let result ← joinKeys (key' :: keys)
    return text ++ "-" ++ result

/-- `MergeTreePartition::getID`. -/
def getID (value : Row) (partitionKeySample : List DataType) : Except String String :=
  if value.length ≠ partitionKeySample.length then .error s!"Invalid partition key size: {value.length}"
  else if value.isEmpty then .ok "all"
  else if value.all Field.isIntegral then joinKeys (partitionKeySample.zip value)
  else .ok (sipHash128AsHexString value)

/-- `readText` of `Int64`. -/
def readInt64 : TextReader ℤ := fun input =>
  match tryReadInt64 input with
  | some r => .ok r
  | none => .error "Cannot parse number"

def assertEOF : TextReader Unit := do
  if ← eof then return ()
  else throw "Expected end of file"

/-- Reads the value of one key. -/
def readKey : KeyType → TextReader Field
  | .date => do
    let date ← readIntText .uint32
    if date < 10000000 ∨ 99999999 < date then
      throw s!"Cannot parse partition_id: got unexpected Date: {date}"
    else
      return .uint64 (yyyymmddToDayNum date.toNat)
  | .unsigned => do
    let value ← readIntText .uint64
    return .uint64 value.toNat
  | .signed => do
    let value ← readInt64
    return .int64 value

/-- Reads the values of the keys, with `-` between them. -/
def readKeys : List KeyType → TextReader Row
  | [] => return []
  | [key] => do
    let field ← readKey key
    return [field]
  | key :: key' :: keys => do
    let field ← readKey key
    assertString "-"
    let res ← readKeys (key' :: keys)
    return field :: res

/-- The text of a key without columns. -/
def readAll : TextReader Unit := do
  let _ ← checkString "all"
  assertEOF

/-- All values, up to the end of the text. -/
def readRow (keyTypes : List KeyType) : TextReader Row := do
  let res ← readKeys keyTypes
  assertEOF
  return res

/-- `MergeTreePartition::tryParseValueFromID`. -/
def tryParseValueFromID (partitionId : String) (partitionKeySample : List DataType) :
    Except String (Option Row) :=
  if partitionKeySample.isEmpty then do
    let _ ← readAll.run partitionId.toList
    return some []
  else
    match partitionKeySample.mapM keyTypeOf with
    | none => return none
    | some keyTypes => do
      let (res, _) ← (readRow keyTypes).run partitionId.toList
      let expectedPartitionId ← getID res partitionKeySample
      if expectedPartitionId ≠ partitionId then
        throw s!"Partition ID was parsed incorrectly: expected {expectedPartitionId}, got {partitionId}"
      else
        return some res

end MergeTree
