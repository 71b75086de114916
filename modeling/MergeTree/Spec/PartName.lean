import MergeTree.Spec.PartInfo

/-!
# Part names

`getPartNameV1` writes a part info as text and `tryParsePartName` reads it back
(`MergeTreePartInfo.cpp`). The readers and writers of integers belong to the IO
library; they are the class `IntText`. A read buffer is the list of characters
still to be read.
-/

namespace MergeTree

/-- The integer text functions of the IO library: `tryReadIntText` for `Int64` and
`UInt32`, which return the number and the rest of the buffer, and `writeIntText`. -/
class IntText where
  tryReadInt64 : List Char → Option (ℤ × List Char)
  tryReadUInt32 : List Char → Option (ℕ × List Char)
  writeIntText : ℤ → String

/-- `MERGE_TREE_DATA_MIN_FORMAT_VERSION_WITH_CUSTOM_PARTITIONING`. -/
def minFormatVersionWithCustomPartitioning : ℕ := 1

/-- `checkChar`: skips the character `c`, and fails on any other. -/
def checkChar (c : Char) : List Char → Option (List Char)
  | [] => none
  | d :: input => if d = c then some input else none

/-- Reads decimal digits into `n`. -/
def readDigits (n : ℕ) : List Char → ℕ × List Char
  | [] => (n, [])
  | c :: input => if c.isDigit then readDigits (10 * n + (c.toNat - 48)) input else (n, c :: input)

/-- A decimal number of at most `limit`; at least one digit is required. -/
def readDecimal (limit : ℕ) (input : List Char) : Option (ℕ × List Char) :=
  if (input.head?.any Char.isDigit) && (readDigits 0 input).1 ≤ limit then some (readDigits 0 input)
  else none

/-- Plain decimal text: an instance of the interface for concrete inputs. -/
@[reducible] def IntText.decimal : IntText where
  tryReadInt64 input :=
    match input with
    | '-' :: input => (readDecimal (2 ^ 63) input).map fun r => (-(r.1 : ℤ), r.2)
    | input => (readDecimal (2 ^ 63 - 1) input).map fun r => ((r.1 : ℤ), r.2)
  tryReadUInt32 := readDecimal (2 ^ 32 - 1)
  writeIntText n := toString n

variable [IntText]

open IntText

/-- The partition id that `tryParsePartName` reads first, and the rest of the name.
In the old format the name starts with two days and the partition is their month. -/
def tryReadPartitionId (formatVersion : ℕ) (input : List Char) : Option (String × List Char) :=
  if formatVersion < minFormatVersionWithCustomPartitioning then do
    let (minDay, input) ← tryReadUInt32 input
    let input ← checkChar '_' input
    let (_, input) ← tryReadUInt32 input
    let input ← checkChar '_' input
    return (writeIntText (minDay / 100 : ℕ), input)
  else
    some (String.ofList (input.takeWhile (· ≠ '_')), (input.dropWhile (· ≠ '_')).drop 1)

/-- The optional `_<mutation>` at the end of a name. -/
def tryReadMutation (input : List Char) : Option ℕ :=
  if input.isEmpty then some 0
  else do
    let input ← checkChar '_' input
    let (mutation, input) ← tryReadUInt32 input
    if input.isEmpty then some mutation else none

/-- `MergeTreePartInfo::tryParsePartName`. -/
def tryParsePartName (partName : String) (formatVersion : ℕ) : Option PartInfo := do
  let (partitionId, input) ← tryReadPartitionId formatVersion partName.toList
  if partitionId = "" then none
  else
    let (minBlock, input) ← tryReadInt64 input
    let input ← checkChar '_' input
    let (maxBlock, input) ← tryReadInt64 input
    let input ← checkChar '_' input
    let (level, input) ← tryReadUInt32 input
    if maxBlock < minBlock then none
    else
      let mutation ← tryReadMutation input
      let partInfo := ({} : PartInfo).setPartitionId partitionId
      -- two maximal levels were in use; the legacy one is read as the other
      return { partInfo with
        minBlock := minBlock
        maxBlock := maxBlock
        level := if level = legacyMaxLevel then maxLevel else level
        mutation := mutation
        useLegacyMaxLevel := level = legacyMaxLevel }

/-- `MergeTreePartInfo::fromPartName`, which throws on what it cannot parse. -/
def fromPartName (partName : String) (formatVersion : ℕ) : Except String PartInfo :=
  match tryParsePartName partName formatVersion with
  | some partInfo => .ok partInfo
  | none => .error s!"Unexpected part name: {partName} for format version: {formatVersion}"

namespace PartInfo

def getPartNameV1 (p : PartInfo) : String :=
  p.partitionId ++ "_" ++ writeIntText p.minBlock ++ "_" ++ writeIntText p.maxBlock ++ "_" ++
    (if p.useLegacyMaxLevel then writeIntText legacyMaxLevel else writeIntText p.level) ++
    (if p.mutation ≠ 0 then "_" ++ writeIntText p.mutation else "")

def getPartNameAndCheckFormat (p : PartInfo) (formatVersion : ℕ) : Except String String :=
  if formatVersion = minFormatVersionWithCustomPartitioning then .ok p.getPartNameV1
  else .error ("Trying to get part name in new format for old format version. Either some new " ++
    "feature is incompatible with deprecated *MergeTree definition syntax or it's a bug.")

end PartInfo

end MergeTree
