import MergeTree.Lib.SizeT
import Mathlib.Data.Nat.Size

/-!
# Offsets of merged parts

`MergedPartOffsets` records, row by row of a merge, the part that the row comes from, and
answers at which row of the result the row `k` of a part stands. The positions of one part
ascend, and `PackedPartOffsets` keeps them in pages of 1024 values, each value as its
distance from the first one in a fixed number of bits.

A page writes to memory that nobody initialised. `none` is a failed assertion, or an access
past the end of an array.
-/

namespace MergeTree

/-- `getLeadingZeroBits` of a `UInt64`. -/
def getLeadingZeroBits (x : ℕ) : ℕ := 64 - x.size

/-- `maskLowBits<UInt64>`. -/
def maskLowBits (bits : ℕ) : ℕ := 2 ^ bits - 1

/-- Writes a word of an array. -/
def writeWord (data : List ℕ) (pos word : ℕ) : Option (List ℕ) :=
  if pos < data.length then some (data.set pos word) else none

/-- `PackedPartOffsets::Page`. -/
structure Page where
  numVals : ℕ
  minVal : ℕ
  bitsPerVal : ℕ
  compressedData : List ℕ
deriving DecidableEq, Repr

namespace Page

/-- The page that holds only one value. -/
def single (val : ℕ) : Page := ⟨1, val, 0, []⟩

/-- Packs one value at a bit of a word. -/
def packValue (bitsPerVal val pos offset : ℕ) (data : List ℕ) : Option (List ℕ) :=
  if offset = 0 then writeWord data pos val
  else do
    let word ← data[pos]?
    let data ← writeWord data pos (word ||| (val <<< offset) % 2 ^ 64)
    -- handle overflow to the next word
    if 64 < offset + bitsPerVal then writeWord data (pos + 1) (val >>> (64 - offset)) else some data

/-- The loop of the constructor: packs the values from the second one on. -/
def packLoop (minVal bitsPerVal : ℕ) : List ℕ → ℕ → ℕ → List ℕ → Option (List ℕ)
  | [], _, _, data => some data
  | v :: vals, pos, offset, data => do
    let data ← packValue bitsPerVal (subSize v minVal) pos offset data
    let offset := offset + bitsPerVal
    if 64 ≤ offset then packLoop minVal bitsPerVal vals (pos + 1) (offset - 64) data
    else packLoop minVal bitsPerVal vals pos offset data

/-- The constructor from values, onto the memory `data`. -/
def ofValues (vals : List ℕ) (bitsPerVal : ℕ) (data : List ℕ) : Option Page := do
  let minVal ← vals.head?
  let data ← packLoop minVal bitsPerVal vals.tail 0 0 data
  return ⟨vals.length, minVal, bitsPerVal, data⟩

/-- `Page::operator[]`. -/
def get (page : Page) (i : ℕ) : Option ℕ :=
  if page.numVals ≤ i then none
  else if i = 0 then some page.minVal
  else do
    let bits := (i - 1) * page.bitsPerVal
    let pos := bits / 64
    let offset := bits % 64
    let word ← page.compressedData[pos]?
    let value := word >>> offset
    let value ←
      if 64 < offset + page.bitsPerVal then do
        let next ← page.compressedData[pos + 1]?
        some (value ||| (next <<< (64 - offset)) % 2 ^ 64)
      else some value
    return addSize page.minVal (value &&& maskLowBits page.bitsPerVal)

end Page

def packedPageSizeDegree : ℕ := 10

def packedPageSize : ℕ := 1 <<< packedPageSizeDegree

def packedPageMask : ℕ := packedPageSize - 1

/-- `PackedPartOffsets`. `arena` is what the memory of each page holds when it is allocated. -/
structure PackedPartOffsets where
  pages : List Page := []
  currentPageValues : List ℕ := []
  arena : ℕ → ℕ → ℕ

namespace PackedPartOffsets

/-- `Arena::alignedAlloc` of so many words. -/
def alloc (P : PackedPartOffsets) (words : ℕ) : List ℕ := (List.range words).map (P.arena P.pages.length)

/-- `PackedPartOffsets::flush`. A page of one value does not clear the values. -/
def flush (P : PackedPartOffsets) : Option PackedPartOffsets :=
  match P.currentPageValues with
  | [] => some P
  | [val] => some { P with pages := P.pages ++ [Page.single val] }
  | front :: vals =>
    let back := (front :: vals).getLastD 0
    let bitsPerVal := 64 - getLeadingZeroBits (subSize back front)
    let numUint64 := (((front :: vals).length - 1) * bitsPerVal + 63) / 64
    if bitsPerVal = 0 ∨ numUint64 = 0 then none
    else do
      let page ← Page.ofValues (front :: vals) bitsPerVal (P.alloc numUint64)
      return { P with pages := P.pages ++ [page], currentPageValues := [] }

def insert (P : PackedPartOffsets) (val : ℕ) : Option PackedPartOffsets := do
  let P ← if packedPageSize ≤ P.currentPageValues.length then P.flush else some P
  if P.currentPageValues = [] ∨ P.currentPageValues.getLastD 0 < val then
    return { P with currentPageValues := P.currentPageValues ++ [val] }
  else none

/-- `PackedPartOffsets::operator[]`. -/
def get (P : PackedPartOffsets) (i : ℕ) : Option ℕ := do
  let page ← P.pages[i >>> packedPageSizeDegree]?
  page.get (i &&& packedPageMask)

def clearTemporaryStorage (P : PackedPartOffsets) : PackedPartOffsets := { P with currentPageValues := [] }

end PackedPartOffsets

/-- `MergedPartOffsets::MappingMode`. -/
inductive MappingMode
  | Enabled
  | Disabled
deriving DecidableEq, Repr

/-- `MergedPartOffsets`. -/
structure MergedPartOffsets where
  mode : MappingMode
  offsetMaps : List PackedPartOffsets
  finalized : Bool
  numRows : ℕ := 0

namespace MergedPartOffsets

/-- The constructor. `arenas` is what the memory of each map holds. -/
def make (numParts : ℕ) (mode : MappingMode) (arenas : ℕ → ℕ → ℕ → ℕ) : MergedPartOffsets where
  mode := mode
  offsetMaps := if mode = .Enabled then (List.range numParts).map fun p => { arena := arenas p } else []
  finalized := mode = .Disabled

/-- One row of `insert`. -/
def insertRow (M : MergedPartOffsets) (partIndex : ℕ) : Option MergedPartOffsets := do
  let map ← M.offsetMaps[partIndex]?
  let map ← map.insert M.numRows
  return { M with offsetMaps := M.offsetMaps.set partIndex map, numRows := addSize M.numRows 1 }

/-- `insert` of one batch of part indices. -/
def insert (M : MergedPartOffsets) (batch : List ℕ) : Option MergedPartOffsets :=
  if M.mode ≠ .Enabled then none else batch.foldlM insertRow M

def flush (M : MergedPartOffsets) : Option MergedPartOffsets :=
  if M.mode = .Disabled then some M
  else if M.finalized then none
  else if M.numRows = 0 then some { M with finalized := true }
  else do
    let maps ← M.offsetMaps.mapM fun map => map.flush.map PackedPartOffsets.clearTemporaryStorage
    return { M with offsetMaps := maps, finalized := true }

/-- `operator[]`. -/
def get (M : MergedPartOffsets) (partIndex partOffset : ℕ) : Option ℕ :=
  if M.mode ≠ .Enabled then none
  else do
    let map ← M.offsetMaps[partIndex]?
    map.get partOffset

end MergedPartOffsets

end MergeTree
