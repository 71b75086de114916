import MergeTree.Lib.SizeT
import MergeTree.Spec.Messages

/-!
# Index granularity

`MergeTreeIndexGranularityAdaptive` keeps the partial sums of the rows of all marks;
`MergeTreeIndexGranularityConstant` keeps one row count for all marks but the last.
`optimize` replaces the first by the second when it can. Both answer the queries of
`MergeTreeIndexGranularity`.

Row counts and marks are `size_t`: sums, differences and products wrap around.
-/

namespace MergeTree

/-- The exception on a mark past the end. -/
def nonExistingMark (mark count : ℕ) : String :=
  "Trying to get non existing mark " ++ toString mark ++ ", while size is " ++ toString count

/-- The exception on a range past the end. -/
def nonExistingRange (b e count : ℕ) : String :=
  "Trying to get marks in range [" ++ toString b ++ "; " ++ toString e ++ "), while size is " ++ toString count

/-! ## Adaptive granularity -/

/-- `MergeTreeIndexGranularityAdaptive`. -/
structure GranularityAdaptive where
  marksRowsPartialSums : List ℕ := []
deriving DecidableEq, Repr

/-- `MergeTreeIndexGranularityConstant`. -/
structure GranularityConstant where
  constantGranularity : ℕ
  lastMarkGranularity : ℕ
  numMarksWithoutFinal : ℕ := 0
  hasFinalMark : Bool := false
deriving DecidableEq, Repr

namespace GranularityAdaptive

variable (a : GranularityAdaptive)

/-- `marks_rows_partial_sums[i]`. -/
def sumAt (i : ℕ) : ℕ := a.marksRowsPartialSums.getD i 0

def getMarksCount : ℕ := a.marksRowsPartialSums.length

def getMarkRows (mark : ℕ) : Except String ℕ :=
  if a.getMarksCount ≤ mark then .error (nonExistingMark mark a.getMarksCount)
  else if mark = 0 then .ok (a.sumAt 0)
  else .ok (subSize (a.sumAt mark) (a.sumAt (mark - 1)))

/-- `getLastMarkRows`, of a granularity with marks. -/
def getLastMarkRows : Except String ℕ := a.getMarkRows (a.getMarksCount - 1)

def hasFinalMark : Bool :=
  if a.marksRowsPartialSums.isEmpty then false
  else
    match a.getLastMarkRows with
    | .ok rows => rows = 0
    | .error _ => false

def getMarksCountWithoutFinal : ℕ :=
  if a.getMarksCount = 0 then 0 else a.getMarksCount - (if a.hasFinalMark then 1 else 0)

def getTotalRows : ℕ := a.marksRowsPartialSums.getLastD 0

def appendMark (rowsCount : ℕ) : Except String GranularityAdaptive :=
  if a.hasFinalMark then .error "Cannot append mark after final"
  else if a.marksRowsPartialSums.isEmpty then .ok ⟨[rowsCount]⟩
  else .ok ⟨a.marksRowsPartialSums ++ [addSize (a.marksRowsPartialSums.getLastD 0) rowsCount]⟩

def adjustLastMark (rowsCount : ℕ) : Except String GranularityAdaptive :=
  if a.hasFinalMark then .error "Cannot adjust final mark"
  else if a.marksRowsPartialSums.isEmpty then .ok ⟨[rowsCount]⟩
  else appendMark ⟨a.marksRowsPartialSums.dropLast⟩ rowsCount

/-- `std::lower_bound`: the first partial sum that is not less than `x`. -/
def lowerBound (x : ℕ) : ℕ := a.marksRowsPartialSums.findIdx fun s => x ≤ s

/-- `std::upper_bound`: the first partial sum that is greater than `x`. -/
def upperBound (x : ℕ) : ℕ := a.marksRowsPartialSums.findIdx fun s => x < s

def getMarkRangeForRowOffset (rowOffset : ℕ) : MarkRange :=
  let beginMark := a.lowerBound (addSize rowOffset 1)
  ⟨beginMark, beginMark + 1⟩

def getRowsCountInRange (b e : ℕ) : Except String ℕ :=
  if a.getMarksCount < e then .error (nonExistingRange b e a.getMarksCount)
  else if e = 0 then .ok 0
  else
    let subtrahend := if b ≠ 0 then a.sumAt (b - 1) else 0
    .ok (subSize (a.sumAt (e - 1)) subtrahend)

def getMarkStartingRow (mark : ℕ) : Except String ℕ := a.getRowsCountInRange 0 mark

def countMarksForRows (fromMark numberOfRows : ℕ) : Except String ℕ := do
  let rowsBeforeMark ← a.getMarkStartingRow fromMark
  let lastRowPos := addSize rowsBeforeMark numberOfRows
  return subSize (a.upperBound lastRowPos) fromMark

def countRowsForRows (fromMark numberOfRows offsetInRows : ℕ) : Except String ℕ := do
  let rowsBeforeMark ← a.getMarkStartingRow fromMark
  let lastRowPos := addSize (addSize rowsBeforeMark offsetInRows) numberOfRows
  let rows ← a.getRowsCountInRange fromMark (max 1 (a.upperBound lastRowPos))
  return subSize rows offsetInRows

/-- The loop of `optimize`: all marks but the last have the rows of the first. -/
def sameRows (firstMark marksCount : ℕ) : Bool :=
  (List.range' 1 (marksCount - 1 - 1)).all fun i =>
    match a.getMarkRows i with
    | .ok rows => rows = firstMark
    | .error _ => false

def optimize : Option GranularityConstant :=
  let marksCount := a.getMarksCountWithoutFinal
  if marksCount = 0 then none
  else
    match a.getMarkRows 0, a.getMarkRows (marksCount - 1) with
    | .ok firstMark, .ok lastMark =>
      if a.sameRows firstMark marksCount then some ⟨firstMark, lastMark, marksCount, a.hasFinalMark⟩ else none
    | _, _ => none

/-- A call of a method that returns the changed marks. A call that throws leaves them. -/
def call (result : Except String GranularityAdaptive) : Except String Unit × GranularityAdaptive :=
  match result with
  | .ok b => (.ok (), b)
  | .error e => (.error e, a)

/-- The loop of `addRowsToLastMark`: marks of 128 rows, while there are as many. It returns the rows
that are left. -/
def appendFullMarks (a : GranularityAdaptive) (total : ℕ) : Except String ℕ × GranularityAdaptive :=
  if 128 ≤ total then
    match a.appendMark 128 with
    | .ok b => appendFullMarks b (total - 128)
    | .error e => (.error e, a)
  else (.ok total, a)
termination_by total

/-- `MergeTreeIndexGranularity::addRowsToLastMark`, with the body of the nested definition. The rows
of the last mark are counted once more, but the mark stays. -/
def addRowsToLastMark (rowsCount : ℕ) : Except String Unit × GranularityAdaptive :=
  match if a.marksRowsPartialSums.isEmpty then .ok 0 else a.getLastMarkRows with
  | .error e => (.error e, a)
  | .ok current =>
    match a.appendFullMarks (addSize current rowsCount) with
    | (.error e, b) => (.error e, b)
    | (.ok total, b) =>
      if 0 < total then
        if b.marksRowsPartialSums.isEmpty then b.call (b.appendMark total) else b.call (b.adjustLastMark total)
      else (.ok (), b)

end GranularityAdaptive

/-! ## Constant granularity -/

namespace GranularityConstant

variable (c : GranularityConstant)

def getMarksCount : ℕ := c.numMarksWithoutFinal + if c.hasFinalMark then 1 else 0

def getMarkRows (mark : ℕ) : Except String ℕ :=
  if c.getMarksCount ≤ mark then .error (nonExistingMark mark c.getMarksCount)
  else if mark + 1 < c.numMarksWithoutFinal then .ok c.constantGranularity
  else if mark + 1 = c.numMarksWithoutFinal then .ok c.lastMarkGranularity
  else .ok 0

def getMarkRangeForRowOffset (rowOffset : ℕ) : MarkRange :=
  let mark :=
    if rowOffset < mulSize c.constantGranularity (subSize c.numMarksWithoutFinal 1) then
      rowOffset / c.constantGranularity
    else subSize c.numMarksWithoutFinal 1
  ⟨mark, mark + 1⟩

def getTotalRows : ℕ :=
  if c.numMarksWithoutFinal = 0 then 0
  else addSize (mulSize c.constantGranularity (subSize c.numMarksWithoutFinal 1)) c.lastMarkGranularity

def getRowsCountInRange (b e : ℕ) : Except String ℕ :=
  if c.getMarksCount < e then .error (nonExistingRange b e c.getMarksCount)
  else if e = 0 then .ok 0
  else if c.numMarksWithoutFinal ≤ e then
    .ok (addSize c.lastMarkGranularity
      (mulSize c.constantGranularity (subSize (subSize c.numMarksWithoutFinal 1) b)))
  else .ok (mulSize c.constantGranularity (subSize e b))

def getMarkStartingRow (mark : ℕ) : Except String ℕ := c.getRowsCountInRange 0 mark

def getMarkUpperBoundForRow (rowIndex : ℕ) : ℕ :=
  if c.getTotalRows ≤ rowIndex then c.getMarksCount
  else if mulSize (subSize c.numMarksWithoutFinal 1) c.constantGranularity ≤ rowIndex then
    subSize c.numMarksWithoutFinal 1
  else rowIndex / c.constantGranularity

def countMarksForRows (fromMark numberOfRows : ℕ) : Except String ℕ := do
  let rowsBeforeMark ← c.getMarkStartingRow fromMark
  let lastRowPos := addSize rowsBeforeMark numberOfRows
  return subSize (c.getMarkUpperBoundForRow lastRowPos) fromMark

def countRowsForRows (fromMark numberOfRows offsetInRows : ℕ) : Except String ℕ := do
  let rowsBeforeMark ← c.getMarkStartingRow fromMark
  let lastRowPos := addSize (addSize rowsBeforeMark offsetInRows) numberOfRows
  let rows ← c.getRowsCountInRange fromMark (max 1 (c.getMarkUpperBoundForRow lastRowPos))
  return subSize rows offsetInRows

/-- `fixFromRowsCount`: the marks are those of the file, one of which may be the final mark. -/
def fixFromRowsCount (rowsCount : ℕ) : GranularityConstant :=
  if c.numMarksWithoutFinal = 0 then c
  else
    let expectedDataMarks :=
      if rowsCount = 0 then 0 else subSize (addSize rowsCount c.constantGranularity) 1 / c.constantGranularity
    let c :=
      if expectedDataMarks < c.numMarksWithoutFinal ∧ ¬c.hasFinalMark then
        { c with hasFinalMark := true, numMarksWithoutFinal := subSize c.numMarksWithoutFinal 1 }
      else c
    if 0 < c.numMarksWithoutFinal then
      let rowsInCompleteGranules := mulSize (subSize c.numMarksWithoutFinal 1) c.constantGranularity
      if rowsInCompleteGranules < rowsCount then { c with lastMarkGranularity := subSize rowsCount rowsInCompleteGranules }
      else { c with lastMarkGranularity := 0 }
    else c

end GranularityConstant

/-! ## The granularity of a block -/

/-- A division of two `size_t`, which has no result if the divisor is zero. -/
def divSize (a b : ℕ) : Option ℕ := if b = 0 then none else some (a / b)

def computeIndexGranularity (rows bytesUncompressed indexGranularityBytes fixedIndexGranularityRows : ℕ)
    (blocksAreGranules canUseAdaptiveIndexGranularity : Bool) : Option ℕ := do
  let indexGranularityForBlock ←
    if !canUseAdaptiveIndexGranularity then some fixedIndexGranularityRows
    else if blocksAreGranules then some rows
    else if indexGranularityBytes ≤ bytesUncompressed then do
      let granulesInBlock ← divSize bytesUncompressed indexGranularityBytes
      divSize rows granulesInBlock
    else do
      let bytes ← divSize bytesUncompressed rows
      divSize indexGranularityBytes (max bytes 1)
  let indexGranularityForBlock :=
    if !blocksAreGranules then min fixedIndexGranularityRows indexGranularityForBlock else indexGranularityForBlock
  return if indexGranularityForBlock = 0 then 1 else indexGranularityForBlock

end MergeTree
