import MergeTree.Lib.SizeT

/-!
# Building a text index

`PostingListBuilder`, `MergeTreeIndexTextGranuleBuilder`, `MergeTreeIndexAggregatorText` and
`BuildTextIndexTransform`: the documents of a row are cut into tokens, and the number of the
row, cast to 32 bits, is added to the posting list of every token. When enough tokens were
processed the granule is written to a temporary segment, and the row counter goes on. A
Roaring bitmap is the set of its values.
-/

namespace MergeTree

/-! ## Posting lists -/

def maxSmallSize : ℕ := 6

/-- `PostingListBuilder`: a small array or a Roaring bitmap. -/
inductive PostingListBuilder where
  | small (values : List ℕ)
  | large (postings : Finset ℕ)

namespace PostingListBuilder

/-- The row numbers. -/
def rows : PostingListBuilder → Finset ℕ
  | small values => values.toFinset
  | large postings => postings

def add (value : ℕ) : PostingListBuilder → PostingListBuilder
  | small values =>
    if values.getLast? = some value then small values
    else if values.length + 1 = maxSmallSize then large (values ++ [value]).toFinset
    else small (values ++ [value])
  | large postings => large (insert value postings)

end PostingListBuilder

/-! ## Granules -/

/-- `StringHashMap<PostingListBuilder>`. -/
abbrev TokenToPostingsBuilderMap : Type := String → Option PostingListBuilder

/-- The rows of a token. -/
def TokenToPostingsBuilderMap.rows (tokensMap : TokenToPostingsBuilderMap) (token : String) : Finset ℕ :=
  (tokensMap token).elim ∅ PostingListBuilder.rows

/-- `MergeTreeIndexTextGranuleBuilder`. -/
structure TextGranuleBuilder where
  isEmpty : Bool := true
  currentRow : ℕ := 0
  numProcessedTokens : ℕ := 0
  tokensMap : TokenToPostingsBuilderMap := fun _ => none

namespace TextGranuleBuilder

variable (tokenizer : String → List String)

/-- A token of the current row: `emplace` and `add`. -/
def addToken (builder : TextGranuleBuilder) (token : String) : TextGranuleBuilder :=
  let postingListBuilder := (builder.tokensMap token).getD (.small [])
  { builder with
    tokensMap := Function.update builder.tokensMap token (some (postingListBuilder.add (builder.currentRow % 2 ^ 32)))
    numProcessedTokens := addSize builder.numProcessedTokens 1 }

def addDocument (builder : TextGranuleBuilder) (document : String) : TextGranuleBuilder :=
  (tokenizer document).foldl addToken builder

def incrementCurrentRow (builder : TextGranuleBuilder) : TextGranuleBuilder :=
  { builder with isEmpty := false, currentRow := addSize builder.currentRow 1 }

def reset (_ : TextGranuleBuilder) : TextGranuleBuilder := {}

def setCurrentRow (builder : TextGranuleBuilder) (row : ℕ) : TextGranuleBuilder := { builder with currentRow := row }

end TextGranuleBuilder

/-! ## Columns -/

/-- A column of strings, or of arrays of strings. An element can be NULL. -/
inductive TextColumn where
  | string (rows : List (Option String))
  | array (rows : List (List (Option String)))

namespace TextColumn

def size : TextColumn → ℕ
  | string rows => rows.length
  | array rows => rows.length

def cut (start length : ℕ) : TextColumn → TextColumn
  | string rows => string ((rows.drop start).take length)
  | array rows => array ((rows.drop start).take length)

/-- The documents of a row. -/
def documents (row : ℕ) : TextColumn → List String
  | string rows => (rows.getD row none).toList
  | array rows => (rows.getD row []).filterMap id

end TextColumn

/-- `Block`. -/
structure TextBlock where
  columns : List (String × TextColumn)

namespace TextBlock

def rows (block : TextBlock) : ℕ := (block.columns.head?).elim 0 fun column => column.2.size

def getByName (block : TextBlock) (name : String) : Option TextColumn := block.columns.lookup name

end TextBlock

/-- `MergeTreeIndexTextPreprocessor::processColumn`. Without actions the column is taken as it is. -/
def processColumn (actions : Option (TextColumn → TextColumn)) (column : TextColumn) (startRow nRows : ℕ) : TextColumn × ℕ :=
  match actions with
  | none => (column, startRow)
  | some actions =>
    (actions (if startRow ≠ 0 ∨ nRows ≠ column.size then column.cut startRow nRows else column), 0)

/-! ## The aggregator -/

/-- What `update` throws. -/
inductive TextIndexError where
  | logicalError (pos rows : ℕ)
  | supportIsDisabled (rows : ℕ)
  | notFoundColumnInBlock (name : String)
deriving DecidableEq, Repr

/-- `MergeTreeIndexAggregatorText`, less what it holds. -/
structure TextIndexParams where
  indexColumnName : String
  tokenizer : String → List String
  actions : Option (TextColumn → TextColumn)

namespace TextIndexParams

variable (params : TextIndexParams)

/-- A row. -/
def addRow (builder : TextGranuleBuilder) (documents : List String) : TextGranuleBuilder :=
  (documents.foldl (TextGranuleBuilder.addDocument params.tokenizer) builder).incrementCurrentRow

/-- The documents of the rows that are read. -/
def documentsRead (column : TextColumn) (pos rowsRead : ℕ) : List (List String) :=
  let (preprocessedColumn, offset) := processColumn params.actions column pos rowsRead
  (List.range' offset rowsRead).map fun i => preprocessedColumn.documents i

/-- `update`, with the new position. -/
def update (builder : TextGranuleBuilder) (block : TextBlock) (pos limit : ℕ) : Except TextIndexError (TextGranuleBuilder × ℕ) :=
  if block.rows ≤ pos then .error (.logicalError pos block.rows)
  else if 2 ^ 32 - 1 < addSize pos limit then .error (.supportIsDisabled (addSize pos limit))
  else
    let rowsRead := min limit (block.rows - pos)
    if rowsRead = 0 then .ok (builder, pos)
    else
      match block.getByName params.indexColumnName with
      | none => .error (.notFoundColumnInBlock params.indexColumnName)
      | some column => .ok ((params.documentsRead column pos rowsRead).foldl params.addRow builder, addSize pos rowsRead)

/-! ## The transform -/

end TextIndexParams

/-- An index of the transform: the builder of its aggregator and the segments written. -/
structure TextIndexAggregator where
  params : TextIndexParams
  builder : TextGranuleBuilder
  segments : List TokenToPostingsBuilderMap

/-- `BuildTextIndexTransform`. -/
structure BuildTextIndexTransform where
  numProcessedRows : ℕ
  aggregators : List TextIndexAggregator

def maxProcessedTokens : ℕ := 100000000

/-- `writeTemporarySegment` of an index. -/
def TextIndexAggregator.writeTemporarySegment (aggregator : TextIndexAggregator) (numProcessedRows : ℕ) : TextIndexAggregator :=
  { aggregator with
    segments := aggregator.segments ++ [aggregator.builder.tokensMap]
    builder := aggregator.builder.reset.setCurrentRow numProcessedRows }

/-- The loop body of `aggregate`. -/
def TextIndexAggregator.aggregate (aggregator : TextIndexAggregator) (numProcessedRows : ℕ) (block : TextBlock) :
    Except TextIndexError TextIndexAggregator := do
  let (builder, _) ← aggregator.params.update aggregator.builder block 0 block.rows
  let updated := { aggregator with builder }
  return if maxProcessedTokens < builder.numProcessedTokens then updated.writeTemporarySegment numProcessedRows else updated

def BuildTextIndexTransform.aggregate (transform : BuildTextIndexTransform) (block : TextBlock) :
    Except TextIndexError BuildTextIndexTransform :=
  if block.rows = 0 then .ok transform
  else do
    let numProcessedRows := addSize transform.numProcessedRows block.rows
    let aggregators ← transform.aggregators.mapM fun aggregator => aggregator.aggregate numProcessedRows block
    return ⟨numProcessedRows, aggregators⟩

def BuildTextIndexTransform.finalize (transform : BuildTextIndexTransform) : BuildTextIndexTransform :=
  { transform with aggregators := transform.aggregators.map fun aggregator =>
      if aggregator.builder.isEmpty then aggregator else aggregator.writeTemporarySegment transform.numProcessedRows }

/-- The constructor, for the indexes. -/
def BuildTextIndexTransform.create (indexes : List TextIndexParams) : BuildTextIndexTransform :=
  ⟨0, indexes.map fun params => ⟨params, {}, []⟩⟩

/-- The transform over all blocks of its input, and the end of it. -/
def BuildTextIndexTransform.transform (indexes : List TextIndexParams) (blocks : List TextBlock) :
    Except TextIndexError BuildTextIndexTransform := do
  return (← blocks.foldlM BuildTextIndexTransform.aggregate (create indexes)).finalize

/-! ## Runs of one index -/

/-- A call of the aggregator. -/
inductive TextIndexCall where
  | update (block : TextBlock) (pos limit : ℕ)
  | flush

/-- A granule with the rows of the part it was built from. -/
structure TextSegment where
  tokensMap : TokenToPostingsBuilderMap
  beginRow : ℕ
  endRow : ℕ

/-- **An index of a part while it is built**: the builder, the segments flushed before, and the documents of all rows so far. -/
structure TextIndexBuild where
  builder : TextGranuleBuilder
  flushed : List TextSegment
  beginRow : ℕ
  rows : List (List String)

namespace TextIndexBuild

/-- An empty part. -/
def init : TextIndexBuild := ⟨{}, [], 0, []⟩

variable (params : TextIndexParams)

/-- What a call of `update` reads. -/
def rowsOfCall (block : TextBlock) (pos limit : ℕ) : List (List String) :=
  let rowsRead := min limit (block.rows - pos)
  (block.getByName params.indexColumnName).elim [] fun column => params.documentsRead column pos rowsRead

/-- A call. A call that throws changes nothing; a flush goes on with the number of the rows so far. -/
def step (build : TextIndexBuild) : TextIndexCall → TextIndexBuild
  | .update block pos limit =>
    match params.update build.builder block pos limit with
    | .ok (builder, _) => { build with builder, rows := build.rows ++ rowsOfCall params block pos limit }
    | .error _ => build
  | .flush =>
    { build with
      builder := build.builder.reset.setCurrentRow (build.rows.length % 2 ^ 64)
      flushed := build.flushed ++ [⟨build.builder.tokensMap, build.beginRow, build.rows.length⟩]
      beginRow := build.rows.length }

/-- A sequence of calls. -/
def run (calls : List TextIndexCall) : TextIndexBuild := calls.foldl (step params) init

/-- A call throws `SUPPORT_IS_DISABLED`. -/
def Disabled (build : TextIndexBuild) : List TextIndexCall → Prop
  | [] => False
  | call :: calls =>
    (∃ block pos limit rows, call = .update block pos limit ∧
      params.update build.builder block pos limit = .error (.supportIsDisabled rows)) ∨
      Disabled (build.step params call) calls

/-- The segments, and last what is in the builder. -/
def segments (build : TextIndexBuild) : List TextSegment :=
  build.flushed ++ [⟨build.builder.tokensMap, build.beginRow, build.rows.length⟩]

/-- A row of the part contains the token. -/
def Contains (build : TextIndexBuild) (token : String) (row : ℕ) : Prop :=
  ∃ document ∈ build.rows.getD row [], token ∈ params.tokenizer document

/-- **The stored row numbers are exact**: in every segment they are the numbers of its rows that contain the token. -/
def RowNumbersExact (build : TextIndexBuild) : Prop :=
  ∀ segment ∈ build.segments, ∀ token row,
    row ∈ segment.tokensMap.rows token ↔ segment.beginRow ≤ row ∧ row < segment.endRow ∧ build.Contains params token row

end TextIndexBuild

end MergeTree
