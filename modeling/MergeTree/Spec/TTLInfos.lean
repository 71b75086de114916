import MergeTree.Lib.Folding
import MergeTree.Lib.PlainText

/-!
# TTL infos of a part

`MergeTreeDataPartTTLInfo` and `MergeTreeDataPartTTLInfos`: the smallest and greatest TTL of
the table, of columns and of expressions, merged over parts and written to `ttl.txt` as JSON
behind a line with the format version. The parser of JSON is a parameter; `Json.text` is the
text of a value without any blanks.
-/

namespace MergeTree

/-! ## One entry -/

/-- `MergeTreeDataPartTTLInfo`. -/
structure TTLInfo where
  min : ℤ := 0
  max : ℤ := 0
  ttlFinished : Option Bool := none
deriving DecidableEq, Repr

namespace TTLInfo

def finished (info : TTLInfo) : Bool := info.ttlFinished.getD false

/-- `update` with a time. -/
def updateTime (info : TTLInfo) (time : ℤ) : TTLInfo :=
  { info with
    min := if time ≠ 0 ∧ (info.min = 0 ∨ time < info.min) then time else info.min
    max := Max.max time info.max }

/-- `update` with another entry. -/
def update (info otherInfo : TTLInfo) : TTLInfo where
  min := if otherInfo.min ≠ 0 ∧ (info.min = 0 ∨ otherInfo.min < info.min) then otherInfo.min else info.min
  max := Max.max otherInfo.max info.max
  ttlFinished :=
    match info.ttlFinished with
    | some finished => some (finished && otherInfo.finished)
    | none => some otherInfo.finished

/-- The entry was filled by `update` with times. Whether it is finished is arbitrary. -/
def Filled (info : TTLInfo) : Prop :=
  ∃ (times : List ℤ) (ttlFinished : Option Bool), (∀ time ∈ times, 0 ≤ time) ∧
    info = { times.foldl updateTime {} with ttlFinished }

end TTLInfo

/-- `TTLInfoMap`. -/
abbrev TTLInfoMap : Type := KeyedMap String TTLInfo

/-! ## All entries of a part -/

/-- `MergeTreeDataPartTTLInfos`. -/
structure TTLInfos where
  columnsTtl : TTLInfoMap := KeyedSet.empty
  tableTtl : TTLInfo := {}
  partMinTtl : ℤ := 0
  partMaxTtl : ℤ := 0
  rowsWhereTtl : TTLInfoMap := KeyedSet.empty
  movesTtl : TTLInfoMap := KeyedSet.empty
  recompressionTtl : TTLInfoMap := KeyedSet.empty
  groupByTtl : TTLInfoMap := KeyedSet.empty

namespace TTLInfos

def updatePartMinMaxTTL (infos : TTLInfos) (timeMin timeMax : ℤ) : TTLInfos :=
  { infos with
    partMinTtl := if timeMin ≠ 0 ∧ (infos.partMinTtl = 0 ∨ timeMin < infos.partMinTtl) then timeMin else infos.partMinTtl
    partMaxTtl := if timeMax ≠ 0 ∧ (infos.partMaxTtl = 0 ∨ infos.partMaxTtl < timeMax) then timeMax else infos.partMaxTtl }

/-- `map[name].update(ttl_info)`. -/
def updateEntry (ttlInfo : TTLInfo) (old : Option TTLInfo) : TTLInfo := (old.getD {}).update ttlInfo

/-- `update` with the infos of another part. -/
def update (infos otherInfos : TTLInfos) : TTLInfos :=
  let infos := otherInfos.columnsTtl.toList.foldl (fun infos x =>
    { infos with columnsTtl := infos.columnsTtl.upsert x.1 (updateEntry x.2) }.updatePartMinMaxTTL x.2.min x.2.max) infos
  let infos := otherInfos.rowsWhereTtl.toList.foldl (fun infos x =>
    { infos with rowsWhereTtl := infos.rowsWhereTtl.upsert x.1 (updateEntry x.2) }.updatePartMinMaxTTL x.2.min x.2.max) infos
  let infos := otherInfos.groupByTtl.toList.foldl (fun infos x =>
    { infos with groupByTtl := infos.groupByTtl.upsert x.1 (updateEntry x.2) }.updatePartMinMaxTTL x.2.min x.2.max) infos
  let infos := otherInfos.recompressionTtl.toList.foldl (fun infos x =>
    { infos with recompressionTtl := infos.recompressionTtl.upsert x.1 (updateEntry x.2) }) infos
  let infos := otherInfos.movesTtl.toList.foldl (fun infos x =>
    { infos with movesTtl := infos.movesTtl.upsert x.1 (updateEntry x.2) }) infos
  let tableTtl := infos.tableTtl.update otherInfos.tableTtl
  { infos with tableTtl }.updatePartMinMaxTTL tableTtl.min tableTtl.max

def hasNonFinishedTTL (map : TTLInfoMap) : Bool := map.toList.any fun x => !x.2.finished

def hasAnyNonFinishedTTLs (infos : TTLInfos) : Bool :=
  !infos.tableTtl.finished || hasNonFinishedTTL infos.columnsTtl || hasNonFinishedTTL infos.rowsWhereTtl ||
    hasNonFinishedTTL infos.movesTtl || hasNonFinishedTTL infos.recompressionTtl || hasNonFinishedTTL infos.groupByTtl

end TTLInfos

/-! ## Writing -/

def doubleQuoteString (s : String) : String := PlainText.quoted '"' s

/-- The element of a list, with a comma unless it is the first one. -/
def writeElements {α : Type} (element : α → String) : Bool → List α → String
  | _, [] => ""
  | isBegin, a :: l => (if isBegin then "" else ",") ++ element a ++ writeElements element false l

/-- An entry behind its name. -/
def writeEntry (key : String) (x : String × TTLInfo) : String :=
  "\x7b\"" ++ key ++ "\":" ++ doubleQuoteString x.1 ++ ",\"min\":" ++ toString x.2.min ++ ",\"max\":" ++ toString x.2.max ++
    ",\"finished\":" ++ (if x.2.finished then "1" else "0") ++ "\x7d"

def writeInfos (infos : TTLInfoMap) (type : String) (isFirst : Bool) : String :=
  (if isFirst then "" else ",") ++ doubleQuoteString type ++ ":[" ++ writeElements (writeEntry "expression") true infos.toList ++ "]"

namespace TTLInfos

/-- What `write` puts between the braces. -/
def writeBody (infos : TTLInfos) : String :=
  let columns :=
    if infos.columnsTtl.toList.isEmpty then ""
    else "\"columns\":[" ++ writeElements (writeEntry "name") true infos.columnsTtl.toList ++ "]"
  let table :=
    if infos.tableTtl.min = 0 then ""
    else
      (if infos.columnsTtl.toList.isEmpty then "" else ",") ++ "\"table\":\x7b\"min\":" ++ toString infos.tableTtl.min ++ ",\"max\":" ++
        toString infos.tableTtl.max ++ ",\"finished\":" ++ (if infos.tableTtl.finished then "1" else "0") ++ "\x7d"
  let isFirst := infos.columnsTtl.toList.isEmpty && decide (infos.tableTtl.min = 0)
  let moves := if infos.movesTtl.toList.isEmpty then "" else writeInfos infos.movesTtl "moves" isFirst
  let isFirst := isFirst && infos.movesTtl.toList.isEmpty
  let recompression :=
    if infos.recompressionTtl.toList.isEmpty then "" else writeInfos infos.recompressionTtl "recompression" isFirst
  let isFirst := isFirst && infos.recompressionTtl.toList.isEmpty
  let groupBy := if infos.groupByTtl.toList.isEmpty then "" else writeInfos infos.groupByTtl "group_by" isFirst
  let isFirst := isFirst && infos.groupByTtl.toList.isEmpty
  let rowsWhere := if infos.rowsWhereTtl.toList.isEmpty then "" else writeInfos infos.rowsWhereTtl "rows_where" isFirst
  columns ++ table ++ moves ++ recompression ++ groupBy ++ rowsWhere

def write (infos : TTLInfos) : String := "ttl format version: 1\n" ++ "\x7b" ++ infos.writeBody ++ "\x7d"

end TTLInfos

/-! ## JSON -/

/-- A value of JSON. Keys of objects are plain. -/
inductive Json where
  | num (n : ℕ)
  | str (s : String)
  | arr (items : List Json)
  | obj (fields : List (String × Json))

namespace Json

mutual

/-- The text of a value. -/
def text : Json → String
  | num n => toString n
  | str s => doubleQuoteString s
  | arr items => "[" ++ itemsText true items ++ "]"
  | obj fields => "\x7b" ++ fieldsText true fields ++ "\x7d"

def itemsText (isBegin : Bool) : List Json → String
  | [] => ""
  | item :: items => (if isBegin then "" else ",") ++ item.text ++ itemsText false items

def fieldsText (isBegin : Bool) : List (String × Json) → String
  | [] => ""
  | (key, value) :: fields => (if isBegin then "" else ",") ++ ("\"" ++ key ++ "\":" ++ value.text) ++ fieldsText false fields

end

/-- `has` and `[]`. -/
def field? (key : String) : Json → Option Json
  | obj fields => fields.lookup key
  | _ => none

def getUInt : Json → Except String ℕ
  | num n => .ok n
  | _ => .error "JSON: not a number"

def getString : Json → Except String String
  | str s => .ok s
  | _ => .error "JSON: not a string"

/-- `[]`. -/
def field (json : Json) (key : String) : Except String Json :=
  match json.field? key with
  | some value => .ok value
  | none => .error "JSON: no such field"

/-- The elements, by `begin` and `end`. -/
def elements : Json → Except String (List Json)
  | arr items => .ok items
  | obj fields => .ok (fields.map Prod.snd)
  | _ => .error "JSON: not an array or object"

end Json

/-! ## Reading -/

/-- An entry. -/
def readTTLInfo (json : Json) : Except String TTLInfo := do
  let min ← (← json.field "min").getUInt
  let max ← (← json.field "max").getUInt
  match json.field? "finished" with
  | some value => return ⟨min, max, some (decide ((← value.getUInt) ≠ 0))⟩
  | none => return ⟨min, max, none⟩

/-- An entry with its name under `key`. -/
def readEntry (key : String) (json : Json) : Except String (String × TTLInfo) := do
  let ttlInfo ← readTTLInfo json
  let name ← (← json.field key).getString
  return (name, ttlInfo)

namespace TTLInfos

/-- The entries of a section, with the name of each under `key`. -/
def readSection (json : Json) (section_ key : String) (emplace : TTLInfos → String × TTLInfo → TTLInfos) (updateMinMax : Bool)
    (infos : TTLInfos) : Except String TTLInfos :=
  match json.field? section_ with
  | none => .ok infos
  | some value => do
    (← value.elements).foldlM (fun infos elem => do
      let x ← readEntry key elem
      let infos := emplace infos x
      return if updateMinMax then infos.updatePartMinMaxTTL x.2.min x.2.max else infos) infos

/-- The section of the table. -/
def readTable (json : Json) (infos : TTLInfos) : Except String TTLInfos :=
  match json.field? "table" with
  | none => .ok infos
  | some table => do
    let tableTtl ← readTTLInfo table
    -- a flag that was set before stays if none is read
    let tableTtl := { tableTtl with ttlFinished := tableTtl.ttlFinished.or infos.tableTtl.ttlFinished }
    return { infos with tableTtl }.updatePartMinMaxTTL tableTtl.min tableTtl.max

/-- The sections of `read`. -/
def readJson (json : Json) (infos : TTLInfos) : Except String TTLInfos := do
  let infos ← readSection json "columns" "name" (fun infos x => { infos with columnsTtl := infos.columnsTtl.emplace x }) true infos
  let infos ← readTable json infos
  let infos ← readSection json "moves" "expression" (fun infos x => { infos with movesTtl := infos.movesTtl.emplace x }) false infos
  let infos ← readSection json "recompression" "expression"
    (fun infos x => { infos with recompressionTtl := infos.recompressionTtl.emplace x }) false infos
  let infos ← readSection json "group_by" "expression"
    (fun infos x => { infos with groupByTtl := infos.groupByTtl.emplace x }) true infos
  readSection json "rows_where" "expression" (fun infos x => { infos with rowsWhereTtl := infos.rowsWhereTtl.emplace x }) true infos

variable (parse : String → Except String Json)

/-- `read`. `readString` stops at a tab or a line feed. -/
def read (infos : TTLInfos) : TextReader TTLInfos := do
  let jsonStr ← TextReader.takeUntil fun c => c = '\t' || c = '\n'
  if ← TextReader.eof then
    match parse jsonStr >>= fun json => readJson json infos with
    | .ok infos => return infos
    | .error message => throw message
  else throw "Cannot parse input: expected eof"

/-- The text of `ttl.txt` is read into default infos. -/
def load (text : String) : Except String TTLInfos :=
  (do
    TextReader.assertString "ttl format version: 1\n"
    read parse {} : TextReader TTLInfos).run' text.toList

/-! ## What is kept -/

/-- The same minimum, maximum and flag. -/
def SameInfo (a b : TTLInfo) : Prop := a.min = b.min ∧ a.max = b.max ∧ a.finished = b.finished

/-- The same entries. -/
def SameMap (a b : TTLInfoMap) : Prop := List.Forall₂ (fun x y => x.1 = y.1 ∧ SameInfo x.2 y.2) a.toList b.toList

/-- **What is read is what was written.** -/
structure Restores (read written : TTLInfos) : Prop where
  table : SameInfo read.tableTtl written.tableTtl
  columns : SameMap read.columnsTtl written.columnsTtl
  rowsWhere : SameMap read.rowsWhereTtl written.rowsWhereTtl
  moves : SameMap read.movesTtl written.movesTtl
  recompression : SameMap read.recompressionTtl written.recompressionTtl
  groupBy : SameMap read.groupByTtl written.groupByTtl
  partMin : read.partMinTtl = written.partMinTtl
  partMax : read.partMaxTtl = written.partMaxTtl
  nonFinished : read.hasAnyNonFinishedTTLs = written.hasAnyNonFinishedTTLs

/-- All entries were filled with times. -/
structure Filled (infos : TTLInfos) : Prop where
  table : infos.tableTtl.Filled
  columns : ∀ x ∈ infos.columnsTtl, x.2.Filled
  rowsWhere : ∀ x ∈ infos.rowsWhereTtl, x.2.Filled
  moves : ∀ x ∈ infos.movesTtl, x.2.Filled
  recompression : ∀ x ∈ infos.recompressionTtl, x.2.Filled
  groupBy : ∀ x ∈ infos.groupByTtl, x.2.Filled

end TTLInfos

/-! ## What the text stands for -/

/-- The numbers of an entry. -/
def TTLInfo.jsonFields (info : TTLInfo) : List (String × Json) :=
  [("min", .num info.min.toNat), ("max", .num info.max.toNat), ("finished", .num info.finished.toNat)]

/-- An entry with its name. -/
def jsonEntry (key : String) (x : String × TTLInfo) : Json := .obj ((key, .str x.1) :: x.2.jsonFields)

/-- The section of a map, unless it is empty. -/
def jsonSection (section_ key : String) (map : TTLInfoMap) : List (String × Json) :=
  if map.toList.isEmpty then [] else [(section_, .arr (map.toList.map (jsonEntry key)))]

/-- The section of the table, unless its minimum is zero. -/
def jsonTable (tableTtl : TTLInfo) : List (String × Json) :=
  if tableTtl.min = 0 then [] else [("table", .obj tableTtl.jsonFields)]

/-- The value that `write` gives the text of. -/
def TTLInfos.json (infos : TTLInfos) : Json :=
  .obj (jsonSection "columns" "name" infos.columnsTtl ++ jsonTable infos.tableTtl ++
    jsonSection "moves" "expression" infos.movesTtl ++ jsonSection "recompression" "expression" infos.recompressionTtl ++
      jsonSection "group_by" "expression" infos.groupByTtl ++ jsonSection "rows_where" "expression" infos.rowsWhereTtl)

end MergeTree
