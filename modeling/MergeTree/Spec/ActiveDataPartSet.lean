import MergeTree.Lib.KeyedSet
import MergeTree.Spec.PartName

/-!
# The set of active parts

`ActiveDataPartSet` (`ActiveDataPartSet.h`, `ActiveDataPartSet.cpp`): a map from part
infos to part names in which no part covers another one. Adding a part erases the
parts it covers and is refused when a covering part is present. The walks to the
left and to the right of the place where the part would be inserted erase as they
go, before an intersecting neighbour is found.
-/

namespace MergeTree

/-- An entry of the map from part infos to names. -/
abbrev Entry : Type := PartInfo × String

/-- The map is ordered by part info. -/
def entryKey (e : Entry) : PartTuple := e.1.toTuple

/-- `ActiveDataPartSet`. -/
structure ActiveDataPartSet where
  formatVersion : ℕ := minFormatVersionWithCustomPartitioning
  partInfoToName : KeyedSet entryKey := .empty

/-- `ActiveDataPartSet::AddPartOutcome`. -/
inductive AddPartOutcome
  | added
  | hasCovering
  | hasIntersectingPart
deriving DecidableEq, Repr

namespace ActiveDataPartSet

instance : Membership Entry ActiveDataPartSet := ⟨fun S e => e ∈ S.partInfoToName⟩

theorem mem_def {S : ActiveDataPartSet} {e : Entry} : e ∈ S ↔ e ∈ S.partInfoToName := Iff.rfl

/-- The entries whose parts `p` contains. -/
def covers (p : PartInfo) (e : Entry) : Bool := p.Contains e.1

/-- The entries before the place of `p`, nearest first. -/
def toTheLeft (S : ActiveDataPartSet) (p : PartInfo) : List Entry :=
  (S.partInfoToName.below p.toTuple).reverse

/-- The entries from the place of `p` on, nearest first. -/
def toTheRight (S : ActiveDataPartSet) (p : PartInfo) : List Entry :=
  S.partInfoToName.above p.toTuple

/-- `getContainingPartImpl`: only the next and the previous entry are looked at. -/
def getContainingPartImpl (S : ActiveDataPartSet) (p : PartInfo) : Option Entry :=
  ((S.toTheRight p).head?.filter fun e => e.1.Contains p).or
    ((S.toTheLeft p).head?.filter fun e => e.1.Contains p)

/-- `getContainingPart`: the empty string when there is none. -/
def getContainingPart (S : ActiveDataPartSet) (p : PartInfo) : String :=
  match S.getContainingPartImpl p with
  | some e => e.2
  | none => ""

/-- `getPartsCoveredByImpl`: the run of covered entries around the place of `p`, and
nothing when the run ends at a part that contains `p`. -/
def getPartsCoveredByImpl (S : ActiveDataPartSet) (p : PartInfo) : List Entry :=
  let left := S.toTheLeft p
  let right := S.toTheRight p
  if ((left.dropWhile (covers p)).head?.any fun e => e.1.Contains p) then []
  else if ((right.dropWhile (covers p)).head?.any fun e => e.1.Contains p) then []
  else (left.takeWhile (covers p)).reverse ++ right.takeWhile (covers p)

def getPartsCoveredBy (S : ActiveDataPartSet) (p : PartInfo) : List String :=
  (S.getPartsCoveredByImpl p).map Prod.snd

/-- What `addImpl` leaves and returns: the set, the outcome, `*out_replaced_parts` and
`*out_reason`. -/
structure AddResult where
  set : ActiveDataPartSet
  outcome : AddPartOutcome
  replacedParts : List String := []
  reason : String := ""

/-- The entry a walk stops at, when it is not disjoint from `p`. -/
def intersecting (p : PartInfo) (walk : List Entry) : Option Entry :=
  (walk.dropWhile (covers p)).head?.filter fun e => ¬ p.IsDisjoint e.1

variable [IntText]

def addImpl (S : ActiveDataPartSet) (p : PartInfo) (name : String) : AddResult :=
  if (S.getContainingPartImpl p).isSome then { set := S, outcome := .hasCovering }
  else
    let left := S.toTheLeft p
    let right := S.toTheRight p
    let erasedLeft := (left.takeWhile (covers p)).map Prod.snd
    let erasedRight := (right.takeWhile (covers p)).map Prod.snd
    -- to the left
    let afterLeft := S.partInfoToName.eraseBefore p.toTuple (covers p)
    match intersecting p left with
    | some e =>
      { set := { S with partInfoToName := afterLeft }
        outcome := .hasIntersectingPart
        replacedParts := erasedLeft
        reason := "Part " ++ p.getPartNameV1 ++ " intersects previous part " ++ e.1.getPartNameV1 ++
          ". It is a bug or a result of manual intervention in the ZooKeeper data." }
    | none =>
      -- to the right
      let afterRight := afterLeft.eraseAfter p.toTuple (covers p)
      match intersecting p right with
      | some e =>
        { set := { S with partInfoToName := afterRight }
          outcome := .hasIntersectingPart
          replacedParts := erasedLeft.reverse ++ erasedRight
          reason := "Part " ++ name ++ " intersects part " ++ e.1.getPartNameV1 ++
            ". It is a bug or a result of manual intervention in the ZooKeeper data." }
      | none =>
        { set := { S with partInfoToName := afterRight.emplace (p, name) }
          outcome := .added
          replacedParts := erasedLeft.reverse ++ erasedRight }

/-- `add` of an info with its name: the set afterwards, and what is returned (whether the
part was added, and `*out_replaced_parts`) or thrown. -/
def add (S : ActiveDataPartSet) (p : PartInfo) (name : String) :
    ActiveDataPartSet × Except String (Bool × List String) :=
  let r := S.addImpl p name
  (r.set, if r.outcome = .hasIntersectingPart then .error r.reason
    else .ok (r.outcome = .added, r.replacedParts))

/-- `add` of a name. -/
def addName (S : ActiveDataPartSet) (name : String) :
    ActiveDataPartSet × Except String (Bool × List String) :=
  match fromPartName name S.formatVersion with
  | .ok p => S.add p name
  | .error e => (S, .error e)

/-- `add` of an info. -/
def addInfo (S : ActiveDataPartSet) (p : PartInfo) :
    ActiveDataPartSet × Except String (Bool × List String) :=
  match p.getPartNameAndCheckFormat S.formatVersion with
  | .ok name => S.add p name
  | .error e => (S, .error e)

/-- `tryAdd`: the outcome and `*out_reason`. -/
def tryAdd (S : ActiveDataPartSet) (name : String) :
    ActiveDataPartSet × Except String (AddPartOutcome × String) :=
  match fromPartName name S.formatVersion with
  | .ok p => let r := S.addImpl p name; (r.set, .ok (r.outcome, r.reason))
  | .error e => (S, .error e)

def tryAddPart (S : ActiveDataPartSet) (p : PartInfo) :
    ActiveDataPartSet × Except String (AddPartOutcome × String) :=
  match p.getPartNameAndCheckFormat S.formatVersion with
  | .ok name => let r := S.addImpl p name; (r.set, .ok (r.outcome, r.reason))
  | .error e => (S, .error e)

omit [IntText] in
/-- `remove` of an info: the set afterwards, and whether the part was there. -/
def remove (S : ActiveDataPartSet) (p : PartInfo) : ActiveDataPartSet × Bool :=
  ({ S with partInfoToName := S.partInfoToName.erase p.toTuple },
    (S.partInfoToName.find p.toTuple).isSome)

/-- `remove` of a name. -/
def removeName (S : ActiveDataPartSet) (name : String) : ActiveDataPartSet × Except String Bool :=
  match fromPartName name S.formatVersion with
  | .ok p => let r := S.remove p; (r.1, .ok r.2)
  | .error e => (S, .error e)

/-- Removes the named parts one after the other and tells whether all of them were there. -/
def removeAll (S : ActiveDataPartSet) (names : List String) (result : Bool) :
    ActiveDataPartSet × Except String Bool :=
  match names with
  | [] => (S, .ok result)
  | name :: names =>
    match S.removeName name with
    | (T, .ok found) => T.removeAll names (result && found)
    | (T, .error e) => (T, .error e)

def removePartAndCoveredParts (S : ActiveDataPartSet) (p : PartInfo) :
    ActiveDataPartSet × Except String Bool :=
  let covered := S.getPartsCoveredBy p
  let r := S.remove p
  r.1.removeAll covered r.2

/-- `removePartAndCoveredParts` of a name. -/
def removePartAndCoveredPartsName (S : ActiveDataPartSet) (name : String) :
    ActiveDataPartSet × Except String Bool :=
  match fromPartName name S.formatVersion with
  | .ok p => S.removePartAndCoveredParts p
  | .error e => (S, .error e)

/-- `removePartsCoveredBy`: removes the covered parts, but not the part itself. -/
def removePartsCoveredBy (S : ActiveDataPartSet) (name : String) : ActiveDataPartSet × Except String Bool :=
  match fromPartName name S.formatVersion with
  | .ok p => S.removeAll ((S.getPartsCoveredBy p).filter (· ≠ name)) true
  | .error e => (S, .error e)

end ActiveDataPartSet

end MergeTree
