import MergeTree.Spec.ActiveDataPartSet
import MergeTree.Spec.Wire

/-!
# The source parts of a patch part

`SourcePartsSetForPatch` (`PatchParts/SourcePartsSetForPatch.cpp`): for each part with updated rows in a patch
part, the least and the greatest data version of its updates. In parallel the names are kept in sets of parts,
one for each greatest version, in which the names that a part covers are looked up.
-/

namespace MergeTree

/-- `PatchMode`. -/
inductive PatchMode
  | merge
  | join
deriving DecidableEq, Repr

/-- `PatchPartInfo`, of patch parts `P`. -/
structure PatchPartInfo (P : Type) where
  mode : PatchMode
  part : P
  sourceParts : List String
  sourceDataVersion : ℤ := 0
deriving DecidableEq, Repr

/-- `source_parts_by_version`. -/
abbrev SourcePartsByVersion : Type := KeyedSet (Prod.fst : ℕ × ActiveDataPartSet → ℕ)

/-- `min_max_versions_by_part`. -/
abbrev MinMaxVersionsByPart : Type := KeyedSet (Prod.fst : String × ℕ × ℕ → String)

/-- `SourcePartsSetForPatch`. -/
structure SourcePartsSetForPatch where
  sourcePartsByVersion : SourcePartsByVersion := .empty
  minMaxVersionsByPart : MinMaxVersionsByPart := .empty
  minDataVersion : ℕ := 0
  maxDataVersion : ℕ := 0

/-- A data version as a `UInt64`. -/
def dataVersionOf (info : PartInfo) : ℕ := (info.getDataVersion % 2 ^ 64).toNat

section

variable [IntText]

/-- `source_parts_by_version[data_version].add(name)`. -/
def SourcePartsByVersion.add (sets : SourcePartsByVersion) (dataVersion : ℕ) (name : String) : Except String SourcePartsByVersion :=
  let set := ((sets.find dataVersion).map Prod.snd).getD {}
  match set.addName name with
  | (set, .ok _) => .ok ((sets.erase dataVersion).emplace (dataVersion, set))
  | (_, .error e) => .error e

namespace SourcePartsSetForPatch

variable (s : SourcePartsSetForPatch)

def addSourcePart (name : String) (dataVersion : ℕ) : Except String SourcePartsSetForPatch := do
  if (s.minMaxVersionsByPart.find name).isSome then throw ("Source part " ++ name ++ " already exists")
  let empty := s.minMaxVersionsByPart.toList.isEmpty
  let sourcePartsByVersion ← s.sourcePartsByVersion.add dataVersion name
  return { sourcePartsByVersion
           minMaxVersionsByPart := s.minMaxVersionsByPart.emplace (name, dataVersion, dataVersion)
           minDataVersion := if empty then dataVersion else min s.minDataVersion dataVersion
           maxDataVersion := if empty then dataVersion else max s.maxDataVersion dataVersion }

/-- The loop of `buildSourcePartsSet`. -/
def addByVersion (parts : List (String × ℕ × ℕ)) (sets : SourcePartsByVersion) : Except String SourcePartsByVersion :=
  parts.foldlM (fun sets part => sets.add part.2.2 part.1) sets

/-- `buildSourcePartsSet`: the first part sets the versions, the others extend them. -/
def buildSourcePartsSet : Except String SourcePartsSetForPatch := do
  let parts := s.minMaxVersionsByPart.toList
  let sourcePartsByVersion ← addByVersion parts .empty
  return { sourcePartsByVersion
           minMaxVersionsByPart := s.minMaxVersionsByPart
           minDataVersion := match parts with | [] => 0 | part :: rest => rest.foldl (fun v part => min v part.2.1) part.2.1
           maxDataVersion := match parts with | [] => 0 | part :: rest => rest.foldl (fun v part => max v part.2.2) part.2.2 }

omit [IntText] in
/-- A name is inserted into a set of names. -/
def insertName (names : List String) (name : String) : List String := if name ∈ names then names else names ++ [name]

/-- The loop of `getPatchParts`: whether the patch is applied by a merge, and the names for the join. -/
def collectNames (originalPart : PartInfo) : List (ℕ × ActiveDataPartSet) → Bool × List String → Bool × List String
  | [], found => found
  | set :: rest, (hasMerge, namesForJoin) =>
    let coveredParts := set.2.getPartsCoveredBy originalPart
    if coveredParts = [originalPart.getPartNameV1] then collectNames originalPart rest (true, namesForJoin)
    else collectNames originalPart rest (hasMerge, coveredParts.foldl insertName namesForJoin)

/-- `getPatchParts`, with the sets from `upper_bound` of the data version on. The order of the names for the join is not specified in the source: they are in a hash set. -/
def getPatchParts {P : Type} (originalPart : PartInfo) (patchPart : P) : List (PatchPartInfo P) :=
  let sets := s.sourcePartsByVersion.above (dataVersionOf originalPart + 1)
  if sets.isEmpty then []
  else
    let (hasMerge, namesForJoin) := collectNames originalPart sets (false, [])
    let patch (mode : PatchMode) (sourceParts : List String) : PatchPartInfo P :=
      { mode, part := patchPart, sourceParts, sourceDataVersion := originalPart.getDataVersion }
    (if hasMerge then [patch .merge [originalPart.getPartNameV1]] else []) ++
      if namesForJoin.isEmpty then [] else [patch .join namesForJoin]

/-- `build`, from the values of the dictionary of the column `_part`. It always has the default value. -/
def build (partNames : List String) (dataVersion : ℕ) : Except String SourcePartsSetForPatch :=
  (partNames.filter (· ≠ "")).foldlM (fun partsSet name => partsSet.addSourcePart name dataVersion) {}

omit [IntText] in
/-- The body of the loops of `merge`. -/
def mergeVersions (merged : MinMaxVersionsByPart) (part : String × ℕ × ℕ) : MinMaxVersionsByPart :=
  match merged.find part.1 with
  | none => merged.emplace part
  | some found => (merged.erase part.1).emplace (part.1, min found.2.1 part.2.1, max found.2.2 part.2.2)

def merge (sourceParts : List SourcePartsSetForPatch) : Except String SourcePartsSetForPatch :=
  buildSourcePartsSet
    { minMaxVersionsByPart :=
        sourceParts.foldl (fun merged set => set.minMaxVersionsByPart.toList.foldl mergeVersions merged) .empty }

/-! ## The file -/

omit [IntText] in
def version : ℕ := 0

omit [IntText] in
def writeBinary (io : BinaryIO) : List UInt8 :=
  io.uint8.write version ++ (io.littleEndian.write s.minMaxVersionsByPart.toList.length ++
    s.minMaxVersionsByPart.toList.flatMap fun part =>
      io.stringBinary.write part.1 ++ (io.littleEndian.write part.2.1 ++ io.littleEndian.write part.2.2))

omit [IntText] in
/-- The body of the loop of `readBinary`. -/
def readPart (io : BinaryIO) (parts : MinMaxVersionsByPart) : Reader MinMaxVersionsByPart := do
  let partName ← io.stringBinary.read
  let minVersion ← io.littleEndian.read
  let maxVersion ← io.littleEndian.read
  return (parts.erase partName).emplace (partName, minVersion, maxVersion)

/-- `readBinary`, into `s`. -/
def readBinary (io : BinaryIO) : Reader SourcePartsSetForPatch := do
  let read ← io.uint8.read
  let _ ← Reader.check (read = version) ("Invalid version of SourcePartsSetForPatch: " ++ toString read)
  let numParts ← io.littleEndian.read
  let parts ← (List.range numParts).foldlM (fun parts _ => readPart io parts) s.minMaxVersionsByPart
  match buildSourcePartsSet { s with minMaxVersionsByPart := parts } with
  | .ok set => return set
  | .error e => throw e

end SourcePartsSetForPatch

end

end MergeTree
