import MergeTree.Spec.PartName

/-!
# Part names are read back

* `LawfulIntText`: reading an integer that was written gives it back, whatever follows
  its digits. Plain decimal text has this property (`LawfulIntText.decimal`).
* `fromPartName_getPartNameV1`: so the name of a part is read as the part.
-/

namespace MergeTree

open IntText

/-- The rest of a name does not continue a number. -/
def NoDigit (rest : List Char) : Prop := ∀ c ∈ rest.head?, c.isDigit = false

theorem NoDigit.nil : NoDigit [] := by
  intro c hc
  cases hc

theorem NoDigit.underscore (rest : List Char) : NoDigit ('_' :: rest) := by
  intro c hc
  cases hc
  decide

/-- **Numbers are read back**, on the values of their type. -/
class LawfulIntText [IntText] : Prop where
  tryReadInt64_writeIntText : ∀ (n : ℤ) (rest : List Char), -(2 ^ 63) ≤ n → n < 2 ^ 63 → NoDigit rest →
    tryReadInt64 ((writeIntText n).toList ++ rest) = some (n, rest)
  tryReadUInt32_writeIntText : ∀ (n : ℕ) (rest : List Char), n < 2 ^ 32 → NoDigit rest →
    tryReadUInt32 ((writeIntText n).toList ++ rest) = some (n, rest)

/-- Numbers that are read are values of their type. -/
class BoundedIntText [IntText] : Prop where
  tryReadInt64_bounds : ∀ {input rest : List Char} {n : ℤ}, tryReadInt64 input = some (n, rest) →
    -(2 ^ 63) ≤ n ∧ n < 2 ^ 63
  tryReadUInt32_lt : ∀ {input rest : List Char} {n : ℕ}, tryReadUInt32 input = some (n, rest) → n < 2 ^ 32

/-! ## Plain decimal text -/

theorem readDigits_append {rest : List Char} (hrest : NoDigit rest) : ∀ {digits : List Char} (n : ℕ),
    (∀ c ∈ digits, c.isDigit = true) → readDigits n (digits ++ rest) = (Nat.ofDigitChars 10 digits n, rest) := by
  intro digits
  induction digits with
  | nil =>
    intro n _
    cases rest with
    | nil => rfl
    | cons c rest =>
      have hc := hrest c rfl
      simp [readDigits, hc]
  | cons c digits ih =>
    intro n hdigits
    have hc := hdigits c List.mem_cons_self
    rw [List.cons_append, readDigits, if_pos hc, ih _ fun d hd => hdigits d (List.mem_cons_of_mem _ hd),
      Nat.ofDigitChars_cons]
    rfl

theorem readDecimal_toDigits {limit n : ℕ} (hn : n ≤ limit) {rest : List Char} (hrest : NoDigit rest) :
    readDecimal limit (Nat.toDigits 10 n ++ rest) = some (n, rest) := by
  have hdigits : ∀ c ∈ Nat.toDigits 10 n, c.isDigit = true := fun c hc =>
    Nat.isDigit_of_mem_toDigits (by decide) (by decide) hc
  have hread : readDigits 0 (Nat.toDigits 10 n ++ rest) = (n, rest) := by
    rw [readDigits_append hrest 0 hdigits, Nat.ofDigitChars_ten_toDigits]
  have hhead : (Nat.toDigits 10 n ++ rest).head?.any Char.isDigit = true := by
    cases hd : Nat.toDigits 10 n with
    | nil => exact absurd hd Nat.toDigits_ne_nil
    | cons c cs =>
      have := hdigits c (by rw [hd]; exact List.mem_cons_self)
      simp [this]
  unfold readDecimal
  rw [hread, hhead]
  simp [hn]

section Decimal

attribute [local instance] IntText.decimal

theorem LawfulIntText.decimal : LawfulIntText := by
  constructor
  · intro n rest hlo hhi hrest
    change tryReadInt64 (n.repr.toList ++ rest) = some (n, rest)
    rw [Int.repr_eq_if]
    by_cases hn : 0 ≤ n
    · have hlimit : n.toNat ≤ 2 ^ 63 - 1 := by omega
      have hread := readDecimal_toDigits hlimit hrest
      rw [if_pos hn, Nat.toList_repr]
      -- a number has no sign
      have hsign : ∀ input, Nat.toDigits 10 n.toNat ++ rest ≠ '-' :: input := by
        intro input heq
        cases hd : Nat.toDigits 10 n.toNat with
        | nil => exact Nat.toDigits_ne_nil hd
        | cons c cs =>
          rw [hd] at heq
          have hc : c.isDigit = true :=
            Nat.isDigit_of_mem_toDigits (b := 10) (n := n.toNat) (by decide) (by decide)
              (by rw [hd]; exact List.mem_cons_self)
          obtain rfl : c = '-' := (List.cons.inj heq).1
          revert hc
          decide
      simp only [tryReadInt64]
      rw [hread]
      simp only [Option.map_some, Option.some.injEq, Prod.mk.injEq, and_true]
      omega
    · have hlimit : (-n).toNat ≤ 2 ^ 63 := by omega
      have hread := readDecimal_toDigits hlimit hrest
      rw [if_neg hn, String.toList_append, Nat.toList_repr]
      change (readDecimal (2 ^ 63) (Nat.toDigits 10 (-n).toNat ++ rest)).map _ = _
      rw [hread]
      simp only [Option.map_some, Option.some.injEq, Prod.mk.injEq, and_true]
      omega
  · intro n rest hn hrest
    change readDecimal _ ((n : ℤ).repr.toList ++ rest) = _
    rw [Int.repr_eq_if, if_pos (by omega), Nat.toList_repr, Int.toNat_natCast]
    exact readDecimal_toDigits (by omega) hrest

theorem readDecimal_le {limit n : ℕ} {input rest : List Char} (h : readDecimal limit input = some (n, rest)) :
    n ≤ limit := by
  unfold readDecimal at h
  split at h
  · next hc =>
    rw [Option.some.injEq] at h
    rw [h, Bool.and_eq_true] at hc
    simpa using hc.2
  · cases h

theorem BoundedIntText.decimal : BoundedIntText := by
  constructor
  · intro input rest n h
    simp only [tryReadInt64] at h
    split at h
    · obtain ⟨r, hr, heq⟩ := Option.map_eq_some_iff.1 h
      have hle := readDecimal_le hr
      obtain rfl : -(r.1 : ℤ) = n := congrArg Prod.fst heq
      omega
    · obtain ⟨r, hr, heq⟩ := Option.map_eq_some_iff.1 h
      have hle := readDecimal_le hr
      obtain rfl : (r.1 : ℤ) = n := congrArg Prod.fst heq
      omega
  · intro input rest n h
    have hle := readDecimal_le h
    omega

end Decimal

/-! ## Names -/

namespace PartInfo

/-- **A part that has a name**: its numbers fit, and its partition id ends where the first
underscore is. -/
structure Nameable (p : PartInfo) : Prop where
  proper : p.Proper
  partitionId_ne : p.partitionId ≠ ""
  partitionId_underscore : '_' ∉ p.partitionId.toList
  minBlock : -(2 ^ 63) ≤ p.minBlock
  maxBlock : p.maxBlock < 2 ^ 63
  level : p.level < legacyMaxLevel
  legacy : p.useLegacyMaxLevel = true → p.level = maxLevel
  mutation : 0 ≤ p.mutation ∧ p.mutation < 2 ^ 32

end PartInfo

variable [IntText] {p : PartInfo} {v : ℕ}

omit [IntText] in
theorem checkChar_cons (c : Char) (rest : List Char) : checkChar c (c :: rest) = some rest := if_pos rfl

/-- The level as it is written: the legacy maximum comes back as a flag. -/
def writtenLevel (p : PartInfo) : ℕ := if p.useLegacyMaxLevel then legacyMaxLevel else p.level

theorem tryReadPartitionId_append (hv : minFormatVersionWithCustomPartitioning ≤ v)
    (hp : '_' ∉ p.partitionId.toList) (rest : List Char) :
    tryReadPartitionId v (p.partitionId.toList ++ '_' :: rest) = some (p.partitionId, rest) := by
  have hne : ∀ c ∈ p.partitionId.toList, decide (c ≠ '_') = true := by
    intro c hc
    simp only [ne_eq, decide_not, Bool.not_eq_eq_eq_not, Bool.not_true, decide_eq_false_iff_not]
    rintro rfl
    exact hp hc
  unfold tryReadPartitionId
  rw [if_neg (not_lt.2 hv), List.takeWhile_append_of_pos hne, List.dropWhile_append_of_pos hne]
  simp

variable [LawfulIntText]

open LawfulIntText

theorem tryReadMutation_mutation (hp : p.Nameable) :
    tryReadMutation (if p.mutation ≠ 0 then "_" ++ writeIntText p.mutation else "").toList =
      some p.mutation.toNat := by
  obtain ⟨hlo, hhi⟩ := hp.mutation
  by_cases hm : p.mutation = 0
  · simp [hm, tryReadMutation]
  · have hwrite : writeIntText p.mutation = writeIntText (p.mutation.toNat : ℤ) := by
      rw [Int.toNat_of_nonneg hlo]
    have hread := tryReadUInt32_writeIntText p.mutation.toNat [] (by omega) NoDigit.nil
    rw [List.append_nil] at hread
    rw [if_pos hm, String.toList_append, hwrite]
    change tryReadMutation ('_' :: (writeIntText (p.mutation.toNat : ℤ)).toList) = _
    simp only [tryReadMutation, List.isEmpty_cons, Bool.false_eq_true, if_false, checkChar_cons,
      Option.bind_eq_bind, Option.bind_some, hread]
    rfl

/-- **The name of a part is read as the part.** -/
theorem tryParsePartName_getPartNameV1 (hv : minFormatVersionWithCustomPartitioning ≤ v) (hp : p.Nameable) :
    tryParsePartName p.getPartNameV1 v = some p := by
  have hlevel : (if p.useLegacyMaxLevel then writeIntText legacyMaxLevel else writeIntText p.level) =
      writeIntText (writtenLevel p : ℕ) := by
    unfold writtenLevel
    split <;> rfl
  have hlevel32 : writtenLevel p < 2 ^ 32 := by
    have := hp.level
    unfold writtenLevel legacyMaxLevel at *
    split <;> omega
  have hmutation := tryReadMutation_mutation hp
  have hrest : NoDigit (if p.mutation ≠ 0 then "_" ++ writeIntText p.mutation else "").toList := by
    split
    · rw [String.toList_append]
      exact NoDigit.underscore _
    · exact NoDigit.nil
  have hmin := hp.minBlock
  have hmax := hp.maxBlock
  have hblocks := hp.proper.blocks
  have hname : p.getPartNameV1.toList = p.partitionId.toList ++ '_' :: ((writeIntText p.minBlock).toList ++
      '_' :: ((writeIntText p.maxBlock).toList ++ '_' :: ((writeIntText (writtenLevel p : ℕ)).toList ++
        (if p.mutation ≠ 0 then "_" ++ writeIntText p.mutation else "").toList))) := by
    unfold PartInfo.getPartNameV1
    rw [hlevel]
    simp [String.toList_append]
  unfold tryParsePartName
  rw [hname, tryReadPartitionId_append hv hp.partitionId_underscore]
  simp only [Option.bind_eq_bind, Option.bind_some, hp.partitionId_ne, if_false]
  rw [tryReadInt64_writeIntText _ _ hmin (by omega) (NoDigit.underscore _)]
  simp only [Option.bind_some, checkChar_cons]
  rw [tryReadInt64_writeIntText _ _ (by omega) hmax (NoDigit.underscore _)]
  simp only [Option.bind_some, checkChar_cons]
  rw [tryReadUInt32_writeIntText _ _ hlevel32 hrest]
  simp only [Option.bind_some, not_lt.2 hblocks, if_false, hmutation]
  have hlegacy : (writtenLevel p = legacyMaxLevel) ↔ p.useLegacyMaxLevel = true := by
    have := hp.level
    unfold writtenLevel
    split
    · simp_all
    · simp_all [ne_of_lt]
  have hback : (if writtenLevel p = legacyMaxLevel then maxLevel else writtenLevel p) = p.level := by
    by_cases hl : p.useLegacyMaxLevel = true
    · rw [if_pos (hlegacy.2 hl), hp.legacy hl]
    · rw [if_neg (mt hlegacy.1 hl)]
      unfold writtenLevel
      rw [if_neg hl]
  have hkind := hp.proper.kind
  have hm := Int.toNat_of_nonneg hp.mutation.1
  have huse : decide (writtenLevel p = legacyMaxLevel) = p.useLegacyMaxLevel := by
    simp only [hlegacy, Bool.decide_eq_true]
  simp only [hback, huse, PartInfo.setPartitionId, ← hkind, hm]
  rfl

theorem fromPartName_getPartNameV1 (hv : minFormatVersionWithCustomPartitioning ≤ v) (hp : p.Nameable) :
    fromPartName p.getPartNameV1 v = .ok p := by
  unfold fromPartName
  rw [tryParsePartName_getPartNameV1 hv hp]

/-! ## What is accepted has a name -/

section Accepted

omit [LawfulIntText]

variable [BoundedIntText]

omit [BoundedIntText] in
theorem not_mem_of_tryReadPartitionId (hv : minFormatVersionWithCustomPartitioning ≤ v) {input rest : List Char}
    {partitionId : String} (h : tryReadPartitionId v input = some (partitionId, rest)) :
    '_' ∉ partitionId.toList := by
  unfold tryReadPartitionId at h
  rw [if_neg (not_lt.2 hv), Option.some.injEq, Prod.mk.injEq] at h
  obtain ⟨rfl, -⟩ := h
  intro hmem
  rw [String.toList_ofList] at hmem
  simpa using List.mem_takeWhile_imp hmem

theorem tryReadMutation_lt {input : List Char} {mutation : ℕ} (h : tryReadMutation input = some mutation) :
    mutation < 2 ^ 32 := by
  unfold tryReadMutation at h
  split at h
  · obtain rfl := Option.some.inj h
    decide
  · simp only [Option.bind_eq_bind, Option.bind_eq_some_iff] at h
    obtain ⟨input, -, ⟨n, rest⟩, hread, heq⟩ := h
    split at heq
    · obtain rfl : n = mutation := Option.some.inj heq
      exact BoundedIntText.tryReadUInt32_lt hread
    · cases heq

/-- **A part that was read from a name has a name.** -/
theorem nameable_of_tryParsePartName (hv : minFormatVersionWithCustomPartitioning ≤ v) {partName : String}
    (h : tryParsePartName partName v = some p) : p.Nameable := by
  unfold tryParsePartName at h
  simp only [Option.bind_eq_bind, Option.bind_eq_some_iff] at h
  obtain ⟨⟨partitionId, input⟩, hpartition, h⟩ := h
  have hunderscore := not_mem_of_tryReadPartitionId hv hpartition
  dsimp only at h
  split at h
  · cases h
  · next hne =>
    simp only [Option.bind_eq_some_iff] at h
    obtain ⟨⟨minBlock, input⟩, hmin, input, -, ⟨maxBlock, input⟩, hmax, input, -, ⟨level, input⟩, hlevel, h⟩ := h
    have hminBounds := BoundedIntText.tryReadInt64_bounds hmin
    have hmaxBounds := BoundedIntText.tryReadInt64_bounds hmax
    have hlevelBound := BoundedIntText.tryReadUInt32_lt hlevel
    dsimp only at h
    split at h
    · cases h
    · next hblocks =>
      simp only [Option.bind_eq_some_iff] at h
      obtain ⟨mutation, hmutation, hinfo⟩ := h
      have hmutationBound := tryReadMutation_lt hmutation
      obtain rfl := Option.some.inj hinfo
      refine ⟨⟨rfl, not_lt.1 hblocks⟩, hne, hunderscore, hminBounds.1, hmaxBounds.2, ?_, ?_,
        Int.natCast_nonneg mutation, ?_⟩
      · -- the legacy maximum was replaced, and any other level is below it
        change (if level = legacyMaxLevel then maxLevel else level) < legacyMaxLevel
        unfold legacyMaxLevel maxLevel
        split <;> omega
      · intro hlegacy
        exact if_pos (of_decide_eq_true hlegacy)
      · change (mutation : ℤ) < 2 ^ 32
        omega

end Accepted

/-- **Names identify parts**: a part is read back from its name, what is accepted as a name is
read again from the name of its part, and parts that differ have different names. -/
theorem partName_roundTrip [BoundedIntText] (hv : minFormatVersionWithCustomPartitioning ≤ v) :
    (∀ p : PartInfo, p.Nameable → tryParsePartName p.getPartNameV1 v = some p) ∧
    (∀ (s : String) (p : PartInfo), tryParsePartName s v = some p → tryParsePartName p.getPartNameV1 v = some p) ∧
    ∀ p q : PartInfo, p.Nameable → q.Nameable → ¬ p.Eqv q ∨ p.useLegacyMaxLevel ≠ q.useLegacyMaxLevel →
      p.getPartNameV1 ≠ q.getPartNameV1 := by
  refine ⟨fun p hp => tryParsePartName_getPartNameV1 hv hp, ?_, ?_⟩
  · intro s p hs
    exact tryParsePartName_getPartNameV1 hv (nameable_of_tryParsePartName hv hs)
  · intro p q hp hq hdiffer heq
    have hread := tryParsePartName_getPartNameV1 hv hp
    rw [heq, tryParsePartName_getPartNameV1 hv hq, Option.some.injEq] at hread
    subst hread
    rcases hdiffer with h | h
    · exact h rfl
    · exact h rfl

end MergeTree

namespace MergeTree

section Decimal

attribute [local instance] IntText.decimal LawfulIntText.decimal BoundedIntText.decimal

theorem partName_roundTrip_decimal :
    (∀ p : PartInfo, p.Nameable → tryParsePartName p.getPartNameV1 1 = some p) ∧
    (∀ (s : String) (p : PartInfo), tryParsePartName s 1 = some p → tryParsePartName p.getPartNameV1 1 = some p) ∧
    ∀ p q : PartInfo, p.Nameable → q.Nameable → ¬ p.Eqv q ∨ p.useLegacyMaxLevel ≠ q.useLegacyMaxLevel →
      p.getPartNameV1 ≠ q.getPartNameV1 :=
  partName_roundTrip (by decide)

end Decimal

end MergeTree
