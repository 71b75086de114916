import MergeTree.Spec.PartitionId
import MergeTree.Proof.NumberText

/-!
# Partition ids of integral keys

For keys of dates and integers the id is a text code of the row: `readKeys_joinKeys` reads the
values back one after another, a `-` after a number being the separator since no number
continues with it, and `tryParseValueFromID` compares the id of what it parsed with its input.

The key without columns has no such comparison, and the answer of `checkString` is not
looked at: the beginnings of `all` are parsed as well. `faithfulID_iff`
says that these are the only failures.
-/

namespace MergeTree

open IntText NumberText DateLUT TextReader

variable {sample : List DataType}

/-! ## The calendar -/

/-- **Day numbers and dates correspond**: a date has eight digits, and its day number is
read back. -/
class LawfulDateLUT [DateLUT] : Prop where
  toNumYYYYMMDD_bounds : ∀ day, day < 2 ^ 16 → 10000000 ≤ toNumYYYYMMDD day ∧ toNumYYYYMMDD day ≤ 99999999
  yyyymmddToDayNum_toNumYYYYMMDD : ∀ day, day < 2 ^ 16 → yyyymmddToDayNum (toNumYYYYMMDD day) = day

section Gregorian

theorem monthLength_bounds (i : ℕ) : 28 ≤ monthLength i ∧ monthLength i ≤ 31 := by
  unfold monthLength
  split
  · split <;> omega
  all_goals omega

theorem le_monthStart (i : ℕ) : 28 * i ≤ monthStart i := by
  induction i with
  | zero => exact Nat.zero_le _
  | succ i ih =>
    have hlen := (monthLength_bounds i).1
    rw [monthStart]
    omega

theorem findMonth_spec (fuel i d : ℕ) (hfuel : d < fuel) :
    (findMonth fuel i d).2 < monthLength (findMonth fuel i d).1 ∧
      monthStart (findMonth fuel i d).1 + (findMonth fuel i d).2 = monthStart i + d := by
  induction fuel generalizing i d with
  | zero => omega
  | succ fuel ih =>
    unfold findMonth
    split
    · next hd => exact ⟨hd, rfl⟩
    · next hd =>
      have hlen := (monthLength_bounds i).1
      obtain ⟨hday, hsum⟩ := ih (i + 1) (d - monthLength i) (by omega)
      refine ⟨hday, ?_⟩
      rw [hsum, monthStart]
      omega

attribute [local instance] DateLUT.gregorian

theorem LawfulDateLUT.gregorian : LawfulDateLUT := by
  have hmonth : ∀ day, day < 2 ^ 16 → ∃ month d, findMonth (day + 1) 0 day = (month, d) ∧ month < 2400 ∧ d < 31 ∧
      monthStart month + d = day := by
    intro day hday
    obtain ⟨hd, hsum⟩ := findMonth_spec (day + 1) 0 day (Nat.lt_succ_self day)
    have hlen := (monthLength_bounds (findMonth (day + 1) 0 day).1).2
    have hstart := le_monthStart (findMonth (day + 1) 0 day).1
    rw [monthStart, Nat.zero_add] at hsum
    refine ⟨(findMonth (day + 1) 0 day).1, (findMonth (day + 1) 0 day).2, rfl, ?_, ?_, hsum⟩
    · omega
    · omega
  constructor
  · intro day hday
    obtain ⟨month, d, hfind, hm, hd, -⟩ := hmonth day hday
    simp only [toNumYYYYMMDD, hfind]
    omega
  · intro day hday
    obtain ⟨month, d, hfind, hm, hd, hsum⟩ := hmonth day hday
    have hindex : ((1970 + month / 12) * 10000 + (month % 12 + 1) * 100 + (d + 1)) / 10000 = 1970 + month / 12 := by
      omega
    have hmid : ((1970 + month / 12) * 10000 + (month % 12 + 1) * 100 + (d + 1)) / 100 % 100 = month % 12 + 1 := by
      omega
    have hlast : ((1970 + month / 12) * 10000 + (month % 12 + 1) * 100 + (d + 1)) % 100 = d + 1 := by omega
    simp only [toNumYYYYMMDD, yyyymmddToDayNum, hfind, hindex, hmid, hlast]
    rw [show (1970 + month / 12 - 1970) * 12 + (month % 12 + 1 - 1) = month by omega]
    exact hsum

end Gregorian

/-! ## Rows of integral keys -/

/-- The column has integral values: dates, and integers of up to 64 bits. -/
def DataType.Integral : DataType → Prop
  | .date => True
  | .uint bits => bits ≤ 64
  | .int bits => 0 < bits ∧ bits ≤ 64
  | _ => False

/-- The field is a value of the column. -/
def DataType.Holds : DataType → Field → Prop
  | .date, .uint64 day => day < 2 ^ 16
  | .uint bits, .uint64 n => n < 2 ^ bits
  | .int bits, .int64 n => -(2 ^ (bits - 1)) ≤ n ∧ n < 2 ^ (bits - 1)
  | _, _ => False

/-- The row has a value for every column. -/
def RowOf (partitionKeySample : List DataType) (value : Row) : Prop :=
  List.Forall₂ DataType.Holds partitionKeySample value

theorem keyTypeOf_isSome {type : DataType} (h : type.Integral) : ∃ key, keyTypeOf type = some key := by
  cases type with
  | date => exact ⟨_, rfl⟩
  | uint bits =>
    have hbits : bits ≤ 64 := h
    exact ⟨.unsigned, by simp [keyTypeOf, DataType.isNullable, DataType.getDefault, hbits]⟩
  | int bits =>
    have hbits : bits ≤ 64 := h.2
    exact ⟨.signed, by simp [keyTypeOf, DataType.isNullable, DataType.getDefault, hbits]⟩
  | ipv4 => exact h.elim
  | nullable nested => exact h.elim
  | other default => exact h.elim

theorem mapM_keyTypeOf (h : ∀ type ∈ sample, type.Integral) :
    ∃ keyTypes, sample.mapM keyTypeOf = some keyTypes ∧
      List.Forall₂ (fun type key => keyTypeOf type = some key) sample keyTypes := by
  induction sample with
  | nil => exact ⟨[], rfl, .nil⟩
  | cons type sample ih =>
    obtain ⟨key, hkey⟩ := keyTypeOf_isSome (h type List.mem_cons_self)
    obtain ⟨keys, hkeys, hall⟩ := ih fun type' ht => h type' (List.mem_cons_of_mem type ht)
    refine ⟨key :: keys, ?_, .cons hkey hall⟩
    rw [List.mapM_cons, hkey, hkeys]
    rfl

theorem Field.isIntegral_of_holds {type : DataType} {field : Field} (h : type.Holds field) :
    field.isIntegral = true := by
  cases field with
  | uint64 n => rfl
  | int64 n => rfl
  | _ => cases type <;> exact h.elim

theorem all_isIntegral {value : Row} (h : RowOf sample value) :
    value.all Field.isIntegral = true := by
  induction h with
  | nil => rfl
  | cons hfield _ ih => rw [List.all_cons, Field.isIntegral_of_holds hfield, ih, Bool.and_self]

theorem NoDigit.minus (rest : List Char) : NoDigit ('-' :: rest) := by
  intro c hc
  cases hc
  decide

theorem takes_assertEOF : Takes assertEOF [] () [] := rfl

theorem assertEOF_cons (c : Char) (rest : List Char) :
    assertEOF.run (c :: rest) = .error "Expected end of file" := rfl

section Lawful

variable [NumberText] [DateLUT] [FieldText] [LawfulNumberText] [LawfulDateLUT]

omit [DateLUT] [FieldText] [LawfulDateLUT] in
theorem takes_readInt64 {n : ℤ} {rest : List Char} (hlo : -(2 ^ 63) ≤ n) (hhi : n < 2 ^ 63) (hrest : NoDigit rest) :
    Takes readInt64 (writeIntText n).toList n rest := by
  unfold Takes readInt64
  dsimp only [StateT.run]
  rw [LawfulIntText.tryReadInt64_writeIntText n rest hlo hhi hrest]

/-- **One value**: in front of a separator or of the end its text is read back. -/
theorem takes_readKey {type : DataType} {key : KeyType} {field : Field} (htype : type.Integral)
    (hkey : keyTypeOf type = some key) (hfield : type.Holds field) :
    ∃ text, keyText type field = .ok text ∧
      ∀ rest, NoDigit rest → Takes (readKey key) text.toList field rest := by
  cases type with
  | date =>
    cases field with
    | uint64 day =>
      obtain rfl : KeyType.date = key := Option.some.inj hkey
      have hday : day < 2 ^ 16 := hfield
      obtain ⟨hlo, hhi⟩ := LawfulDateLUT.toNumYYYYMMDD_bounds day hday
      refine ⟨_, by rw [keyText, Field.safeGetUInt64]; rfl, ?_⟩
      intro rest hrest
      rw [Nat.mod_eq_of_lt hday]
      have hholds : IntType.uint32.Holds (toNumYYYYMMDD day : ℤ) := by
        constructor
        · exact Int.natCast_nonneg _
        · change (toNumYYYYMMDD day : ℤ) ≤ 2 ^ 32 - 1
          omega
      refine (LawfulNumberText.takes_int .uint32 _ rest hholds hrest).bind_nil ?_
      have hrange : ¬((toNumYYYYMMDD day : ℤ) < 10000000 ∨ 99999999 < (toNumYYYYMMDD day : ℤ)) := by omega
      rw [if_neg hrange, Int.toNat_natCast, LawfulDateLUT.yyyymmddToDayNum_toNumYYYYMMDD day hday]
      exact Takes.pure _ rest
    | _ => exact hfield.elim
  | uint bits =>
    cases field with
    | uint64 n =>
      have hbits : bits ≤ 64 := htype
      obtain rfl : KeyType.unsigned = key := by
        simpa [keyTypeOf, DataType.isNullable, DataType.getDefault, hbits] using hkey
      have hn : n < 2 ^ 64 := lt_of_lt_of_le hfield (Nat.pow_le_pow_right (by decide) hbits)
      refine ⟨writeIntText n, rfl, ?_⟩
      intro rest hrest
      have hread := LawfulNumberText.takes_int .uint64 _ rest (IntType.holds_uint64 hn) hrest
      exact hread.bind_pure (f := fun value => Field.uint64 value.toNat)
    | _ => exact hfield.elim
  | int bits =>
    cases field with
    | int64 n =>
      have hbits : bits ≤ 64 := htype.2
      obtain rfl : KeyType.signed = key := by
        simpa [keyTypeOf, DataType.isNullable, DataType.getDefault, hbits] using hkey
      have hpow : (2 : ℤ) ^ (bits - 1) ≤ 2 ^ 63 := pow_le_pow_right₀ (by decide) (by omega)
      have hlo : -(2 ^ (bits - 1)) ≤ n := hfield.1
      have hhi : n < 2 ^ (bits - 1) := hfield.2
      refine ⟨writeIntText n, rfl, ?_⟩
      intro rest hrest
      exact (takes_readInt64 (by omega) (by omega) hrest).bind_pure (f := Field.int64)
    | _ => exact hfield.elim
  | ipv4 => exact htype.elim
  | nullable nested => exact htype.elim
  | other default => exact htype.elim

/-- **All values**: the joined texts are read back one after another, up to the end. -/
theorem readKeys_joinKeys {keyTypes : List KeyType} {value : Row} (hsample : ∀ type ∈ sample, type.Integral)
    (hkeys : List.Forall₂ (fun type key => keyTypeOf type = some key) sample keyTypes) (hrow : RowOf sample value) :
    ∃ text, joinKeys (sample.zip value) = .ok text ∧ Takes (readKeys keyTypes) text.toList value [] := by
  induction hkeys generalizing value with
  | nil =>
    cases hrow
    exact ⟨"", rfl, Takes.pure _ _⟩
  | @cons type key sample keyTypes hkey hkeys ih =>
    cases hrow with
    | @cons _ field _ value hfield hrow =>
      obtain ⟨text, htext, hread⟩ := takes_readKey (hsample type List.mem_cons_self) hkey hfield
      obtain ⟨result, hresult, hrest⟩ := ih (fun type' ht => hsample type' (List.mem_cons_of_mem type ht)) hrow
      cases hkeys with
      | nil =>
        cases hrow
        exact ⟨text, htext, (hread [] NoDigit.nil).bind_pure (f := fun field => [field])⟩
      | @cons type' key' sample keyTypes hkey' hkeys =>
        cases hrow with
        | @cons _ field' _ value hfield' hrow =>
          refine ⟨text ++ "-" ++ result, ?_, ?_⟩
          · rw [List.zip_cons_cons, List.zip_cons_cons, joinKeys, htext]
            rw [List.zip_cons_cons] at hresult
            rw [hresult]
            rfl
          · rw [String.toList_append, String.toList_append, List.append_assoc]
            -- the number in front of the separator ends there
            refine (hread _ (NoDigit.minus _)).bind ?_
            refine (Takes.assertString "-" _).bind ?_
            exact hrest.bind_pure (f := fun res => field :: res)

/-- **The id of a row is read back as the row.** -/
theorem tryParseValueFromID_getID {value : Row} (hsample : ∀ type ∈ sample, type.Integral) (hrow : RowOf sample value) :
    ∃ partitionId, getID value sample = .ok partitionId ∧
      tryParseValueFromID partitionId sample = .ok (some value) := by
  have hlength : value.length = sample.length := (List.Forall₂.length_eq hrow).symm
  cases sample with
  | nil =>
    cases hrow
    exact ⟨"all", rfl, rfl⟩
  | cons type sample =>
    obtain ⟨keyTypes, hmap, hkeys⟩ := mapM_keyTypeOf hsample
    obtain ⟨text, htext, hread⟩ := readKeys_joinKeys hsample hkeys hrow
    have hvalue : value.isEmpty = false := by
      cases hrow
      rfl
    have hid : getID value (type :: sample) = .ok text := by
      rw [getID, if_neg (not_not.2 hlength), if_neg (by simp [hvalue]), if_pos (all_isIntegral hrow), htext]
    refine ⟨text, hid, ?_⟩
    have hall : Takes (readRow keyTypes) text.toList value [] := by
      refine hread.bind_nil ?_
      exact takes_assertEOF.bind_pure (f := fun _ => value)
    unfold Takes at hall
    rw [List.append_nil] at hall
    rw [tryParseValueFromID, if_neg (by simp), hmap]
    simp only [hall, bind, Except.bind, hid, ne_eq, not_true_eq_false, if_false]
    rfl

omit [LawfulNumberText] [LawfulDateLUT] in
/-- **What is parsed is compared with the input.** -/
theorem getID_of_tryParseValueFromID (hsample : ∀ type ∈ sample, type.Integral) (hne : sample ≠ []) (partitionId : String) :
    (∃ value, tryParseValueFromID partitionId sample = .ok (some value) ∧ getID value sample = .ok partitionId) ∨
      ∃ error, tryParseValueFromID partitionId sample = .error error := by
  obtain ⟨keyTypes, hmap, -⟩ := mapM_keyTypeOf hsample
  have hempty : ¬sample.isEmpty = true := by simpa using hne
  rw [tryParseValueFromID, if_neg hempty, hmap]
  cases hread : (readRow keyTypes).run partitionId.toList with
  | error error => exact Or.inr ⟨error, by simp only [hread]; rfl⟩
  | ok res =>
    obtain ⟨value, rest⟩ := res
    cases hid : getID value sample with
    | error error => exact Or.inr ⟨error, by simp only [hread, bind, Except.bind, hid]⟩
    | ok expected =>
      by_cases heq : expected = partitionId
      · subst heq
        refine Or.inl ⟨value, ?_, hid⟩
        simp only [hread, bind, Except.bind, hid, ne_eq, not_true_eq_false, if_false]
        rfl
      · refine Or.inr ⟨s!"Partition ID was parsed incorrectly: expected {expected}, got {partitionId}", ?_⟩
        simp only [hread, bind, Except.bind, hid, ne_eq, heq, not_false_eq_true, if_true]
        rfl

end Lawful

/-! ## The key without columns -/

theorem checkChars_snd_eq_nil (s input : List Char) : (checkChars s input).2 = [] ↔ input <+: s := by
  induction s generalizing input with
  | nil =>
    rw [checkChars]
    exact List.prefix_nil.symm
  | cons c s ih =>
    cases input with
    | nil => exact ⟨fun _ => List.nil_prefix, fun _ => rfl⟩
    | cons d input =>
      rw [checkChars, List.cons_prefix_cons]
      split
      · next hd => rw [ih, and_iff_right hd]
      · next hd =>
        constructor
        · intro h
          exact absurd h (List.cons_ne_nil d input)
        · rintro ⟨rfl, -⟩
          exact absurd rfl hd

theorem prefix_all_iff (s : String) : s.toList <+: "all".toList ↔ s ∈ ["", "a", "al", "all"] := by
  rw [← List.mem_inits]
  have hinits : "all".toList.inits = (["", "a", "al", "all"] : List String).map String.toList := by decide
  rw [hinits, List.mem_map]
  constructor
  · rintro ⟨t, ht, heq⟩
    rw [← String.toList_inj.1 heq]
    exact ht
  · intro hs
    exact ⟨s, hs, rfl⟩

section Empty

variable [NumberText] [DateLUT] [FieldText]

theorem tryParseValueFromID_nil (s : String) :
    (s ∈ ["", "a", "al", "all"] ∧ tryParseValueFromID s [] = .ok (some [])) ∨
      (s ∉ ["", "a", "al", "all"] ∧ ∃ error, tryParseValueFromID s [] = .error error) := by
  have hparse : tryParseValueFromID s [] =
      (assertEOF.run (checkChars "all".toList s.toList).2 >>= fun _ => .ok (some [])) := rfl
  rw [hparse, ← prefix_all_iff, ← checkChars_snd_eq_nil]
  cases hrest : (checkChars "all".toList s.toList).2 with
  | nil => exact Or.inl ⟨rfl, rfl⟩
  | cons c rest =>
    refine Or.inr ⟨List.cons_ne_nil c rest, "Expected end of file", ?_⟩
    rw [assertEOF_cons]
    rfl

end Empty

/-! ## Ids as a text code -/

section Code

variable [NumberText] [DateLUT] [FieldText]

/-- The id is a text code of the rows of a key, as far as the text `s` is concerned: rows are read
back from their ids and have ids of their own, and `s` is rejected by an exception unless it is
the id of the row that is parsed from it. -/
structure FaithfulID (partitionKeySample : List DataType) (s : String) : Prop where
  row_read : ∀ value, RowOf partitionKeySample value → ∃ partitionId,
    getID value partitionKeySample = .ok partitionId ∧
      tryParseValueFromID partitionId partitionKeySample = .ok (some value)
  row_unique : ∀ value value', RowOf partitionKeySample value → RowOf partitionKeySample value' →
    getID value partitionKeySample = getID value' partitionKeySample → value = value'
  id_of_read : (∃ value, tryParseValueFromID s partitionKeySample = .ok (some value) ∧
      getID value partitionKeySample = .ok s) ∨
    ∃ error, tryParseValueFromID s partitionKeySample = .error error

theorem getID_injective [LawfulNumberText] [LawfulDateLUT]
    (hsample : ∀ type ∈ sample, type.Integral) {value value' : Row} (hrow : RowOf sample value)
    (hrow' : RowOf sample value') (heq : getID value sample = getID value' sample) : value = value' := by
  obtain ⟨id, hid, hread⟩ := tryParseValueFromID_getID hsample hrow
  obtain ⟨id', hid', hread'⟩ := tryParseValueFromID_getID hsample hrow'
  obtain rfl : id = id' := by
    rw [hid, hid'] at heq
    exact Except.ok.inj heq
  rw [hread] at hread'
  exact Option.some.inj (Except.ok.inj hread')

/-- **The id of an integral key is a text code, but for the beginnings of `all`**, which are
parsed as the row of the key without columns. -/
theorem faithfulID_iff [LawfulNumberText] [LawfulDateLUT] (sample : List DataType)
    (hsample : ∀ type ∈ sample, type.Integral) (s : String) :
    FaithfulID sample s ↔ (sample = [] → s ∉ ["", "a", "al"]) := by
  constructor
  · rintro h rfl hs
    have hother : s ≠ "all" := by
      rintro rfl
      revert hs
      decide
    have hmem : s ∈ ["", "a", "al", "all"] := by
      simp only [List.mem_cons, List.not_mem_nil, or_false] at hs ⊢
      tauto
    rcases tryParseValueFromID_nil s with ⟨-, hparse⟩ | ⟨hnot, -⟩
    · rcases h.id_of_read with ⟨value, hvalue, hid⟩ | ⟨error, herror⟩
      · rw [hparse] at hvalue
        obtain rfl := Option.some.inj (Except.ok.inj hvalue)
        exact hother (Except.ok.inj hid).symm
      · rw [hparse] at herror
        cases herror
    · exact hnot hmem
  · intro h
    refine ⟨fun value => tryParseValueFromID_getID hsample, fun value value' => getID_injective hsample, ?_⟩
    rcases eq_or_ne sample [] with rfl | hne
    · rcases tryParseValueFromID_nil s with ⟨hmem, hparse⟩ | ⟨-, herror⟩
      · have hs : s = "all" := by
          have hnot := h rfl
          simp only [List.mem_cons, List.not_mem_nil, or_false] at hmem hnot
          tauto
        subst hs
        exact Or.inl ⟨[], hparse, rfl⟩
      · exact Or.inr herror
    · exact getID_of_tryParseValueFromID hsample hne s

end Code

section Decimal

attribute [local instance] NumberText.decimal DateLUT.gregorian FieldText.plain LawfulNumberText.decimal
  LawfulDateLUT.gregorian

/-- The end of January 2024, a negative number and a small one. -/
theorem faithfulID_date : FaithfulID [.date, .int 64, .uint 8] "20240131--5-7" ∧
    getID [.uint64 19753, .int64 (-5), .uint64 7] [.date, .int 64, .uint 8] = .ok "20240131--5-7" := by
  refine ⟨(faithfulID_iff [.date, .int 64, .uint 8] ?_ "20240131--5-7").2 ?_, by decide +kernel⟩
  · intro type htype
    fin_cases htype
    · trivial
    · exact ⟨by decide, by decide⟩
    · exact Nat.le_of_ble_eq_true rfl
  · intro hnil
    cases hnil

/-- The empty text is parsed as the row of the key without columns, whose id is `all`. -/
theorem not_faithfulID_empty : ¬FaithfulID [] "" := by
  intro h
  rcases h.id_of_read with ⟨value, hvalue, hid⟩ | ⟨error, herror⟩
  · obtain rfl : [] = value := Option.some.inj (Except.ok.inj hvalue)
    have hall : "all" = "" := Except.ok.inj hid
    revert hall
    decide
  · cases herror

end Decimal

end MergeTree
