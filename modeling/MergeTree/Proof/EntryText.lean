import MergeTree.Spec.LogEntryText
import MergeTree.Lib.PlainText
import MergeTree.Proof.NumberText

/-!
# The values in the text of an entry are read back

`LawfulEntryText`: each writer of the interface `EntryText` is inverted by its reader in front
of what follows it in the text of an entry.

The second half gives functions with these laws: escapes with a backslash, quotes, identifiers
in hexadecimal and times of the proleptic calendar in UTC.
-/

namespace MergeTree

open IntText NumberText EntryText TextReader

/-- A text that is written without an escape. -/
def Plain (s : String) : Prop := ∀ c ∈ s.toList, c ≠ '\t' ∧ c ≠ '\n' ∧ c ≠ '\\'

/-- A time with a place in the calendar and a year of four digits. -/
structure LocalDateTime.Valid (dt : LocalDateTime) : Prop where
  year : dt.year ≤ 9999
  month : dt.month ≤ 12
  day : dt.day ≤ 31
  hour : dt.hour ≤ 23
  minute : dt.minute ≤ 59
  second : dt.second ≤ 59

/-- **The values of an entry are read back.** -/
class LawfulEntryText [EntryText] : Prop extends LawfulNumberText where
  takes_string : ∀ s : String, Plain s → ∀ rest, Takes readString s.toList s ("\n".toList ++ rest)
  takes_escaped : ∀ (s : String) (rest), Takes readEscaped (writeEscaped s).toList s ("\n".toList ++ rest)
  takes_quoted : ∀ (s : String) (rest), rest.head? = some ',' ∨ rest.head? = some '\n' →
    Takes readQuoted (writeQuoted s).toList s rest
  takes_quotedStrings : ∀ (l : List String) (rest),
    Takes readQuotedStrings (writeQuotedStrings l).toList l ("\n".toList ++ rest)
  takes_bool : ∀ (b : Bool) (rest), Takes readBool (writeBool b).toList b ("\n".toList ++ rest)
  takes_uuid : ∀ (u : BitVec 128) (rest), Takes readUuid (writeUuid u).toList u ("\n".toList ++ rest)
  takes_dateTime : ∀ dt : LocalDateTime, dt.Valid → ∀ rest,
    Takes readDateTime (writeDateTime dt).toList dt ("\n".toList ++ rest)

/-- The time has a local time, from which it can be made again. -/
def Representable [EntryText] (t : ℤ) : Prop :=
  (toLocalDateTime t).Valid ∧ makeDateTime (toLocalDateTime t).year (toLocalDateTime t).month
    (toLocalDateTime t).day (toLocalDateTime t).hour (toLocalDateTime t).minute (toLocalDateTime t).second = t

/-! ## Plain text of these values -/

namespace PlainEntry

open PlainText

/-- The quotation mark of strings. -/
def apostrophe : Char := Char.ofNat 39

theorem isQuote_apostrophe : IsQuote apostrophe := by decide

/-! ### Identifiers and times -/

/-- The hexadecimal groups of an identifier. -/
def uuidText (u : BitVec 128) : String :=
  fixedText 16 8 (u.toNat / 2 ^ 96) ++ "-" ++ fixedText 16 4 (u.toNat / 2 ^ 80 % 2 ^ 16) ++ "-" ++
  fixedText 16 4 (u.toNat / 2 ^ 64 % 2 ^ 16) ++ "-" ++ fixedText 16 4 (u.toNat / 2 ^ 48 % 2 ^ 16) ++ "-" ++
  fixedText 16 12 (u.toNat % 2 ^ 48)

def readUuidText : TextReader (BitVec 128) := do
  let a ← readFixed 16 8
  assertString "-"
  let b ← readFixed 16 4
  assertString "-"
  let c ← readFixed 16 4
  assertString "-"
  let d ← readFixed 16 4
  assertString "-"
  let e ← readFixed 16 12
  return BitVec.ofNat 128 (a * 2 ^ 96 + b * 2 ^ 80 + c * 2 ^ 64 + d * 2 ^ 48 + e)

theorem takes_uuidText (u : BitVec 128) (rest : List Char) : Takes readUuidText (uuidText u).toList u rest := by
  have hu := u.isLt
  have hsum : u.toNat / 2 ^ 96 * 2 ^ 96 + u.toNat / 2 ^ 80 % 2 ^ 16 * 2 ^ 80 + u.toNat / 2 ^ 64 % 2 ^ 16 * 2 ^ 64 +
      u.toNat / 2 ^ 48 % 2 ^ 16 * 2 ^ 48 + u.toNat % 2 ^ 48 = u.toNat := by omega
  unfold uuidText readUuidText
  simp only [String.toList_append, List.append_assoc]
  refine (takes_fixed (by decide) (by omega) _).bind ((Takes.assertString "-" _).bind ?_)
  refine (takes_fixed (by decide) (by omega) _).bind ((Takes.assertString "-" _).bind ?_)
  refine (takes_fixed (by decide) (by omega) _).bind ((Takes.assertString "-" _).bind ?_)
  refine (takes_fixed (by decide) (by omega) _).bind ((Takes.assertString "-" _).bind ?_)
  refine (takes_fixed (by decide) (by omega) rest).bind_nil ?_
  rw [hsum, BitVec.ofNat_toNat, BitVec.setWidth_eq]
  exact Takes.pure u rest

/-- Year, month and day of a day counted from the start of 1970. The calendar is cut into eras of
400 years that start in March. -/
def toDate (day : ℕ) : ℕ × ℕ × ℕ :=
  let dayOfEra := (day + 719468) % 146097
  let yearOfEra := (dayOfEra - dayOfEra / 1460 + dayOfEra / 36524 - dayOfEra / 146096) / 365
  let dayOfYear := dayOfEra - (365 * yearOfEra + yearOfEra / 4 - yearOfEra / 100)
  let monthFromMarch := (5 * dayOfYear + 2) / 153
  let month := if monthFromMarch < 10 then monthFromMarch + 3 else monthFromMarch - 9
  let year := (day + 719468) / 146097 * 400 + yearOfEra
  (if month ≤ 2 then year + 1 else year, month, dayOfYear - (153 * monthFromMarch + 2) / 5 + 1)

/-- The day with a date. -/
def ofDate (year month day : ℕ) : ℤ :=
  let year := if month ≤ 2 then year - 1 else year
  let monthFromMarch := if month > 2 then month - 3 else month + 9
  let dayOfYear := (153 * monthFromMarch + 2) / 5 + day - 1
  let yearOfEra := year % 400
  ((year / 400 * 146097 + yearOfEra * 365 + yearOfEra / 4 - yearOfEra / 100 + dayOfYear : ℕ) : ℤ) - 719468

def utc (t : ℤ) : LocalDateTime :=
  let date := toDate (t.toNat / 86400)
  let second := t.toNat % 86400
  { year := date.1, month := date.2.1, day := date.2.2,
    hour := second / 3600, minute := second / 60 % 60, second := second % 60 }

def makeUtc (year month day hour minute second : ℕ) : ℤ :=
  ofDate year month day * 86400 + ((hour * 60 + minute) * 60 + second : ℕ)

def dateTimeText (dt : LocalDateTime) : String :=
  fixedText 10 4 dt.year ++ "-" ++ fixedText 10 2 dt.month ++ "-" ++ fixedText 10 2 dt.day ++ " " ++
  fixedText 10 2 dt.hour ++ ":" ++ fixedText 10 2 dt.minute ++ ":" ++ fixedText 10 2 dt.second

def readDateTimeText : TextReader LocalDateTime := do
  let year ← readFixed 10 4
  assertString "-"
  let month ← readFixed 10 2
  assertString "-"
  let day ← readFixed 10 2
  assertString " "
  let hour ← readFixed 10 2
  assertString ":"
  let minute ← readFixed 10 2
  assertString ":"
  let second ← readFixed 10 2
  return { year, month, day, hour, minute, second }

theorem takes_dateTimeText {dt : LocalDateTime} (h : dt.Valid) (rest : List Char) :
    Takes readDateTimeText (dateTimeText dt).toList dt rest := by
  obtain ⟨hyear, hmonth, hday, hhour, hminute, hsecond⟩ := h
  unfold dateTimeText readDateTimeText
  simp only [String.toList_append, List.append_assoc]
  refine (takes_fixed (by decide) (by omega) _).bind ((Takes.assertString "-" _).bind ?_)
  refine (takes_fixed (by decide) (by omega) _).bind ((Takes.assertString "-" _).bind ?_)
  refine (takes_fixed (by decide) (by omega) _).bind ((Takes.assertString " " _).bind ?_)
  refine (takes_fixed (by decide) (by omega) _).bind ((Takes.assertString ":" _).bind ?_)
  refine (takes_fixed (by decide) (by omega) _).bind ((Takes.assertString ":" _).bind ?_)
  exact (takes_fixed (by decide) (by omega) rest).bind_nil (Takes.pure dt rest)

end PlainEntry

/-- Plain text: an instance of the interface for concrete inputs. -/
@[reducible] def EntryText.plain : EntryText where
  toNumberText := NumberText.decimal
  readString := takeUntil fun c => c = '\t' ∨ c = '\n'
  writeEscaped := PlainText.escaped PlainEntry.apostrophe
  readEscaped := PlainText.escapedUntil PlainEntry.apostrophe fun c => c = '\t' ∨ c = '\n'
  writeQuoted := PlainText.quoted PlainEntry.apostrophe
  readQuoted := PlainText.readQuotedText PlainEntry.apostrophe
  writeQuotedStrings := PlainText.quotedStrings PlainEntry.apostrophe
  readQuotedStrings := PlainText.readQuotedStringsText PlainEntry.apostrophe
  writeBool := PlainText.flagText
  readBool := PlainText.readFlagText
  writeUuid := PlainEntry.uuidText
  readUuid := PlainEntry.readUuidText
  toLocalDateTime := PlainEntry.utc
  makeDateTime := PlainEntry.makeUtc
  writeDateTime := PlainEntry.dateTimeText
  readDateTime := PlainEntry.readDateTimeText

section Plain

attribute [local instance] EntryText.plain

open PlainText PlainEntry in
theorem LawfulEntryText.plain : LawfulEntryText where
  toLawfulNumberText := LawfulNumberText.decimal
  takes_string s h rest := by
    refine Takes.takeUntil (fun c hc => ?_) fun c hc => ?_
    · obtain ⟨htab, hnewline, _⟩ := h c hc
      simp [htab, hnewline]
    · obtain rfl : '\n' = c := Option.some.inj hc
      decide
  takes_escaped s rest := by
    refine takes_escapedUntil isQuote_apostrophe (fun c hc => ?_) s (by decide) (by decide) rest
    have hc' : c = '\t' ∨ c = '\n' := by simpa using hc
    rcases hc' with rfl | rfl
    · decide
    · decide
  takes_quoted s rest _ := PlainText.takes_quoted isQuote_apostrophe s rest
  takes_quotedStrings l rest := PlainText.takes_quotedStrings isQuote_apostrophe l _
  takes_bool b rest := takes_flagText b _
  takes_uuid u rest := takes_uuidText u _
  takes_dateTime dt h rest := takes_dateTimeText h _

end Plain

end MergeTree
