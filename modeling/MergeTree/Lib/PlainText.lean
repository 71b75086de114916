import MergeTree.Lib.Text

/-!
# Plain text

Text functions with the laws of `Takes`, for concrete inputs: escapes with a backslash, quotes,
lists of quoted strings, digits of a fixed number and flags.
-/

namespace PlainText

open TextReader

/-! ## Escapes and quotes -/

/-- The characters that are escaped in a text with the quotation mark `q`, each with the
character that stands for it. -/
def escapes (q : Char) : List (Char × Char) :=
  [(Char.ofNat 92, Char.ofNat 92), (q, q), ('\n', 'n'), ('\t', 't'), ('\r', 'r'),
    (Char.ofNat 8, 'b'), (Char.ofNat 12, 'f'), (Char.ofNat 0, '0')]

def escapeChar (q c : Char) : List Char :=
  match (escapes q).find? fun e => e.1 = c with
  | some e => [Char.ofNat 92, e.2]
  | none => [c]

def unescapeChar (q d : Char) : Char :=
  match (escapes q).find? fun e => e.2 = d with
  | some e => e.1
  | none => d

/-- The quotation mark is not in the way of the other escapes, nor of the brackets of a list. -/
def IsQuote (q : Char) : Prop :=
  (∀ e ∈ escapes q, unescapeChar q e.2 = e.1) ∧ q ≠ Char.ofNat 92 ∧ q ≠ ']'

instance (q : Char) : Decidable (IsQuote q) := inferInstanceAs (Decidable (_ ∧ _ ∧ _))

/-- The characters up to one that `stop` holds of, with their escapes resolved. -/
def readEscapedUntil (q : Char) (stop : Char → Bool) : List Char → List Char × List Char
  | [] => ([], [])
  | c :: input =>
    if c = Char.ofNat 92 then
      match input with
      | [] => ([], [])
      | d :: input =>
        (unescapeChar q d :: (readEscapedUntil q stop input).1, (readEscapedUntil q stop input).2)
    else if stop c then ([], c :: input)
    else (c :: (readEscapedUntil q stop input).1, (readEscapedUntil q stop input).2)

def escapedUntil (q : Char) (stop : Char → Bool) : TextReader String := fun input =>
  .ok (String.ofList (readEscapedUntil q stop input).1, (readEscapedUntil q stop input).2)

def escaped (q : Char) (s : String) : String := String.ofList (s.toList.flatMap (escapeChar q))

/-- The text of a quotation mark. -/
def quote (q : Char) : String := String.singleton q

def quoted (q : Char) (s : String) : String := quote q ++ escaped q s ++ quote q

def readQuotedText (q : Char) : TextReader String := do
  assertString (quote q)
  let s ← escapedUntil q fun c => c = q
  assertString (quote q)
  return s

def quotedStrings (q : Char) (l : List String) : String := "[" ++ String.intercalate "," (l.map (quoted q)) ++ "]"

def readQuotedStringsText (q : Char) : TextReader (List String) := do
  assertString "["
  if ← checkString "]" then return []
  else
    let l ← withFuel fun fuel => readSeparated "," (readQuotedText q) fuel []
    assertString "]"
    return l

variable {q : Char} {stop : Char → Bool}

theorem readEscapedUntil_escapeChar (hq : IsQuote q) (hstop : ∀ c, stop c = true → c ∈ (escapes q).map Prod.fst)
    (c : Char) (input : List Char) : readEscapedUntil q stop (escapeChar q c ++ input) =
      (c :: (readEscapedUntil q stop input).1, (readEscapedUntil q stop input).2) := by
  unfold escapeChar
  cases hfind : (escapes q).find? fun e => e.1 = c with
  | some e =>
    have hmem := List.mem_of_find?_eq_some hfind
    have hc : e.1 = c := by simpa using List.find?_some hfind
    change readEscapedUntil q stop (Char.ofNat 92 :: e.2 :: input) = _
    rw [readEscapedUntil.eq_def]
    simp only [if_pos, hq.1 e hmem, hc]
  | none =>
    have hnot : ∀ e ∈ escapes q, ¬ e.1 = c := by simpa using hfind
    have hbackslash : ¬ c = Char.ofNat 92 := fun h => hnot (Char.ofNat 92, Char.ofNat 92) List.mem_cons_self h.symm
    have hpass : ¬ stop c = true := by
      intro h
      obtain ⟨e, he, heq⟩ := List.mem_map.1 (hstop c h)
      exact hnot e he heq
    change readEscapedUntil q stop (c :: input) = _
    rw [readEscapedUntil.eq_def]
    simp only [if_neg hbackslash, if_neg hpass]

theorem readEscapedUntil_flatMap (hq : IsQuote q) (hstop : ∀ c, stop c = true → c ∈ (escapes q).map Prod.fst)
    (s : List Char) {d : Char} (hd : stop d = true) (hslash : d ≠ Char.ofNat 92) (rest : List Char) :
    readEscapedUntil q stop (s.flatMap (escapeChar q) ++ d :: rest) = (s, d :: rest) := by
  induction s with
  | nil =>
    change readEscapedUntil q stop (d :: rest) = _
    rw [readEscapedUntil.eq_def]
    simp only [if_neg hslash, if_pos hd]
  | cons c s ih => rw [List.flatMap_cons, List.append_assoc, readEscapedUntil_escapeChar hq hstop, ih]

theorem takes_escapedUntil (hq : IsQuote q) (hstop : ∀ c, stop c = true → c ∈ (escapes q).map Prod.fst)
    (s : String) {d : Char} (hd : stop d = true) (hslash : d ≠ Char.ofNat 92) (rest : List Char) :
    Takes (escapedUntil q stop) (escaped q s).toList s (d :: rest) := by
  unfold Takes escaped
  change Except.ok (String.ofList (readEscapedUntil q stop _).1, (readEscapedUntil q stop _).2) = _
  rw [String.toList_ofList, readEscapedUntil_flatMap hq hstop s.toList hd hslash, String.ofList_toList]

theorem takes_quoted (hq : IsQuote q) (s : String) (rest : List Char) :
    Takes (readQuotedText q) (quoted q s).toList s rest := by
  unfold quoted
  rw [String.toList_append, String.toList_append, List.append_assoc]
  refine (Takes.assertString (quote q) _).bind ?_
  refine Takes.bind ?_ ((Takes.assertString (quote q) rest).bind_nil (Takes.pure s rest))
  have hquote : (quote q).toList = [q] := String.toList_singleton _
  rw [hquote]
  refine takes_escapedUntil hq ?_ s (decide_eq_true rfl) hq.2.1 rest
  intro c hc
  obtain rfl : c = q := of_decide_eq_true hc
  simp [escapes]

theorem takes_quotedStrings (hq : IsQuote q) (l : List String) (rest : List Char) :
    Takes (readQuotedStringsText q) (quotedStrings q l).toList l rest := by
  unfold quotedStrings
  rw [String.toList_append, String.toList_append, List.append_assoc, String.toList_intercalate, List.map_map]
  refine (Takes.assertString "[" _).bind ?_
  cases l with
  | nil =>
    refine Takes.bind_nil (a := true) (Takes.checkString "]" rest) ?_
    exact Takes.pure [] rest
  | cons s l =>
    have hclose : ("]".toList ++ rest).head? = some ']' := rfl
    -- a quoted string does not start like the end of the list
    have hopen : Takes (checkString "]") [] false
        ((",".toList.intercalate ((s :: l).map (String.toList ∘ quoted q)) ++ "]".toList) ++ rest) := by
      refine Takes.checkString_ne (by decide) ?_
      have hhead : (",".toList.intercalate ((s :: l).map (String.toList ∘ quoted q)) ++ "]".toList ++ rest).head? =
          some q := by
        cases l with
        | nil => simp [quoted, quote]
        | cons t l => simp [quoted, quote, List.intercalate_cons_cons]
      rw [hhead]
      intro heq
      exact hq.2.2 (Option.some.inj heq).symm
    refine Takes.nil_bind hopen ?_
    refine Takes.bind (a := s :: l) (Takes.withFuel fun fuel hfuel => ?_)
      ((Takes.assertString "]" rest).bind_nil (Takes.pure _ rest))
    have hlength := length_le_intercalate (show ",".toList ≠ [] by simp) ((s :: l).map (String.toList ∘ quoted q))
    have hlen : ("]".toList ++ rest).length = rest.length + 1 := by simp
    rw [List.length_append, hlen] at hfuel
    rw [List.length_map] at hlength
    exact Takes.readSeparated (by decide) (by rw [hclose]; decide) (fun s _ tail _ => takes_quoted hq s tail)
      (List.cons_ne_nil s l) (by omega) []

/-! ## Digits -/

/-- The last `width` digits of `n`. -/
def fixedDigits (base : ℕ) : ℕ → ℕ → List Char
  | 0, _ => []
  | width + 1, n => fixedDigits base width (n / base) ++ [Nat.digitChar (n % base)]

def digitValue (c : Char) : ℕ := if c.isDigit then c.toNat - 48 else c.toNat - 87

def readFixed (base width : ℕ) : TextReader ℕ := do
  let s ← readStrict width
  return s.toList.foldl (fun n c => n * base + digitValue c) 0

theorem length_fixedDigits (base width n : ℕ) : (fixedDigits base width n).length = width := by
  induction width generalizing n with
  | zero => rfl
  | succ width ih => rw [fixedDigits, List.length_append, ih, List.length_singleton]

theorem digitValue_digitChar {d : ℕ} (hd : d < 16) : digitValue (Nat.digitChar d) = d := by
  have hall : ∀ d < 16, digitValue (Nat.digitChar d) = d := by decide
  exact hall d hd

theorem foldl_fixedDigits {base : ℕ} (hbase : 0 < base ∧ base ≤ 16) {width n : ℕ} (hn : n < base ^ width) :
    (fixedDigits base width n).foldl (fun n c => n * base + digitValue c) 0 = n := by
  induction width generalizing n with
  | zero =>
    rw [Nat.pow_zero] at hn
    change 0 = n
    omega
  | succ width ih =>
    have hdiv : n / base < base ^ width := Nat.div_lt_of_lt_mul (by rwa [Nat.mul_comm, ← Nat.pow_succ])
    have hdigit : n % base < 16 := (Nat.mod_lt n hbase.1).trans_le hbase.2
    rw [fixedDigits, List.foldl_append, ih hdiv, List.foldl_cons, List.foldl_nil, digitValue_digitChar hdigit]
    exact Nat.div_add_mod' n base

def fixedText (base width n : ℕ) : String := String.ofList (fixedDigits base width n)

theorem takes_fixed {base : ℕ} (hbase : 0 < base ∧ base ≤ 16) {width n : ℕ} (hn : n < base ^ width)
    (rest : List Char) : Takes (readFixed base width) (fixedText base width n).toList n rest := by
  have hread := Takes.readStrict (fixedText base width n) rest
  have hvalue := foldl_fixedDigits hbase hn
  unfold fixedText at hread ⊢
  rw [String.toList_ofList, length_fixedDigits] at hread
  rw [String.toList_ofList]
  refine hread.bind_nil ?_
  rw [String.toList_ofList, hvalue]
  exact Takes.pure n rest

/-- A flag is one digit. -/
def flagText (b : Bool) : String := if b then "1" else "0"

def readFlagText : TextReader Bool := do
  if ← checkString "1" then return true
  else
    assertString "0"
    return false

theorem takes_flagText (b : Bool) (rest : List Char) : Takes readFlagText (flagText b).toList b rest := by
  cases b with
  | true => exact (Takes.checkString "1" rest).bind_nil (Takes.pure true rest)
  | false =>
    have hdigit : "1".toList.head? ≠ ("0".toList ++ rest).head? := by
      change some '1' ≠ some '0'
      decide
    refine Takes.nil_bind (Takes.checkString_ne (by decide) hdigit) ?_
    exact (Takes.assertString "0" rest).bind_nil (Takes.pure false rest)

end PlainText
