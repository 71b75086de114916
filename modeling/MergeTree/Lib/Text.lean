import Mathlib

/-!
# Reading text that was written

A text reader takes a value off the front of a text, or throws. `Takes r text a rest` says
that in front of `rest` it consumes exactly `text` and yields `a`: a reader may look at what
follows, so the rest is a part of the statement.

* `Takes.bind` and its relatives follow the steps of a reader.
* `assertString`, `checkString` and `takeUntil` are the readers of literal text, of an
  optional literal and of a word.
-/

variable {α β : Type}

/-- **A reader of text.** -/
abbrev TextReader (α : Type) : Type := StateT (List Char) (Except String) α

/-- In front of `rest`, the reader consumes exactly `text` and yields `a`. -/
def Takes (r : TextReader α) (text : List Char) (a : α) (rest : List Char) : Prop :=
  r.run (text ++ rest) = .ok (a, rest)

variable {text rest : List Char} {r : TextReader α} {f : α → TextReader β}

namespace Takes

theorem pure (a : α) (rest : List Char) : Takes (pure a) [] a rest := rfl

theorem bind {text text' rest : List Char} {a : α} {b : β}
    (hr : Takes r text a (text' ++ rest)) (hf : Takes (f a) text' b rest) :
    Takes (r >>= f) (text ++ text') b rest := by
  unfold Takes at *
  rw [StateT.run_bind, List.append_assoc, hr]
  exact hf

theorem nil_bind {a : α} {b : β}
    (hr : Takes r [] a (text ++ rest)) (hf : Takes (f a) text b rest) : Takes (r >>= f) text b rest := by
  have h := hr.bind hf
  rw [List.nil_append] at h
  exact h

theorem bind_nil {a : α} {b : β} (hr : Takes r text a rest) (hf : Takes (f a) [] b rest) : Takes (r >>= f) text b rest := by
  have h : Takes (r >>= f) (text ++ []) b rest := Takes.bind hr hf
  rw [List.append_nil] at h
  exact h

theorem bind_pure {f : α → β} {a : α} (hr : Takes r text a rest) :
    Takes (r >>= fun a => Pure.pure (f a)) text (f a) rest :=
  hr.bind_nil (Takes.pure (f a) rest)

end Takes

namespace TextReader

/-- Whether the text is over. -/
def eof : TextReader Bool := fun input => .ok (input.isEmpty, input)

/-- Skips the text of a literal, and throws on any other. -/
def assertString (s : String) : TextReader Unit := fun input =>
  if s.toList <+: input then .ok ((), input.drop s.toList.length)
  else .error s!"Cannot parse input: expected {s}"

/-- Skips the characters of `s` while the input has them, and says whether it had them all.
What matched is consumed even when the rest does not match. -/
def checkChars : List Char → List Char → Bool × List Char
  | [], input => (true, input)
  | _ :: _, [] => (false, [])
  | c :: s, d :: input => if d = c then checkChars s input else (false, d :: input)

/-- An optional literal. -/
def checkString (s : String) : TextReader Bool := fun input => .ok (checkChars s.toList input)

/-- The text up to the first character that `stop` holds of, or to the end. -/
def takeUntil (stop : Char → Bool) : TextReader String := fun input =>
  .ok (String.ofList (input.takeWhile fun c => !stop c), input.dropWhile fun c => !stop c)

/-- A loop with more rounds than the text has characters: each round consumes at least one, so
the rounds never run out. -/
def withFuel (loop : ℕ → TextReader α) : TextReader α := fun input => loop (input.length + 1) input

/-- Optional lines: each starts with a newline, and the first text after a newline that is none
of them is left to the caller. -/
def readOptions {σ : Type} (option : σ → TextReader (Option σ)) : ℕ → σ → TextReader σ
  | 0, _ => throw "Too many rounds"
  | fuel + 1, s => do
    assertString "\n"
    match ← option s with
    | some s => readOptions option fuel s
    | none => return s

/-- Items with a separator between them, after those already read. -/
def readSeparated (separator : String) (item : TextReader α) : ℕ → List α → TextReader (List α)
  | 0, _ => throw "Too many rounds"
  | fuel + 1, items => do
    let a ← item
    if ← checkString separator then readSeparated separator item fuel (items ++ [a]) else return items ++ [a]

/-- Exactly `n` characters. -/
def readStrict (n : ℕ) : TextReader String := fun input =>
  if input.length < n then .error "Cannot read all data" else .ok (String.ofList (input.take n), input.drop n)

end TextReader

open TextReader

theorem Takes.eof_nil : Takes eof [] true [] := rfl

theorem Takes.eof_cons (c : Char) (rest : List Char) : Takes eof [] false (c :: rest) := rfl

theorem Takes.assertString (s : String) (rest : List Char) : Takes (assertString s) s.toList () rest := by
  unfold Takes
  change (if s.toList <+: s.toList ++ rest then _ else _) = _
  rw [if_pos (List.prefix_append _ _), List.drop_left]

theorem checkChars_append (s rest : List Char) : checkChars s (s ++ rest) = (true, rest) := by
  induction s with
  | nil => rfl
  | cons c s ih => rw [List.cons_append, checkChars, if_pos rfl, ih]

theorem Takes.checkString (s : String) (rest : List Char) : Takes (checkString s) s.toList true rest := by
  unfold Takes
  change Except.ok (checkChars s.toList (s.toList ++ rest)) = _
  rw [checkChars_append]

theorem Takes.checkString_ne {s : String} (h : s.toList ≠ [])
    (hne : s.toList.head? ≠ rest.head?) : Takes (TextReader.checkString s) [] false rest := by
  unfold Takes
  change Except.ok (checkChars s.toList ([] ++ rest)) = _
  rw [List.nil_append]
  cases hs : s.toList with
  | nil => exact absurd hs h
  | cons c cs =>
    cases rest with
    | nil => rfl
    | cons d rest =>
      have hd : d ≠ c := by
        rintro rfl
        exact hne (by rw [hs]; rfl)
      rw [checkChars, if_neg hd]

theorem Takes.takeUntil {stop : Char → Bool} {s : String} (hs : ∀ c ∈ s.toList, stop c = false)
    (hrest : ∀ c ∈ rest.head?, stop c = true) : Takes (takeUntil stop) s.toList s rest := by
  have hpass : ∀ c ∈ s.toList, (!stop c) = true := by
    intro c hc
    rw [hs c hc]
    rfl
  unfold Takes
  change Except.ok (String.ofList ((s.toList ++ rest).takeWhile _), (s.toList ++ rest).dropWhile _) = _
  rw [List.takeWhile_append_of_pos hpass, List.dropWhile_append_of_pos hpass]
  cases rest with
  | nil => simp
  | cons d rest =>
    have hd := hrest d rfl
    simp [hd]

theorem Takes.readStrict (s : String) (rest : List Char) :
    Takes (readStrict s.toList.length) s.toList s rest := by
  unfold Takes
  change (if (s.toList ++ rest).length < s.toList.length then _ else _) = _
  rw [if_neg (by simp), List.take_left, List.drop_left, String.ofList_toList]

theorem Takes.withFuel {loop : ℕ → TextReader α} {a : α}
    (h : ∀ fuel, (text ++ rest).length < fuel → Takes (loop fuel) text a rest) :
    Takes (withFuel loop) text a rest :=
  h _ (Nat.lt_succ_self _)

theorem exists_newline {ω : Type} (text : ω → List Char) (os : List ω) (rest : List Char) :
    ∃ tail, os.flatMap (fun o => "\n".toList ++ text o) ++ ("\n".toList ++ rest) = "\n".toList ++ tail := by
  cases os with
  | nil => exact ⟨rest, rfl⟩
  | cons o os =>
    refine ⟨text o ++ (os.flatMap (fun o => "\n".toList ++ text o) ++ ("\n".toList ++ rest)), ?_⟩
    simp only [List.flatMap_cons, List.append_assoc]

/-- **The optional lines are read one after another.** Every option is followed by a newline, and
the text behind the last newline is none. -/
theorem Takes.readOptions {σ ω : Type} {option : σ → TextReader (Option σ)} {text : ω → List Char}
    {apply : σ → ω → σ} {os : List ω}
    (hoption : ∀ o ∈ os, ∀ s tail, Takes (option s) (text o) (some (apply s o)) ("\n".toList ++ tail))
    (hnone : ∀ s, Takes (option s) [] none rest) {fuel : ℕ} (hfuel : os.length < fuel) (s : σ) :
    Takes (readOptions option fuel s) (os.flatMap (fun o => "\n".toList ++ text o) ++ "\n".toList)
      (os.foldl apply s) rest := by
  induction os generalizing fuel s with
  | nil =>
    obtain ⟨fuel, rfl⟩ := Nat.exists_eq_succ_of_ne_zero (Nat.ne_of_gt hfuel)
    refine (Takes.assertString "\n" rest).bind_nil (Takes.nil_bind (hnone s) ?_)
    exact Takes.pure s rest
  | cons o os ih =>
    obtain ⟨fuel, rfl⟩ := Nat.exists_eq_succ_of_ne_zero (Nat.ne_of_gt (Nat.zero_lt_of_lt hfuel))
    have hrest := ih (fun o' ho' => hoption o' (List.mem_cons_of_mem o ho'))
      (Nat.lt_of_succ_lt_succ hfuel) (apply s o)
    -- whatever follows the option starts with the newline of the next round
    obtain ⟨tail, htail⟩ := exists_newline text os rest
    have hhead := hoption o List.mem_cons_self s tail
    rw [← htail, ← List.append_assoc] at hhead
    rw [List.flatMap_cons, List.append_assoc, List.append_assoc]
    exact (Takes.assertString "\n" _).bind (hhead.bind hrest)

/-- Items that are not empty are at most as many as the characters of their text. -/
theorem length_le_flatMap {text : α → List Char} {as : List α} (h : ∀ a ∈ as, text a ≠ []) :
    as.length ≤ (as.flatMap text).length := by
  induction as with
  | nil => exact Nat.zero_le _
  | cons a as ih =>
    have hrest := ih fun b hb => h b (List.mem_cons_of_mem a hb)
    have hpos := List.length_pos_iff.2 (h a List.mem_cons_self)
    rw [List.length_cons, List.flatMap_cons, List.length_append]
    omega

/-- Separated items are at most one more than the separators between them. -/
theorem length_le_intercalate {separator : List Char} (h : separator ≠ []) (texts : List (List Char)) :
    texts.length ≤ (separator.intercalate texts).length + 1 := by
  induction texts with
  | nil => exact Nat.zero_le _
  | cons text texts ih =>
    have hpos := List.length_pos_iff.2 h
    cases texts with
    | nil => exact Nat.le_add_left 1 _
    | cons text' texts =>
      rw [List.intercalate_cons_cons]
      simp only [List.length_append, List.length_cons] at ih ⊢
      omega

theorem Takes.check_here {s : String} {yes no : TextReader α} {a : α} (h : Takes yes text a rest) :
    Takes (TextReader.checkString s >>= fun found => if found = true then yes else no) (s.toList ++ text) a rest :=
  (Takes.checkString s _).bind h

theorem Takes.check_skip {s t : String} {yes no : TextReader α} {a : α}
    (hst : s.toList ≠ [] ∧ t.toList ≠ [] ∧ s.toList.head? ≠ t.toList.head?)
    (h : Takes no (t.toList ++ text) a rest) :
    Takes (TextReader.checkString s >>= fun found => if found = true then yes else no) (t.toList ++ text) a rest := by
  refine Takes.nil_bind (Takes.checkString_ne hst.1 ?_) h
  rw [List.append_assoc, List.head?_append_of_ne_nil _ hst.2.1]
  exact hst.2.2

/-- **Separated items are read one after another**, up to a text that starts differently. -/
theorem Takes.readSeparated {separator : String} {item : TextReader α} {text : α → List Char} {as : List α} (hseparator : separator.toList ≠ []) (hrest : separator.toList.head? ≠ rest.head?)
    (hitem : ∀ a ∈ as, ∀ tail, tail = rest ∨ (∃ t, tail = separator.toList ++ t) → Takes item (text a) a tail)
    (hne : as ≠ []) {fuel : ℕ} (hfuel : as.length ≤ fuel) (before : List α) :
    Takes (readSeparated separator item fuel before) (separator.toList.intercalate (as.map text)) (before ++ as) rest := by
  induction as generalizing fuel before with
  | nil => exact absurd rfl hne
  | cons a as ih =>
    obtain ⟨fuel, rfl⟩ := Nat.exists_eq_succ_of_ne_zero (Nat.ne_of_gt (Nat.zero_lt_of_lt hfuel))
    cases as with
    | nil =>
      -- no separator follows the last item
      have hlast := hitem a List.mem_cons_self rest (Or.inl rfl)
      rw [List.map_singleton, List.intercalate_singleton]
      refine hlast.bind_nil (Takes.nil_bind (Takes.checkString_ne hseparator hrest) ?_)
      exact Takes.pure _ rest
    | cons a' as =>
      have hmore := ih (fun b hb => hitem b (List.mem_cons_of_mem a hb)) (List.cons_ne_nil a' as)
        (Nat.le_of_succ_le_succ hfuel) (before ++ [a])
      rw [List.append_assoc, List.singleton_append] at hmore
      rw [List.map_cons, List.map_cons, List.intercalate_cons_cons, List.append_assoc]
      have hfirst := hitem a List.mem_cons_self
        (separator.toList ++ separator.toList.intercalate (text a' :: as.map text) ++ rest)
        (Or.inr ⟨_, List.append_assoc _ _ _⟩)
      refine hfirst.bind ?_
      exact (Takes.checkString separator _).bind hmore
