import MergeTree.Lib.ComparisonSort

/-!
# Ordered sets with a comparator that may throw

An ordered set finds the place of a new element by comparing it with elements that it holds. Which ones is up to the
implementation; the place follows from the answers.

* `ComparisonSet.insert_spec`: if every comparison answers by a key, the element is put at its place, once.
* `ComparisonSet.insertAll_spec`: the same for the elements of a range, one after another.
-/

namespace MergeTree

/-- **The search of an ordered set**, among `n` elements in ascending order: the place of the new element, which is
`none` here, or nothing if an equivalent element is there. -/
structure ComparisonSet where
  search : (n : ℕ) → Comparisons (Option (Fin n)) (Option ℕ)
  lawful : ∀ {n : ℕ} {κ : Type} [LinearOrder κ] (keys : Fin n → κ) (new : κ), StrictMono keys →
    match (search n).eval fun i j => decide (i.elim new keys < j.elim new keys) with
    | none => ∃ i, keys i = new
    | some place => place ≤ n ∧ ∀ i : Fin n, (i.val < place → keys i < new) ∧ (place ≤ i.val → new < keys i)

namespace ComparisonSet

variable {α κ ε : Type} (set : ComparisonSet)

/-- The elements after an insertion, or the exception of a comparison. -/
def insert (less : α → α → Except ε Bool) (l : List α) (a : α) : Except ε (List α) :=
  ((set.search l.length).run fun i j => less (i.elim a l.get) (j.elim a l.get)).map fun place =>
    match place with
    | none => l
    | some place => l.take place ++ a :: l.drop place

/-- `insert` of a range. -/
def insertAll (less : α → α → Except ε Bool) (l as : List α) : Except ε (List α) := as.foldlM (set.insert less) l

variable [LinearOrder κ] {key : α → κ} {less : α → α → Except ε Bool}

/-- **An insertion**, if the comparisons answer by the keys and equivalent elements are equal. -/
theorem insert_spec (hkey : Function.Injective key) {l : List α} {a : α} (hl : l.Pairwise fun x y => key x < key y)
    (hless : ∀ x ∈ a :: l, ∀ y ∈ a :: l, less x y = .ok (decide (key x < key y))) :
    ∃ l', set.insert less l a = .ok l' ∧ (l'.Pairwise fun x y => key x < key y) ∧ ∀ x, x ∈ l' ↔ x ∈ l ∨ x = a := by
  have hmem : ∀ i : Option (Fin l.length), i.elim a l.get ∈ a :: l := by
    rintro (_ | i)
    · exact List.mem_cons_self
    · exact List.mem_cons_of_mem _ (List.get_mem l i)
  have hmono : StrictMono fun i => key (l.get i) := fun i j hij => List.pairwise_iff_get.1 hl i j hij
  have hlaw := set.lawful (fun i => key (l.get i)) (key a) hmono
  have hanswers : (fun i j : Option (Fin l.length) => decide (key (i.elim a l.get) < key (j.elim a l.get))) =
      fun i j => decide (i.elim (key a) (fun i => key (l.get i)) < j.elim (key a) fun i => key (l.get i)) := by
    funext i j
    cases i <;> cases j <;> rfl
  unfold insert
  rw [@Comparisons.run_of_ok _ _ _ _ (fun i j : Option (Fin l.length) => decide (key (i.elim a l.get) < key (j.elim a l.get)))
    fun i j => hless _ (hmem i) _ (hmem j), hanswers]
  split at hlaw
  · rename_i hnone
    obtain ⟨i, hi⟩ := hlaw
    rw [hnone]
    refine ⟨l, rfl, hl, fun x => ⟨Or.inl, ?_⟩⟩
    rintro (hx | rfl)
    · exact hx
    · exact hkey hi ▸ List.get_mem l i
  · rename_i place hsome
    obtain ⟨hplace, hsides⟩ := hlaw
    rw [hsome]
    refine ⟨_, rfl, ?_, fun x => ?_⟩
    · rw [List.pairwise_append, List.pairwise_cons]
      have hbefore : ∀ x ∈ l.take place, key x < key a := by
        intro x hx
        obtain ⟨i, hi, rfl⟩ := List.mem_take_iff_getElem.1 hx
        exact (hsides ⟨i, by omega⟩).1 (by simp only; omega)
      have hafter : ∀ x ∈ l.drop place, key a < key x := by
        intro x hx
        obtain ⟨i, hi, rfl⟩ := List.mem_drop_iff_getElem.1 hx
        exact (hsides ⟨place + i, by omega⟩).2 (by simp)
      refine ⟨hl.sublist (List.take_sublist _ _), ⟨hafter, hl.sublist (List.drop_sublist _ _)⟩, fun x hx y hy => ?_⟩
      rcases List.mem_cons.1 hy with rfl | hy
      · exact hbefore x hx
      · exact (hbefore x hx).trans (hafter y hy)
    · have hall : x ∈ l.take place ++ l.drop place ↔ x ∈ l := by rw [List.take_append_drop]
      rw [← hall, List.mem_append, List.mem_append, List.mem_cons]
      tauto

/-- **The insertion of a range.** -/
theorem insertAll_spec (hkey : Function.Injective key) {as l : List α} (hl : l.Pairwise fun x y => key x < key y)
    (hless : ∀ x ∈ l ++ as, ∀ y ∈ l ++ as, less x y = .ok (decide (key x < key y))) :
    ∃ l', set.insertAll less l as = .ok l' ∧ (l'.Pairwise fun x y => key x < key y) ∧ ∀ x, x ∈ l' ↔ x ∈ l ∨ x ∈ as := by
  induction as generalizing l with
  | nil => exact ⟨l, rfl, hl, by simp⟩
  | cons a as ih =>
    have hsub : ∀ x ∈ a :: l, x ∈ l ++ a :: as := fun x hx => by
      rcases List.mem_cons.1 hx with rfl | hx <;> simp [*]
    obtain ⟨inserted, hinserted, hsorted, hmem⟩ :=
      set.insert_spec hkey hl fun x hx y hy => hless x (hsub x hx) y (hsub y hy)
    have hsub' : ∀ x ∈ inserted ++ as, x ∈ l ++ a :: as := by
      intro x hx
      rcases List.mem_append.1 hx with hx | hx
      · exact hsub x (List.mem_cons.2 ((hmem x).1 hx).symm)
      · simp [hx]
    obtain ⟨l', hl', hsorted', hmem'⟩ := ih hsorted fun x hx y hy => hless x (hsub' x hx) y (hsub' y hy)
    refine ⟨l', ?_, hsorted', fun x => ?_⟩
    · unfold insertAll at hl' ⊢
      rw [List.foldlM_cons, hinserted]
      exact hl'
    · rw [hmem', hmem, List.mem_cons, or_assoc]

/-- The search from the beginning on. -/
def scan {n : ℕ} : List (Fin n) → Comparisons (Option (Fin n)) (Option ℕ)
  | [] => .done (some n)
  | i :: rest => .compare (some i) none fun less =>
      if less then scan rest else .compare none (some i) fun greater => .done (if greater then some i.val else none)

/-- An ordered set that searches from its beginning on, an instance for concrete inputs. -/
def linear : ComparisonSet where
  search n := scan (List.finRange n)
  lawful := by
    intro n κ _ keys new hmono
    have hscan : ∀ (l : List (Fin n)) (k : ℕ), l.map Fin.val = List.range' k l.length → k + l.length = n →
        (∀ i : Fin n, i.val < k → keys i < new) →
        match (scan l).eval fun i j => decide (i.elim new keys < j.elim new keys) with
        | none => ∃ i, keys i = new
        | some place => place ≤ n ∧ ∀ i : Fin n, (i.val < place → keys i < new) ∧ (place ≤ i.val → new < keys i) := by
      intro l
      induction l with
      | nil =>
        intro k _ hk hbelow
        exact ⟨le_rfl, fun i => ⟨fun _ => hbelow i (by simp only [List.length_nil] at hk; omega), fun hi => absurd i.isLt hi.not_gt⟩⟩
      | cons i rest ih =>
        intro k hvals hk hbelow
        rw [List.map_cons, List.length_cons, List.range'_succ, List.cons.injEq] at hvals
        obtain ⟨rfl, hvals⟩ := hvals
        unfold scan Comparisons.eval
        simp only [Option.elim_some, Option.elim_none]
        by_cases hless : keys i < new
        · simp only [hless, decide_true, if_true]
          refine ih (i.val + 1) hvals (by rw [List.length_cons] at hk; omega) fun j hj => ?_
          rcases (Nat.lt_succ_iff.1 hj).eq_or_lt with heq | hlt
          · rwa [Fin.ext heq]
          · exact hbelow j hlt
        · simp only [hless, decide_false, Bool.false_eq_true, if_false, Comparisons.eval, Option.elim_some, Option.elim_none]
          by_cases hgreater : new < keys i
          · simp only [hgreater, decide_true, if_true]
            exact ⟨i.isLt.le, fun j => ⟨hbelow j, fun hj => hgreater.trans_le (hmono.monotone hj)⟩⟩
          · simp only [hgreater, decide_false, Bool.false_eq_true, if_false]
            exact ⟨i, le_antisymm (not_lt.1 hgreater) (not_lt.1 hless)⟩
    refine hscan _ 0 ?_ (by simp) fun i hi => absurd hi (Nat.not_lt_zero _)
    simp [List.range_eq_range']

end ComparisonSet

end MergeTree
