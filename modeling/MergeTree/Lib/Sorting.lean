import Mathlib

/-!
# Sorting with an unspecified algorithm

A sort that need not be stable is known by its law only: when the comparator orders the
elements by a key, the result is a permutation in ascending order of keys. What comes
first among equal keys is up to the algorithm.
-/

namespace MergeTree

/-- **A sort**, `std::sort`: elements with equal keys may come in any order. -/
structure StdSort where
  sort : {α : Type} → (less : α → α → Bool) → List α → List α
  lawful : ∀ {α κ : Type} [LinearOrder κ] (less : α → α → Bool) (key : α → κ) (l : List α),
    (∀ a ∈ l, ∀ b ∈ l, less a b = decide (key a < key b)) →
      (sort less l).Perm l ∧ (sort less l).Pairwise fun a b => key a ≤ key b

namespace StdSort

variable {α κ : Type} [LinearOrder κ] {less : α → α → Bool} {key : α → κ} {l : List α}

theorem perm (std : StdSort) (h : ∀ a ∈ l, ∀ b ∈ l, less a b = decide (key a < key b)) :
    (std.sort less l).Perm l :=
  (std.lawful less key l h).1

theorem sorted (std : StdSort) (h : ∀ a ∈ l, ∀ b ∈ l, less a b = decide (key a < key b)) :
    (std.sort less l).Pairwise fun a b => key a ≤ key b :=
  (std.lawful less key l h).2

omit [LinearOrder κ] in
/-- Insertion only looks at how the new element compares with the others. -/
theorem orderedInsert_congr {r s : α → α → Prop} [DecidableRel r] [DecidableRel s] {a : α} :
    ∀ {l : List α}, (∀ b ∈ l, r a b ↔ s a b) → l.orderedInsert r a = l.orderedInsert s a := by
  intro l
  induction l with
  | nil => intro _; rfl
  | cons b l ih =>
    intro h
    have hb := h b List.mem_cons_self
    rw [List.orderedInsert_cons, List.orderedInsert_cons, ih fun c hc => h c (List.mem_cons_of_mem _ hc)]
    simp only [hb]

omit [LinearOrder κ] in
theorem insertionSort_congr {r s : α → α → Prop} [DecidableRel r] [DecidableRel s] :
    ∀ {l : List α}, (∀ a ∈ l, ∀ b ∈ l, r a b ↔ s a b) → l.insertionSort r = l.insertionSort s := by
  intro l
  induction l with
  | nil => intro _; rfl
  | cons a l ih =>
    intro h
    have hl := ih fun b hb c hc => h b (List.mem_cons_of_mem _ hb) c (List.mem_cons_of_mem _ hc)
    rw [List.insertionSort_cons, List.insertionSort_cons, hl]
    refine orderedInsert_congr ?_
    intro b hb
    exact h a List.mem_cons_self b (List.mem_cons_of_mem _ ((List.mem_insertionSort s).1 hb))

/-- Insertion sort, an instance for concrete inputs. -/
def insertion : StdSort where
  sort less l := l.insertionSort fun a b => less b a = false
  lawful := by
    intro α κ _ less key l h
    have hcongr : l.insertionSort (fun a b => less b a = false) = l.insertionSort (fun a b => key a ≤ key b) := by
      refine insertionSort_congr ?_
      intro a ha b hb
      rw [h b hb a ha, decide_eq_false_iff_not, not_lt]
    rw [hcongr]
    have : Std.Total fun a b : α => key a ≤ key b := ⟨fun a b => le_total (key a) (key b)⟩
    have : IsTrans α fun a b => key a ≤ key b := ⟨fun _ _ _ hab hbc => le_trans hab hbc⟩
    exact ⟨List.perm_insertionSort _ l, List.pairwise_insertionSort _ l⟩

end StdSort

end MergeTree
