import Mathlib

/-!
# Sorting with a comparator that may throw

A sort that only compares elements is the tree of its comparisons: what it compares next depends on the
answers so far. The law of such a sort speaks of comparators that never throw. What a comparator that may
throw leads to follows from it.

* `ComparisonSort.sort_eq_ok`: a sort that returns has sorted.
* `ComparisonSort.exists_compared`: it has compared any two neighbours, since with the two exchanged it
  would have run the same way.
-/

namespace MergeTree

/-- The comparisons of an algorithm, and its result after their answers. -/
inductive Comparisons (ι ρ : Type) where
  | done (result : ρ)
  | compare (i j : ι) (next : Bool → Comparisons ι ρ)

namespace Comparisons

variable {ι ρ σ ε : Type}

/-- The run with a comparator that may throw. -/
def run (less : ι → ι → Except ε Bool) : Comparisons ι ρ → Except ε ρ
  | done result => .ok result
  | compare i j next =>
    match less i j with
    | .ok answer => (next answer).run less
    | .error e => .error e

/-- The run with a comparator that always answers. -/
def eval (less : ι → ι → Bool) : Comparisons ι ρ → ρ
  | done result => result
  | compare i j next => (next (less i j)).eval less

/-- One algorithm after another. -/
def bind (next : ρ → Comparisons ι σ) : Comparisons ι ρ → Comparisons ι σ
  | done result => next result
  | compare i j rest => compare i j fun answer => (rest answer).bind next

theorem eval_bind (less : ι → ι → Bool) (next : ρ → Comparisons ι σ) (t : Comparisons ι ρ) :
    (t.bind next).eval less = (next (t.eval less)).eval less := by
  induction t with
  | done result => rfl
  | compare i j rest ih => exact ih (less i j)

/-- A run that does not throw got the answers of any comparator that agrees with those given. -/
theorem eval_eq_of_run {less : ι → ι → Except ε Bool} {answers : ι → ι → Bool}
    (hless : ∀ i j v, less i j = .ok v → v = answers i j) {t : Comparisons ι ρ} {result : ρ} (h : t.run less = .ok result) :
    t.eval answers = result := by
  induction t with
  | done r => exact Except.ok.inj h
  | compare i j next ih =>
    unfold run at h
    split at h
    · rename_i v hv
      have hanswer := hless i j v hv
      subst hanswer
      exact ih _ h
    · cases h

theorem run_of_ok {less : ι → ι → Except ε Bool} {answers : ι → ι → Bool} (hless : ∀ i j, less i j = .ok (answers i j))
    (t : Comparisons ι ρ) : t.run less = .ok (t.eval answers) := by
  induction t with
  | done result => rfl
  | compare i j next ih =>
    unfold run
    rw [hless i j]
    exact ih (answers i j)

/-- Insertion into a sorted list. -/
def insert (i : ι) : List ι → Comparisons ι (List ι)
  | [] => done [i]
  | j :: rest =>
    compare j i fun answer => if answer then (insert i rest).bind fun sorted => done (j :: sorted) else done (i :: j :: rest)

/-- Insertion sort. -/
def insertionSort : List ι → Comparisons ι (List ι)
  | [] => done []
  | i :: rest => (insertionSort rest).bind (insert i)

theorem eval_insert (less : ι → ι → Bool) (i : ι) (l : List ι) :
    (insert i l).eval less = l.orderedInsert (fun a b => less b a = false) i := by
  induction l with
  | nil => rfl
  | cons j rest ih =>
    rw [List.orderedInsert_cons]
    unfold insert eval
    by_cases h : less j i = false
    · simp only [h, Bool.false_eq_true, if_false, if_true]
      rfl
    · simp only [Bool.not_eq_false] at h
      simp only [h, if_true, Bool.true_eq_false, if_false, eval_bind, ih]
      rfl

theorem eval_insertionSort (less : ι → ι → Bool) (l : List ι) :
    (insertionSort l).eval less = l.insertionSort fun a b => less b a = false := by
  induction l with
  | nil => rfl
  | cons i rest ih =>
    unfold insertionSort
    rw [eval_bind, eval_insert, ih, List.insertionSort_cons]

end Comparisons

/-- **A comparison sort**, for the positions of lists of each length: if the comparator orders the elements by a
key, the result has every position once, in ascending order of keys. -/
structure ComparisonSort where
  comparisons : (n : ℕ) → Comparisons (Fin n) (List (Fin n))
  lawful : ∀ {n : ℕ} {κ : Type} [LinearOrder κ] (key : Fin n → κ),
    ((comparisons n).eval fun i j => decide (key i < key j)).Perm (List.finRange n) ∧
      ((comparisons n).eval fun i j => decide (key i < key j)).Pairwise fun i j => key i ≤ key j

namespace ComparisonSort

variable {α κ ε : Type} (std : ComparisonSort) {less : α → α → Except ε Bool} {l sorted : List α}

/-- The sorted list, or the exception of a comparison. -/
def sort (less : α → α → Except ε Bool) (l : List α) : Except ε (List α) :=
  ((std.comparisons l.length).run fun i j => less (l.get i) (l.get j)).map fun positions => positions.map l.get

theorem map_get_perm {positions : List (Fin l.length)} (h : positions.Perm (List.finRange l.length)) : (positions.map l.get).Perm l := by
  have hmap := h.map l.get
  rwa [List.map_get_finRange] at hmap

variable [LinearOrder κ] {key : α → κ}

/-- **A sort that returns has sorted**, by any key that the answers go with. -/
theorem sort_eq_ok (hless : ∀ a ∈ l, ∀ b ∈ l, ∀ v, less a b = .ok v → v = decide (key a < key b)) (h : std.sort less l = .ok sorted) :
    sorted.Perm l ∧ sorted.Pairwise fun a b => key a ≤ key b := by
  unfold sort at h
  cases hrun : (std.comparisons l.length).run fun i j => less (l.get i) (l.get j) with
  | error e =>
    rw [hrun] at h
    cases h
  | ok positions =>
    rw [hrun] at h
    obtain rfl : positions.map l.get = sorted := Except.ok.inj h
    have heval := @Comparisons.eval_eq_of_run _ _ _ _ (fun i j => decide (key (l.get i) < key (l.get j)))
      (fun i j v hv => hless _ (List.get_mem l i) _ (List.get_mem l j) v hv) _ _ hrun
    have hlawful := std.lawful fun i => key (l.get i)
    rw [heval] at hlawful
    exact ⟨map_get_perm hlawful.1, List.pairwise_map.2 hlawful.2⟩

theorem exists_sort_eq_ok (hless : ∀ a ∈ l, ∀ b ∈ l, less a b = .ok (decide (key a < key b))) : ∃ sorted, std.sort less l = .ok sorted := by
  unfold sort
  rw [@Comparisons.run_of_ok _ _ _ _ (fun i j => decide (key (l.get i) < key (l.get j)))
    (fun i j => hless _ (List.get_mem l i) _ (List.get_mem l j))]
  exact ⟨_, rfl⟩

theorem swap_lt_swap_iff {x y s t : κ} (hxy : x < y) (hs : s ≤ x ∨ y ≤ s) (ht : t ≤ x ∨ y ≤ t) (h : ¬ (s = x ∧ t = y))
    (h' : ¬ (s = y ∧ t = x)) : Equiv.swap x y s < Equiv.swap x y t ↔ s < t := by
  simp only [Equiv.swap_apply_def]
  split_ifs <;> grind

/-- **Neighbours have been compared**: some elements with the keys of `a` and `b`, if no key is between these. -/
theorem exists_compared (hless : ∀ a ∈ l, ∀ b ∈ l, ∀ v, less a b = .ok v → v = decide (key a < key b))
    (h : std.sort less l = .ok sorted) {a b : α} (ha : a ∈ l) (hb : b ∈ l) (hab : key a < key b)
    (hbetween : ∀ c ∈ l, key c ≤ key a ∨ key b ≤ key c) :
    ∃ c ∈ l, ∃ d ∈ l, key c = key a ∧ key d = key b ∧ ((∃ v, less c d = .ok v) ∨ ∃ v, less d c = .ok v) := by
  by_contra hnone
  have hperm := std.sort_eq_ok hless h
  -- With the two keys exchanged, every comparison that was made has the same answer.
  have hswap := std.sort_eq_ok (fun c hc d hd v hv => (hless c hc d hd v hv).trans (decide_eq_decide.2
    (swap_lt_swap_iff hab (hbetween c hc) (hbetween d hd)
      (fun hcd => hnone ⟨c, hc, d, hd, hcd.1, hcd.2, Or.inl ⟨v, hv⟩⟩)
      (fun hcd => hnone ⟨d, hd, c, hc, hcd.2, hcd.1, Or.inr ⟨v, hv⟩⟩)).symm)) h
  let R : α → α → Prop := fun c d => ¬ (key c = key a ∧ key d = key b) ∧ ¬ (key d = key a ∧ key c = key b)
  have hR : sorted.Pairwise R := by
    refine hperm.2.imp₂ (fun {c d} hcd hcd' => ⟨?_, ?_⟩) hswap.2
    · rintro ⟨hc, hd⟩
      rw [hc, hd, Equiv.swap_apply_left, Equiv.swap_apply_right] at hcd'
      exact absurd hab (not_lt.2 hcd')
    · rintro ⟨hd, hc⟩
      rw [hc, hd] at hcd
      exact absurd hab (not_lt.2 hcd)
  have : Std.Symm R := ⟨fun c d hcd => ⟨hcd.2, hcd.1⟩⟩
  have hne : a ≠ b := fun he => hab.ne (congrArg key he)
  exact (hR.forall (hperm.1.mem_iff.2 ha) (hperm.1.mem_iff.2 hb) hne).1 ⟨rfl, rfl⟩

/-- Insertion sort, an instance for concrete inputs. -/
def insertion : ComparisonSort where
  comparisons n := Comparisons.insertionSort (List.finRange n)
  lawful := by
    intro n κ _ key
    have hcongr : (Comparisons.insertionSort (List.finRange n)).eval (fun i j => decide (key i < key j)) =
        (List.finRange n).insertionSort fun i j => key i ≤ key j := by
      rw [Comparisons.eval_insertionSort]
      congr
      funext i j
      simp only [decide_eq_false_iff_not, not_lt]
    rw [hcongr]
    have : Std.Total fun i j : Fin n => key i ≤ key j := ⟨fun i j => le_total (key i) (key j)⟩
    have : IsTrans (Fin n) fun i j => key i ≤ key j := ⟨fun _ _ _ hij hjk => le_trans hij hjk⟩
    exact ⟨List.perm_insertionSort _ _, List.pairwise_insertionSort _ _⟩

end ComparisonSort

end MergeTree
