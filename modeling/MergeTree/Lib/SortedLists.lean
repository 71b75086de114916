import Mathlib

/-!
# Bounds and joins of sorted lists

* `findIdx_le_iff`: where the first element that passes a test is, if the elements after it pass too. This is what
  `std::lower_bound` and `std::upper_bound` find.
* `mergeJoin`: two iterators over lists that ascend by their keys find the pairs with equal keys.
-/

namespace SortedLists

variable {α β κ : Type*}

/-! ## Bounds -/

/-- Everything from the bound on passes the test, and nothing before it does. -/
theorem findIdx_le_iff {l : List α} {p : α → Bool} (h : l.Pairwise fun a b => p a = true → p b = true) {i : ℕ} {a : α}
    (ha : l[i]? = some a) : l.findIdx p ≤ i ↔ p a = true := by
  obtain ⟨hi, rfl⟩ := List.getElem?_eq_some_iff.1 ha
  constructor
  · intro hle
    have hlt : l.findIdx p < l.length := lt_of_le_of_lt hle hi
    have hfound : p l[l.findIdx p] = true := List.findIdx_getElem (w := hlt)
    rcases hle.eq_or_lt with heq | hlt'
    · simpa only [heq] using hfound
    · exact List.pairwise_iff_getElem.1 h _ _ hlt hi hlt' hfound
  · intro hp
    by_contra hlt
    have hnot := List.not_of_lt_findIdx (not_le.1 hlt)
    rw [hp] at hnot
    cases hnot

/-! ## The join by two iterators -/

section MergeJoin

variable [LinearOrder κ] (keyA : α → κ) (keyB : β → κ)

/-- The pairs with equal keys, found by two iterators. -/
def mergeJoin : List α → List β → List (α × β)
  | [], _ => []
  | _ :: _, [] => []
  | a :: as, b :: bs =>
    if keyB b < keyA a then mergeJoin (a :: as) bs
    else if keyA a < keyB b then mergeJoin as (b :: bs)
    else (a, b) :: mergeJoin as bs
termination_by as bs => as.length + bs.length

variable {keyA keyB} {as : List α} {bs : List β} {a : α} {b : β}

theorem mem_mergeJoin (hA : as.Pairwise fun x y => keyA x < keyA y) (hB : bs.Pairwise fun x y => keyB x < keyB y) :
    (a, b) ∈ mergeJoin keyA keyB as bs ↔ a ∈ as ∧ b ∈ bs ∧ keyA a = keyB b := by
  fun_induction mergeJoin keyA keyB as bs with
  | case1 => simp
  | case2 => simp
  | case3 x as y bs hlt ih =>
    rw [List.pairwise_cons] at hB
    rw [ih hA hB.2, List.mem_cons (b := y)]
    refine ⟨fun h => ⟨h.1, Or.inr h.2.1, h.2.2⟩, fun ⟨ha, hb, heq⟩ => ⟨ha, hb.resolve_left ?_, heq⟩⟩
    -- `y` is below every key that is left on the other side
    rintro rfl
    rcases List.mem_cons.1 ha with rfl | ha
    · exact hlt.ne heq.symm
    · exact (hlt.trans ((List.pairwise_cons.1 hA).1 a ha)).ne heq.symm
  | case4 x as y bs _ hlt ih =>
    rw [List.pairwise_cons] at hA
    rw [ih hA.2 hB, List.mem_cons (b := x)]
    refine ⟨fun h => ⟨Or.inr h.1, h.2⟩, fun ⟨ha, hb, heq⟩ => ⟨ha.resolve_left ?_, hb, heq⟩⟩
    rintro rfl
    rcases List.mem_cons.1 hb with rfl | hb
    · exact hlt.ne heq
    · exact (hlt.trans ((List.pairwise_cons.1 hB).1 b hb)).ne heq
  | case5 x as y bs hge hle ih =>
    have hxy : keyA x = keyB y := le_antisymm (not_lt.1 hge) (not_lt.1 hle)
    rw [List.pairwise_cons] at hA hB
    rw [List.mem_cons, ih hA.2 hB.2, List.mem_cons, List.mem_cons, Prod.mk.injEq]
    constructor
    · rintro (⟨rfl, rfl⟩ | ⟨ha, hb, heq⟩)
      · exact ⟨Or.inl rfl, Or.inl rfl, hxy⟩
      · exact ⟨Or.inr ha, Or.inr hb, heq⟩
    · rintro ⟨rfl | ha, rfl | hb, heq⟩
      · exact Or.inl ⟨rfl, rfl⟩
      · exact absurd (hxy.symm.trans heq) (hB.1 b hb).ne
      · exact absurd (heq.trans hxy.symm) (hA.1 a ha).ne'
      · exact Or.inr ⟨ha, hb, heq⟩

theorem pairwise_mergeJoin (hA : as.Pairwise fun x y => keyA x < keyA y) (hB : bs.Pairwise fun x y => keyB x < keyB y) :
    (mergeJoin keyA keyB as bs).Pairwise fun p q => keyA p.1 < keyA q.1 := by
  fun_induction mergeJoin keyA keyB as bs with
  | case1 => exact List.Pairwise.nil
  | case2 => exact List.Pairwise.nil
  | case3 x as y bs _ ih => exact ih hA hB.of_cons
  | case4 x as y bs _ _ ih => exact ih hA.of_cons hB
  | case5 x as y bs _ _ ih =>
    refine List.pairwise_cons.2 ⟨fun p hp => ?_, ih hA.of_cons hB.of_cons⟩
    exact (List.pairwise_cons.1 hA).1 p.1 ((mem_mergeJoin hA.of_cons hB.of_cons).1 hp).1

theorem eq_of_mem_iff {l l' : List (α × β)} (hl : l.Pairwise fun p q => keyA p.1 < keyA q.1)
    (hl' : l'.Pairwise fun p q => keyA p.1 < keyA q.1) (h : ∀ p, p ∈ l ↔ p ∈ l') : l = l' := by
  have hasymm : ∀ p q : α × β, p ∈ l → q ∈ l' → keyA p.1 < keyA q.1 → keyA q.1 < keyA p.1 → p = q :=
    fun p q _ _ hpq hqp => absurd hpq hqp.not_gt
  refine List.Perm.eq_of_pairwise hasymm hl hl' ?_
  rw [List.perm_ext_iff_of_nodup (hl.imp fun hlt heq => hlt.ne (by rw [heq])) (hl'.imp fun hlt heq => hlt.ne (by rw [heq]))]
  exact h

end MergeJoin

end SortedLists
